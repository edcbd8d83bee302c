import MinaProtocol.TransactionLogic.Passes

/-!
# TransactionLogic.AllOrNothing

A zkApp command is all or nothing after its fee (`zkapp_command_all_or_nothing`), and the
status says which.
-/

namespace MinaProtocol.TransactionLogic

open Std

theorem Trace.calls {config : Config} {state : GlobalState × LocalState}
    {states : List (GlobalState × LocalState)} (h : Trace config state states)
    (hagrees : state.2.Agrees) {k : Nat} {s s' : GlobalState × LocalState}
    (hs : (state :: states)[k]? = some s) (hs' : states[k]? = some s') :
    ∃ supply g l, beforeCommit config none s.1 s.2 = .ok (supply, g, l) ∧ s' = commit supply g l
      ∧ l.success = FailureCollection.isEmpty l.failureStatusTbl
      ∧ (l.isSuccessfulLastParty = true ↔ k + 1 = states.length
        ∧ FailureCollection.isEmpty (lastState state states).2.failureStatusTbl = true) := by
  induction h generalizing k with
  | done _ => cases hs'
  | @step state state' states hne hstep htrace ih =>
    obtain ⟨supply, g, l, hbefore, rfl⟩ := apply_eq_ok.1 hstep
    obtain ⟨-, -, -, -, -, -, -, -, -, hagrees', -⟩ := beforeCommit_step hbefore
    have hagrees := hagrees' hagrees
    have hlast : l.isLastAccountUpdate = true ↔ states = [] := by
      rw [LocalState.isLastAccountUpdate_iff]
      cases htrace with
      | done hnil => exact ⟨fun _ => rfl, fun _ => hnil⟩
      | step hne' _ _ => exact ⟨fun hnil => absurd hnil hne', nofun⟩
    rw [lastState_cons]
    cases k with
    | zero =>
      obtain rfl := Option.some.inj hs
      obtain rfl := Option.some.inj hs'
      refine ⟨supply, g, l, hbefore, rfl, hagrees.1, ?_⟩
      unfold LocalState.isSuccessfulLastParty
      rw [Bool.and_eq_true, hlast, hagrees.1]
      constructor
      · rintro ⟨rfl, hempty⟩
        exact ⟨rfl, hempty⟩
      · rintro ⟨hlen, hempty⟩
        obtain rfl : states = [] := List.length_eq_zero_iff.1 (Nat.succ_inj.1 hlen).symm
        exact ⟨rfl, hempty⟩
    | succ k =>
      have hnotlast : l.isLastAccountUpdate = false := by
        cases hb : l.isLastAccountUpdate with
        | true =>
          rw [hlast.1 hb] at hs'
          cases hs'
        | false => rfl
      have hcommit : (commit supply g l).2.Agrees := by
        rw [commit_of_not_last hnotlast]
        exact hagrees
      obtain ⟨supply', g', l', hbefore', hstate, hflag, hiff⟩ := ih hcommit hs hs'
      refine ⟨supply', g', l', hbefore', hstate, hflag, ?_⟩
      rw [hiff, List.length_cons, Nat.succ_inj]

/-- Collect the states of the passes. -/
def collectStates (acc : List (GlobalState × LocalState)) (state : GlobalState × LocalState) :
    List (GlobalState × LocalState) := acc ++ [state]

theorem foldl_collectStates (acc states : List (GlobalState × LocalState)) :
    states.foldl collectStates acc = acc ++ states := by
  induction states generalizing acc with
  | nil => exact (List.append_nil acc).symm
  | cons s rest ih =>
    rw [List.foldl_cons, ih, collectStates, List.append_assoc]
    rfl

theorem feePayer_existing {config : Config} {env : Env} {t : FeePayer} {callerId : Nat} {w w' : Working}
    {location : Location} {before : Account} {after : Updated}
    (h : Effect config env true 0 (.ofFeePayer t) callerId w w' location before after) :
    location = .existing ⟨t.publicKey, TokenId.default⟩
      ∧ w.ledger[(⟨t.publicKey, TokenId.default⟩ : AccountId)]? = some before := by
  have hread : getWithLocation config.digests w.ledger ⟨t.publicKey, TokenId.default⟩ = (location, before) :=
    h.read
  cases hget : w.ledger[(⟨t.publicKey, TokenId.default⟩ : AccountId)]? with
  | some account =>
    rw [getWithLocation_of_some hget] at hread
    cases hread
    exact ⟨rfl, rfl⟩
  | none =>
    rw [getWithLocation_of_none hget] at hread
    cases hread
    -- a new account would pay the fee for it too, from nothing
    have hbalance : (after.account.balance : Int) = ((0 : Nat) : Int) + -t.fee - config.accountCreationFee :=
      h.updatedBy.funds.balance
    have hpos := config.accountCreationFee_pos
    omega

/-- **A zkApp command is all or nothing after its fee.** The fee payer's account update alone
makes the ledger of the first pass. When the status is `applied` the ledger of the second pass
is what all other account updates make of it, one after the other in pre-order; when it is not,
it is that of the first pass. The flag that the commit reads and the table that the status is
computed from agree at every call, and a call of the second pass commits exactly when it is
the last and the status is `applied`. -/
theorem zkapp_command_all_or_nothing (config : Config) (globalSlot : GlobalSlot)
    (stateView : ProtocolStateView) (feeExcess supplyIncrease : Signed) (ledger ledger₁ ledger₂ : Ledger)
    (command : ZkappCommand) (c : ZkappCommandPartiallyApplied) (applied : ZkappCommandApplied)
    (h₁ : applyZkappCommandFirstPass config globalSlot stateView feeExcess supplyIncrease ledger command
      = .ok (ledger₁, c))
    (h₂ : applyZkappCommandSecondPass config ledger₁ c = .ok (ledger₂, applied)) :
    let env := commandEnv config globalSlot stateView command
    let order := visits config.digests.deriveTokenId none command.allAccountUpdates
    ∃ (feePayer feePayer' : Account) (w₁ : Working),
      ledger[command.feePayerId]? = some feePayer
        ∧ HasEffect config env true 0 (.ofFeePayer command.feePayer) TokenId.default
          ⟨ledger, Signed.ofUnsigned 0, Signed.ofUnsigned 0⟩ w₁
        ∧ ledger₁ = w₁.ledger ∧ ledger₁ = ledger.insert command.feePayerId feePayer'
        ∧ (applied.status = .applied → ∃ supplyIncrease w,
          Effects config env 1 order.tail ⟨ledger₁, Signed.ofUnsigned 0, supplyIncrease⟩ w
            ∧ w.excess.toInt = 0 ∧ ledger₂ = w.ledger)
        ∧ (applied.status ≠ .applied → ledger₂[command.feePayerId]? = some feePayer'
          ∧ (∀ id ≠ command.feePayerId, ledger₂[id]? = ledger[id]?) ∧ applied.newAccounts = [])
        ∧ (∃ supply g l, beforeCommit config (some (startData config.digests command))
            (initialState globalSlot stateView feeExcess supplyIncrease ledger).1
            (initialState globalSlot stateView feeExcess supplyIncrease ledger).2 = .ok (supply, g, l)
          ∧ l.success = true ∧ FailureCollection.isEmpty l.failureStatusTbl = true)
        ∧ ∃ states, applyZkappCommandSecondPassAux config collectStates [] ledger₁ c
            = .ok (ledger₂, applied, states)
          ∧ ∀ k s s', states[k]? = some s → states[k + 1]? = some s' → ∃ supply g l,
            beforeCommit config none s.1 s.2 = .ok (supply, g, l) ∧ s' = commit supply g l
              ∧ l.success = FailureCollection.isEmpty l.failureStatusTbl
              ∧ (l.isSuccessfulLastParty = true ↔ k + 2 = states.length ∧ applied.status = .applied) := by
  intro env order
  have hfirst := applyZkappCommandFirstPass_ok h₁
  obtain ⟨w₁, ⟨location, before, after, heffect⟩, rfl⟩ := hfirst.feePayer
  obtain ⟨-, hget⟩ := feePayer_existing heffect
  obtain ⟨happlied, hfailed⟩ := applyZkappCommandSecondPass_ok hfirst h₂
  refine ⟨before, after.account, w₁, hget, ⟨location, before, after, heffect⟩, rfl, heffect.ledger, happlied,
    fun hne => ?_, ?_, ?_⟩
  · obtain ⟨rfl, hnew⟩ := hfailed hne
    rw [heffect.ledger]
    refine ⟨ExtTreeMap.getElem?_insert_self, fun id hid => ?_, hnew⟩
    rw [ExtTreeMap.getElem?_insert, if_neg]
    intro heq
    exact hid (LawfulEqOrd.compare_eq_iff_eq.1 heq).symm
  · obtain ⟨supply, g, l, hbefore, -⟩ := applyZkappCommandFirstPass_call h₁
    obtain ⟨-, -, -, -, -, -, -, -, -, hagrees, hsuccess, -⟩ :=
      beforeCommit_start hbefore rfl rfl (feePayer_tokenId config.digests command)
    exact ⟨supply, g, l, hbefore, hsuccess, by rw [← hagrees.1, hsuccess]⟩
  · obtain ⟨states, htrace, hledger, hfinish⟩ := applyZkappCommandSecondPass_eq_ok.1 h₂
    obtain ⟨-, hstatus, -⟩ := finishSecondPass_ok hfinish
    refine ⟨secondPassStart w₁.ledger c :: states, ?_, fun k s s' hs hs' => ?_⟩
    · refine applyZkappCommandSecondPassAux_eq_ok.2 ⟨states, htrace, ?_, hledger, hfinish⟩
      rw [foldl_collectStates]
      rfl
    · obtain ⟨supply, g, l, hbefore, hcommit, hflag, hiff⟩ :=
        htrace.calls (secondPassStart_agrees w₁.ledger hfirst.agrees) hs hs'
      refine ⟨supply, g, l, hbefore, hcommit, hflag, ?_⟩
      rw [hiff, hstatus, List.length_cons, Nat.succ_inj]

/-! ### A transfer -/

/-- Hash functions that mix little. -/
def sampleDigests : Digests where
  emptyReceiptChainHash := 0
  emptyStateElement := 0
  deriveTokenId accountId := accountId.publicKey.x + 2
  consSignedCommandPayload _ hash := hash + 1
  consZkappCommandCommitment index commitment hash := index.toNat + commitment + hash
  pushEvents hash _ := hash
  memoHash _ := 0
  forestHash t := t.toList.length
  accountUpdateDigest u := u.publicKey.x
  completeCommitment commitment memoHash feePayerHash := commitment + memoHash + feePayerHash

theorem sampleFee_pos : 0 < 1000000000 := by decide

def sampleConfig : Config := ⟨sampleDigests, 1000000000, sampleFee_pos⟩

def sampleView : ProtocolStateView where
  snarkedLedgerHash := 0
  blockchainLength := 0
  minWindowDensity := 0
  totalCurrency := 0
  globalSlotSinceGenesis := 0
  stakingEpochData := ⟨⟨0, 0⟩, 0, 0, 0, 0⟩
  nextEpochData := ⟨⟨0, 0⟩, 0, 0, 0, 0⟩

/-- The account with this key for the default token. -/
def sampleId (x : Nat) : AccountId := ⟨⟨x, false⟩, TokenId.default⟩

/-- A ledger of two accounts. -/
def sampleLedger : Ledger :=
  ((∅ : Ledger).insert (sampleId 1) (Account.create sampleDigests (sampleId 1) 100)).insert (sampleId 2)
    (Account.create sampleDigests (sampleId 2) 100)

/-- An account update that changes a balance. -/
def sampleUpdate (x : Nat) (balanceChange : Signed) (authorizationKind : AuthorizationKind) : AccountUpdate :=
  { AccountUpdate.ofFeePayer ⟨⟨x, false⟩, 0, none, 0⟩ with
    balanceChange
    incrementNonce := false
    networkPrecondition := .accept
    accountPrecondition := { AccountPrecondition.ofNonce 0 with nonce := .ignore }
    implicitAccountCreationFee := false
    authorizationKind
    authorization := authorizationKind.toControlTag }

/-- The first account pays a fee of 5 and gives 10 to the second. -/
def sampleCommand : ZkappCommand where
  feePayer := ⟨⟨1, false⟩, 5, none, 0⟩
  accountUpdates :=
    .cons (sampleUpdate 1 ⟨10, .neg⟩ .signature) (.cons (sampleUpdate 2 ⟨10, .pos⟩ .noneGiven) .nil .nil) .nil
  memo := ""

theorem sampleCommand_applied : (do
      let (ledger, c) ← applyZkappCommandFirstPass sampleConfig 0 sampleView Signed.zero Signed.zero
        sampleLedger sampleCommand
      let (_, applied) ← applyZkappCommandSecondPass sampleConfig ledger c
      Outcome.assert (applied.status = .applied)) = Outcome.ok () := by
  decide +kernel

/-- The transfer is applied, and its effects are those of its two account updates. -/
theorem zkapp_command_all_or_nothing_transfer : ∃ ledger₁ c ledger₂ applied,
      applyZkappCommandFirstPass sampleConfig 0 sampleView Signed.zero Signed.zero sampleLedger sampleCommand
        = .ok (ledger₁, c)
        ∧ applyZkappCommandSecondPass sampleConfig ledger₁ c = .ok (ledger₂, applied)
        ∧ ∃ supplyIncrease w, Effects sampleConfig (commandEnv sampleConfig 0 sampleView sampleCommand) 1
          (visits sampleDigests.deriveTokenId none sampleCommand.accountUpdates)
          ⟨ledger₁, Signed.ofUnsigned 0, supplyIncrease⟩ w ∧ w.excess.toInt = 0 ∧ ledger₂ = w.ledger := by
  obtain ⟨⟨ledger₁, c⟩, h₁, hrest⟩ := Outcome.bind_eq_ok.1 sampleCommand_applied
  obtain ⟨⟨ledger₂, applied⟩, h₂, happlied⟩ := Outcome.bind_eq_ok.1 hrest
  refine ⟨ledger₁, c, ledger₂, applied, h₁, h₂, ?_⟩
  obtain ⟨_, _, _, -, -, -, -, heffects, -⟩ := zkapp_command_all_or_nothing sampleConfig 0 sampleView Signed.zero
    Signed.zero sampleLedger ledger₁ ledger₂ sampleCommand c applied h₁ h₂
  exact heffects (of_decide_eq_true (Outcome.assert_eq_ok.1 happlied))

end MinaProtocol.TransactionLogic
