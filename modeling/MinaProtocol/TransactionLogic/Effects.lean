import MinaProtocol.TransactionLogic.UpdateSpec
import MinaProtocol.TransactionLogic.ZkappCommand

/-!
# TransactionLogic.Effects

The effect of one account update on the ledger, and that `apply` has it. The commit of a zkApp
command reads the flag `success`, while its status is computed from the table of failures:
`Agrees` says that the two are the same, and every check keeps it.
-/

namespace MinaProtocol.TransactionLogic

open Std

namespace LocalState

/-! ### The flag and the table -/

/-- The flag is set exactly when the table has no failure, and a failure has a place. -/
def Agrees (t : LocalState) : Prop :=
  t.success = FailureCollection.isEmpty t.failureStatusTbl ∧ t.failureStatusTbl ≠ []

section Fields

variable (t : LocalState) (failure : Failure) (b : Bool)

@[simp] theorem addCheck_success : (t.addCheck failure b).success = (t.success && b) := rfl

end Fields

variable {t : LocalState}

theorem isLastAccountUpdate_iff : t.isLastAccountUpdate = true ↔ t.stackFrame.calls = .nil := CallForest.isEmpty_iff

theorem addCheck_true (t : LocalState) (failure : Failure) : t.addCheck failure true = t := by
  obtain ⟨frame, stack, tc, ftc, excess, supply, ledger, success, index, tbl, willSucceed⟩ := t
  unfold addCheck
  rw [Bool.and_true]
  cases tbl <;> rfl

theorem Agrees.addCheck (h : t.Agrees) (failure : Failure) (b : Bool) : (t.addCheck failure b).Agrees := by
  cases b with
  | true =>
    rw [addCheck_true]
    exact h
  | false =>
    obtain ⟨-, hne⟩ := h
    unfold LocalState.addCheck Agrees
    cases htbl : t.failureStatusTbl with
    | nil => exact absurd htbl hne
    | cons hd tl => simp [FailureCollection.isEmpty]

theorem Agrees.addChecks (h : t.Agrees) (checks : List (Failure × Bool)) : (t.addChecks checks).Agrees := by
  induction checks generalizing t with
  | nil => exact h
  | cons c rest ih => exact ih (h.addCheck c.1 c.2)

theorem agrees_addNewFailureStatusBucket (h : t.success = FailureCollection.isEmpty t.failureStatusTbl) :
    t.addNewFailureStatusBucket.Agrees := ⟨h, List.cons_ne_nil _ _⟩

theorem addChecks_eq (t : LocalState) (checks : List (Failure × Bool)) : ∃ tbl, t.addChecks checks
      = { t with failureStatusTbl := tbl, success := t.success && checks.all Prod.snd } := by
  induction checks generalizing t with
  | nil => exact ⟨t.failureStatusTbl, by simp [addChecks]⟩
  | cons c rest ih =>
    obtain ⟨tbl, h⟩ := ih (t.addCheck c.1 c.2)
    refine ⟨tbl, ?_⟩
    change (t.addCheck c.1 c.2).addChecks rest = _
    rw [h, List.all_cons, addCheck_success, Bool.and_assoc]
    rfl

end LocalState

/-! ### The effect of an account update -/

/-- What the account updates of a zkApp command have in common. -/
structure Env where
  globalSlot : GlobalSlot
  protocolState : ProtocolStateView
  fullTransactionCommitment : Nat

/-- What an account update works on. -/
structure Working where
  ledger : Ledger
  excess : Signed
  supplyIncrease : Signed

/-- What the account update with this place in the command reads besides its account. -/
def contextOf (env : Env) (isStart : Bool) (index : UInt32) (location : Location) : UpdateContext where
  isStart
  accountIsNew := location = .new
  globalSlot := env.globalSlot
  protocolState := env.protocolState
  fullTransactionCommitment := env.fullTransactionCommitment
  accountUpdateIndex := index

/-- **The account update succeeds**, and this is what it does: its account is written, it
pays for a new account, and its change of balance goes to the excess. -/
structure Effect (config : Config) (env : Env) (isStart : Bool) (index : UInt32) (u : AccountUpdate)
    (callerId : Nat) (w w' : Working) (location : Location) (before : Account) (after : Updated) : Prop where
  read : getWithLocation config.digests w.ledger u.accountId = (location, before)
  identifier : before.identifier = u.accountId
  caller : u.tokenId = TokenId.default ∨ u.tokenId = callerId
  passes : (updateAccount config (contextOf env isStart index location) u
    ⟨before, w.excess, w.supplyIncrease⟩).Passes after
  ledger : w'.ledger = w.ledger.insert u.accountId after.account
  excess : w'.excess.toInt
    = after.excess.toInt - (if u.tokenId = TokenId.default then u.balanceChange.toInt else 0)
  supplyIncrease : w'.supplyIncrease = after.supplyIncrease

theorem Effect.updatedBy {config : Config} {env : Env} {isStart : Bool} {index : UInt32} {u : AccountUpdate}
    {callerId : Nat} {w w' : Working} {location : Location} {before : Account} {after : Updated}
    (h : Effect config env isStart index u callerId w w' location before after) :
    UpdatedBy config (contextOf env isStart index location) u ⟨before, w.excess, w.supplyIncrease⟩ after :=
  updateAccount_passes h.passes

/-- The effect, whatever the account. -/
def HasEffect (config : Config) (env : Env) (isStart : Bool) (index : UInt32) (u : AccountUpdate)
    (callerId : Nat) (w w' : Working) : Prop :=
  ∃ location before after, Effect config env isStart index u callerId w w' location before after

/-! ### The parts of `apply` -/

variable {config : Config} {globalState globalState' : GlobalState} {localState localState' : LocalState}

section Parts

variable {isStart : Bool} {popped : Popped} {a : Account} {u : AccountUpdate}

theorem popAccountUpdate_start {startData : StartData}
    (h : popAccountUpdate config (some startData) globalState localState = .ok popped) :
    ∃ next, getNextAccountUpdate config.digests.deriveTokenId (startFrame startData.accountUpdates) []
        = some next
      ∧ popped.accountUpdate = next.accountUpdate ∧ popped.callerId = next.callerId
      ∧ getWithLocation config.digests globalState.firstPassLedger next.accountUpdate.accountId
        = (popped.location, popped.account)
      ∧ popped.localState = { localState.addCheck .tokenOwnerNotCaller
          (next.accountUpdate.tokenId = TokenId.default || next.accountUpdate.tokenId = next.callerId) with
          stackFrame := next.newFrame
          callStack := next.newCallStack
          ledger := globalState.firstPassLedger
          willSucceed := startData.willSucceed
          transactionCommitment := config.digests.forestHash next.newFrame.calls
          fullTransactionCommitment := config.digests.completeCommitment
            (config.digests.forestHash next.newFrame.calls) startData.memoHash
            (config.digests.accountUpdateDigest next.accountUpdate) } := by
  unfold popAccountUpdate at h
  simp only [Outcome.bind_eq_ok, Outcome.assert_eq_ok, Outcome.ofOption_eq_ok, Outcome.pure_eq, Outcome.ok.injEq] at h
  obtain ⟨-, -, next, hnext, rfl⟩ := h
  exact ⟨next, hnext, rfl, rfl, rfl, rfl⟩

theorem popAccountUpdate_step (h : popAccountUpdate config none globalState localState = .ok popped) :
    ∃ next, getNextAccountUpdate config.digests.deriveTokenId localState.stackFrame localState.callStack
        = some next
      ∧ popped.accountUpdate = next.accountUpdate ∧ popped.callerId = next.callerId
      ∧ getWithLocation config.digests localState.ledger next.accountUpdate.accountId
        = (popped.location, popped.account)
      ∧ popped.localState = { localState.addCheck .tokenOwnerNotCaller
          (next.accountUpdate.tokenId = TokenId.default || next.accountUpdate.tokenId = next.callerId) with
          stackFrame := next.newFrame
          callStack := next.newCallStack } := by
  unfold popAccountUpdate at h
  simp only [Outcome.bind_eq_ok, Outcome.assert_eq_ok, Outcome.ofOption_eq_ok, Outcome.pure_eq, Outcome.ok.injEq] at h
  obtain ⟨-, -, next, hnext, rfl⟩ := h
  exact ⟨next, hnext, rfl, rfl, rfl, rfl⟩

/-- The environment that the states give. -/
def envOf (globalState : GlobalState) (localState : LocalState) : Env :=
  ⟨globalState.blockGlobalSlot, globalState.protocolState, localState.fullTransactionCommitment⟩

variable (h : runAccountUpdate config isStart globalState popped = .ok (a, localState'))

include h in
theorem runAccountUpdate_ok : ∃ after checks, updateAccount config
        (contextOf (envOf globalState popped.localState) isStart popped.localState.accountUpdateIndex
          popped.location) popped.accountUpdate
        ⟨popped.account, popped.localState.excess, popped.localState.supplyIncrease⟩ = some (after, checks)
      ∧ popped.account.identifier = popped.accountUpdate.accountId ∧ a = after.account
      ∧ localState' = { popped.localState.addNewFailureStatusBucket.addChecks checks with
          excess := after.excess
          supplyIncrease := after.supplyIncrease } := by
  unfold runAccountUpdate at h
  simp only [Outcome.bind_eq_ok, Outcome.assert_eq_ok, Outcome.pure_eq, Outcome.ok.injEq, decide_eq_true_eq] at h
  obtain ⟨-, hpk, -, htoken, ⟨after, checks⟩, hupdate, hresult⟩ := h
  obtain ⟨rfl, rfl⟩ := Prod.mk.inj hresult
  refine ⟨after, checks, Outcome.ofOption_eq_ok.1 hupdate, ?_, rfl, rfl⟩
  unfold Account.identifier AccountUpdate.accountId
  rw [hpk, htoken]

theorem addLocalDelta_ok (h : addLocalDelta isStart u localState = .ok localState') :
    ∃ excess b, localState' = ({ localState with excess }).addCheck .localExcessOverflow b
      ∧ (b = true → excess.toInt
        = localState.excess.toInt - (if u.tokenId = TokenId.default then u.balanceChange.toInt else 0)) := by
  unfold addLocalDelta at h
  simp only [Outcome.bind_eq_ok, Outcome.assert_eq_ok, Outcome.pure_eq, Outcome.ok.injEq] at h
  obtain ⟨-, -, rfl⟩ := h
  refine ⟨_, _, rfl, fun hb => ?_⟩
  by_cases htoken : u.tokenId = TokenId.default
  · simp only [htoken, decide_true, Bool.true_and, Bool.not_eq_true', if_true] at hb ⊢
    rw [Signed.toInt_addFlagged hb, Signed.toInt_negate, Int.sub_eq_add_neg]
  · simp [htoken]

theorem setAccount_ok {location : Location} (h : setAccount isStart location a localState = .ok localState') :
    ∃ newLedger b tc ftc, setWithLocation localState.ledger location a = .ok newLedger
      ∧ localState' = ({ localState with
          ledger := newLedger
          transactionCommitment := tc
          fullTransactionCommitment := ftc }).addCheck .invalidFeeExcess b
      ∧ (localState.isLastAccountUpdate = false → ftc = localState.fullTransactionCommitment)
      ∧ (b = true → isStart = false → localState.isLastAccountUpdate = true → localState.excess.toInt = 0) := by
  unfold setAccount at h
  simp only [Outcome.bind_eq_ok, Outcome.pure_eq, Outcome.ok.injEq] at h
  obtain ⟨newLedger, hset, rfl⟩ := h
  refine ⟨newLedger, _, _, _, hset, rfl, fun hlast => ?_, fun hb hstart hlast => ?_⟩
  · rw [if_neg (by rw [hlast]; nofun)]
  · rw [hstart, hlast] at hb
    simpa [Signed.equal_iff] using hb

theorem settleExcess_eq (isStart : Bool) (globalState : GlobalState) (localState : LocalState) :
    ∃ feeExcess b, settleExcess isStart globalState localState
      = ({ globalState with feeExcess }, ({ localState with
          excess := if isStart || localState.isLastAccountUpdate then Signed.ofUnsigned 0
            else localState.excess }).addCheck .globalExcessOverflow b) :=
  ⟨_, _, rfl⟩

/-- What `settle` leaves. -/
structure Settled (isStart : Bool) (popped : Popped) (a : Account) (globalState : GlobalState)
    (localState : LocalState) (globalState' : GlobalState) (localState' : LocalState) : Prop where
  stackFrame : localState'.stackFrame = localState.stackFrame
  callStack : localState'.callStack = localState.callStack
  accountUpdateIndex : localState'.accountUpdateIndex = localState.accountUpdateIndex
  supplyIncrease : localState'.supplyIncrease = localState.supplyIncrease
  fullTransactionCommitment : localState.isLastAccountUpdate = false →
    localState'.fullTransactionCommitment = localState.fullTransactionCommitment
  secondPassLedger : globalState'.secondPassLedger = globalState.secondPassLedger
  blockGlobalSlot : globalState'.blockGlobalSlot = globalState.blockGlobalSlot
  protocolState : globalState'.protocolState = globalState.protocolState
  agrees : localState.Agrees → localState'.Agrees
  start : isStart = true → localState'.success = true
  ledger : ∃ newLedger, setWithLocation localState.ledger popped.location a = .ok newLedger
    ∧ globalState'.firstPassLedger = (if isStart then newLedger else globalState.firstPassLedger)
    ∧ localState'.ledger = if isStart then globalState.secondPassLedger else newLedger
  success : localState'.success = true → localState.success = true
  excess : localState'.success = true → ∃ excess : Signed,
    excess.toInt = localState.excess.toInt - (if popped.accountUpdate.tokenId = TokenId.default then
      popped.accountUpdate.balanceChange.toInt else 0)
    ∧ (isStart = false → localState.isLastAccountUpdate = true → excess.toInt = 0)
    ∧ localState'.excess
      = if isStart || localState.isLastAccountUpdate then Signed.ofUnsigned 0 else excess

theorem settle_ok {supply : Signed}
    (h : settle isStart popped a globalState localState = .ok (supply, globalState', localState')) :
    Settled isStart popped a globalState localState globalState' localState' := by
  unfold settle at h
  simp only [Outcome.bind_eq_ok] at h
  obtain ⟨l₁, hdelta, l₂, hset, h⟩ := h
  obtain ⟨excess, b₁, rfl, hexcess⟩ := addLocalDelta_ok hdelta
  obtain ⟨newLedger, b₂, tc, ftc, hledger, rfl, hftc, hsettled⟩ := setAccount_ok hset
  obtain ⟨feeExcess, b₃, hsettle⟩ := settleExcess_eq isStart globalState _
  rw [hsettle] at h
  simp only [Outcome.assert_eq_ok, Outcome.pure_eq, Outcome.ok.injEq] at h
  obtain ⟨-, hstart, -, -, h⟩ := h
  obtain ⟨-, h⟩ := Prod.mk.inj h
  obtain ⟨rfl, rfl⟩ := Prod.mk.inj h
  exact
    { stackFrame := rfl
      callStack := rfl
      accountUpdateIndex := rfl
      supplyIncrease := rfl
      fullTransactionCommitment := hftc
      secondPassLedger := rfl
      blockGlobalSlot := rfl
      protocolState := rfl
      agrees := fun hagrees => by
        have h₁ : ({ localState with excess }).Agrees := hagrees
        have h₂ := h₁.addCheck .localExcessOverflow b₁
        have h₃ : ({ ({ localState with excess }).addCheck .localExcessOverflow b₁ with
            ledger := newLedger
            transactionCommitment := tc
            fullTransactionCommitment := ftc }).Agrees := h₂
        exact ((h₃.addCheck .invalidFeeExcess b₂).addCheck .globalExcessOverflow b₃).addCheck
          .globalSupplyIncreaseOverflow _
      start := fun hs => by
        rw [hs] at hstart
        exact hstart
      ledger := ⟨newLedger, hledger, rfl, rfl⟩
      success := fun hsuccess => by
        simp only [LocalState.addCheck_success, Bool.and_eq_true] at hsuccess
        exact hsuccess.1.1.1.1
      excess := fun hsuccess => by
        simp only [LocalState.addCheck_success, Bool.and_eq_true] at hsuccess
        obtain ⟨⟨⟨⟨-, h₁⟩, h₂⟩, -⟩, -⟩ := hsuccess
        exact ⟨excess, hexcess h₁, hsettled h₂, rfl⟩ }

include h

theorem runAccountUpdate_fields : localState'.stackFrame = popped.localState.stackFrame
      ∧ localState'.callStack = popped.localState.callStack
      ∧ localState'.accountUpdateIndex = popped.localState.accountUpdateIndex
      ∧ localState'.fullTransactionCommitment = popped.localState.fullTransactionCommitment := by
  obtain ⟨after, checks, -, -, -, rfl⟩ := runAccountUpdate_ok h
  obtain ⟨tbl, hchecks⟩ := popped.localState.addNewFailureStatusBucket.addChecks_eq checks
  rw [hchecks]
  exact ⟨rfl, rfl, rfl, rfl⟩

theorem runAccountUpdate_agrees (hagrees : popped.localState.success
      = FailureCollection.isEmpty popped.localState.failureStatusTbl) : localState'.Agrees := by
  obtain ⟨after, checks, -, -, -, rfl⟩ := runAccountUpdate_ok h
  have h' := (LocalState.agrees_addNewFailureStatusBucket hagrees).addChecks checks
  exact h'

omit h

/-- **When the flag is still set after `settle`, the account update has its effect.** -/
theorem hasEffect_of_settled {localState₁ : LocalState}
    (hrun : runAccountUpdate config isStart globalState popped = .ok (a, localState₁))
    (hsettled : Settled isStart popped a globalState localState₁ globalState' localState')
    (hread : getWithLocation config.digests popped.localState.ledger popped.accountUpdate.accountId
      = (popped.location, popped.account))
    (hcaller : popped.localState.success = true →
      popped.accountUpdate.tokenId = TokenId.default ∨ popped.accountUpdate.tokenId = popped.callerId)
    (hsuccess : localState'.success = true) :
    popped.localState.success = true ∧ ∃ w',
      HasEffect config (envOf globalState popped.localState) isStart popped.localState.accountUpdateIndex
        popped.accountUpdate popped.callerId
        ⟨popped.localState.ledger, popped.localState.excess, popped.localState.supplyIncrease⟩ w'
      ∧ w'.supplyIncrease = localState'.supplyIncrease
      ∧ globalState'.firstPassLedger = (if isStart then w'.ledger else globalState.firstPassLedger)
      ∧ localState'.ledger = (if isStart then globalState.secondPassLedger else w'.ledger)
      ∧ (isStart = false → popped.localState.isLastAccountUpdate = true → w'.excess.toInt = 0)
      ∧ localState'.excess = (if isStart || popped.localState.isLastAccountUpdate then Signed.ofUnsigned 0
        else w'.excess) := by
  obtain ⟨after, checks, hupdate, hid, rfl, rfl⟩ := runAccountUpdate_ok hrun
  obtain ⟨tbl, hchecks⟩ := popped.localState.addNewFailureStatusBucket.addChecks_eq checks
  rw [hchecks] at hsettled
  have hflag := hsettled.success hsuccess
  obtain ⟨excess, hexcess, hlast, hexcess'⟩ := hsettled.excess hsuccess
  obtain ⟨newLedger, hset, hfirst, hledger⟩ := hsettled.ledger
  obtain ⟨hflag, hall⟩ := Bool.and_eq_true_iff.1 hflag
  have hpasses : (updateAccount config _ _ _).Passes after :=
    ⟨checks, hupdate, List.all_eq_true.1 hall⟩
  have hupdated := updateAccount_passes hpasses
  have hid' : after.account.identifier = popped.accountUpdate.accountId := by
    rw [← hid]
    unfold Account.identifier
    rw [hupdated.publicKey, hupdated.tokenId]
    exact congrArg _ (congrArg AccountId.tokenId hid).symm
  have hinsert : newLedger
      = popped.localState.ledger.insert popped.accountUpdate.accountId after.account := by
    have hset' : setWithLocation popped.localState.ledger
        (getWithLocation config.digests popped.localState.ledger popped.accountUpdate.accountId).1
        after.account = .ok newLedger := by
      rw [hread]
      exact hset
    exact setWithLocation_getWithLocation (fun _ => hid') hset'
  refine ⟨hflag, ⟨newLedger, excess, after.supplyIncrease⟩, ?_, hsettled.supplyIncrease.symm, hfirst, hledger,
    hlast, hexcess'⟩
  exact ⟨popped.location, popped.account, after, hread, hid, hcaller hflag, hpasses, hinsert, hexcess, rfl⟩

end Parts

/-! ### Whole calls -/

section Calls

variable {supply : Signed}

/-- **A step**: it runs the next account update. The flag and the table go on to agree, and
while the flag is set the account update has had its effect. -/
theorem beforeCommit_step
    (h : beforeCommit config none globalState localState = .ok (supply, globalState', localState')) :
    ∃ next, getNextAccountUpdate config.digests.deriveTokenId localState.stackFrame localState.callStack
        = some next
      ∧ localState'.stackFrame = next.newFrame ∧ localState'.callStack = next.newCallStack
      ∧ localState'.accountUpdateIndex = localState.accountUpdateIndex
      ∧ (localState'.isLastAccountUpdate = false →
        localState'.fullTransactionCommitment = localState.fullTransactionCommitment)
      ∧ globalState'.secondPassLedger = globalState.secondPassLedger
      ∧ globalState'.blockGlobalSlot = globalState.blockGlobalSlot
      ∧ globalState'.protocolState = globalState.protocolState
      ∧ (localState.Agrees → localState'.Agrees)
      ∧ (localState'.success = true → localState.success = true ∧ ∃ w',
        HasEffect config (envOf globalState localState) false localState.accountUpdateIndex
          next.accountUpdate next.callerId ⟨localState.ledger, localState.excess, localState.supplyIncrease⟩ w'
        ∧ w'.supplyIncrease = localState'.supplyIncrease ∧ localState'.ledger = w'.ledger
        ∧ (localState'.isLastAccountUpdate = true → w'.excess.toInt = 0)
        ∧ (localState'.isLastAccountUpdate = false → localState'.excess = w'.excess)) := by
  unfold beforeCommit at h
  simp only [Outcome.bind_eq_ok] at h
  obtain ⟨popped, hpop, ⟨a, l₁⟩, hrun, hsettle⟩ := h
  obtain ⟨next, hnext, hu, hc, hread, hl⟩ := popAccountUpdate_step hpop
  have hsettled := settle_ok hsettle
  obtain ⟨hframe, hstack, hindex, hftc⟩ := runAccountUpdate_fields hrun
  have hframe' : localState'.stackFrame = next.newFrame := by rw [hsettled.stackFrame, hframe, hl]
  have hlast : popped.localState.isLastAccountUpdate = localState'.isLastAccountUpdate := by
    unfold LocalState.isLastAccountUpdate
    rw [hframe', hl]
  have hlast₁ : l₁.isLastAccountUpdate = localState'.isLastAccountUpdate := by
    unfold LocalState.isLastAccountUpdate
    rw [hsettled.stackFrame]
  refine ⟨next, hnext, hframe', ?_, ?_, ?_, hsettled.secondPassLedger, hsettled.blockGlobalSlot,
    hsettled.protocolState, fun hagrees => ?_, ?_⟩
  · rw [hsettled.callStack, hstack, hl]
  · rw [hsettled.accountUpdateIndex, hindex, hl]
    rfl
  · intro hno
    rw [hsettled.fullTransactionCommitment (by rw [hlast₁, hno]), hftc, hl]
    rfl
  · refine hsettled.agrees (runAccountUpdate_agrees hrun ?_)
    rw [hl]
    exact (hagrees.addCheck _ _).1
  · intro hsuccess
    have hcaller : popped.localState.success = true →
        popped.accountUpdate.tokenId = TokenId.default ∨ popped.accountUpdate.tokenId = popped.callerId := by
      rw [hl, hu, hc]
      intro hflag
      simpa using (Bool.and_eq_true_iff.1 hflag).2
    have hread' : getWithLocation config.digests popped.localState.ledger popped.accountUpdate.accountId
        = (popped.location, popped.account) := by
      rw [hu, hl]
      exact hread
    obtain ⟨hflag, w', heffect, hsupply, -, hledger, hzero, hexcess⟩ :=
      hasEffect_of_settled hrun hsettled hread' hcaller hsuccess
    rw [hlast] at hzero hexcess
    rw [hu, hc, hl] at heffect
    rw [hl] at hflag
    refine ⟨(Bool.and_eq_true_iff.1 hflag).1, w', heffect, hsupply, hledger, hzero rfl, fun hno => ?_⟩
    rw [hexcess, hno]
    rfl

/-- **The start**: it runs the fee payer, which must succeed, and takes the ledger of the
second pass for what follows. -/
theorem beforeCommit_start {startData : StartData}
    (h : beforeCommit config (some startData) globalState localState = .ok (supply, globalState', localState'))
    (hsuccess : localState.success = true) (htbl : localState.failureStatusTbl = [])
    (hdefault : ∀ next, getNextAccountUpdate config.digests.deriveTokenId
      (startFrame startData.accountUpdates) [] = some next → next.accountUpdate.tokenId = TokenId.default) :
    ∃ next, getNextAccountUpdate config.digests.deriveTokenId (startFrame startData.accountUpdates) []
        = some next
      ∧ localState'.stackFrame = next.newFrame ∧ localState'.callStack = next.newCallStack
      ∧ localState'.accountUpdateIndex = localState.accountUpdateIndex
      ∧ (localState'.isLastAccountUpdate = false → localState'.fullTransactionCommitment
        = config.digests.completeCommitment (config.digests.forestHash next.newFrame.calls)
          startData.memoHash (config.digests.accountUpdateDigest next.accountUpdate))
      ∧ globalState'.secondPassLedger = globalState.secondPassLedger
      ∧ globalState'.blockGlobalSlot = globalState.blockGlobalSlot
      ∧ globalState'.protocolState = globalState.protocolState
      ∧ localState'.Agrees ∧ localState'.success = true
      ∧ localState'.excess = Signed.ofUnsigned 0 ∧ localState'.ledger = globalState.secondPassLedger
      ∧ ∃ w', HasEffect config ⟨globalState.blockGlobalSlot, globalState.protocolState,
            config.digests.completeCommitment (config.digests.forestHash next.newFrame.calls)
              startData.memoHash (config.digests.accountUpdateDigest next.accountUpdate)⟩ true
          localState.accountUpdateIndex next.accountUpdate next.callerId
          ⟨globalState.firstPassLedger, localState.excess, localState.supplyIncrease⟩ w'
        ∧ w'.supplyIncrease = localState'.supplyIncrease
        ∧ globalState'.firstPassLedger = w'.ledger := by
  unfold beforeCommit at h
  simp only [Outcome.bind_eq_ok] at h
  obtain ⟨popped, hpop, ⟨a, l₁⟩, hrun, hsettle⟩ := h
  obtain ⟨next, hnext, hu, hc, hread, hl⟩ := popAccountUpdate_start hpop
  have htoken := hdefault next hnext
  -- the check of the caller comes before the first bucket, so it must not fail
  rw [decide_eq_true htoken, Bool.true_or, LocalState.addCheck_true] at hl
  have hsettled := settle_ok hsettle
  obtain ⟨hframe, hstack, hindex, hftc⟩ := runAccountUpdate_fields hrun
  have hframe' : localState'.stackFrame = next.newFrame := by rw [hsettled.stackFrame, hframe, hl]
  have hlast₁ : l₁.isLastAccountUpdate = localState'.isLastAccountUpdate := by
    unfold LocalState.isLastAccountUpdate
    rw [hsettled.stackFrame]
  have hflag := hsettled.start rfl
  have hagrees : popped.localState.success
      = FailureCollection.isEmpty popped.localState.failureStatusTbl := by
    rw [hl]
    dsimp only
    rw [hsuccess, htbl]
    rfl
  have hread' : getWithLocation config.digests popped.localState.ledger popped.accountUpdate.accountId
      = (popped.location, popped.account) := by
    rw [hu, hl]
    exact hread
  obtain ⟨-, w', heffect, hsupply, hfirst, hledger, -, hexcess⟩ :=
    hasEffect_of_settled hrun hsettled hread' (fun _ => .inl (by rw [hu, htoken])) hflag
  rw [hu, hc, hl] at heffect
  refine ⟨next, hnext, hframe', ?_, ?_, ?_, hsettled.secondPassLedger, hsettled.blockGlobalSlot,
    hsettled.protocolState, hsettled.agrees (runAccountUpdate_agrees hrun hagrees), hflag, hexcess, hledger,
    w', heffect, hsupply, hfirst⟩
  · rw [hsettled.callStack, hstack, hl]
  · rw [hsettled.accountUpdateIndex, hindex, hl]
  · intro hno
    rw [hsettled.fullTransactionCommitment (by rw [hlast₁, hno]), hftc, hl]

end Calls

end MinaProtocol.TransactionLogic
