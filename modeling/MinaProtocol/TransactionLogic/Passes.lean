import MinaProtocol.TransactionLogic.Trace

/-!
# TransactionLogic.Passes

What the two passes of a zkApp command do to a ledger: the first has the effect of the fee
payer (`FirstPassed`), the second those of all other account updates, or none
(`applyZkappCommandSecondPass_ok`).
-/

namespace MinaProtocol.TransactionLogic

open Std

/-! ### The first pass -/

/-- The full commitment of a command. -/
def fullCommitment (digests : Digests) (command : ZkappCommand) : Nat :=
  digests.completeCommitment (digests.forestHash command.accountUpdates) (digests.memoHash command.memo)
    (digests.accountUpdateDigest (.ofFeePayer command.feePayer))

/-- The environment of the account updates of a command. -/
def commandEnv (config : Config) (globalSlot : GlobalSlot) (stateView : ProtocolStateView)
    (command : ZkappCommand) : Env := ⟨globalSlot, stateView, fullCommitment config.digests command⟩

theorem getNextAccountUpdate_start (deriveTokenId : AccountId → Nat) (command : ZkappCommand) :
    getNextAccountUpdate deriveTokenId (startFrame command.allAccountUpdates) []
      = some ⟨.ofFeePayer command.feePayer, TokenId.default, .nil, [],
          ⟨TokenId.default, TokenId.default, command.accountUpdates⟩⟩ := by
  unfold ZkappCommand.allAccountUpdates startFrame
  cases command.accountUpdates with
  | nil => rfl
  | cons u calls rest => rfl

/-- What the first pass leaves for the second. -/
structure FirstPassed (config : Config) (globalSlot : GlobalSlot) (stateView : ProtocolStateView)
    (ledger : Ledger) (command : ZkappCommand) (ledger' : Ledger) (c : ZkappCommandPartiallyApplied) :
    Prop where
  command_eq : c.command = command
  originalFirstPassAccountStates :
    c.originalFirstPassAccountStates = [(command.feePayerId, ledger[command.feePayerId]?)]
  feePayer : ∃ w', HasEffect config (commandEnv config globalSlot stateView command) true 0
      (.ofFeePayer command.feePayer) TokenId.default ⟨ledger, Signed.ofUnsigned 0, Signed.ofUnsigned 0⟩ w'
    ∧ ledger' = w'.ledger
  stackFrame : c.localState.stackFrame = ⟨TokenId.default, TokenId.default, command.accountUpdates⟩
  callStack : c.localState.callStack = []
  noFailure : FailureCollection.isEmpty c.localState.failureStatusTbl = true
  env : command.accountUpdates ≠ .nil →
    envOf c.globalState c.localState = commandEnv config globalSlot stateView command
  accountUpdateIndex : command.accountUpdates ≠ .nil → c.localState.accountUpdateIndex = 1
  agrees : c.localState.Agrees
  excess : command.accountUpdates ≠ .nil → c.localState.excess = Signed.ofUnsigned 0

variable {config : Config} {ledger' : Ledger}

section FirstPass

variable {globalSlot : GlobalSlot} {stateView : ProtocolStateView} {feeExcess supplyIncrease : Signed}
  {ledger : Ledger} {command : ZkappCommand} {c : ZkappCommandPartiallyApplied}

variable (h : applyZkappCommandFirstPass config globalSlot stateView feeExcess supplyIncrease ledger command = .ok (ledger', c))

include h in
theorem applyZkappCommandFirstPass_call : ∃ supply g l, beforeCommit config (some (startData config.digests command))
        (initialState globalSlot stateView feeExcess supplyIncrease ledger).1
        (initialState globalSlot stateView feeExcess supplyIncrease ledger).2 = .ok (supply, g, l)
      ∧ ledger' = g.firstPassLedger
      ∧ c = ⟨command, [(command.feePayerId, ledger[command.feePayerId]?)], (commit supply g l).1,
        (commit supply g l).2⟩ := by
  unfold applyZkappCommandFirstPass applyZkappCommandFirstPassAux start at h
  simp only [Outcome.bind_eq_ok, Outcome.tryWith_eq_ok] at h
  obtain ⟨⟨_, _, _⟩, ⟨⟨g', l'⟩, happly, hpartial⟩, h⟩ := h
  cases h
  cases hpartial
  obtain ⟨supply, g, l, hbefore, hcommit⟩ := apply_eq_ok.1 happly
  cases hcommit
  exact ⟨supply, g, l, hbefore, rfl, rfl⟩

theorem feePayer_tokenId (digests : Digests) (command : ZkappCommand) :
    ∀ next, getNextAccountUpdate digests.deriveTokenId
      (startFrame (startData digests command).accountUpdates) [] = some next →
      next.accountUpdate.tokenId = TokenId.default := by
  intro next hnext
  rw [startData, getNextAccountUpdate_start] at hnext
  obtain rfl := Option.some.inj hnext
  rfl

include h in
theorem applyZkappCommandFirstPass_ok : FirstPassed config globalSlot stateView ledger command ledger' c := by
  obtain ⟨supply, g, l, hbefore, rfl, rfl⟩ := applyZkappCommandFirstPass_call h
  obtain ⟨next, hnext, hframe, hstack, hindex, hftc, -, hslot, hview, hagrees, hsuccess, hexcess, -, w',
    heffect, -, hfirst⟩ := beforeCommit_start hbefore rfl rfl (feePayer_tokenId config.digests command)
  rw [startData, getNextAccountUpdate_start] at hnext
  obtain rfl := Option.some.inj hnext
  have hlast : l.isLastAccountUpdate = true ↔ command.accountUpdates = .nil := by
    rw [LocalState.isLastAccountUpdate_iff, hframe]
  have hnoFailure : FailureCollection.isEmpty l.failureStatusTbl = true := by
    rw [← hagrees.1, hsuccess]
  have hnotlast : command.accountUpdates ≠ .nil → l.isLastAccountUpdate = false := by
    intro hne
    cases hb : l.isLastAccountUpdate with
    | true => exact absurd (hlast.1 hb) hne
    | false => rfl
  have hcommit : command.accountUpdates ≠ .nil → commit supply g l
      = (g, { l with accountUpdateIndex := l.accountUpdateIndex + 1 }) := by
    intro hne
    exact commit_of_not_last (hnotlast hne)
  exact
    { command_eq := rfl
      originalFirstPassAccountStates := rfl
      feePayer := ⟨w', heffect, hfirst⟩
      stackFrame := hframe
      callStack := hstack
      noFailure := hnoFailure
      env := fun hne => by
        rw [hcommit hne]
        change envOf g l = _
        unfold envOf
        rw [hslot, hview, hftc (hnotlast hne)]
        rfl
      accountUpdateIndex := fun hne => by
        rw [hcommit hne]
        dsimp only
        rw [hindex]
        rfl
      agrees := by
        refine ⟨?_, hagrees.2⟩
        change (if l.isLastAccountUpdate then true else l.success) = FailureCollection.isEmpty l.failureStatusTbl
        rw [hsuccess, hnoFailure, ite_self]
      excess := fun hne => by
        rw [hcommit hne]
        exact hexcess }

end FirstPass

/-! ### The second pass -/

variable (ledger : Ledger)

/-- The accounts of the command that the ledger does not have. -/
def accountsNotIn (c : ZkappCommandPartiallyApplied) : List AccountId :=
  (originalAccountStates ledger c).toList.filterMap fun (acctId, acct) =>
    if acct.isNone then some acctId else none

variable {c : ZkappCommandPartiallyApplied}

theorem finishSecondPass_ok {ledger ledger' : Ledger} {tbl : FailureCollection} {applied : ZkappCommandApplied}
    (h : finishSecondPass ledger c tbl ledger' = .ok applied) :
    applied.command = c.command ∧ (applied.status = .applied ↔ FailureCollection.isEmpty tbl = true)
      ∧ applied.newAccounts = ((accountsNotIn ledger c).filter fun acctId => ledger'[acctId]?.isSome)
      ∧ (applied.status ≠ .applied → applied.newAccounts = []) := by
  unfold finishSecondPass at h
  dsimp only at h
  rw [FailureCollection.isEmpty_reverse] at h
  cases hempty : FailureCollection.isEmpty tbl with
  | true =>
    rw [hempty] at h
    cases h
    exact ⟨rfl, ⟨fun _ => rfl, fun _ => rfl⟩, rfl, fun hne => absurd rfl hne⟩
  | false =>
    rw [hempty] at h
    simp only [Bool.false_eq_true, if_false, Outcome.bind_eq_ok, Outcome.okIfTrue_eq_ok,
      Outcome.pure_eq, Outcome.ok.injEq, Bool.and_eq_true] at h
    obtain ⟨-, ⟨hnil, -⟩, rfl⟩ := h
    exact ⟨rfl, ⟨nofun, nofun⟩, rfl, fun _ => List.isEmpty_iff.1 hnil⟩

theorem secondPassStart_of_nil (h : c.localState.stackFrame.calls = .nil) :
    secondPassStart ledger c = ({ c.globalState with secondPassLedger := ledger }, c.localState) := by
  unfold secondPassStart
  dsimp only
  rw [if_pos (CallForest.isEmpty_iff.2 h)]

theorem secondPassStart_of_ne_nil (h : c.localState.stackFrame.calls ≠ .nil) : secondPassStart ledger c
      = ({ c.globalState with secondPassLedger := ledger }, { c.localState with ledger }) := by
  unfold secondPassStart
  dsimp only
  rw [if_neg fun hempty => h (CallForest.isEmpty_iff.1 hempty)]

theorem secondPassStart_agrees (h : c.localState.Agrees) : (secondPassStart ledger c).2.Agrees := by
  unfold secondPassStart
  dsimp only
  split
  · exact h
  · exact h

theorem secondPassStart_workingLedger (c : ZkappCommandPartiallyApplied) :
    workingLedger (secondPassStart ledger c) = ledger := by
  by_cases hnil : c.localState.stackFrame.calls = .nil
  · rw [secondPassStart_of_nil ledger hnil]
    exact if_pos (LocalState.isLastAccountUpdate_iff.2 hnil)
  · rw [secondPassStart_of_ne_nil ledger hnil]
    exact if_neg fun h => hnil (LocalState.isLastAccountUpdate_iff.1 h)

theorem secondPassStart_remaining {config : Config} {globalSlot : GlobalSlot} {stateView : ProtocolStateView}
    {ledger₀ ledger₁ : Ledger} {command : ZkappCommand}
    (hfirst : FirstPassed config globalSlot stateView ledger₀ command ledger₁ c) (ledger : Ledger) :
    Remaining config.digests.deriveTokenId (secondPassStart ledger c).2.stackFrame
      (secondPassStart ledger c).2.callStack
      (visits config.digests.deriveTokenId none command.accountUpdates) := by
  by_cases hnil : command.accountUpdates = .nil
  · rw [secondPassStart_of_nil ledger (by rw [hfirst.stackFrame, hnil])]
    dsimp only
    rw [hfirst.stackFrame, hfirst.callStack, hnil]
    exact .inr ⟨rfl, rfl, rfl⟩
  · rw [secondPassStart_of_ne_nil ledger (by rw [hfirst.stackFrame]; exact hnil)]
    dsimp only
    rw [hfirst.stackFrame, hfirst.callStack]
    exact remaining_start config.digests.deriveTokenId hnil

section SecondPass

variable {B : Type} {f : B → GlobalState × LocalState → B} {init acc : B} {ledger : Ledger}
  {c : ZkappCommandPartiallyApplied} {applied : ZkappCommandApplied}

/-- **The second pass returns what its trace says.** -/
theorem applyZkappCommandSecondPassAux_eq_ok :
    applyZkappCommandSecondPassAux config f init ledger c = .ok (ledger', applied, acc) ↔
      ∃ states, Trace config (secondPassStart ledger c) states
        ∧ acc = states.foldl f (f init (secondPassStart ledger c))
        ∧ ledger' = (lastState (secondPassStart ledger c) states).1.secondPassLedger
        ∧ finishSecondPass ledger c (lastState (secondPassStart ledger c) states).2.failureStatusTbl ledger'
          = .ok applied := by
  unfold applyZkappCommandSecondPassAux
  simp only [Outcome.bind_eq_ok, stepAll_eq_ok, Outcome.pure_eq, Outcome.ok.injEq, Prod.mk.injEq]
  constructor
  · rintro ⟨_, ⟨states, htrace, -, rfl⟩, _, hfinish, rfl, rfl, rfl⟩
    exact ⟨states, htrace, rfl, rfl, hfinish⟩
  · rintro ⟨states, htrace, rfl, rfl, hfinish⟩
    exact ⟨_, ⟨states, htrace, htrace.length_le, rfl⟩, _, hfinish, rfl, rfl, rfl⟩

theorem applyZkappCommandSecondPass_eq_ok : applyZkappCommandSecondPass config ledger c = .ok (ledger', applied) ↔
      ∃ states, Trace config (secondPassStart ledger c) states
        ∧ ledger' = (lastState (secondPassStart ledger c) states).1.secondPassLedger
        ∧ finishSecondPass ledger c (lastState (secondPassStart ledger c) states).2.failureStatusTbl ledger'
          = .ok applied := by
  unfold applyZkappCommandSecondPass
  rw [Outcome.bind_eq_ok]
  constructor
  · rintro ⟨⟨_, _, _⟩, h, hresult⟩
    cases hresult
    obtain ⟨states, htrace, -, hledger, hfinish⟩ := applyZkappCommandSecondPassAux_eq_ok.1 h
    exact ⟨states, htrace, hledger, hfinish⟩
  · rintro ⟨states, htrace, hledger, hfinish⟩
    exact ⟨(ledger', applied, _), applyZkappCommandSecondPassAux_eq_ok.2 ⟨states, htrace, rfl, hledger, hfinish⟩, rfl⟩

/-- **What the second pass does**, on whatever ledger: an applied command has the effects of
its account updates, and a failed one has none. -/
theorem applyZkappCommandSecondPass_ok {globalSlot : GlobalSlot} {stateView : ProtocolStateView}
    {ledger₀ ledger₁ : Ledger} {command : ZkappCommand}
    (hfirst : FirstPassed config globalSlot stateView ledger₀ command ledger₁ c)
    (h : applyZkappCommandSecondPass config ledger c = .ok (ledger', applied)) :
    (applied.status = .applied → ∃ supplyIncrease w', Effects config (commandEnv config globalSlot stateView command) 1
          (visits config.digests.deriveTokenId none command.accountUpdates)
          ⟨ledger, Signed.ofUnsigned 0, supplyIncrease⟩ w' ∧ w'.excess.toInt = 0 ∧ ledger' = w'.ledger)
      ∧ (applied.status ≠ .applied → ledger' = ledger ∧ applied.newAccounts = []) := by
  obtain ⟨states, htrace, rfl, hfinish⟩ := applyZkappCommandSecondPass_eq_ok.1 h
  obtain ⟨-, hstatus, -, hnew⟩ := finishSecondPass_ok hfinish
  by_cases hnil : command.accountUpdates = .nil
  · -- the fee payer was all of it
    have hstart := secondPassStart_of_nil ledger (c := c) (by rw [hfirst.stackFrame, hnil])
    rw [hstart] at htrace hstatus ⊢
    cases htrace with
    | step hne _ _ =>
      refine absurd ?_ hne
      dsimp only
      rw [hfirst.stackFrame, hnil]
    | done _ =>
      have happlied := hstatus.2 hfirst.noFailure
      refine ⟨fun _ => ⟨Signed.ofUnsigned 0, ⟨ledger, Signed.ofUnsigned 0, Signed.ofUnsigned 0⟩, ?_,
        Signed.toInt_ofUnsigned 0, rfl⟩, fun hne => absurd happlied hne⟩
      rw [hnil]
      exact .nil
  · have hstart := secondPassStart_of_ne_nil ledger (c := c) (by rw [hfirst.stackFrame]; exact hnil)
    rw [hstart] at htrace hstatus ⊢
    have hrem := secondPassStart_remaining hfirst ledger
    rw [hstart] at hrem
    obtain ⟨htrue, hfalse⟩ := htrace.effects hrem hfirst.agrees (visits_ne_nil hnil)
    constructor
    · intro happlied
      obtain ⟨w', heffects, hzero, hledger⟩ := htrue (hstatus.1 happlied)
      have henv : envOf { c.globalState with secondPassLedger := ledger } { c.localState with ledger }
          = commandEnv config globalSlot stateView command := hfirst.env hnil
      rw [henv, hfirst.accountUpdateIndex hnil, hfirst.excess hnil] at heffects
      exact ⟨_, w', heffects, hzero, hledger⟩
    · intro hfailed
      refine ⟨hfalse ?_, hnew hfailed⟩
      cases hb : FailureCollection.isEmpty _ with
      | true => exact absurd (hstatus.2 hb) hfailed
      | false => rfl

end SecondPass

end MinaProtocol.TransactionLogic
