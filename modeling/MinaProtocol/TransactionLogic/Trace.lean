import MinaProtocol.TransactionLogic.Effects

/-!
# TransactionLogic.Trace

The second pass as a trace of steps (`stepAll_eq_ok`), for which the fuel of `stepAll` is
always enough. While no check has failed each step is the effect of the account update that
it runs (`step_stepped`); after a failure the ledger is not committed.
-/

namespace MinaProtocol.TransactionLogic

/-! ### The second pass as a trace -/

/-- The states after the steps of `step_all`. -/
inductive Trace (config : Config) :
    GlobalState × LocalState → List (GlobalState × LocalState) → Prop where
  | done {state : GlobalState × LocalState} : state.2.stackFrame.calls = .nil → Trace config state []
  | step {state state' : GlobalState × LocalState} {states : List (GlobalState × LocalState)} :
      state.2.stackFrame.calls ≠ .nil → step config state = .ok state' → Trace config state' states →
      Trace config state (state' :: states)

/-- The last of the states. -/
def lastState (state : GlobalState × LocalState) (states : List (GlobalState × LocalState)) :
    GlobalState × LocalState := states.getLast?.getD state

theorem getLast?_cons_eq_lastState (state : GlobalState × LocalState) (states : List (GlobalState × LocalState)) :
    (state :: states).getLast? = some (lastState state states) := List.getLast?_cons

theorem lastState_cons (state state' : GlobalState × LocalState) (states : List (GlobalState × LocalState)) :
    lastState state (state' :: states) = lastState state' states := by
  unfold lastState
  cases states with
  | nil => rfl
  | cons s rest => rw [List.getLast?_cons_cons, List.getLast?_cons, Option.getD_some, Option.getD_some]

section StepAll

variable {B : Type} {config : Config} {f : B → GlobalState × LocalState → B}

/-- **`step_all` returns what the trace says.** -/
theorem stepAll_eq_ok {fuel : Nat} {acc : B} {state : GlobalState × LocalState}
    {r : B × FailureCollection × GlobalState} :
    stepAll config f fuel acc state = .ok r ↔ ∃ states, Trace config state states ∧ states.length ≤ fuel
      ∧ r = (states.foldl f acc, (lastState state states).2.failureStatusTbl, (lastState state states).1) := by
  induction fuel generalizing acc state with
  | zero =>
    obtain ⟨g, l⟩ := state
    unfold stepAll
    constructor
    · intro h
      split at h
      · rename_i hempty
        refine ⟨[], .done (CallForest.isEmpty_iff.1 hempty), le_rfl, ?_⟩
        exact (Outcome.ok.inj h).symm
      · cases h
    · rintro ⟨states, htrace, hlen, rfl⟩
      obtain rfl := List.length_eq_zero_iff.1 (Nat.le_zero.1 hlen)
      cases htrace with
      | done hempty =>
        rw [if_pos (CallForest.isEmpty_iff.2 hempty)]
        rfl
  | succ fuel ih =>
    obtain ⟨g, l⟩ := state
    unfold stepAll
    constructor
    · intro h
      split at h
      · rename_i hempty
        refine ⟨[], .done (CallForest.isEmpty_iff.1 hempty), Nat.zero_le _, ?_⟩
        exact (Outcome.ok.inj h).symm
      · rename_i hne
        obtain ⟨state', hstep, h⟩ := Outcome.bind_eq_ok.1 h
        obtain ⟨states, htrace, hlen, rfl⟩ := ih.1 h
        refine ⟨state' :: states, .step (fun hnil => hne (CallForest.isEmpty_iff.2 hnil))
          (Outcome.tryWith_eq_ok.1 hstep) htrace, Nat.succ_le_succ hlen, ?_⟩
        rw [lastState_cons, List.foldl_cons]
    · rintro ⟨states, htrace, hlen, rfl⟩
      cases htrace with
      | done hempty =>
        rw [if_pos (CallForest.isEmpty_iff.2 hempty)]
        rfl
      | @step _ state' states hne hstep htrace =>
        rw [if_neg (fun hempty => hne (CallForest.isEmpty_iff.1 hempty))]
        rw [Outcome.bind_eq_ok]
        refine ⟨state', Outcome.tryWith_eq_ok.2 hstep, ?_⟩
        rw [ih]
        refine ⟨states, htrace, Nat.le_of_succ_le_succ hlen, ?_⟩
        rw [lastState_cons, List.foldl_cons]

end StepAll

/-! ### The fuel is enough -/

theorem pending_popCallStack (stack : CallStack) : pending (popCallStack stack).1 (popCallStack stack).2
      = (stack.map fun f => f.calls.toList.length).sum := by
  cases stack with
  | nil => rfl
  | cons frame stack => rfl

theorem pending_getNextAccountUpdate {deriveTokenId : AccountId → Nat} {frame : StackFrame} {stack : CallStack}
    {next : NextAccountUpdate} (hne : frame.calls ≠ .nil)
    (h : getNextAccountUpdate deriveTokenId frame stack = some next) :
    pending next.newFrame next.newCallStack + 1 = pending frame stack := by
  obtain ⟨caller, callerCaller, calls⟩ := frame
  cases calls with
  | nil => exact absurd rfl hne
  | cons u children remainder =>
    obtain rfl := (Option.some.inj h).symm
    cases children with
    | nil =>
      cases remainder with
      | nil =>
        change pending (popCallStack stack).1 (popCallStack stack).2 + 1 = _
        rw [pending_popCallStack]
        simp [pending, CallForest.toList, Nat.add_comm]
      | cons u' calls' rest' =>
        simp [pending, CallForest.toList, CallForest.isEmpty]
        omega
    | cons w grandchildren siblings =>
      cases remainder with
      | nil =>
        simp [pending, CallForest.toList, CallForest.isEmpty]
        omega
      | cons u' calls' rest' =>
        simp [pending, CallForest.toList, CallForest.isEmpty]
        omega

variable {config : Config} {state : GlobalState × LocalState} {states : List (GlobalState × LocalState)}
  {rest : List Visit}
  {state' : GlobalState × LocalState} {globalState : GlobalState} {localState : LocalState} {supply : Signed} {v : Visit}

theorem apply_eq_ok {isStart : Option StartData} :
    apply config isStart state = .ok state' ↔ ∃ supply globalState localState,
      beforeCommit config isStart state.1 state.2 = .ok (supply, globalState, localState)
        ∧ state' = commit supply globalState localState := by
  unfold apply
  rw [Outcome.bind_eq_ok]
  constructor
  · rintro ⟨⟨supply, g, l⟩, h, hcommit⟩
    exact ⟨supply, g, l, h, (Outcome.ok.inj hcommit).symm⟩
  · rintro ⟨supply, g, l, h, rfl⟩
    exact ⟨(supply, g, l), h, rfl⟩

theorem Trace.length_le (h : Trace config state states) :
    states.length ≤ pending state.2.stackFrame state.2.callStack := by
  induction h with
  | done _ => exact Nat.zero_le _
  | step hne hstep _ ih =>
    obtain ⟨supply, g, l, hbefore, rfl⟩ := apply_eq_ok.1 hstep
    obtain ⟨next, hnext, hframe, hstack, -⟩ := beforeCommit_step hbefore
    have hless := pending_getNextAccountUpdate hne hnext
    rw [← hless, List.length_cons, ← hframe, ← hstack]
    exact Nat.succ_le_succ ih

/-! ### The effects along a trace -/

theorem commit_of_not_last (h : localState.isLastAccountUpdate = false) : commit supply globalState localState
      = (globalState, { localState with accountUpdateIndex := localState.accountUpdateIndex + 1 }) := by
  unfold commit LocalState.isSuccessfulLastParty
  simp [h]

theorem commit_of_last (h : localState.isLastAccountUpdate = true) :
    (commit supply globalState localState).1.secondPassLedger
      = if localState.success then localState.ledger else globalState.secondPassLedger := by
  unfold commit LocalState.isSuccessfulLastParty
  simp [h]

/-- The account updates take effect one after the other. -/
inductive Effects (config : Config) (env : Env) : UInt32 → List Visit → Working → Working → Prop where
  | nil {index : UInt32} {w : Working} : Effects config env index [] w w
  | cons {index : UInt32} {v : Visit} {rest : List Visit} {w w' w'' : Working} :
      HasEffect config env false index v.accountUpdate v.callerId w w' →
      Effects config env (index + 1) rest w' w'' → Effects config env index (v :: rest) w w''

/-- What one step does when `v` is next and `rest` comes after it. -/
structure Stepped (config : Config) (state state' : GlobalState × LocalState) (v : Visit)
    (rest : List Visit) : Prop where
  remaining : Remaining config.digests.deriveTokenId state'.2.stackFrame state'.2.callStack rest
  agrees : rest ≠ [] → state'.2.Agrees
  env : rest ≠ [] → envOf state'.1 state'.2 = envOf state.1 state.2
  accountUpdateIndex : rest ≠ [] → state'.2.accountUpdateIndex = state.2.accountUpdateIndex + 1
  noFailure : FailureCollection.isEmpty state'.2.failureStatusTbl = true →
    FailureCollection.isEmpty state.2.failureStatusTbl = true ∧ ∃ w',
      HasEffect config (envOf state.1 state.2) false state.2.accountUpdateIndex v.accountUpdate v.callerId
        ⟨state.2.ledger, state.2.excess, state.2.supplyIncrease⟩ w'
      ∧ (rest ≠ [] → (⟨state'.2.ledger, state'.2.excess, state'.2.supplyIncrease⟩ : Working) = w')
      ∧ (rest = [] → w'.excess.toInt = 0 ∧ state'.1.secondPassLedger = w'.ledger)
  secondPassLedger : rest ≠ [] ∨ FailureCollection.isEmpty state'.2.failureStatusTbl = false →
    state'.1.secondPassLedger = state.1.secondPassLedger

theorem step_stepped (h : step config state = .ok state')
    (hrem : Remaining config.digests.deriveTokenId state.2.stackFrame state.2.callStack (v :: rest))
    (hagrees : state.2.Agrees) : Stepped config state state' v rest := by
  obtain ⟨supply, g, l, hbefore, rfl⟩ := apply_eq_ok.1 h
  obtain ⟨next, hnext, hframe, hstack, hindex, hftc, hsecond, hslot, hview, hagrees', hsuccess⟩ :=
    beforeCommit_step hbefore
  obtain ⟨next', hnext', rfl, hrem'⟩ := hrem.next
  obtain rfl := Option.some.inj (hnext.symm.trans hnext')
  rw [← hframe, ← hstack] at hrem'
  have hl := hagrees' hagrees
  rw [hl.1, hagrees.1] at hsuccess
  have hlast : l.isLastAccountUpdate = true ↔ rest = [] := by
    rw [LocalState.isLastAccountUpdate_iff, hrem'.calls_eq_nil_iff]
  cases hb : l.isLastAccountUpdate with
  | true =>
    have hrest := hlast.1 hb
    have hcommitted : (commit supply g l).1.secondPassLedger
        = if FailureCollection.isEmpty l.failureStatusTbl then l.ledger else g.secondPassLedger := by
      rw [commit_of_last hb, hl.1]
    exact
      { remaining := hrem'
        agrees := fun hne => absurd hrest hne
        env := fun hne => absurd hrest hne
        accountUpdateIndex := fun hne => absurd hrest hne
        noFailure := fun (hempty : FailureCollection.isEmpty l.failureStatusTbl = true) => by
          obtain ⟨hempty₀, w', heffect, -, hledger, hzero, -⟩ := hsuccess hempty
          refine ⟨hempty₀, w', heffect, fun hne => absurd hrest hne, fun _ => ⟨hzero hb, ?_⟩⟩
          rw [hcommitted, if_pos hempty, hledger]
        secondPassLedger := fun h => by
          have hempty := h.resolve_left fun hne => hne hrest
          rw [hcommitted, if_neg, hsecond]
          rw [show FailureCollection.isEmpty l.failureStatusTbl = false from hempty]
          nofun }
  | false =>
    have hrest : rest ≠ [] := fun hnil => by
      rw [hlast.2 hnil] at hb
      cases hb
    rw [commit_of_not_last hb]
    exact
      { remaining := hrem'
        agrees := fun _ => hl
        env := fun _ => by
          change envOf g l = _
          unfold envOf
          rw [hslot, hview, hftc hb]
        accountUpdateIndex := fun _ => congrArg (· + 1) hindex
        noFailure := fun hempty => by
          obtain ⟨hempty₀, w', heffect, hsupply, hledger, -, hexcess⟩ := hsuccess hempty
          refine ⟨hempty₀, w', heffect, fun _ => ?_, fun hnil => absurd hnil hrest⟩
          change (⟨l.ledger, l.excess, l.supplyIncrease⟩ : Working) = w'
          rw [hledger, hexcess hb, ← hsupply]
        secondPassLedger := fun _ => hsecond }

variable (hrem : Remaining config.digests.deriveTokenId state.2.stackFrame state.2.callStack rest)

include hrem

theorem Trace.noFailure (h : Trace config state states) (hagrees : state.2.Agrees)
    (hempty : FailureCollection.isEmpty (lastState state states).2.failureStatusTbl = true) :
    FailureCollection.isEmpty state.2.failureStatusTbl = true := by
  induction h generalizing rest with
  | done _ => exact hempty
  | @step state state' states hne hstep htrace ih =>
    rw [lastState_cons] at hempty
    obtain ⟨v, rest, rfl⟩ := List.exists_cons_of_ne_nil fun hnil => hne (hrem.calls_eq_nil_iff.2 hnil)
    have hstepped := step_stepped hstep hrem hagrees
    by_cases hrest : rest = []
    · cases htrace with
      | done _ => exact (hstepped.noFailure hempty).1
      | step hne' _ _ => exact absurd (hstepped.remaining.calls_eq_nil_iff.2 hrest) hne'
    · exact (hstepped.noFailure (ih hstepped.remaining (hstepped.agrees hrest) hempty)).1

/-- **A trace**: when the table has no failure in the end, the account updates that were left
have taken effect and the ledger is the one they leave. Otherwise it is as it was. -/
theorem Trace.effects (h : Trace config state states) (hagrees : state.2.Agrees) (hrest : rest ≠ []) :
    (FailureCollection.isEmpty (lastState state states).2.failureStatusTbl = true →
        ∃ w', Effects config (envOf state.1 state.2) state.2.accountUpdateIndex rest
          ⟨state.2.ledger, state.2.excess, state.2.supplyIncrease⟩ w'
        ∧ w'.excess.toInt = 0 ∧ (lastState state states).1.secondPassLedger = w'.ledger)
      ∧ (FailureCollection.isEmpty (lastState state states).2.failureStatusTbl = false →
        (lastState state states).1.secondPassLedger = state.1.secondPassLedger) := by
  induction h generalizing rest with
  | done hnil => exact absurd (hrem.calls_eq_nil_iff.1 hnil) hrest
  | @step state state' states hne hstep htrace ih =>
    rw [lastState_cons]
    obtain ⟨v, rest, rfl⟩ := List.exists_cons_of_ne_nil hrest
    have hstepped := step_stepped hstep hrem hagrees
    by_cases hrest : rest = []
    · cases htrace with
      | step hne' _ _ => exact absurd (hstepped.remaining.calls_eq_nil_iff.2 hrest) hne'
      | done _ =>
        refine ⟨fun hempty => ?_, fun hempty => hstepped.secondPassLedger (.inr hempty)⟩
        obtain ⟨-, w', heffect, -, hlast⟩ := hstepped.noFailure hempty
        rw [hrest]
        exact ⟨w', .cons heffect .nil, hlast hrest⟩
    · have hagrees' := hstepped.agrees hrest
      obtain ⟨ihtrue, ihfalse⟩ := ih hstepped.remaining hagrees' hrest
      refine ⟨fun hempty => ?_, fun hempty => ?_⟩
      · obtain ⟨w'', heffects, hfinal⟩ := ihtrue hempty
        obtain ⟨-, w', heffect, hw, -⟩ :=
          hstepped.noFailure (htrace.noFailure hstepped.remaining hagrees' hempty)
        rw [hstepped.env hrest, hstepped.accountUpdateIndex hrest, hw hrest] at heffects
        exact ⟨w'', .cons heffect heffects, hfinal⟩
      · rw [ihfalse hempty]
        exact hstepped.secondPassLedger (.inl hrest)

omit hrem

/-- The ledger that the next account update works on, or the one that was committed. -/
def workingLedger (state : GlobalState × LocalState) : Ledger :=
  if state.2.isLastAccountUpdate then state.1.secondPassLedger else state.2.ledger

include hrem

theorem Trace.hasEffect (h : Trace config state states) (hagrees : state.2.Agrees)
    (hempty : FailureCollection.isEmpty (lastState state states).2.failureStatusTbl = true)
    {k : Nat} {s s' : GlobalState × LocalState} (hv : rest[k]? = some v)
    (hs : (state :: states)[k]? = some s) (hs' : states[k]? = some s') :
    ∃ index w w', HasEffect config (envOf state.1 state.2) false index v.accountUpdate v.callerId w w'
      ∧ workingLedger s = w.ledger ∧ workingLedger s' = w'.ledger := by
  induction h generalizing rest k with
  | done _ => cases hs'
  | @step state state' states hne hstep htrace ih =>
    rw [lastState_cons] at hempty
    obtain ⟨v', rest, rfl⟩ := List.exists_cons_of_ne_nil fun hnil => hne (hrem.calls_eq_nil_iff.2 hnil)
    have hstepped := step_stepped hstep hrem hagrees
    have hstate : workingLedger state = state.2.ledger := by
      unfold workingLedger
      rw [if_neg fun hlast => hne (LocalState.isLastAccountUpdate_iff.1 hlast)]
    have hlast : state'.2.isLastAccountUpdate = true ↔ rest = [] := by
      rw [LocalState.isLastAccountUpdate_iff, hstepped.remaining.calls_eq_nil_iff]
    by_cases hrest : rest = []
    · subst hrest
      cases htrace with
      | step hne' _ _ => exact absurd (hstepped.remaining.calls_eq_nil_iff.2 rfl) hne'
      | done _ =>
        obtain ⟨-, w', heffect, -, hfinal⟩ := hstepped.noFailure hempty
        cases k with
        | succ k => cases hs'
        | zero =>
          obtain rfl := Option.some.inj hs
          obtain rfl := Option.some.inj hs'
          obtain rfl := Option.some.inj hv
          refine ⟨_, _, w', heffect, hstate, ?_⟩
          unfold workingLedger
          rw [if_pos (hlast.2 rfl), (hfinal rfl).2]
    · have hagrees' := hstepped.agrees hrest
      obtain ⟨-, w', heffect, hw, -⟩ :=
        hstepped.noFailure (htrace.noFailure hstepped.remaining hagrees' hempty)
      cases k with
      | zero =>
        obtain rfl := Option.some.inj hs
        obtain rfl := Option.some.inj hs'
        obtain rfl := Option.some.inj hv
        refine ⟨_, _, w', heffect, hstate, ?_⟩
        unfold workingLedger
        rw [if_neg fun h => hrest (hlast.1 h), ← hw hrest]
      | succ k =>
        rw [← hstepped.env hrest]
        exact ih hstepped.remaining hagrees' hempty hv hs hs'

theorem Trace.length_eq (h : Trace config state states) (hagrees : state.2.Agrees) : states.length = rest.length := by
  induction h generalizing rest with
  | done hnil => rw [hrem.calls_eq_nil_iff.1 hnil, List.length_nil, List.length_nil]
  | @step state state' states hne hstep htrace ih =>
    obtain ⟨v, rest, rfl⟩ := List.exists_cons_of_ne_nil fun hnil => hne (hrem.calls_eq_nil_iff.2 hnil)
    have hstepped := step_stepped hstep hrem hagrees
    rw [List.length_cons, List.length_cons]
    by_cases hrest : rest = []
    · cases htrace with
      | done _ => rw [hrest, List.length_nil, List.length_nil]
      | step hne' _ _ => exact absurd (hstepped.remaining.calls_eq_nil_iff.2 hrest) hne'
    · rw [ih hstepped.remaining (hstepped.agrees hrest)]

omit hrem

theorem Trace.workingLedger_last (h : Trace config state states) :
    workingLedger (lastState state states) = (lastState state states).1.secondPassLedger := by
  induction h with
  | done hnil =>
    unfold workingLedger
    exact if_pos (LocalState.isLastAccountUpdate_iff.2 hnil)
  | step _ _ _ ih =>
    rw [lastState_cons]
    exact ih

end MinaProtocol.TransactionLogic
