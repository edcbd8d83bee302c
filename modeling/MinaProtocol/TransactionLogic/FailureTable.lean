import MinaProtocol.TransactionLogic.AllOrNothing

/-!
# TransactionLogic.FailureTable

Which bucket of the failure table holds the failures of which account update
(`failure_attribution`). The check of the caller comes before the bucket of its account update is
opened, so its failure goes to the bucket of the account update before.
-/

namespace MinaProtocol.TransactionLogic

open Std

/-! ### The failures of one account update -/

namespace LocalState

/-- The local state with this table. -/
def withTable (t : LocalState) (failureStatusTbl : FailureCollection) : LocalState :=
  { t with failureStatusTbl }

end LocalState

/-- The account update that is to run, with this table. -/
def Popped.withTable (t : Popped) (failureStatusTbl : FailureCollection) : Popped :=
  { t with localState := t.localState.withTable failureStatusTbl }

/-- The account update that runs next. -/
def nextAccountUpdate (digests : Digests) (state : GlobalState × LocalState) : Option AccountUpdate :=
  (getNextAccountUpdate digests.deriveTokenId state.2.stackFrame state.2.callStack).map
    NextAccountUpdate.accountUpdate

/-- The failures that the checks of the next account update raise: what it notes in an empty
table. -/
def raised (config : Config) (state : GlobalState × LocalState) : List Failure :=
  match step config (state.1, state.2.withTable [[]]) with
  | .ok (_, localState) => localState.failureStatusTbl.flatten
  | _ => []

/-- What the bucket of an account update with these failures holds when the command has failed. -/
def expectedBucket (failures : List Failure) : List Failure :=
  if failures.isEmpty then [.cancelled] else failures

/-- **Every failure is in the bucket of its account update**: the bucket of the fee payer is
empty, and that of each other account update holds the failures that its own checks raise, or
that it was cancelled. -/
structure Attributed (config : Config) (updates : List AccountUpdate)
    (states : List (GlobalState × LocalState)) (table : FailureCollection) : Prop where
  order : states.dropLast.map (nextAccountUpdate config.digests) = updates.map some
  length : table.length = updates.length + 1
  feePayer : table.head? = some []
  others : List.Forall₂ (fun bucket state => bucket.Perm (expectedBucket (raised config state)))
    table.tail states.dropLast

/-! ### Only the first bucket is written -/

/-- A bucket after a check. -/
def noted (failure : Failure) (b : Bool) (bucket : List Failure) : List Failure :=
  if b then bucket else failure :: bucket

section Tables

variable {config : Config} {isStart : Bool} {globalState globalState' : GlobalState}
  {localState localState' : LocalState} {popped : Popped} {a : Account} {u : AccountUpdate}
  {hd : List Failure} {tl : FailureCollection} {t : LocalState}

theorem LocalState.withTable_self {tbl : FailureCollection} (h : t.failureStatusTbl = tbl) : t.withTable tbl = t := by
  rw [← h]
  rfl

theorem LocalState.addCheck_withTable (t : LocalState) (failure : Failure) (b : Bool) (hd : List Failure)
    (tl : FailureCollection) : (t.withTable (hd :: tl)).addCheck failure b
      = (t.addCheck failure b).withTable (noted failure b hd :: tl) := by
  cases b with
  | false => rfl
  | true => rfl

theorem LocalState.addCheck_table (h : t.failureStatusTbl = hd :: tl) (failure : Failure)
    (b : Bool) : ∃ hd', (t.addCheck failure b).failureStatusTbl = hd' :: tl
      ∧ ∀ tl', (t.withTable (hd :: tl')).addCheck failure b = (t.addCheck failure b).withTable (hd' :: tl') := by
  refine ⟨noted failure b hd, ?_, fun tl' => t.addCheck_withTable failure b hd tl'⟩
  rw [← LocalState.withTable_self h, LocalState.addCheck_withTable]
  rfl

theorem LocalState.addChecks_withTable (t : LocalState) (checks : List (Failure × Bool)) (hd : List Failure) :
    ∃ hd', ∀ tl, (t.withTable (hd :: tl)).addChecks checks = (t.addChecks checks).withTable (hd' :: tl) := by
  induction checks generalizing t hd with
  | nil => exact ⟨hd, fun _ => rfl⟩
  | cons c rest ih =>
    obtain ⟨hd', h⟩ := ih (t.addCheck c.1 c.2) (noted c.1 c.2 hd)
    refine ⟨hd', fun tl => ?_⟩
    change ((t.withTable (hd :: tl)).addCheck c.1 c.2).addChecks rest = _
    rw [LocalState.addCheck_withTable, h]
    rfl

/-- The failure of the check of the caller. -/
def callerFailure (u : AccountUpdate) (callerId : Nat) : List Failure :=
  if u.tokenId = TokenId.default ∨ u.tokenId = callerId then [] else [.tokenOwnerNotCaller]

theorem callerFailure_eq_nil {callerId : Nat} :
    callerFailure u callerId = [] ↔ u.tokenId = TokenId.default ∨ u.tokenId = callerId := by
  unfold callerFailure
  split <;> simp_all

theorem noted_tokenOwnerNotCaller (u : AccountUpdate) (callerId : Nat) (bucket : List Failure) :
    noted .tokenOwnerNotCaller (u.tokenId = TokenId.default || u.tokenId = callerId) bucket
      = callerFailure u callerId ++ bucket := by
  unfold noted callerFailure
  by_cases h : u.tokenId = TokenId.default ∨ u.tokenId = callerId
  · rw [if_pos h, if_pos (by simpa using h)]
    rfl
  · rw [if_neg h, if_neg (by simpa using h)]
    rfl

/-- **The check of the caller writes the bucket that is there before that of its account
update.** -/
theorem popAccountUpdate_withTable
    (h : popAccountUpdate config none globalState (localState.withTable (hd :: tl)) = .ok popped) :
    popped.localState.failureStatusTbl = (callerFailure popped.accountUpdate popped.callerId ++ hd) :: tl
      ∧ ∀ hd' tl', popAccountUpdate config none globalState (localState.withTable (hd' :: tl'))
        = .ok (popped.withTable ((callerFailure popped.accountUpdate popped.callerId ++ hd') :: tl')) := by
  unfold popAccountUpdate at h ⊢
  simp only [Outcome.bind_eq_ok, Outcome.assert_eq_ok, Outcome.ofOption_eq_ok, Outcome.pure_eq, Outcome.ok.injEq] at h ⊢
  obtain ⟨_, hempty, next, hnext, rfl⟩ := h
  simp only [← noted_tokenOwnerNotCaller]
  refine ⟨?_, fun hd' tl' => ⟨(), hempty, next, hnext, ?_⟩⟩
  · cases hb : (decide (next.accountUpdate.tokenId = TokenId.default)
      || decide (next.accountUpdate.tokenId = next.callerId)) <;> rfl
  · cases hb : (decide (next.accountUpdate.tokenId = TokenId.default)
      || decide (next.accountUpdate.tokenId = next.callerId)) <;> rfl

theorem runAccountUpdate_withTable (h : runAccountUpdate config isStart globalState popped = .ok (a, localState')) :
    ∃ hd, localState'.failureStatusTbl = hd :: popped.localState.failureStatusTbl
      ∧ ∀ tl', runAccountUpdate config isStart globalState (popped.withTable tl')
        = .ok (a, localState'.withTable (hd :: tl')) := by
  unfold runAccountUpdate at h ⊢
  simp only [Outcome.bind_eq_ok, Outcome.assert_eq_ok, Outcome.pure_eq, Outcome.ok.injEq] at h ⊢
  obtain ⟨_, hpk, _, htoken, ⟨after, checks⟩, hupdate, hresult⟩ := h
  obtain ⟨rfl, rfl⟩ := Prod.mk.inj hresult
  obtain ⟨hd, hchecks⟩ := popped.localState.addChecks_withTable checks []
  have hbucket : popped.localState.addNewFailureStatusBucket.addChecks checks
      = (popped.localState.addChecks checks).withTable (hd :: popped.localState.failureStatusTbl) :=
    hchecks _
  refine ⟨hd, ?_, fun tl' => ⟨(), hpk, (), htoken, (after, checks), hupdate, ?_⟩⟩
  · dsimp only
    rw [hbucket]
    rfl
  · have hbucket' : (popped.withTable tl').localState.addNewFailureStatusBucket.addChecks checks
        = (popped.localState.addChecks checks).withTable (hd :: tl') := hchecks _
    rw [hbucket, hbucket']
    rfl

theorem addLocalDelta_withTable (h : addLocalDelta isStart u localState = .ok localState')
    (htbl : localState.failureStatusTbl = hd :: tl) : ∃ hd', localState'.failureStatusTbl = hd' :: tl
      ∧ ∀ tl', addLocalDelta isStart u (localState.withTable (hd :: tl'))
        = .ok (localState'.withTable (hd' :: tl')) := by
  unfold addLocalDelta at h ⊢
  simp only [Outcome.bind_eq_ok, Outcome.assert_eq_ok, Outcome.pure_eq, Outcome.ok.injEq] at h ⊢
  obtain ⟨_, hassert, rfl⟩ := h
  obtain ⟨hd', htbl', hother⟩ := LocalState.addCheck_table (t := { localState with
    excess := if decide (u.tokenId = TokenId.default) then
        (Signed.addFlagged localState.excess u.balanceChange.negate).1
      else localState.excess }) htbl .localExcessOverflow
    (!(decide (u.tokenId = TokenId.default) && (Signed.addFlagged localState.excess u.balanceChange.negate).2))
  exact ⟨hd', htbl', fun tl' => ⟨(), hassert, hother tl'⟩⟩

theorem setAccount_withTable {location : Location} (h : setAccount isStart location a localState = .ok localState')
    (htbl : localState.failureStatusTbl = hd :: tl) : ∃ hd', localState'.failureStatusTbl = hd' :: tl
      ∧ ∀ tl', setAccount isStart location a (localState.withTable (hd :: tl'))
        = .ok (localState'.withTable (hd' :: tl')) := by
  unfold setAccount at h ⊢
  simp only [Outcome.bind_eq_ok, Outcome.pure_eq, Outcome.ok.injEq] at h ⊢
  obtain ⟨newLedger, hset, rfl⟩ := h
  refine (LocalState.addCheck_table (t := { localState with
    ledger := newLedger
    transactionCommitment := if localState.isLastAccountUpdate then 0 else localState.transactionCommitment
    fullTransactionCommitment :=
      if localState.isLastAccountUpdate then 0 else localState.fullTransactionCommitment }) htbl
    .invalidFeeExcess (isStart || !localState.isLastAccountUpdate
      || Signed.equal localState.excess (Signed.ofUnsigned 0))).imp fun hd' hall => ?_
  exact ⟨hall.1, fun tl' => ⟨newLedger, hset, hall.2 tl'⟩⟩

theorem settleExcess_withTable (isStart : Bool) (globalState : GlobalState)
    (htbl : localState.failureStatusTbl = hd :: tl) :
    ∃ hd', (settleExcess isStart globalState localState).2.failureStatusTbl = hd' :: tl
      ∧ ∀ tl', settleExcess isStart globalState (localState.withTable (hd :: tl'))
        = ((settleExcess isStart globalState localState).1,
          (settleExcess isStart globalState localState).2.withTable (hd' :: tl')) := by
  obtain ⟨hd', htbl', hother⟩ := LocalState.addCheck_table (t := { localState with
    excess := if isStart || localState.isLastAccountUpdate then Signed.ofUnsigned 0
      else localState.excess }) htbl .globalExcessOverflow
    (!((isStart || localState.isLastAccountUpdate) && localState.success
      && (Signed.addFlagged globalState.feeExcess localState.excess).2))
  exact ⟨hd', htbl', fun tl' => Prod.ext rfl (hother tl')⟩

theorem settle_withTable {supply : Signed}
    (h : settle isStart popped a globalState localState = .ok (supply, globalState', localState'))
    (htbl : localState.failureStatusTbl = hd :: tl) : ∃ hd', localState'.failureStatusTbl = hd' :: tl
      ∧ ∀ tl₀ tl', settle isStart (popped.withTable tl₀) a globalState (localState.withTable (hd :: tl'))
        = .ok (supply, globalState', localState'.withTable (hd' :: tl')) := by
  unfold settle at h ⊢
  simp only [Outcome.bind_eq_ok] at h ⊢
  obtain ⟨l₁, hdelta, l₂, hset, h⟩ := h
  obtain ⟨hd₁, htbl₁, hdelta'⟩ := addLocalDelta_withTable hdelta htbl
  obtain ⟨hd₂, htbl₂, hset'⟩ := setAccount_withTable hset htbl₁
  obtain ⟨hd₃, htbl₃, hsettle⟩ := settleExcess_withTable isStart globalState htbl₂
  simp only [Outcome.assert_eq_ok, Outcome.pure_eq, Outcome.ok.injEq] at h
  obtain ⟨_, hstart, _, hwill, h⟩ := h
  obtain ⟨hsupply, h⟩ := Prod.mk.inj h
  obtain ⟨rfl, rfl⟩ := Prod.mk.inj h
  rw [← hsupply]
  obtain ⟨hd', htbl', hother⟩ := LocalState.addCheck_table htbl₃ .globalSupplyIncreaseOverflow
    (!(Signed.addFlagged (settleExcess isStart globalState l₂).1.supplyIncrease
      (settleExcess isStart globalState l₂).2.supplyIncrease).2)
  refine ⟨hd', htbl', fun tl₀ tl' => ⟨_, hdelta' tl', _, hset' tl', ?_⟩⟩
  rw [hsettle tl']
  simp only [Outcome.assert_eq_ok, Outcome.pure_eq, Outcome.ok.injEq]
  refine ⟨(), hstart, (), hwill, ?_⟩
  have hlast := congrArg (fun l : LocalState => { l with
    ledger := if isStart then (settleExcess isStart globalState l₂).1.secondPassLedger else l.ledger })
    (hother tl')
  exact congrArg (fun l => (_, _, l)) hlast

end Tables

/-! ### Whole calls -/

/-- The failure of the check of the caller of an account update that runs. -/
def Visit.callerFailure (v : Visit) : List Failure :=
  TransactionLogic.callerFailure v.accountUpdate v.callerId

/-- What one step does to the table when `v` is next. -/
structure Tabled (config : Config) (state state' : GlobalState × LocalState) (v : Visit)
    (hd : List Failure) (tl : FailureCollection) (body : List Failure) : Prop where
  table : state'.2.failureStatusTbl = body :: (v.callerFailure ++ hd) :: tl
  raised : raised config state = body ++ v.callerFailure
  next : nextAccountUpdate config.digests state = some v.accountUpdate

variable {config : Config} {hd : List Failure} {tl : FailureCollection} {steps : List (List Failure × List Failure)}
  {state : GlobalState × LocalState} {c : ZkappCommandPartiallyApplied} {command : ZkappCommand} {rest : List Visit} {ledger' ledger : Ledger}

theorem beforeCommit_withTable {globalState globalState' : GlobalState}
    {localState localState' : LocalState} {supply : Signed}
    (h : beforeCommit config none globalState localState = .ok (supply, globalState', localState'))
    (htbl : localState.failureStatusTbl = hd :: tl) {next : NextAccountUpdate}
    (hnext : getNextAccountUpdate config.digests.deriveTokenId localState.stackFrame localState.callStack = some next) :
    ∃ body, localState'.failureStatusTbl
        = body :: (callerFailure next.accountUpdate next.callerId ++ hd) :: tl
      ∧ ∀ hd' tl', beforeCommit config none globalState (localState.withTable (hd' :: tl'))
        = .ok (supply, globalState',
          localState'.withTable (body :: (callerFailure next.accountUpdate next.callerId ++ hd') :: tl')) := by
  rw [← LocalState.withTable_self htbl] at h
  unfold beforeCommit at h ⊢
  simp only [Outcome.bind_eq_ok] at h ⊢
  obtain ⟨popped, hpop, ⟨a, l₁⟩, hrun, hsettle⟩ := h
  obtain ⟨hpopped, hpop'⟩ := popAccountUpdate_withTable hpop
  obtain ⟨hd₁, htbl₁, hrun'⟩ := runAccountUpdate_withTable hrun
  obtain ⟨body, htbl', hsettle'⟩ := settle_withTable hsettle htbl₁
  obtain ⟨next', hnext', hu, hc, -⟩ := popAccountUpdate_step hpop
  obtain rfl := Option.some.inj (hnext.symm.trans hnext')
  rw [hpopped, hu, hc] at htbl'
  rw [hu, hc] at hpop'
  exact ⟨body, htbl', fun hd' tl' => ⟨_, hpop' hd' tl', _, hrun' _, hsettle' _ _⟩⟩

/-- **One step**: the check of the caller writes the bucket of the account update before, the
other checks write a new one. -/
theorem step_tabled {state' : GlobalState × LocalState} {v : Visit} (h : step config state = .ok state')
    (hrem : Remaining config.digests.deriveTokenId state.2.stackFrame state.2.callStack (v :: rest))
    (htbl : state.2.failureStatusTbl = hd :: tl) :
    Remaining config.digests.deriveTokenId state'.2.stackFrame state'.2.callStack rest
      ∧ ∃ body, Tabled config state state' v hd tl body := by
  obtain ⟨supply, g, l, hbefore, rfl⟩ := apply_eq_ok.1 h
  obtain ⟨next, hnext, hframe, hstack, -⟩ := beforeCommit_step hbefore
  obtain ⟨next', hnext', rfl, hrem'⟩ := hrem.next
  obtain rfl := Option.some.inj (hnext.symm.trans hnext')
  rw [← hframe, ← hstack] at hrem'
  obtain ⟨body, htbl', hother⟩ := beforeCommit_withTable hbefore htbl hnext
  refine ⟨hrem', body, htbl', ?_, ?_⟩
  · have hempty : step config (state.1, state.2.withTable [[]]) = .ok (commit supply g
        (l.withTable (body :: (callerFailure next.accountUpdate next.callerId ++ []) :: []))) :=
      apply_eq_ok.2 ⟨_, _, _, hother [] [], rfl⟩
    unfold raised
    rw [hempty]
    change List.flatten (body :: (callerFailure next.accountUpdate next.callerId ++ []) :: []) = _
    rw [List.append_nil, List.flatten_cons, List.flatten_singleton]
    rfl
  · unfold nextAccountUpdate
    rw [hnext]
    rfl

/-! ### The table of a trace -/

/-- The buckets in the order of the account updates. An account update is the failure of the check
of its caller, and its other failures. -/
def buckets (first : List Failure) : List (List Failure × List Failure) → FailureCollection
  | [] => [first]
  | (caller, body) :: rest => (caller ++ first) :: buckets body rest

theorem length_buckets (first : List Failure) (steps : List (List Failure × List Failure)) :
    (buckets first steps).length = steps.length + 1 := by
  induction steps generalizing first with
  | nil => rfl
  | cons p rest ih => rw [buckets, List.length_cons, ih, List.length_cons]

theorem exists_buckets_eq_cons (first : List Failure) (steps : List (List Failure × List Failure)) :
    ∃ bucket others, buckets first steps = bucket :: others := by
  refine List.exists_cons_of_ne_nil (List.ne_nil_of_length_pos ?_)
  rw [length_buckets]
  exact Nat.succ_pos _

/-- **The table of a trace.** -/
theorem Trace.table {states : List (GlobalState × LocalState)} (h : Trace config state states)
    (hrem : Remaining config.digests.deriveTokenId state.2.stackFrame state.2.callStack rest)
    (htbl : state.2.failureStatusTbl = hd :: tl) :
    ∃ steps, (lastState state states).2.failureStatusTbl.reverse = tl.reverse ++ buckets hd steps
      ∧ steps.map Prod.fst = rest.map Visit.callerFailure
      ∧ (state :: states).dropLast.map (raised config) = steps.map (fun p => p.2 ++ p.1)
      ∧ (state :: states).dropLast.map (nextAccountUpdate config.digests)
        = (rest.map Visit.accountUpdate).map some := by
  induction h generalizing rest hd tl with
  | @done state hnil =>
    rw [hrem.calls_eq_nil_iff.1 hnil]
    refine ⟨[], ?_, rfl, rfl, rfl⟩
    change List.reverse state.2.failureStatusTbl = _
    rw [htbl, List.reverse_cons]
    rfl
  | @step state state' states hne hstep htrace ih =>
    obtain ⟨v, rest, rfl⟩ := List.exists_cons_of_ne_nil fun hnil => hne (hrem.calls_eq_nil_iff.2 hnil)
    obtain ⟨hrem', body, htabled⟩ := step_tabled hstep hrem htbl
    obtain ⟨steps, hlast, hcallers, hraised, hnext⟩ := ih hrem' htabled.table
    refine ⟨(v.callerFailure, body) :: steps, ?_, ?_, ?_, ?_⟩
    · rw [lastState_cons, hlast, List.reverse_cons, List.append_assoc]
      rfl
    · rw [List.map_cons, List.map_cons, hcallers]
    · rw [List.dropLast_cons_cons, List.map_cons, List.map_cons, hraised, htabled.raised]
    · rw [List.dropLast_cons_cons, List.map_cons, List.map_cons, List.map_cons, hnext, htabled.next]

/-! ### Which bucket holds which failures -/

theorem expectedBucket_perm_nil {caller bucket : List Failure} (hcaller : caller = [] ∨ caller = [.tokenOwnerNotCaller])
    (h : (expectedBucket (caller ++ bucket)).Perm (expectedBucket bucket)) : caller = [] := by
  rcases hcaller with rfl | rfl
  · rfl
  · cases bucket with
    | nil => exact absurd h (by decide)
    | cons f rest => exact absurd h.length_eq (by simp [expectedBucket])

/-- The buckets hold the failures of their own account updates. -/
def OwnBuckets (table : FailureCollection) (steps : List (List Failure × List Failure)) : Prop :=
  List.Forall₂ (fun bucket failures => (expectedBucket bucket).Perm (expectedBucket failures)) table
    (steps.map fun p => p.2 ++ p.1)

theorem buckets_of_callers_nil (h : ∀ p ∈ steps, p.1 = [])
    (first : List Failure) : buckets first steps = first :: steps.map fun p => p.2 ++ p.1 := by
  induction steps generalizing first with
  | nil => rfl
  | cons p rest ih =>
    obtain ⟨caller, body⟩ := p
    obtain ⟨rfl, hrest⟩ := List.forall_mem_cons.1 h
    rw [buckets, ih hrest, List.map_cons, List.append_nil]
    rfl

variable (hcallers : ∀ p ∈ steps, p.1 = [] ∨ p.1 = [.tokenOwnerNotCaller])

include hcallers

theorem callers_nil_of_forall₂ {first : List Failure}
    (h : OwnBuckets (buckets first steps) (([], first) :: steps)) : ∀ p ∈ steps, p.1 = [] := by
  induction steps generalizing first with
  | nil => exact fun p hp => absurd hp List.not_mem_nil
  | cons p rest ih =>
    obtain ⟨caller, body⟩ := p
    obtain ⟨hcaller, hrest⟩ := List.forall_mem_cons.1 hcallers
    unfold OwnBuckets at h
    rw [buckets, List.map_cons, List.append_nil] at h
    cases h with
    | cons hhead htail =>
      obtain rfl := expectedBucket_perm_nil hcaller hhead
      exact List.forall_mem_cons.2 ⟨rfl, ih hrest htail⟩

theorem ownBuckets_iff :
    (buckets [] steps).head? = some [] ∧ OwnBuckets (buckets [] steps).tail steps
      ↔ ∀ p ∈ steps, p.1 = [] := by
  constructor
  · rintro ⟨hhead, htail⟩
    cases steps with
    | nil => exact fun p hp => absurd hp List.not_mem_nil
    | cons p rest =>
      obtain ⟨caller, body⟩ := p
      obtain ⟨-, hrest⟩ := List.forall_mem_cons.1 hcallers
      obtain rfl : caller = [] := by simpa [buckets] using hhead
      exact List.forall_mem_cons.2 ⟨rfl, callers_nil_of_forall₂ hrest htail⟩
  · intro h
    rw [buckets_of_callers_nil h]
    refine ⟨rfl, List.forall₂_same.2 fun failures _ => ?_⟩
    exact List.Perm.refl _

omit hcallers

/-! ### The table of a command -/

theorem finishSecondPass_failed {tbl table : FailureCollection} {applied : ZkappCommandApplied}
    (h : finishSecondPass ledger c tbl ledger' = .ok applied) (hfailed : applied.status = .failed table) :
    table = tbl.reverse.mapIdx fun idx fs => if 0 < idx && fs.isEmpty then [Failure.cancelled] else fs := by
  unfold finishSecondPass at h
  dsimp only at h
  cases hempty : FailureCollection.isEmpty tbl.reverse with
  | true =>
    rw [hempty] at h
    cases h
    cases hfailed
  | false =>
    rw [hempty] at h
    simp only [Bool.false_eq_true, if_false, Outcome.bind_eq_ok, Outcome.pure_eq, Outcome.ok.injEq] at h
    obtain ⟨-, -, rfl⟩ := h
    exact (TransactionStatus.failed.inj hfailed).symm

theorem mapIdx_cancelled (bucket : List Failure) (rest : FailureCollection) :
    ((bucket :: rest).mapIdx fun idx fs => if 0 < idx && fs.isEmpty then [Failure.cancelled] else fs)
      = bucket :: rest.map expectedBucket := by
  rw [List.mapIdx_cons]
  refine congrArg₂ _ rfl (List.ext_getElem (by simp) fun i hi hi' => ?_)
  simp [expectedBucket]

/-- **The first pass leaves the empty bucket of the fee payer.** -/
theorem applyZkappCommandFirstPass_table {globalSlot : GlobalSlot}
    {stateView : ProtocolStateView} {feeExcess supplyIncrease : Signed}
    (h : applyZkappCommandFirstPass config globalSlot stateView feeExcess supplyIncrease ledger command
      = .ok (ledger', c)) : c.localState.failureStatusTbl = [[]] := by
  have hempty := (applyZkappCommandFirstPass_ok h).noFailure
  obtain ⟨supply, g, l, hbefore, -, rfl⟩ := applyZkappCommandFirstPass_call h
  unfold beforeCommit at hbefore
  simp only [Outcome.bind_eq_ok] at hbefore
  obtain ⟨popped, hpop, ⟨a, l₁⟩, hrun, hsettle⟩ := hbefore
  obtain ⟨next, -, -, -, -, hl⟩ := popAccountUpdate_start hpop
  obtain ⟨hd₁, htbl₁, -⟩ := runAccountUpdate_withTable hrun
  have hnil : popped.localState.failureStatusTbl = [] := by
    rw [hl]
    rfl
  rw [hnil] at htbl₁
  obtain ⟨hd, htbl, -⟩ := settle_withTable hsettle htbl₁
  have hcommit : (commit supply g l).2.failureStatusTbl = [hd] := htbl
  rw [hcommit] at hempty ⊢
  rw [(FailureCollection.isEmpty_iff [hd]).1 hempty hd (List.mem_singleton_self hd)]

theorem secondPassStart_table (ledger : Ledger) (c : ZkappCommandPartiallyApplied) :
    (secondPassStart ledger c).2.failureStatusTbl = c.localState.failureStatusTbl := by
  unfold secondPassStart
  dsimp only
  split <;> rfl

theorem callerFailure_cases (v : Visit) : v.callerFailure = [] ∨ v.callerFailure = [.tokenOwnerNotCaller] := by
  unfold Visit.callerFailure callerFailure
  split
  · exact .inl rfl
  · exact .inr rfl

/-- A command with one account update besides the fee payer. -/
def singleCommand (u : AccountUpdate) : ZkappCommand where
  feePayer := ⟨⟨1, false⟩, 5, none, 0⟩
  accountUpdates := .cons u .nil .nil
  memo := ""

/-- The account has less than it is to give. -/
def overdrawnCommand : ZkappCommand := singleCommand (sampleUpdate 1 ⟨1000, .neg⟩ .signature)

/-- The account is one of another token, and its owner has not been asked. -/
def ownerlessCommand : ZkappCommand :=
  singleCommand { sampleUpdate 1 ⟨0, .pos⟩ .noneGiven with tokenId := 7 }

/-- Run both passes, and compare the table. -/
def failsWith (command : ZkappCommand) (table : FailureCollection) : Outcome LedgerError Unit := do
  let (ledger, c) ← applyZkappCommandFirstPass sampleConfig 0 sampleView Signed.zero Signed.zero
    sampleLedger command
  let (_, applied, _) ← applyZkappCommandSecondPassAux sampleConfig collectStates [] ledger c
  Outcome.assert (applied.status = .failed table)

theorem commands_fail : failsWith overdrawnCommand [[], [.invalidFeeExcess, .overflow]] = .ok ()
    ∧ failsWith ownerlessCommand [[.tokenOwnerNotCaller], [.invalidFeeExcess]] = .ok () := by
  decide +kernel

theorem failsWith_ok {table : FailureCollection} (h : failsWith command table = .ok ()) : ∃ ledger₁ c ledger₂ applied states,
      applyZkappCommandFirstPass sampleConfig 0 sampleView Signed.zero Signed.zero sampleLedger command
        = .ok (ledger₁, c)
      ∧ applyZkappCommandSecondPassAux sampleConfig collectStates [] ledger₁ c = .ok (ledger₂, applied, states)
      ∧ applied.status = .failed table := by
  obtain ⟨⟨ledger₁, c⟩, h₁, hrest⟩ := Outcome.bind_eq_ok.1 h
  obtain ⟨⟨ledger₂, applied, states⟩, h₂, hfailed⟩ := Outcome.bind_eq_ok.1 hrest
  exact ⟨ledger₁, c, ledger₂, applied, states, h₁, h₂, of_decide_eq_true (Outcome.assert_eq_ok.1 hfailed)⟩

end MinaProtocol.TransactionLogic
