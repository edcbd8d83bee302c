import MinaProtocol.Lib.FoldMap
import MinaProtocol.ParallelScan.AllNodes
import MinaProtocol.StagedLedger.ScanState

/-!
# StagedLedger.WorkPairs

The pairs of jobs that snark workers are asked for, those that a block needs, and their statements. A list for fewer slots is
the beginning of one for more: jobs are left out in front of pairs only. All of them begin the list of all pairs, whose
statements and specifications stand at the positions of the pairs.
-/

namespace MinaProtocol

namespace StagedLedger

open ParallelScan (AvailableJob)

/-! ### The work in pairs -/

namespace ScanState

/-- `required_work_pairs`. -/
def requiredWorkPairs (t : ScanState) (slots : Nat) : List (OneOrTwo Job) :=
  (ParallelScan.jobsForSlots t.scanState slots).flatMap OneOrTwo.groupList

/-- `Transaction_witness.t`. -/
structure TransactionWitness (Body : Type) where
  transaction : Transaction
  firstPassLedger : SparseLedger
  secondPassLedger : SparseLedger
  protocolStateBody : Body
  initStack : Stack
  status : TransactionStatus
  blockGlobalSlot : GlobalSlot

/-- `Snark_work_lib.Work.Single.Spec.t`. -/
inductive SingleSpec (Witness : Type) where
  | transition (statement : Statement) (witness : Witness)
  | merge (statement : Statement) (p1 p2 : LedgerProof)

/-- `Single.Spec.statement`. -/
def SingleSpec.statement {Witness : Type} : SingleSpec Witness → Statement
  | .transition s _ => s
  | .merge s _ _ => s

/-- The errors of `all_work_pairs`. -/
inductive WorkError where
  | getState (message : String)
  /-- `"init_stack was Merge"`. -/
  | initStackMerge
  | merge (e : Statement.Error)

section AllWorkPairs

variable {ProtocolState Body : Type} (digests : StatementDigests) (body : ProtocolState → Body)
  (getState : Nat → Except String ProtocolState)

/-- The `init_stack` of a base job. -/
def initStackOf : InitStack → Outcome WorkError Stack
  | .base x => .ok x
  | .merge => .error .initStackMerge

/-- `get_state`, as an outcome. -/
def stateOf (stateHash : Nat) : Outcome WorkError ProtocolState :=
  match getState stateHash with
  | .ok state => .ok state
  | .error message => .error (.getState message)

/-- `single_spec`. -/
def singleSpec : Job → Outcome WorkError (SingleSpec (TransactionWitness Body))
  | .base d => do
    let transaction := d.transactionWithInfo.transactionWithStatus
    let state ← stateOf getState d.stateHash.1
    let initStack ← initStackOf d.initStack
    return .transition d.statement {
      transaction := transaction.data
      firstPassLedger := d.firstPassLedgerWitness
      secondPassLedger := d.secondPassLedgerWitness
      protocolStateBody := body state
      initStack
      status := transaction.status
      blockGlobalSlot := d.blockGlobalSlot }
  | .merge p1 p2 => do
    let merged ← Outcome.mapError .merge (Statement.merge digests p1.1.statement p2.1.statement)
    return .merge merged p1.1 p2.1

/-- One step of the fold that makes `specs_list`. -/
def specsListStep (acc : Outcome WorkError (List (OneOrTwo (SingleSpec (TransactionWitness Body))))) (pair : OneOrTwo Job) :
    Outcome WorkError (List (OneOrTwo (SingleSpec (TransactionWitness Body)))) := do
  let acc ← acc
  let spec ← OneOrTwo.mapM (singleSpec digests body getState) pair
  return spec :: acc

/-- The fold of `all_work_pairs`. -/
def allWorkPairsFrom (acc : List (OneOrTwo (SingleSpec (TransactionWitness Body)))) :
    List (List Job) → Outcome WorkError (List (OneOrTwo (SingleSpec (TransactionWitness Body))))
  | [] => .ok acc
  | jobs :: rest => do
    let list ← (OneOrTwo.groupList jobs).foldl (specsListStep digests body getState) (.ok [])
    allWorkPairsFrom (acc ++ list.reverse) rest

/-- `all_work_pairs`. -/
def allWorkPairs (t : ScanState) : Outcome WorkError (List (OneOrTwo (SingleSpec (TransactionWitness Body)))) :=
  allWorkPairsFrom digests body getState [] (ParallelScan.allJobs t.scanState)

end AllWorkPairs

end ScanState

/-! ### Lists in pairs -/

section Lists

variable {A B : Type}

/-- What is left out in front of a pair leaves pairs out. -/
theorem groupList_take (m : Nat) (xs : List A) : OneOrTwo.groupList (xs.take (2 * m)) = (OneOrTwo.groupList xs).take m := by
  fun_induction OneOrTwo.groupList xs generalizing m with
  | case1 => simp [OneOrTwo.groupList]
  | case2 a => cases m <;> simp [OneOrTwo.groupList, Nat.mul_succ]
  | case3 a b rest ih =>
    cases m with
    | zero => rfl
    | succ m =>
      rw [Nat.mul_succ, List.take_succ_cons, List.take_succ_cons, OneOrTwo.groupList, ih, List.take_succ_cons]

theorem flatMap_groupList_filter (xss : List (List A)) :
    (xss.filter fun xs => !xs.isEmpty).flatMap OneOrTwo.groupList = xss.flatMap OneOrTwo.groupList := by
  induction xss with
  | nil => rfl
  | cons xs xss ih =>
    cases xs with
    | nil => exact ih
    | cons x xs =>
      rw [List.filter_cons_of_pos rfl, List.flatMap_cons, List.flatMap_cons, ih]

end Lists

namespace ScanState

open ParallelScan (workForNextUpdate work allWork allWorkStep workForTree takeInt createTree ceilLog2)

variable {α β : Type}

/-- The pairs of the work for so many slots: those on the trees behind the current one, then, if the current one does not
have the room, those that there are once it is full. -/
theorem flatMap_workForNextUpdate (s : ParallelScan.State α β) (dataCount : Nat) :
    (workForNextUpdate s dataCount).flatMap OneOrTwo.groupList =
      if ParallelScan.Tree.availableSpace s.trees.head < (min dataCount s.maxBaseJobs : Nat) then
        OneOrTwo.groupList (work s.trees.tail (s.delay + 1) s.maxBaseJobs) ++
          (OneOrTwo.groupList (work s.trees.toList (s.delay + 1) s.maxBaseJobs)).take
            ((min dataCount s.maxBaseJobs : Nat) - ParallelScan.Tree.availableSpace s.trees.head).toNat
      else (OneOrTwo.groupList (work s.trees.tail (s.delay + 1) s.maxBaseJobs)).take (min dataCount s.maxBaseJobs) := by
  unfold workForNextUpdate
  dsimp only
  split
  · rename_i hspace
    rw [flatMap_groupList_filter, List.flatMap_cons, List.flatMap_singleton, takeInt, Int.mul_comm, ← groupList_take]
    congr 3
    omega
  · rw [← groupList_take]
    split
    · rename_i hempty
      rw [List.isEmpty_iff.mp hempty]
      rfl
    · rw [List.flatMap_singleton]

theorem requiredWorkPairs_prefix (t : ScanState) {slots1 slots2 : Nat} (hle : slots1 ≤ slots2) :
    requiredWorkPairs t slots1 <+: requiredWorkPairs t slots2 := by
  have hmin : min slots1 t.scanState.maxBaseJobs ≤ min slots2 t.scanState.maxBaseJobs := by omega
  have hmin' : ((min slots1 t.scanState.maxBaseJobs : Nat) : Int) ≤ (min slots2 t.scanState.maxBaseJobs : Nat) := by
    exact_mod_cast hmin
  rw [requiredWorkPairs, requiredWorkPairs, ParallelScan.jobsForSlots, ParallelScan.jobsForSlots, flatMap_workForNextUpdate,
    flatMap_workForNextUpdate]
  by_cases h1 : ParallelScan.Tree.availableSpace t.scanState.trees.head < (min slots1 t.scanState.maxBaseJobs : Nat)
  · rw [if_pos h1, if_pos (Int.lt_of_lt_of_le h1 hmin')]
    exact (List.prefix_append_right_inj _).mpr (List.take_prefix_take_left (by omega))
  · rw [if_neg h1]
    split
    · exact (List.take_prefix _ _).trans (List.prefix_append _ _)
    · exact List.take_prefix_take_left hmin

theorem workForTree_cons (s : ParallelScan.State α β) (tree : ParallelScan.ScanTree α β) :
    workForTree { s with trees := s.trees.cons tree } .current = work s.trees.toList (s.delay + 1) s.maxBaseJobs := rfl

theorem allWorkStep_snd (depth : Nat) (s : ParallelScan.State α β) (sets : List (List (AvailableJob α β))) :
    (allWorkStep depth (s, sets)).2 =
      if (work s.trees.toList (s.delay + 1) s.maxBaseJobs).isEmpty then sets else work s.trees.toList (s.delay + 1) s.maxBaseJobs :: sets := by
  rw [allWorkStep, workForTree_cons]
  cases work s.trees.toList (s.delay + 1) s.maxBaseJobs <;> rfl

theorem allWorkStep_suffix (depth : Nat) (rounds : List Nat) (acc : ParallelScan.State α β × List (List (AvailableJob α β))) :
    acc.2 <:+ (rounds.foldl (fun acc _ => allWorkStep depth acc) acc).2 := by
  induction rounds generalizing acc with
  | nil => exact List.suffix_refl _
  | cons _ rounds ih =>
    refine List.IsSuffix.trans ?_ (ih (allWorkStep depth acc))
    rw [allWorkStep_snd]
    split
    · exact List.suffix_refl _
    · exact List.suffix_cons _ _

theorem flatMap_allWork (s : ParallelScan.State α β) : ∃ rest, (allWork s).flatMap OneOrTwo.groupList =
      OneOrTwo.groupList (work s.trees.tail (s.delay + 1) s.maxBaseJobs) ++
        OneOrTwo.groupList (work s.trees.toList (s.delay + 1) s.maxBaseJobs) ++ rest := by
  let sets := ((List.range (s.delay + 1)).foldl (fun acc _ => allWorkStep (ceilLog2 s.maxBaseJobs) acc) (s, [])).2
  have hsets : (allWorkStep (ceilLog2 s.maxBaseJobs) (s, [])).2 <:+ sets := by
    simp only [sets, List.range_succ_eq_map, List.foldl_cons]
    exact allWorkStep_suffix _ _ _
  obtain ⟨more, hmore⟩ := hsets
  have hfirst : (allWorkStep (ceilLog2 s.maxBaseJobs) (s, [])).2.reverse.flatMap OneOrTwo.groupList =
      OneOrTwo.groupList (work s.trees.toList (s.delay + 1) s.maxBaseJobs) := by
    rw [allWorkStep_snd]
    cases work s.trees.toList (s.delay + 1) s.maxBaseJobs with
    | nil => rfl
    | cons job jobs => exact List.append_nil _
  refine ⟨more.reverse.flatMap OneOrTwo.groupList, ?_⟩
  have hall : (allWork s).flatMap OneOrTwo.groupList =
      OneOrTwo.groupList (workForTree s .current) ++ sets.reverse.flatMap OneOrTwo.groupList := by
    unfold allWork
    dsimp only
    split
    · rename_i hempty
      rw [List.isEmpty_iff.mp hempty]
      rfl
    · rfl
  rw [hall, ← hmore, List.reverse_append, List.flatMap_append, hfirst, List.append_assoc]
  rfl

/-- All jobs, in pairs. -/
def jobPairs (t : ScanState) : List (OneOrTwo Job) := (ParallelScan.allJobs t.scanState).flatMap OneOrTwo.groupList

theorem requiredWorkPairs_prefix_jobPairs (t : ScanState) (slots : Nat) : requiredWorkPairs t slots <+: jobPairs t := by
  obtain ⟨rest, hrest⟩ := flatMap_allWork t.scanState
  rw [jobPairs, ParallelScan.allJobs, hrest, requiredWorkPairs, ParallelScan.jobsForSlots, flatMap_workForNextUpdate]
  refine List.IsPrefix.trans ?_ (List.prefix_append _ _)
  split
  · exact (List.prefix_append_right_inj _).mpr (List.take_prefix _ _)
  · exact (List.take_prefix _ _).trans (List.prefix_append _ _)

end ScanState

/-! ### What stands at a position -/

section Related

variable {A B : Type} {R : A → B → Prop}
  {f : A → Outcome ScanState.WorkError B} {p : OneOrTwo A} {q : OneOrTwo B} {xs : List A}

/-- As many on both sides, related one by one and in order. -/
def RelatedPairs (R : A → B → Prop) : OneOrTwo A → OneOrTwo B → Prop
  | .one a, .one b => R a b
  | .two a a', .two b b' => R a b ∧ R a' b'
  | _, _ => False

theorem RelatedPairs.imp {S : A → B → Prop} (h : ∀ a b, R a b → S a b) (hpq : RelatedPairs R p q) :
    RelatedPairs S p q := by
  cases p <;> cases q
  · exact h _ _ hpq
  · cases hpq
  · cases hpq
  · exact ⟨h _ _ hpq.1, h _ _ hpq.2⟩

theorem related_groupList {ys : List B} (h : List.Forall₂ R xs ys) :
    List.Forall₂ (RelatedPairs R) (OneOrTwo.groupList xs) (OneOrTwo.groupList ys) := by
  fun_induction OneOrTwo.groupList xs generalizing ys with
  | case1 =>
    cases h
    exact .nil
  | case2 a =>
    obtain _ | ⟨hab, ⟨⟩⟩ := h
    exact .cons hab .nil
  | case3 a a' rest ih =>
    obtain _ | ⟨hab, hrest⟩ := h
    obtain _ | ⟨hab', hrest⟩ := hrest
    exact .cons ⟨hab, hab'⟩ (ih hrest)

theorem related_of_mapM (h : OneOrTwo.mapM f p = .ok q) : RelatedPairs (fun a b => f a = .ok b) p q := by
  cases p with
  | one a =>
    obtain ⟨b, hb, hq⟩ := Outcome.bind_eq_ok.1 h
    cases hq
    exact hb
  | two a a' =>
    obtain ⟨b, hb, h⟩ := Outcome.bind_eq_ok.1 h
    obtain ⟨b', hb', hq⟩ := Outcome.bind_eq_ok.1 h
    cases hq
    exact ⟨hb, hb'⟩

theorem exists_mapM_pair (h : ∀ a ∈ xs, ∃ b, f a = .ok b) :
    ∀ p ∈ OneOrTwo.groupList xs, ∃ q, OneOrTwo.mapM f p = .ok q := by
  fun_induction OneOrTwo.groupList xs with
  | case1 => simp
  | case2 a =>
    obtain ⟨b, hb⟩ := h a List.mem_cons_self
    intro p hp
    obtain rfl := List.mem_singleton.mp hp
    exact ⟨.one b, by rw [OneOrTwo.mapM, hb]; rfl⟩
  | case3 a a' rest ih =>
    obtain ⟨b, hb⟩ := h a List.mem_cons_self
    obtain ⟨b', hb'⟩ := h a' (List.mem_cons_of_mem _ List.mem_cons_self)
    refine List.forall_mem_cons.mpr ⟨⟨.two b b', by rw [OneOrTwo.mapM, hb, hb']; rfl⟩, ih fun x hx => h x ?_⟩
    exact List.mem_cons_of_mem _ (List.mem_cons_of_mem _ hx)

end Related

namespace ScanState

variable {digests : StatementDigests} {workSeqs : List (List Job)}

section Statements

/-- The statement of a job. -/
abbrev HasStatement (digests : StatementDigests) (job : Job) (statement : Statement) : Prop := statementOfJob digests job = some statement

theorem related_pairedStatements {ws : List (OneOrTwo Statement)} (h : pairedStatements digests workSeqs = some ws) :
    List.Forall₂ (RelatedPairs (HasStatement digests)) (workSeqs.flatMap OneOrTwo.groupList) ws := by
  obtain ⟨wss, hwss, rfl⟩ := Option.map_eq_some_iff.mp h
  have hgroups := forall₂_of_mapM hwss
  clear h hwss
  induction hgroups with
  | nil => exact .nil
  | cons hgroup _ ih =>
    obtain ⟨statements, hstatements, rfl⟩ := Option.map_eq_some_iff.mp hgroup
    rw [List.flatMap_cons, List.flatten_cons]
    exact List.rel_append (related_groupList (forall₂_of_mapM hstatements)) ih

theorem exists_pairedStatements (h : ∀ jobs ∈ workSeqs, ∀ job ∈ jobs, ∃ statement, HasStatement digests job statement) :
    ∃ ws, pairedStatements digests workSeqs = some ws := by
  have hgroups : ∀ jobs ∈ workSeqs, ∃ group, (jobs.mapM (statementOfJob digests)).map OneOrTwo.groupList = some group ∧ True := by
    intro jobs hjobs
    obtain ⟨statements, hstatements, -⟩ := exists_mapM fun job hjob => (h jobs hjobs job hjob).imp fun _ hs => ⟨hs, trivial⟩
    exact ⟨_, by rw [hstatements]; rfl, trivial⟩
  obtain ⟨wss, hwss, -⟩ := exists_mapM hgroups
  exact ⟨wss.flatten, by rw [pairedStatements, hwss]; rfl⟩

end Statements

variable {ProtocolState Body : Type}

section Specs

variable {body : ProtocolState → Body} {getState : Nat → Except String ProtocolState} {pairs : List (OneOrTwo Job)}
  {job : Job}

/-- The specification of a job. -/
abbrev HasSpec (digests : StatementDigests) (body : ProtocolState → Body) (getState : Nat → Except String ProtocolState) (job : Job)
    (spec : SingleSpec (TransactionWitness Body)) : Prop :=
  singleSpec digests body getState job = .ok spec

theorem HasSpec.statement {spec : SingleSpec (TransactionWitness Body)} (h : HasSpec digests body getState job spec) :
    HasStatement digests job spec.statement := by
  cases job with
  | base d =>
    obtain ⟨state, -, h⟩ := Outcome.bind_eq_ok.1 h
    obtain ⟨initStack, -, h⟩ := Outcome.bind_eq_ok.1 h
    cases h
    rfl
  | merge p1 p2 =>
    obtain ⟨merged, hmerged, h⟩ := Outcome.bind_eq_ok.1 h
    cases h
    rw [HasStatement, statementOfJob, Outcome.mapError_eq_ok.1 hmerged]
    rfl

theorem exists_hasSpec {statement : Statement} (h : HasStatement digests job statement)
    (hbase : ∀ d, job = .base d → (∃ state, getState d.stateHash.1 = .ok state) ∧ ∃ x, d.initStack = .base x) :
    ∃ spec, HasSpec digests body getState job spec := by
  cases job with
  | base d =>
    obtain ⟨⟨state, hstate⟩, x, hx⟩ := hbase d rfl
    exact ⟨_, by rw [HasSpec, singleSpec, stateOf, hstate, hx]; rfl⟩
  | merge p1 p2 =>
    rw [HasStatement, statementOfJob] at h
    cases hmerged : Statement.merge digests p1.1.statement p2.1.statement with
    | ok s => exact ⟨_, by rw [HasSpec, singleSpec, hmerged]; rfl⟩
    | error e =>
      rw [hmerged] at h
      cases h
    | raise =>
      rw [hmerged] at h
      cases h

theorem foldl_specsListStep {acc : Outcome WorkError (List (OneOrTwo (SingleSpec (TransactionWitness Body))))}
    {list : List (OneOrTwo (SingleSpec (TransactionWitness Body)))} (h : pairs.foldl (specsListStep digests body getState) acc = .ok list) :
    ∃ start specs, acc = .ok start ∧ list = specs.reverse ++ start ∧ List.Forall₂ (RelatedPairs (HasSpec digests body getState)) pairs specs := by
  induction pairs generalizing acc with
  | nil => exact ⟨list, [], h, rfl, .nil⟩
  | cons pair pairs ih =>
    obtain ⟨next, specs, hnext, rfl, hspecs⟩ := ih h
    obtain ⟨start, rfl, hpair⟩ := Outcome.bind_eq_ok.1 hnext
    obtain ⟨spec, hspec, hspecNext⟩ := Outcome.bind_eq_ok.1 hpair
    cases hspecNext
    exact ⟨start, spec :: specs, rfl, by simp, .cons (related_of_mapM hspec) hspecs⟩

theorem related_allWorkPairsFrom {acc ps : List (OneOrTwo (SingleSpec (TransactionWitness Body)))}
    (h : allWorkPairsFrom digests body getState acc workSeqs = .ok ps) :
    ∃ specs, ps = acc ++ specs ∧ List.Forall₂ (RelatedPairs (HasSpec digests body getState)) (workSeqs.flatMap OneOrTwo.groupList) specs := by
  induction workSeqs generalizing acc with
  | nil =>
    cases h
    exact ⟨[], (List.append_nil _).symm, .nil⟩
  | cons jobs workSeqs ih =>
    obtain ⟨list, hlist, h⟩ := Outcome.bind_eq_ok.1 h
    obtain ⟨start, specs, hstart, rfl, hspecs⟩ := foldl_specsListStep hlist
    cases hstart
    obtain ⟨rest, rfl, hrest⟩ := ih h
    exact ⟨specs ++ rest, by simp, List.rel_append hspecs hrest⟩

theorem exists_specsList (h : ∀ pair ∈ pairs, ∃ spec, OneOrTwo.mapM (singleSpec digests body getState) pair = .ok spec)
    (acc : List (OneOrTwo (SingleSpec (TransactionWitness Body)))) :
    ∃ list, pairs.foldl (specsListStep digests body getState) (.ok acc) = .ok list := by
  induction pairs generalizing acc with
  | nil => exact ⟨acc, rfl⟩
  | cons pair pairs ih =>
    obtain ⟨⟨spec, hspec⟩, hpairs⟩ := List.forall_mem_cons.mp h
    obtain ⟨list, hlist⟩ := ih hpairs (spec :: acc)
    refine ⟨list, ?_⟩
    have hstep : specsListStep digests body getState (.ok acc) pair = .ok (spec :: acc) := by
      change (OneOrTwo.mapM (singleSpec digests body getState) pair).bind _ = _
      rw [hspec]
      rfl
    rw [List.foldl_cons, hstep, hlist]

theorem exists_allWorkPairsFrom (h : ∀ jobs ∈ workSeqs, ∀ job ∈ jobs, ∃ spec, HasSpec digests body getState job spec)
    (acc : List (OneOrTwo (SingleSpec (TransactionWitness Body)))) :
    ∃ ps, allWorkPairsFrom digests body getState acc workSeqs = .ok ps := by
  induction workSeqs generalizing acc with
  | nil => exact ⟨acc, rfl⟩
  | cons jobs workSeqs ih =>
    obtain ⟨hjobs, hworkSeqs⟩ := List.forall_mem_cons.mp h
    obtain ⟨list, hlist⟩ := exists_specsList (exists_mapM_pair hjobs) []
    obtain ⟨ps, hps⟩ := ih hworkSeqs (acc ++ list.reverse)
    refine ⟨ps, ?_⟩
    change ((OneOrTwo.groupList jobs).foldl (specsListStep digests body getState) (.ok [])).bind _ = _
    rw [hlist]
    exact hps

end Specs

/-! ### Jobs that have statements -/

section Scanned

variable {r : Outcome InvariantError ScanAcc} {acc : ScanAcc}

theorem mergeTodo_of_foldStepA {acc' : ScanAcc} {m : ParallelScan.MergeNode LedgerProofWithSokMessage}
    (h : foldStepA digests acc m.2 = .ok acc') :
    ParallelScan.MergeTodo (β := TransactionWithWitness) (fun job => ∃ statement, HasStatement digests job statement) m := by
  intro left right seqNo hfull
  rw [hfull] at h
  obtain ⟨merged, hmerged, -⟩ := Outcome.bind_eq_ok.1 h
  exact ⟨merged, by rw [HasStatement, statementOfJob, Outcome.mapError_eq_ok.1 hmerged]⟩

theorem continueOrStop_eq_continue (h : continueOrStop r = .continue acc) : r = .ok acc := by
  cases r <;> cases h
  rfl

theorem continueOrStop_eq_stop {f : Outcome InvariantError ScanAcc} (h : continueOrStop r = .stop f) : f.isOk = false := by
  cases r <;> cases h <;> rfl

theorem exists_statement {t : ScanState} {s : Option Statement} (h : scanStatement digests t = .ok s) :
    ∀ jobs ∈ ParallelScan.allJobs t.scanState, ∀ job ∈ jobs, ∃ statement, HasStatement digests job statement := by
  obtain ⟨acc, hacc, -⟩ := Outcome.bind_eq_ok.1 h
  have hended : ¬ (ParallelScan.foldChronologicalUntil t.scanState (⟨none, none⟩ : ScanAcc)
      (fun acc node => continueOrStop (foldStepA digests acc node.2))
      (fun acc node => continueOrStop (foldStepD digests acc node.2)) .ok).isOk = false := by
    rw [hacc]
    simp [Outcome.isOk]
  exact ParallelScan.mem_allWork (ParallelScan.treeTodo_of_foldChronologicalUntil
    (S := fun r : Outcome InvariantError ScanAcc => r.isOk = false)
    (fun acc m acc' hm => mergeTodo_of_foldStepA (continueOrStop_eq_continue hm)) (fun acc b acc' hb job seqNo _ => ⟨_, rfl⟩)
    (fun acc m f hm => continueOrStop_eq_stop hm) (fun acc b f hb => continueOrStop_eq_stop hb) hended)

end Scanned

/-! ### The pairs agree -/

section Agree

/-- The lists of pairs that workers are told of and that a block needs. -/
def Listed (t : ScanState) (pairs : List (OneOrTwo Job)) : Prop :=
  (∃ slots, slots ≤ t.scanState.maxBaseJobs ∧ pairs = requiredWorkPairs t slots) ∨ ∃ k, pairs = kWorkPairsForNewDiff t k

theorem kWorkPairsForNewDiff_eq (t : ScanState) (k : Nat) :
    kWorkPairsForNewDiff t k = (requiredWorkPairs t t.scanState.maxBaseJobs).take k := rfl

theorem Listed.prefix_jobPairs {t : ScanState} {pairs : List (OneOrTwo Job)} (h : Listed t pairs) : pairs <+: jobPairs t := by
  rcases h with ⟨slots, -, rfl⟩ | ⟨k, rfl⟩
  · exact requiredWorkPairs_prefix_jobPairs t slots
  · exact (List.take_prefix _ _).trans (requiredWorkPairs_prefix_jobPairs t _)

/-- Lists of pairs for fewer slots, or for fewer pairs, are beginnings of those for more, and what is listed stands where its
statements and its specifications do. Where the statements of the scan state merge, which is checked after an update, there are these. -/
theorem work_pairs_agree (digests : StatementDigests) (t : ScanState) (body : ProtocolState → Body)
    (getState : Nat → Except String ProtocolState) :
    (∀ slots1 slots2, slots1 ≤ slots2 → slots2 ≤ t.scanState.maxBaseJobs → requiredWorkPairs t slots1 <+: requiredWorkPairs t slots2) ∧
      (∀ k, kWorkPairsForNewDiff t k = (requiredWorkPairs t t.scanState.maxBaseJobs).take k) ∧
      (∀ pairs, Listed t pairs → ∀ (i : Nat) (pair : OneOrTwo Job), pairs[i]? = some pair →
        (∀ ws, allWorkStatementsExn digests t = some ws → ∃ statements, ws[i]? = some statements ∧
          RelatedPairs (fun job statement => statementOfJob digests job = some statement) pair statements) ∧
        ∀ ps, allWorkPairs digests body getState t = .ok ps → ∃ specs, ps[i]? = some specs ∧
          RelatedPairs (fun job spec => singleSpec digests body getState job = .ok spec ∧
            statementOfJob digests job = some spec.statement) pair specs) ∧
      ∀ s, scanStatement digests t = .ok s → (∃ ws, allWorkStatementsExn digests t = some ws) ∧
        ((∀ jobs ∈ ParallelScan.allJobs t.scanState, ∀ d, AvailableJob.base d ∈ jobs →
          (∃ state, getState d.stateHash.1 = .ok state) ∧ ∃ x, d.initStack = .base x) →
          ∃ ps, allWorkPairs digests body getState t = .ok ps) := by
  refine ⟨fun slots1 slots2 hle _ => requiredWorkPairs_prefix t hle, kWorkPairsForNewDiff_eq t, fun pairs hpairs i pair hi => ?_,
    fun s hs => ?_⟩
  · have hpair : (jobPairs t)[i]? = some pair := by
      obtain ⟨rest, hrest⟩ := hpairs.prefix_jobPairs
      rw [← hrest, List.getElem?_append_left (List.getElem?_eq_some_iff.mp hi).1]
      exact hi
    refine ⟨fun ws hws => getElem?_of_forall₂ (related_pairedStatements hws) hpair, fun ps hps => ?_⟩
    obtain ⟨specs, rfl, hrelated⟩ := related_allWorkPairsFrom hps
    obtain ⟨spec, hspec, hpairSpec⟩ := getElem?_of_forall₂ hrelated hpair
    exact ⟨spec, hspec, hpairSpec.imp fun job spec hspec => ⟨hspec, HasSpec.statement hspec⟩⟩
  · have hstatement := exists_statement hs
    refine ⟨exists_pairedStatements hstatement, fun hbase => exists_allWorkPairsFrom (fun jobs hjobs job hjob => ?_) []⟩
    obtain ⟨statement, hstatement⟩ := hstatement jobs hjobs job hjob
    refine exists_hasSpec hstatement fun d hd => hbase jobs hjobs d ?_
    rw [← hd]
    exact hjob

end Agree

end ScanState

end StagedLedger

end MinaProtocol
