import MinaProtocol.ParallelScan.Step
import Mathlib.Algebra.BigOperators.Group.Finset.Basic
import Mathlib.Algebra.Order.Group.Multiset

/-!
# ParallelScan.Stranded

Which jobs `all_jobs` lists. The test that lets `update` accept a block with less
than the required work looks at the number of jobs only, and it asks for no more
jobs than the new data could pay for. It does not see to it that the jobs of the
current level are done before the current tree is full. When they are not, the
trees move on and the jobs left behind are never listed again (`stranded_job`). As long as
every update that fills the current tree brings the rest of the current jobs,
the jobs to do and the jobs listed are the same (`allJobs_perm_todoJobs`).
-/

namespace MinaProtocol.ParallelScan

open PerfectTree

variable {α β : Type} {n : Nat} {V : List β → α → Prop}

/-! ### The jobs to do -/

/-- The job of a record that is still to do. -/
def recordTodo : Job (Merge.Record α) (Base.Record β) → List (AvailableJob α β)
  | .merge { left := l, right := r, seqNo := _, status := .todo } => [.merge l r]
  | .base { job := d, seqNo := _, status := .todo } => [.base d]
  | _ => []

/-- All jobs with status `Todo`, anywhere in the trees. -/
def todoJobs (s : State α β) : List (AvailableJob α β) :=
  s.trees.toList.flatMap fun tree => (Tree.jobsRecords tree).flatMap recordTodo

/-- An update that does all current jobs if its data fills the current tree. -/
def FinishesLevel (s : State α β) (data : List β) (jobs : List α) : Prop :=
  (data.length : Int) < Tree.availableSpace s.trees.head
    ∨ (workForTree s .current).length ≤ jobs.length

/-- The states reached by accepted updates that finish a level before they fill a tree. -/
inductive FinishingRun (k delay : Nat) : State α β → Prop where
  | empty : FinishingRun k delay (empty (2 ^ k) delay)
  | update {s s' : State α β} {data : List β} {jobs : List α} {r : Option (α × List β)} :
      FinishingRun k delay s → FinishesLevel s data jobs → update data jobs s = .ok (r, s') →
      FinishingRun k delay s'

/-- An accepted block can leave a job behind: with two transactions per tree, the
second leaf of the first tree is still to do and in no list. -/
theorem stranded_job : ∃ s : State Nat Nat, Reachable 2 0 s ∧ AvailableJob.base 1 ∈ todoJobs s
      ∧ AvailableJob.base 1 ∉ (allJobs s).flatten := by
  have r1 := Reachable.update (.empty : Reachable 2 0 (empty 2 0 : State Nat Nat))
    (show update [0, 1] [] _ = .ok (_, _) from rfl)
  have r2 := Reachable.update r1 (show update [2, 3] [0] _ = .ok (_, _) from rfl)
  exact ⟨_, r2, by decide, by decide⟩

/-! ### The jobs of one tree -/

namespace BTree

/-- The record of a merge node, if it has one. -/
def mergeRecord (m : MergeNode α) : List (Job (Merge.Record α) (Base.Record β)) :=
  match m.2 with
  | .full x => [.merge x]
  | _ => []

/-- The record of a leaf, if it has one. -/
def baseRecord (b : BaseNode β) : List (Job (Merge.Record α) (Base.Record β)) :=
  match b.2 with
  | .full x => [.base x]
  | .empty => []

theorem jobsRecords_toTree (t : BTree α β n) : Tree.jobsRecords (toTree 0 t)
      = ((levels 0 t).flatMap fun p => mergeRecord p.2) ++ t.leaves.flatMap baseRecord := by
  simp only [Tree.jobsRecords, Tree.fold, foldDepth_toTree]
  rw [foldl_collect (fun p : Int × MergeNode α => mergeRecord p.2), foldl_collect baseRecord]
  · simp
  · intro acc b
    rcases b with ⟨w, _ | r⟩ <;> rfl
  · intro acc p
    rcases p with ⟨i, w, _ | _ | r⟩ <;> rfl

theorem mergeRecord_todo (m : MergeNode α) : (mergeRecord m).flatMap (recordTodo (β := β)) = mergeTodo m.2 := by
  rcases m with ⟨w, _ | _ | ⟨x, y, s, _ | _⟩⟩ <;> rfl

theorem baseRecord_todo (b : BaseNode β) : (baseRecord b).flatMap (recordTodo (α := α)) = baseTodo b.2 := by
  rcases b with ⟨w, _ | ⟨d, s, _ | _⟩⟩ <;> rfl

theorem todo_toTree (t : BTree α β n) : (Tree.jobsRecords (toTree 0 t)).flatMap recordTodo
      = (List.range (n + 1)).flatMap fun a => jobsAt a t := by
  have hlev : ∀ a ∈ List.range n, jobsAt a t = (level a t).flatMap fun m => mergeTodo m.2 := by
    intro a ha
    have hne : a ≠ n := by rw [List.mem_range] at ha; omega
    rw [jobsAt_eq, if_neg hne, List.append_nil]
  rw [jobsRecords_toTree, List.flatMap_append, List.range_succ, List.flatMap_append,
    List.flatMap_singleton, jobsAt_eq n, if_pos rfl, level_eq_nil (Nat.le_refl n), List.flatMap_congr hlev]
  simp only [levels, List.flatMap_assoc, List.flatMap_map, mergeRecord_todo, baseRecord_todo,
    List.flatMap_nil, List.nil_append]

theorem coe_flatMap_range {X : Type} (f : Nat → List X) (m : Nat) :
    (((List.range m).flatMap f : List X) : Multiset X) = ∑ a ∈ Finset.range m, (f a : Multiset X) := by
  induction m with
  | zero => rfl
  | succ m ih =>
    rw [List.range_succ, List.flatMap_append, List.flatMap_singleton, ← Multiset.coe_add, ih, Finset.sum_range_succ]

variable {t : BTree α β n} {a : Nat}

theorem Active.sum_jobsAt {c : Nat} (h : Active V a c t) :
    ∑ b ∈ Finset.range (n + 1), (jobsAt b t : Multiset (AvailableJob α β))
      = jobsAt a t + if 0 < a then (jobsAt (a - 1) t : Multiset (AvailableJob α β)) else 0 := by
  have ha := h.le_height
  have hother : ∀ b ∈ Finset.range (n + 1), b ≠ a → b ≠ a - 1 ∨ a = 0 →
      (jobsAt b t : Multiset (AvailableJob α β)) = 0 := by
    intro b _ hb hb'
    rw [jobsAt_other h hb (by omega)]
    rfl
  split_ifs with hpos
  · refine Finset.sum_eq_add_of_mem a (a - 1) (by simp; omega) (by simp; omega) (by omega) ?_
    intro b hb hne
    exact hother b hb hne.1 (.inl hne.2)
  · rw [add_zero]
    refine Finset.sum_eq_single_of_mem a (by simp; omega) ?_
    intro b hb hne
    exact hother b hb hne (.inr (by omega))

theorem Active.sum_jobsAt_zero (h : Active V a 0 t) :
    ∑ b ∈ Finset.range (n + 1), (jobsAt b t : Multiset (AvailableJob α β)) = jobsAt a t := by
  rw [h.sum_jobsAt]
  split_ifs with hpos
  · obtain ⟨a, rfl⟩ : ∃ a', a = a' + 1 := ⟨a - 1, by omega⟩
    have hnil : jobsAt a t = [] := List.length_eq_zero_iff.1 (jobsAt_above h)
    rw [Nat.add_sub_cancel, hnil, Multiset.coe_nil, add_zero]
  · exact add_zero _

theorem Filling.sum_jobsAt {ds : List β} (h : Filling ds t) :
    ∑ b ∈ Finset.range (n + 1), (jobsAt b t : Multiset (AvailableJob α β)) = jobsAt n t := by
  refine Finset.sum_eq_single_of_mem n (by simp) ?_
  intro b _ hne
  rw [h.jobsAt_other hne]
  rfl

end BTree

/-! ### The jobs listed -/

namespace BState

open BTree

variable {D : Nat}

/-- In `D + 1` consecutive places a tree is listed with its level and, if it is
worked on in the first of them, also with the level above. -/
theorem sum_workOf (hD : 0 < D) (i : Nat) (t : BTree α β n) :
    ∑ s ∈ Finset.range (D + 1), (workOf D (i + s) t : Multiset (AvailableJob α β))
      = (if i / D ≤ n then (jobsAt (n - i / D) t : Multiset (AvailableJob α β)) else 0)
        + if i % D = D - 1 ∧ i / D + 1 ≤ n then
            (jobsAt (n - (i / D + 1)) t : Multiset (AvailableJob α β)) else 0 := by
  have hmod := Nat.mod_lt i hD
  have hdm := Nat.div_add_mod i D
  rw [Finset.sum_range_succ]
  congr 1
  · rw [Finset.sum_eq_single_of_mem (D - 1 - i % D) (by simp; omega)]
    · have hs : i + (D - 1 - i % D) = D * (i / D) + (D - 1) := by omega
      have h1 : (i + (D - 1 - i % D)) % D = D - 1 := by
        rw [hs, Nat.mul_add_mod]
        exact Nat.mod_eq_of_lt (by omega)
      have h2 : (i + (D - 1 - i % D)) / D = i / D := by
        rw [hs, Nat.mul_add_div hD, Nat.div_eq_of_lt (show D - 1 < D by omega), Nat.add_zero]
      rw [workOf, h1, h2]
      split_ifs with h h' h'
      · rfl
      · exact absurd h.2 h'
      · exact absurd ⟨rfl, h'⟩ h
      · rfl
    · intro s hs hne
      have hsD : s < D := by simpa using hs
      have hno : ¬ (i + s) % D = D - 1 := by
        intro hc
        by_cases hlt : i % D + s < D
        · rw [← hdm, Nat.add_assoc, Nat.mul_add_mod, Nat.mod_eq_of_lt hlt] at hc
          omega
        · rw [← hdm, Nat.add_assoc, Nat.mul_add_mod, Nat.mod_eq_sub_mod (by omega), Nat.mod_eq_of_lt (by omega)] at hc
          omega
      rw [workOf, if_neg (fun hc => hno hc.1)]
      rfl
  · rw [workOf, Nat.add_mod_right, Nat.add_div_right _ hD]
    split_ifs <;> rfl

/-- The jobs to do in a tree. -/
def todo (t : BTree α β n) : List (AvailableJob α β) :=
  (List.range (n + 1)).flatMap fun a => jobsAt a t

theorem coe_todo (t : BTree α β n) :
    (todo t : Multiset (AvailableJob α β)) = ∑ b ∈ Finset.range (n + 1), ↑(jobsAt b t) :=
  coe_flatMap_range _ _

theorem sum_workFrom_cons (D i : Nat) (t : BTree α β n) (ts : List (BTree α β n)) :
    ∑ s ∈ Finset.range (D + 1), (workFrom D (i + s) (t :: ts) : Multiset (AvailableJob α β))
      = ∑ s ∈ Finset.range (D + 1), (workOf D (i + s) t : Multiset (AvailableJob α β))
        + ∑ s ∈ Finset.range (D + 1), (workFrom D (i + 1 + s) ts : Multiset (AvailableJob α β)) := by
  rw [← Finset.sum_add_distrib]
  refine Finset.sum_congr rfl fun s _ => ?_
  rw [workFrom, ← Multiset.coe_add, show i + s + 1 = i + 1 + s by omega]

variable {ts : List (BTree α β n)} {i : Nat}

/-- In a phase, the lists of `D + 1` places hold every job to do. -/
theorem Working.sum_workFrom {m : Nat} (hD : 0 < D) (h : Working V D i m ts) :
    ∑ s ∈ Finset.range (D + 1), (workFrom D (i + s) ts : Multiset (AvailableJob α β))
      = (ts.flatMap todo : List (AvailableJob α β)) := by
  induction ts generalizing i m with
  | nil => simp [workFrom]
  | cons t ts ih =>
    obtain ⟨hi, h⟩ := h
    rw [sum_workFrom_cons, sum_workOf hD, List.flatMap_cons, ← Multiset.coe_add, coe_todo, if_pos hi]
    by_cases hw : i % D = D - 1
    · rw [if_pos hw] at h
      rw [ih h.2, h.1.sum_jobsAt]
      congr 2
      by_cases hlev : i / D + 1 ≤ n
      · rw [if_pos ⟨hw, hlev⟩, if_pos (by omega)]
        rfl
      · rw [if_neg (fun hc => hlev hc.2), if_neg (by omega)]
    · rw [if_neg hw] at h
      rw [ih h.2, h.1.sum_jobsAt_zero, if_neg (fun hc => hw hc.1), add_zero]

/-- Between two phases, too. -/
theorem Ready.sum_workFrom (hD : 0 < D) (h : Ready V D i ts) :
    ∑ s ∈ Finset.range (D + 1), (workFrom D (i + s) ts : Multiset (AvailableJob α β))
      = (ts.flatMap todo : List (AvailableJob α β)) := by
  induction ts generalizing i with
  | nil => simp [workFrom]
  | cons t ts ih =>
    obtain ⟨hi, ht, hts⟩ := h
    rw [sum_workFrom_cons, sum_workOf hD, List.flatMap_cons, ← Multiset.coe_add, coe_todo, ih hts, ht.sum_jobsAt_zero]
    congr 1
    by_cases hw : i % D = D - 1
    · -- the jobs are one level above the place the tree still has
      rw [succ_div_of_last hD hw] at hi ht ⊢
      have hc : i % D = D - 1 ∧ i / D + 1 ≤ n := ⟨hw, hi⟩
      rw [jobsAt_other ht (b := n - i / D) (by omega) (by omega), if_pos hc, Multiset.coe_nil, ite_self, zero_add]
    · rw [succ_div_of_not_last hD hw] at hi ⊢
      rw [if_pos hi, if_neg (fun hc => hw hc.1), add_zero]

theorem workFrom_replicate_empty (D i k : Nat) (ts : List (BTree α β n)) :
    workFrom D i (List.replicate k (BTree.empty n) ++ ts) = workFrom D (i + k) ts := by
  induction k generalizing i with
  | zero => rfl
  | succ k ih =>
    have hf : Filling [] (BTree.empty n : BTree α β n) := filling_empty
    have hnil : workOf D i (BTree.empty n : BTree α β n) = [] := by
      rw [workOf]
      split_ifs
      · by_cases hlev : n - i / D = n
        · rw [hlev, hf.jobsAt_leaves, List.map_nil]
        · exact hf.jobsAt_other hlev
      · rfl
    rw [List.replicate_succ, List.cons_append, workFrom, hnil, List.nil_append, ih,
      show i + 1 + k = i + (k + 1) by omega]

theorem iterate_shift_tail (b : BState α β n) (s : Nat) :
    (shift^[s + 1] b).tail = List.replicate s (BTree.empty n) ++ b.head :: b.tail := by
  have hhead : ∀ s, (shift^[s + 1] b).head = BTree.empty n := by
    intro s
    rw [Function.iterate_succ_apply']
    rfl
  induction s with
  | zero => rfl
  | succ s ih =>
    rw [Function.iterate_succ_apply']
    show (shift^[s + 1] b).head :: (shift^[s + 1] b).tail = _
    rw [ih, hhead, List.replicate_succ, List.cons_append]

/-- The list for `s` more trees in front. -/
theorem iterate_shift_workCurrent (b : BState α β n) (s : Nat) : (shift^[s + 1] b).workCurrent
      = workOf (b.delay + 1) s b.head ++ workFrom (b.delay + 1) (s + 1) b.tail := by
  rw [workCurrent, iterate_shift_delay, iterate_shift_tail, workFrom_replicate_empty, workFrom, Nat.zero_add]

variable {b : BState α β n}

/-- **The lists of `all_jobs` hold exactly the jobs to do.** -/
theorem Inv.allJobs_todo (h : Inv V b) : ((allJobs b.toState).flatten : Multiset (AvailableJob α β))
      = ((b.head :: b.tail).flatMap todo : List (AvailableJob α β)) := by
  have hD : 0 < b.delay + 1 := Nat.succ_pos _
  have hflat : ∀ l : List (List (AvailableJob α β)), (l.filter fun w => !w.isEmpty).flatten
      = l.flatten := by
    intro l
    induction l with
    | nil => rfl
    | cons w l ih => cases w <;> simp_all
  have htail : ∑ s ∈ Finset.range (b.delay + 1 + 1),
      (workFrom (b.delay + 1) s b.tail : Multiset (AvailableJob α β))
        = (b.tail.flatMap todo : List (AvailableJob α β)) := by
    rcases h.tail.phase with hr | ⟨m, -, -, hw⟩
    · simpa using hr.sum_workFrom hD
    · simpa using hw.sum_workFrom hD
  have hhead : ∑ s ∈ Finset.range (b.delay + 1),
      (workOf (b.delay + 1) s b.head : Multiset (AvailableJob α β)) = todo b.head := by
    rw [coe_todo, h.filling.sum_jobsAt, Finset.sum_eq_single_of_mem b.delay (by simp)]
    · have hdiv : b.delay / (b.delay + 1) = 0 := Nat.div_eq_of_lt (by omega)
      rw [workOf, hdiv, Nat.mod_eq_of_lt (by omega), if_pos ⟨by omega, Nat.zero_le _⟩, Nat.sub_zero]
    · intro s hs hne
      have hlt : s < b.delay + 1 := by simpa using hs
      rw [workOf, Nat.mod_eq_of_lt hlt, if_neg (by omega)]
      rfl
  rw [allJobs, allWork_toState, hflat, ← List.flatMap_def, coe_flatMap_range, Finset.sum_range_succ']
  simp only [iterate_shift_workCurrent, ← Multiset.coe_add, Finset.sum_add_distrib, hhead]
  rw [List.flatMap_cons, ← Multiset.coe_add, ← htail, Finset.sum_range_succ' _ (b.delay + 1), add_assoc]
  rfl

/-! ### Accepted updates -/

variable {p : Option (α × List β) × BState α β n} {jobs : List α} {new : List β}

theorem finishing_halves (hV : ∀ d v, V d v) (hb : Inv V b) (hfin : new.length + b.head.data.length < 2 ^ n
      ∨ b.workCurrent.length ≤ jobs.length)
    (hp : b.step new jobs = some p) :
    ∃ r b2 b4, b.first new jobs = some (r, b2) ∧ Inv V b2
      ∧ (jobs.drop b.workCurrent.length).length ≤ b2.workCurrent.length
      ∧ b2.second (dropInt new b.head.space) (jobs.drop b.workCurrent.length) = some b4
      ∧ Inv V b4 ∧ p = (r, { b4 with acc := r.or b4.acc }) := by
  rw [step_eq] at hp
  by_cases hmax : new.length > b.maxBaseJobs
  · rw [if_pos hmax] at hp
    cases hp
  by_cases hins : insufficientJobs b.toState new.length jobs.length
  · rw [if_neg hmax, if_pos hins] at hp
    cases hp
  rw [if_neg hmax, if_neg hins] at hp
  obtain ⟨⟨r, b2⟩, hfirst, hp⟩ := Option.bind_eq_some_iff.1 hp
  obtain ⟨b4, hsec, hp⟩ := Option.bind_eq_some_iff.1 hp
  simp only at hsec hp
  have hfits : Fits V (b.delay + 1) b.incrSeqNo.tail (jobs.take b.workCurrent.length) := by
    refine fits_of_length hV ?_
    rw [incrSeqNo_workFrom, List.length_take]
    exact Nat.min_le_left _ _
  have hroom := hb.room
  have hmax' := hb.maxBaseJobs_eq
  -- once the state between the halves is in order, so is the one after
  have hlast : Inv V b2 → b2.head.data.length + (dropInt new b.head.space).length < 2 ^ n →
      (jobs.drop b.workCurrent.length).length ≤ b2.workCurrent.length ∧ Inv V b4
        ∧ p = (r, { b4 with acc := r.or b4.acc }) := by
    intro hb2 hlen
    have hjs : (jobs.drop b.workCurrent.length).length ≤ b2.workCurrent.length := by
      obtain ⟨q, hq, -⟩ := Option.bind_eq_some_iff.1 hsec
      rw [addMerge] at hq
      split_ifs at hq with h1 h2
      · rw [h1]
        exact Nat.zero_le _
      · omega
    obtain ⟨_, b4', hsec', hb4, -⟩ := second_inv hb2 _ (fits_of_length hV hjs) hjs hlen
    obtain rfl : b4 = b4' := Option.some.inj (hsec.symm.trans hsec')
    split_ifs at hp
    exact ⟨hjs, hb4, (Option.some.inj hp).symm⟩
  have hdrop : (dropInt new b.head.space).length = new.length - (2 ^ n - b.head.data.length) := by
    rw [dropInt, hb.space_eq, Int.toNat_natCast, List.length_drop]
  by_cases hfill : new.length + b.head.data.length < 2 ^ n
  · obtain ⟨r', b2', hfirst', hb2, -, -, hdata, -⟩ := first_open hb new hfits (by omega)
    obtain ⟨rfl, rfl⟩ := Prod.ext_iff.1 (Option.some.inj (hfirst.symm.trans hfirst'))
    obtain ⟨hjs, hb4, hp⟩ := hlast hb2 (by simp only [hdata, List.length_append, hdrop]; omega)
    exact ⟨r, b2, b4, hfirst, hb2, hjs, hsec, hb4, hp⟩
  · obtain ⟨r', t, ts, b2', hfirst', hhead, htail, hdelay, hm2, ht, -, -, hcomp, -⟩ :=
      first_full hb new hfits (by omega) (hfin.resolve_left hfill)
    obtain ⟨rfl, rfl⟩ := Prod.ext_iff.1 (Option.some.inj (hfirst.symm.trans hfirst'))
    rcases hcomp with hr | ⟨hn, hlen⟩
    · rw [← hdelay] at hr
      obtain ⟨hb2, -, hnil⟩ := inv_filled (hm2.trans hmax') hhead htail ht hr
      obtain ⟨hjs, hb4, hp⟩ := hlast hb2 (by simp only [hnil, List.length_nil, hdrop]; omega)
      exact ⟨r, b2, b4, hfirst, hb2, hjs, hsec, hb4, hp⟩
    · -- single leaves: the list of trees has become too long
      rw [← hdelay] at hlen
      rw [if_pos (second_leaf_too_long hn htail hlen hsec)] at hp
      cases hp

/-- **One accepted update** that finishes the level before it fills the tree keeps
the invariant, whatever the numbers of data and jobs are. -/
theorem step_finishing (hV : ∀ d v, V d v) (hb : Inv V b) (hfin : new.length + b.head.data.length < 2 ^ n
      ∨ b.workCurrent.length ≤ jobs.length)
    (hp : b.step new jobs = some p) : Inv V p.2 := by
  obtain ⟨r, b2, b4, -, -, -, -, hb4, rfl⟩ := finishing_halves hV hb hfin hp
  exact ⟨hb4.maxBaseJobs_eq, hb4.filling, hb4.room, hb4.tail⟩

end BState

/-! ### The result -/

theorem FinishesLevel.finishes {b : BState α β n} {new : List β} {jobs : List α} (h : FinishesLevel b.toState new jobs)
    (hb : BState.Inv V b) : new.length + b.head.data.length < 2 ^ n ∨ b.workCurrent.length ≤ jobs.length := by
  rcases h with hfin | hfin
  · rw [show b.toState.trees.head = toTree 0 b.head from rfl, BTree.space_toTree, hb.space_eq] at hfin
    exact .inl (by omega)
  · exact .inr (by rwa [← b.work_tail])

theorem finishingRun_inv {k delay : Nat} {s : State α β} (h : FinishingRun k delay s) :
    ∃ b : BState α β (ceilLog2 (2 ^ k)), b.toState = s ∧ BState.Inv (fun _ _ => True) b := by
  induction h with
  | empty => exact ⟨_, (BState.empty_toState _ _).symm, BState.inv_empty k delay⟩
  | update _ hfin hu ih =>
    obtain ⟨b, rfl, hb⟩ := ih
    obtain ⟨b', hb', rfl⟩ := BState.update_ok hu
    exact ⟨b', rfl, BState.step_finishing (fun _ _ => trivial) hb (hfin.finishes hb) hb'⟩

/-- **No stranded work**, in every run of accepted updates that finish the current
level before they fill the current tree: the jobs listed are the jobs to do. -/
theorem allJobs_perm_todoJobs {k delay : Nat} {s : State α β} (h : FinishingRun k delay s) :
    (allJobs s).flatten.Perm (todoJobs s) := by
  obtain ⟨b, rfl, hb⟩ := finishingRun_inv h
  rw [← Multiset.coe_eq_coe, hb.allJobs_todo]
  congr 1
  simp only [todoJobs, BState.toState, NonemptyList.toList, ← List.map_cons, List.flatMap_map, BTree.todo_toTree]
  rfl

/-- With two transactions per tree and no delay, the second block brings one of
the two jobs and does not fill a tree, the third brings the other. -/
theorem allJobs_perm_todoJobs_third_block : ∃ s : State Nat Nat, FinishingRun 1 0 s ∧ (todoJobs s).length = 3
      ∧ (allJobs s).flatten.Perm (todoJobs s) := by
  have r1 := FinishingRun.update (.empty : FinishingRun 1 0 (empty (2 ^ 1) 0 : State Nat Nat))
    (.inr (by decide)) (show update [0, 1] [] _ = .ok (_, _) from rfl)
  have r2 := FinishingRun.update r1 (.inl (by decide))
    (show update [2] [0] _ = .ok (_, _) from rfl)
  have r3 := FinishingRun.update r2 (.inr (by decide))
    (show update [3] [1] _ = .ok (_, _) from rfl)
  exact ⟨_, r3, by decide, allJobs_perm_todoJobs r3⟩

end MinaProtocol.ParallelScan
