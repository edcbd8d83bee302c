import MinaProtocol.ParallelScan.Progress

/-!
# ParallelScan.Conservation

What comes out of the scan. The data leaves the trees in the order it was added,
and every value that comes out is the fold of its data, as long as the results
reach the jobs they are results of. Without delay they may not:
`work_for_next_update` lists the work for a block that overflows the current tree
before that tree is full, and the results are added after. If the block asks for
more results than the current tree has data then, the results of merges are put
into its new leaves (`wrong_value`). With a delay, or if only jobs of the current
tree are asked for, all values are right (`scan_conservation`).
-/

namespace MinaProtocol.ParallelScan

open PerfectTree

variable {α β : Type} {n : Nat}

/-! ### Runs -/

/-- The result of a job. -/
def result (g : β → α) (op : α → α → α) : AvailableJob α β → α
  | .base d => g d
  | .merge a b => op a b

/-- A run in which every update brings the results of exactly the work asked for
and satisfies `P`, with the data added and the values given out so far. -/
inductive ScanRun (g : β → α) (op : α → α → α) (k delay : Nat) (P : State α β → List β → Prop) :
    State α β → List β → List (α × List β) → Prop where
  | empty : ScanRun g op k delay P (empty (2 ^ k) delay) [] []
  | update {s s' : State α β} {added : List β} {emitted : List (α × List β)} {data : List β}
      {r : Option (α × List β)} :
      ScanRun g op k delay P s added emitted → data.length ≤ 2 ^ k → P s data →
      update data ((workForNextUpdate s data.length).flatten.map (result g op)) s = .ok (r, s') →
      ScanRun g op k delay P s' (added ++ data) (emitted ++ r.toList)

/-- The results of a non-empty list, folded from left to right. -/
def FoldOf (g : β → α) (op : α → α → α) (ds : List β) (v : α) : Prop :=
  ∃ d rest, ds = d :: rest ∧ v = (rest.map g).foldl op (g d)

/-- The jobs that a block asks for beyond the current ones are jobs of the current
tree, or there is a delay. -/
def StaysInTree (s : State α β) (data : List β) : Prop :=
  0 < s.delay
    ∨ (takeInt (workForTree s .next) (((data.length : Int) - Tree.availableSpace s.trees.head) * 2)).length
      ≤ (Tree.baseJobs s.trees.head).length

/-- Two transactions per tree, no delay: a result for the first tree comes out as
the value of the second. -/
theorem wrong_value : ∃ (s : State (List Nat) Nat) (added : List Nat) (emitted : List (List Nat × List Nat)),
      ScanRun (fun d => [d]) (· ++ ·) 1 0 (fun _ _ => True) s added emitted
        ∧ ([2, 0, 1], [2, 3]) ∈ emitted
        ∧ ¬ FoldOf (fun d => [d]) (· ++ ·) [2, 3] [2, 0, 1] := by
  have r1 := ScanRun.update
    (.empty : ScanRun (fun d : Nat => [d]) (· ++ ·) 1 0 (fun _ _ => True) (empty (2 ^ 1) 0) [] [])
    (show [0, 1].length ≤ _ by decide) trivial (show update _ _ _ = .ok (_, _) from rfl)
  have r2 := r1.update (show [2].length ≤ _ by decide) trivial
    (show update _ _ _ = .ok (_, _) from rfl)
  have r3 := r2.update (show [3, 4].length ≤ _ by decide) trivial
    (show update _ _ _ = .ok (_, _) from rfl)
  have r4 := r3.update (show [5].length ≤ _ by decide) trivial
    (show update _ _ _ = .ok (_, _) from rfl)
  have r5 := r4.update (show [6, 7].length ≤ _ by decide) trivial
    (show update _ _ _ = .ok (_, _) from rfl)
  refine ⟨_, _, _, r5, by decide, ?_⟩
  rintro ⟨d, rest, hd, hv⟩
  obtain ⟨rfl, rfl⟩ := List.cons.inj hd
  simp at hv

/-! ### Folds -/

section Fold

variable {g : β → α} {op : α → α → α} (hop : ∀ a b c, op (op a b) c = op a (op b c)) {ds : List β}

include hop

theorem FoldOf.append {es : List β} {v w : α} (hv : FoldOf g op ds v) (hw : FoldOf g op es w) :
    FoldOf g op (ds ++ es) (op v w) := by
  obtain ⟨d, rest, rfl, rfl⟩ := hv
  obtain ⟨e, rest', rfl, rfl⟩ := hw
  have : Std.Associative op := ⟨hop⟩
  refine ⟨d, rest ++ e :: rest', rfl, ?_⟩
  rw [List.map_append, List.foldl_append, List.map_cons, List.foldl_cons, List.foldl_assoc]

theorem foldOf_result {j : AvailableJob α β} (h : BTree.JobFor (FoldOf g op) ds j) :
    FoldOf g op ds (result g op j) := by
  cases j with
  | base d => exact ⟨d, [], h, rfl⟩
  | merge a b =>
    obtain ⟨dl, dr, rfl, hl, hr⟩ := h
    exact hl.append hop hr

end Fold

/-! ### The jobs asked for -/

namespace BState

open BTree

theorem requiredWork_take (b : BState α β n) (c : Nat) :
    ∃ j, (b.requiredWork c).take b.workCurrent.length = b.workCurrent.take j := by
  simp only [requiredWork]
  split_ifs
  · exact ⟨b.workCurrent.length, by rw [List.take_left, List.take_length]⟩
  · exact ⟨min b.workCurrent.length (2 * min c b.maxBaseJobs), List.take_take⟩

variable {b : BState α β n}

theorem requiredWork_drop {c : Nat} (hc : c ≤ b.maxBaseJobs) : (b.requiredWork c).drop b.workCurrent.length
      = takeInt b.workNext (((c : Int) - b.head.space) * 2) := by
  simp only [requiredWork, Nat.min_eq_left hc]
  split_ifs with h
  · exact List.drop_left
  · have hzero : (((c : Int) - b.head.space) * 2).toNat = 0 := by omega
    rw [takeInt, hzero, List.take_zero, List.drop_eq_nil_iff, List.length_take]
    exact Nat.min_le_right _ _

theorem take_common {X : Type} {l l' a b c : List X} (hl : l = a ++ b) (hl' : l' = a ++ c)
    {y : Nat} (h : (l.take y).length ≤ a.length) : l.take y = l'.take (min y a.length) := by
  subst hl hl'
  rw [List.length_take, List.length_append] at h
  rw [List.take_append_of_le_length (Nat.min_le_right y a.length)]
  by_cases hy : y ≤ a.length
  · rw [List.take_append_of_le_length hy, Nat.min_eq_left hy]
  · have hb : b = [] := List.length_eq_zero_iff.1 (by omega)
    rw [hb, List.append_nil, Nat.min_eq_right (by omega), List.take_length, List.take_of_length_le (by omega)]

variable {V : List β → α → Prop} {new : List β}

/-- The jobs asked for ahead are the first ones of the next phase, if they stay in
the current tree or there is a delay. -/
theorem workNext_take {b2 : BState α β n} {y : Int} (hb : Inv V b) (h : Filled b new b2)
    (hstay : 0 < b.delay ∨ (takeInt b.workNext y).length ≤ b.head.data.length) :
    ∃ j, takeInt b.workNext y = b2.workCurrent.take j := by
  obtain ⟨hdelay, t, ts, htail, hjobs, hnext⟩ := h
  rcases Nat.eq_zero_or_pos b.delay with h0 | hpos
  · have hcond : 0 % (b.delay + 1) = b.delay + 1 - 1 ∧ 0 / (b.delay + 1) ≤ n := by simp [h0]
    have h1 : b.workNext = b.head.data.map .base ++ workFrom (b.delay + 1) 1 b.tail := by
      rw [workNext, workFrom, workOf, if_pos hcond, Nat.zero_div, Nat.sub_zero, hb.filling.jobsAt_leaves]
    have h2 : b2.workCurrent = b.head.data.map .base
        ++ ((new.take (2 ^ n - b.head.data.length)).map .base ++ workFrom (b.delay + 1) 1 ts) := by
      rw [workCurrent, htail, workFrom, workOf, hdelay, if_pos hcond, Nat.zero_div, Nat.sub_zero,
        hjobs, List.map_append, List.append_assoc]
    exact ⟨_, take_common h1 h2 (by
      rw [List.length_map]; exact hstay.resolve_left (by omega))⟩
  · have hnot : ¬ 0 % (b.delay + 1) = b.delay + 1 - 1 := by rw [Nat.zero_mod]; omega
    refine ⟨y.toNat, ?_⟩
    rw [takeInt, workNext, workFrom, workOf, if_neg (fun hc => hnot hc.1), List.nil_append,
      workCurrent, htail, workFrom, workOf, hdelay, if_neg (fun hc => hnot hc.1), List.nil_append, hnext hpos]

/-- **One update with the results of the work asked for**, when they stay in the tree. -/
theorem result_step {f : AvailableJob α β → α}
    (hf : ∀ d j, JobFor V d j → V d (f j)) (hb : Inv V b) (hp : b.Paced) (hnew : new.length ≤ 2 ^ n)
    (hstay : 0 < b.delay ∨ (takeInt b.workNext (((new.length : Int) - b.head.space) * 2)).length ≤ b.head.data.length)
    {p : Option (α × List β) × BState α β n}
    (h : b.step new ((b.requiredWork new.length).map f) = some p) :
    Inv V p.2 ∧ p.2.Paced ∧ p.2.delay = b.delay ∧ Accounts V b p.2 new p.1 := by
  have hV : Fits V (b.delay + 1) b.incrSeqNo.tail
      (((b.requiredWork new.length).map f).take b.workCurrent.length) := by
    obtain ⟨j, hj⟩ := b.requiredWork_take new.length
    rw [← List.map_take, hj, workCurrent, ← incrSeqNo_workFrom, List.map_take]
    exact (fits_results hf).take j
  have hstep := exact_step hb hp hnew (List.length_map f) hV fun b2 hb2 _ => by
    obtain ⟨j, hj⟩ := workNext_take hb hb2 hstay
    rw [← List.map_drop, requiredWork_drop (by rw [hb.maxBaseJobs_eq]; exact hnew), hj, List.map_take]
    exact (fits_results hf).take j
  rcases hstep with ⟨-, hnone⟩ | ⟨r, b', hsome, hinv, hpaced, hdelay, hacc⟩
  · rw [hnone] at h
    cases h
  · obtain rfl : p = (r, b') := Option.some.inj (h.symm.trans hsome)
    exact ⟨hinv, hpaced, hdelay, hacc⟩

end BState

/-! ### The result -/

theorem scanRun_inv {g : β → α} {op : α → α → α} (hop : ∀ a b c, op (op a b) c = op a (op b c))
    {k delay : Nat} {s : State α β} {added : List β} {emitted : List (α × List β)}
    (h : ScanRun g op k delay StaysInTree s added emitted) :
    ∃ b : BState α β (ceilLog2 (2 ^ k)), b.toState = s ∧ BState.Inv (FoldOf g op) b ∧ b.Paced
      ∧ emitted.flatMap Prod.snd ++ b.pending = added
      ∧ ∀ p ∈ emitted, FoldOf g op p.2 p.1 := by
  induction h with
  | empty =>
    refine ⟨_, (BState.empty_toState _ _).symm, BState.inv_empty k delay, BState.paced_empty k delay, ?_, by simp⟩
    exact BTree.filling_empty.data_eq
  | @update s s' added emitted data r _ hdata hstay hu ih =>
    obtain ⟨b, rfl, hb, hp, hpend, hval⟩ := ih
    obtain ⟨b', hb', rfl⟩ := BState.update_ok hu
    rw [BState.workForNextUpdate_toState] at hb'
    have hstay' : 0 < b.delay
        ∨ (takeInt b.workNext (((data.length : Int) - b.head.space) * 2)).length
          ≤ b.head.data.length := by
      rw [StaysInTree, show b.toState.trees.head = toTree 0 b.head from rfl, BTree.space_toTree,
        BTree.baseJobs_toTree] at hstay
      rwa [← b.work_toList]
    obtain ⟨hinv, hpaced, -, hacc⟩ := BState.result_step (fun _ _ => foldOf_result hop) hb hp
      (by rw [ceilLog2_two_pow]; exact hdata) hstay' hb'
    refine ⟨b', rfl, hinv, hpaced, ?_, ?_⟩
    · rcases r with _ | ⟨v, d⟩
      · rw [Option.toList_none, List.append_nil, (hacc : b'.pending = _), ← List.append_assoc, hpend]
      · rw [Option.toList_some, List.flatMap_append, List.flatMap_singleton, List.append_assoc,
          hacc.2, ← List.append_assoc, hpend]
    · rcases r with _ | ⟨v, d⟩
      · simpa using hval
      · intro p hmem
        rcases List.mem_append.1 hmem with hmem | hmem
        · exact hval p hmem
        · obtain rfl : p = (v, d) := by simpa using hmem
          exact hacc.1

/-- **Conservation and order.** What has come out, followed by what is pending, is
what was added, and every value is the fold of its data, in every run whose
updates ask for jobs of the current tree only or that has a delay. -/
theorem scan_conservation {g : β → α} {op : α → α → α}
    (hop : ∀ a b c, op (op a b) c = op a (op b c)) {k delay : Nat} {s : State α β}
    {added : List β} {emitted : List (α × List β)} (h : ScanRun g op k delay StaysInTree s added emitted) :
    emitted.flatMap Prod.snd ++ (pendingData s).flatten = added
      ∧ ∀ p ∈ emitted, FoldOf g op p.2 p.1 := by
  obtain ⟨b, rfl, -, -, hpend, hval⟩ := scanRun_inv hop h
  rw [BState.pendingData_toState]
  exact ⟨hpend, hval⟩

/-- Three full blocks at two transactions per tree, without delay: the first block
comes out with the third. -/
theorem scan_conservation_third_block : ∃ s : State (List Nat) Nat,
      ScanRun (fun d => [d]) (· ++ ·) 1 0 StaysInTree s [0, 1, 2, 3, 4, 5] [([0, 1], [0, 1])]
        ∧ [0, 1] ++ (pendingData s).flatten = [0, 1, 2, 3, 4, 5] := by
  have r1 := ScanRun.update
    (.empty : ScanRun (fun d : Nat => [d]) (· ++ ·) 1 0 StaysInTree (empty (2 ^ 1) 0) [] [])
    (show [0, 1].length ≤ _ by decide) (.inr (by decide))
    (show update _ _ _ = .ok (_, _) from rfl)
  have r2 := r1.update (show [2, 3].length ≤ _ by decide) (.inr (by decide))
    (show update _ _ _ = .ok (_, _) from rfl)
  have r3 := r2.update (show [4, 5].length ≤ _ by decide) (.inr (by decide))
    (show update _ _ _ = .ok (_, _) from rfl)
  exact ⟨_, r3, (scan_conservation List.append_assoc r3).1⟩

end MinaProtocol.ParallelScan
