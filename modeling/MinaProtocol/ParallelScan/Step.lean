import MinaProtocol.ParallelScan.Invariant

/-!
# ParallelScan.Step

One update of the scan state. `update` does the same thing twice, once on the
trees as they are and once after the current tree has been filled: it adds
completed jobs, then data. `first_inv` and `second_inv` say what the two halves do
to the invariant `Inv`, and `step_eq` puts them together.
-/

namespace MinaProtocol.ParallelScan

open PerfectTree

variable {α β : Type} {n : Nat} {V : List β → α → Prop}

namespace BState

open BTree

/-! ### The invariant -/

/-- The invariant of the scan state: the current tree is being filled and not
full, and the trees behind it are in order. -/
structure Inv (V : List β → α → Prop) (b : BState α β n) : Prop where
  maxBaseJobs_eq : b.maxBaseJobs = 2 ^ n
  filling : Filling b.head.data b.head
  room : b.head.data.length < 2 ^ n
  tail : TailInv V (b.delay + 1) b.tail

/-- The data in the trees, oldest first. -/
def pending (b : BState α β n) : List β := (b.tail.map data).reverse.flatten ++ b.head.data

theorem pendingData_toState (b : BState α β n) : (pendingData b.toState).flatten = b.pending := by
  simp [pendingData, toState, NonemptyList.toList, pending, baseJobs_toTree, Function.comp_def]

theorem inv_empty (k delay : Nat) : Inv V (empty (2 ^ k) delay : BState α β _) := by
  have hf : Filling [] (BTree.empty (ceilLog2 (2 ^ k)) : BTree α β _) := filling_empty
  refine ⟨?_, ?_, ?_, ⟨Nat.zero_le _, .inl trivial⟩⟩
  · show 2 ^ k = 2 ^ ceilLog2 (2 ^ k)
    rw [ceilLog2_two_pow]
  · show Filling (BTree.empty _).data (BTree.empty _)
    rw [hf.data_eq]
    exact hf
  · show (BTree.empty _).data.length < _
    rw [hf.data_eq]
    exact Nat.two_pow_pos _

variable {b : BState α β n} {js : List α}
  {ts : List (BTree α β n)} {b4 : BState α β n} {t : BTree α β n} {jobs : List α} {new : List β}

/-- The free leaves of the current tree. -/
theorem Inv.space_eq (h : Inv V b) : b.head.space = (2 ^ n - b.head.data.length : Nat) := h.filling.space_eq

/-! ### Numbering the block -/

@[simp] theorem incrSeqNo_delay (b : BState α β n) : b.incrSeqNo.delay = b.delay := by
  rcases b.incrSeqNo_cases with h | ⟨f, s, h⟩ <;> rw [h]

@[simp] theorem incrSeqNo_maxBaseJobs (b : BState α β n) : b.incrSeqNo.maxBaseJobs = b.maxBaseJobs := by
  rcases b.incrSeqNo_cases with h | ⟨f, s, h⟩ <;> rw [h]

@[simp] theorem incrSeqNo_workFrom (b : BState α β n) (D i : Nat) :
    workFrom D i b.incrSeqNo.tail = workFrom D i b.tail := by
  rcases b.incrSeqNo_cases with h | ⟨f, s, h⟩
  · rw [h]
  · rw [h]
    exact workFrom_reseq f D i b.tail

@[simp] theorem incrSeqNo_workCurrent (b : BState α β n) : b.incrSeqNo.workCurrent = b.workCurrent := by
  rw [workCurrent, incrSeqNo_delay, incrSeqNo_workFrom]
  rfl

@[simp] theorem incrSeqNo_map_data (b : BState α β n) : b.incrSeqNo.tail.map data = b.tail.map data := by
  rcases b.incrSeqNo_cases with h | ⟨f, s, h⟩
  · rw [h]
  · rw [h]
    simp [Function.comp_def]

@[simp] theorem incrSeqNo_head_data (b : BState α β n) : b.incrSeqNo.head.data = b.head.data := by
  rcases b.incrSeqNo_cases with h | ⟨f, s, h⟩
  · rw [h]
  · rw [h]
    exact data_reseq f b.head

theorem Inv.incrSeqNo (h : Inv V b) : Inv V b.incrSeqNo where
  maxBaseJobs_eq := by rw [incrSeqNo_maxBaseJobs, h.maxBaseJobs_eq]
  filling := by
    rw [incrSeqNo_head_data]
    rcases b.incrSeqNo_cases with hb | ⟨f, s, hb⟩
    · rw [hb]; exact h.filling
    · rw [hb]; exact h.filling.reseq f
  room := by rw [incrSeqNo_head_data]; exact h.room
  tail := by
    rw [incrSeqNo_delay]
    rcases b.incrSeqNo_cases with hb | ⟨f, s, hb⟩
    · rw [hb]; exact h.tail
    · rw [hb]; exact h.tail.reseq f

/-! ### The two halves of an update -/

/-- The jobs for the trees as they are and the data for the current tree. -/
def first (data : List β) (jobs : List α) (b : BState α β n) : Option (Option (α × List β) × BState α β n) :=
  (b.incrSeqNo.addMerge (jobs.take b.workCurrent.length)).bind fun p1 =>
    (p1.2.addData (takeInt data b.head.space)).map fun b2 => (p1.1, b2)

/-- The jobs and the data that are left over. -/
def second (data : List β) (jobs : List α) (b : BState α β n) : Option (BState α β n) :=
  (b.addMerge jobs).bind fun p => p.2.addData data

theorem step_eq (data : List β) (jobs : List α) (b : BState α β n) : b.step data jobs =
      if data.length > b.maxBaseJobs then none
      else if insufficientJobs b.toState data.length jobs.length then none
      else
        (b.first data jobs).bind fun p =>
        (p.2.second (dropInt data b.head.space) (jobs.drop b.workCurrent.length)).bind fun b4 =>
          if b4.tail.length + 1 > b4.maxTrees then none
          else some (p.1, { b4 with acc := p.1.or b4.acc }) := by
  simp only [step, first, second, Option.bind_map, Option.bind_assoc, Function.comp_def]

/-- **The first half, without filling the current tree.** -/
theorem first_open (hb : Inv V b) (new : List β)
    (hV : Fits V (b.delay + 1) b.incrSeqNo.tail (jobs.take b.workCurrent.length))
    (hlen : b.head.data.length + new.length < 2 ^ n) :
    ∃ r b2, b.first new jobs = some (r, b2) ∧ Inv V b2 ∧ b2.delay = b.delay
      ∧ Emits V b.tail b2.tail r ∧ b2.head.data = b.head.data ++ new
      ∧ b2.workCurrent.length = b.workCurrent.length - jobs.length := by
  have hb0 := hb.incrSeqNo
  obtain ⟨r, ts, hadd, hts, hem, -, -, hwork, -⟩ := addMerge_inv hb0.tail
    (jobs.take b.workCurrent.length) (by rw [incrSeqNo_workCurrent, List.length_take]; omega)
    (by rw [incrSeqNo_delay]; exact hV)
  obtain ⟨t, hdata, hf⟩ := addData_open (b := { b.incrSeqNo with tail := ts })
    hb0.filling new (by rw [incrSeqNo_head_data]; exact hlen)
  have htake : takeInt new b.head.space = new := by
    rw [takeInt, hb.space_eq, Int.toNat_natCast, List.take_of_length_le (by omega)]
  rw [incrSeqNo_head_data] at hf
  rw [incrSeqNo_workCurrent, List.length_take] at hwork
  refine ⟨r, { b.incrSeqNo with head := t, tail := ts },
    by rw [first, hadd, Option.bind_some, htake, hdata]; rfl, ⟨?_, ?_, ?_, hts⟩, incrSeqNo_delay b, ?_, hf.data_eq, ?_⟩
  · exact hb0.maxBaseJobs_eq
  · show Filling t.data t
    rw [hf.data_eq]
    exact hf
  · show t.data.length < 2 ^ n
    rw [hf.data_eq, List.length_append]
    exact hlen
  · cases r with
    | none => exact hem.trans (incrSeqNo_map_data b)
    | some p => exact ⟨hem.1, (incrSeqNo_map_data b).symm.trans hem.2⟩
  · show (workFrom _ 0 ts).length = _
    rw [hwork]
    omega

/-- **The first half, filling the current tree** after all jobs have been done. -/
theorem first_full (hb : Inv V b) (new : List β)
    (hV : Fits V (b.delay + 1) b.incrSeqNo.tail (jobs.take b.workCurrent.length))
    (hlen : 2 ^ n ≤ b.head.data.length + new.length) (hjobs : b.workCurrent.length ≤ jobs.length) :
    ∃ r t ts b2, b.first new jobs = some (r, b2)
      ∧ b2.head = BTree.empty n ∧ b2.tail = t :: ts ∧ b2.delay = b.delay
      ∧ b2.maxBaseJobs = b.maxBaseJobs
      ∧ Active V n 0 t ∧ t.data = b.head.data ++ new.take (2 ^ n - b.head.data.length)
      ∧ jobsAt n t = (b.head.data ++ new.take (2 ^ n - b.head.data.length)).map .base
      ∧ Complete V (b.delay + 1) ts ∧ Emits V b.tail ts r
      ∧ (r.isSome → b.tail.length = (n + 1) * (b.delay + 1))
      ∧ (0 < b.delay → workFrom (b.delay + 1) 1 ts = workFrom (b.delay + 1) 1 b.tail) := by
  have hb0 := hb.incrSeqNo
  have hroom := hb.room
  obtain ⟨r, ts, hadd, -, hem, hsome, hcomp, -, hnext⟩ := addMerge_inv hb0.tail
    (jobs.take b.workCurrent.length) (by rw [incrSeqNo_workCurrent, List.length_take]; omega)
    (by rw [incrSeqNo_delay]; exact hV)
  have htake : takeInt new b.head.space = new.take (2 ^ n - b.head.data.length) := by
    rw [takeInt, hb.space_eq, Int.toNat_natCast]
  obtain ⟨t, hdata, ht, htd, htj⟩ := addData_full (V := V) (b := { b.incrSeqNo with tail := ts })
    hb0.filling (new.take (2 ^ n - b.head.data.length))
    (by rw [incrSeqNo_head_data, List.length_take]; omega)
    (by rw [← List.length_pos_iff, List.length_take]; omega)
  rw [incrSeqNo_delay, incrSeqNo_workFrom] at hnext
  refine ⟨r, t, ts, { b.incrSeqNo with head := BTree.empty n, tail := t :: ts },
    by rw [first, hadd, Option.bind_some, htake, hdata]; rfl, rfl, rfl,
    incrSeqNo_delay b, incrSeqNo_maxBaseJobs b, ht,
    by rw [htd, incrSeqNo_head_data], by rw [htj, incrSeqNo_head_data], ?_, ?_, ?_, hnext⟩
  · rw [← incrSeqNo_delay b]
    exact hcomp (by rw [incrSeqNo_workCurrent, List.length_take]; omega)
  · cases r with
    | none => exact hem.trans (incrSeqNo_map_data b)
    | some p => exact ⟨hem.1, (incrSeqNo_map_data b).symm.trans hem.2⟩
  · intro hr
    rw [← incrSeqNo_delay b, ← (hsome hr).2]
    have hlength := congrArg List.length (incrSeqNo_map_data b)
    rw [List.length_map, List.length_map] at hlength
    exact hlength.symm

/-- **The second half.** -/
theorem second_inv (hb : Inv V b) (new : List β)
    (hV : Fits V (b.delay + 1) b.tail js) (hjs : js.length ≤ b.workCurrent.length)
    (hlen : b.head.data.length + new.length < 2 ^ n) : ∃ r b4, b.second new js = some b4 ∧ Inv V b4 ∧ b4.delay = b.delay
      ∧ Emits V b.tail b4.tail r ∧ b4.head.data = b.head.data ++ new
      ∧ b4.workCurrent.length = b.workCurrent.length - js.length
      ∧ (r.isSome → js.length = b.workCurrent.length ∧ b.tail.length = (n + 1) * (b.delay + 1)) := by
  obtain ⟨r, ts, hadd, hts, hem, hsome, -, hwork, -⟩ := addMerge_inv hb.tail js hjs hV
  obtain ⟨t, hdata, hf⟩ := addData_open (b := { b with tail := ts }) hb.filling new hlen
  refine ⟨r, { b with head := t, tail := ts },
    by rw [second, hadd, Option.bind_some, hdata], ⟨hb.maxBaseJobs_eq, ?_, ?_, hts⟩, rfl,
    hem, hf.data_eq, hwork, hsome⟩
  · show Filling t.data t
    rw [hf.data_eq]
    exact hf
  · show t.data.length < 2 ^ n
    rw [hf.data_eq, List.length_append]
    exact hlen

theorem second_nil (b : BState α β n) : b.second [] [] = some b := by
  rw [second, addMerge, if_pos rfl, Option.bind_some, addData, if_pos rfl]

theorem inv_filled (hmax : b.maxBaseJobs = 2 ^ n) (hhead : b.head = BTree.empty n) (htail : b.tail = t :: ts)
    (ht : Active V n 0 t) (hts : Ready V (b.delay + 1) 0 ts) :
    Inv V b ∧ Working V (b.delay + 1) 0 0 b.tail ∧ b.head.data = [] := by
  have hD : 0 < b.delay + 1 := Nat.succ_pos _
  have hf : Filling [] (BTree.empty n : BTree α β n) := filling_empty
  have hw : Working V (b.delay + 1) 0 0 b.tail := by
    rw [htail]
    exact hts.cons ht
  have hlen := hts.length_lt hD (by positivity)
  refine ⟨⟨hmax, ?_, ?_, hw.tailInv hD (by rw [htail, List.length_cons]; omega)⟩, hw, ?_⟩
  · rw [hhead, hf.data_eq]
    exact hf
  · rw [hhead, hf.data_eq]
    exact Nat.two_pow_pos n
  · rw [hhead, hf.data_eq]

/-! ### Trees of one leaf -/

theorem mergeGo_leaf {D i : Nat} {seqNo : Int} {jobs : List (Job α β)} {ts : List (BTree α β 0)}
    {r : List (BTree α β 0) × Option α × List (Job α β)}
    (h : mergeGo D seqNo i none jobs ts = some r) : r.1.length = ts.length ∧ r.2.1 = none := by
  induction ts generalizing i jobs r with
  | nil =>
    rw [mergeGo, Option.some.injEq] at h
    subst h
    exact ⟨rfl, rfl⟩
  | cons t ts ih =>
    rw [mergeGo] at h
    split_ifs at h with hc
    · obtain ⟨p, hp, h⟩ := Option.bind_eq_some_iff.1 h
      obtain ⟨q, hq, rfl⟩ := Option.map_eq_some_iff.1 h
      cases t with | leaf b =>
      obtain ⟨b', -, rfl⟩ := Option.map_eq_some_iff.1 hp
      obtain ⟨h1, h2⟩ := ih hq
      exact ⟨by simp [h1], h2⟩
    · obtain ⟨q, hq, rfl⟩ := Option.map_eq_some_iff.1 h
      obtain ⟨h1, h2⟩ := ih hq
      exact ⟨by simp [h1], h2⟩

theorem addMerge_leaf (hn : n = 0) {p : Option (α × List β) × BState α β n} (h : b.addMerge js = some p) :
    p.2.tail.length = b.tail.length ∧ p.2.delay = b.delay ∧ p.2.head = b.head := by
  subst hn
  rw [addMerge] at h
  split_ifs at h
  · rw [Option.some.injEq] at h
    subst h
    exact ⟨rfl, rfl, rfl⟩
  · obtain ⟨r, hr, rfl⟩ := Option.map_eq_some_iff.1 h
    obtain ⟨h1, h2⟩ := mergeGo_leaf hr
    rw [h2, finishMerge_none]
    refine ⟨?_, rfl, rfl⟩
    show (if _ then _ else _ : List (BTree α β 0)).length = _
    split_ifs
    · rw [List.length_map, h1]
    · exact h1

theorem second_leaf_length (hn : n = 0) (h : b.second new js = some b4) :
    b.tail.length ≤ b4.tail.length ∧ b4.delay = b.delay := by
  obtain ⟨p, hp, hd⟩ := Option.bind_eq_some_iff.1 h
  obtain ⟨hlen, hdelay, -⟩ := addMerge_leaf hn hp
  rw [addData] at hd
  by_cases hnew : new = []
  · rw [if_pos hnew, Option.some.injEq] at hd
    subst hd
    exact ⟨hlen.ge, hdelay⟩
  by_cases hsp : (new.length : Int) > p.2.head.space
  · rw [if_neg hnew, if_pos hsp] at hd
    cases hd
  · rw [if_neg hnew, if_neg hsp] at hd
    obtain ⟨q, -, rfl⟩ := Option.map_eq_some_iff.1 hd
    split_ifs
    · exact ⟨by rw [List.length_cons]; omega, hdelay⟩
    · exact ⟨hlen.ge, hdelay⟩

theorem second_leaf_too_long (hn : n = 0) (htail : b.tail = t :: ts)
    (hlen : ts.length = b.delay + 1) (h : b.second new js = some b4) : b4.tail.length + 1 > b4.maxTrees := by
  obtain ⟨hle, hdelay⟩ := second_leaf_length hn h
  rw [htail, List.length_cons, hlen] at hle
  have hmax : b4.maxTrees = (n + 1) * (b4.delay + 1) + 1 := rfl
  rw [hdelay, show n + 1 = 1 by omega, Nat.one_mul] at hmax
  omega

end BState

end MinaProtocol.ParallelScan
