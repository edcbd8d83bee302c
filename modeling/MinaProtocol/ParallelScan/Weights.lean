import MinaProtocol.ParallelScan.Stranded

/-!
# ParallelScan.Weights

The weights that the nodes of a tree keep. The base weights count the empty leaves below a node, and the merge
weights the jobs that are still to do on the level that is being completed; so `jobs_split` hands each job to one
half, and the jobs come to the leftmost open nodes, one by one. The base weights are right in every state that is
reached, and the merge weights as long as no work is stranded. The node of a job keeps its own weight when the job
is done, until the weights are next recomputed.
-/

namespace MinaProtocol.ParallelScan

open PerfectTree

variable {α β : Type} {n : Nat} {V : List β → α → Prop} {s : State α β} {delay : Nat}

/-! ### Handing out -/

section Hand

variable {J : Type} {places : List Bool} {jobs : List J}

/-- Each job goes to the next open place. -/
def hand : List Bool → List J → List (List J)
  | [], _ => []
  | false :: places, jobs => [] :: hand places jobs
  | true :: places, [] => [] :: hand places []
  | true :: places, j :: jobs => [j] :: hand places jobs

theorem hand_append (xs ys : List Bool) (jobs : List J) :
    hand (xs ++ ys) jobs = hand xs (jobs.take (xs.count true)) ++ hand ys (jobs.drop (xs.count true)) := by
  induction xs generalizing jobs with
  | nil => simp [hand]
  | cons x xs ih =>
    cases x with
    | false => simp [hand, ih]
    | true => cases jobs <;> simp [hand, ih]

theorem hand_singleton {x : Bool} (hlen : jobs.length ≤ [x].count true) : hand [x] jobs = [jobs] := by
  cases x with
  | false =>
    obtain rfl : jobs = [] := by simpa using hlen
    rfl
  | true =>
    match jobs, hlen with
    | [], _ => rfl
    | [j], _ => rfl
    | _ :: _ :: _, hlen => simp at hlen

/-- No job is lost. -/
theorem flatten_hand (hlen : jobs.length ≤ places.count true) : (hand places jobs).flatten = jobs := by
  fun_induction hand places jobs with
  | case1 jobs =>
    have hnil : jobs = [] := by simpa using hlen
    rw [hnil, List.flatten_nil]
  | case2 places jobs ih => simpa using ih (by simpa using hlen)
  | case3 places ih => simpa using ih
  | case4 places j jobs ih => simpa using ih (by simpa using hlen)

end Hand

variable {a c : Nat} {t : BTree α β n} {lens : Lens Weight Int} {jobs : List (Job α β)} {ds : List β}

namespace BTree

/-! ### Open nodes -/

def isTodo : Merge.Job α → Bool
  | .full { left := _, right := _, seqNo := _, status := .todo } => true
  | _ => false

def leafTodo : Base.Job β → Bool
  | .full { job := _, seqNo := _, status := .todo } => true
  | _ => false

def vacant : Base.Job β → Bool
  | .empty => true
  | .full _ => false

/-- Which nodes at depth `a` are open, from left to right. -/
def opens (node : Merge.Job α → Bool) (leaf : Base.Job β → Bool) : {n : Nat} → Nat → BTree α β n → List Bool
  | 0, 0, .leaf b => [leaf b.2]
  | 0, _ + 1, .leaf _ => []
  | _ + 1, 0, .node m _ _ => [node m.2]
  | _ + 1, a + 1, .node _ l r => opens node leaf a l ++ opens node leaf a r

/-- The jobs still to do at depth `a`. -/
abbrev todos (a : Nat) (t : BTree α β n) : List Bool := opens isTodo leafTodo a t

/-- The empty leaves. -/
abbrev vacancies (t : BTree α β n) : List Bool := opens (fun _ => false) vacant n t

/-- The jobs that `jobs_split` sends to each node at depth `a`. -/
def reach (lens : Lens Weight Int) : {n : Nat} → Nat → List (Job α β) → BTree α β n → List (List (Job α β))
  | 0, 0, jobs, .leaf _ => [jobs]
  | 0, _ + 1, _, .leaf _ => []
  | _ + 1, 0, jobs, .node _ _ _ => [jobs]
  | _ + 1, a + 1, jobs, .node m l r =>
    reach lens a (Tree.jobsSplit lens m.1 jobs).1 l ++ reach lens a (Tree.jobsSplit lens m.1 jobs).2 r

/-- The weights of every node above depth `a` count the open nodes below its halves. -/
def Counted (lens : Lens Weight Int) (node : Merge.Job α → Bool) (leaf : Base.Job β → Bool) :
    {n : Nat} → Nat → BTree α β n → Prop
  | 0, _, .leaf _ => True
  | _ + 1, 0, .node _ _ _ => True
  | _ + 1, a + 1, .node m l r =>
    lens.get m.1.1 = ((opens node leaf a l).count true : Nat) ∧ lens.get m.1.2 = ((opens node leaf a r).count true : Nat) ∧
      Counted lens node leaf a l ∧ Counted lens node leaf a r

variable {t' : BTree α β n} {node : Merge.Job α → Bool} {leaf : Base.Job β → Bool} {m : MergeNode α}
  {v : MergeNode α × Option α} {l r : BTree α β n} {seqNo L d : Int} {b : BaseNode β} {c' : Nat}

/-- **Jobs come to the leftmost open nodes** if the weights count these. -/
theorem Counted.reach_eq (h : Counted lens node leaf a t) (ha : a ≤ n) (hlen : jobs.length ≤ (opens node leaf a t).count true) :
    reach lens a jobs t = hand (opens node leaf a t) jobs := by
  induction n generalizing a jobs with
  | zero =>
    obtain rfl : a = 0 := Nat.le_zero.1 ha
    cases t with | leaf b =>
    exact (hand_singleton hlen).symm
  | succ n ih =>
    cases t with | node m l r =>
    cases a with
    | zero => exact (hand_singleton hlen).symm
    | succ a =>
      obtain ⟨hleft, hright, hl, hr⟩ := h
      have hdrop : (jobs.drop ((opens node leaf a l).count true)).length ≤ (opens node leaf a r).count true := by
        rw [opens, List.count_append] at hlen
        rw [List.length_drop]
        omega
      rw [reach, Tree.jobsSplit, hleft, hright, takeInt, takeInt, dropInt, Int.toNat_natCast, Int.toNat_natCast,
        List.take_of_length_le hdrop, ih hl (Nat.le_of_succ_le_succ ha) (List.length_take_le _ _),
        ih hr (Nat.le_of_succ_le_succ ha) hdrop, opens, hand_append]

theorem count_todos (a : Nat) (t : BTree α β n) : (todos a t).count true = (jobsAt a t).length := by
  induction t generalizing a with
  | leaf b =>
    cases a with
    | zero => rcases b with ⟨w, _ | ⟨d, s, _ | _⟩⟩ <;> rfl
    | succ a => rfl
  | node m l r ihl ihr =>
    cases a with
    | zero => rcases m with ⟨w, _ | _ | ⟨x, y, s, _ | _⟩⟩ <;> rfl
    | succ a =>
      have happend : todos (a + 1) (.node m l r) = todos a l ++ todos a r := rfl
      rw [happend, List.count_append, jobsAt, List.length_append, ihl, ihr]

theorem count_vacancies (t : BTree α β n) : (vacancies t).count true = 2 ^ n - (data t).length ∧ (data t).length ≤ 2 ^ n := by
  induction t with
  | leaf b =>
    rcases b with ⟨w, _ | r⟩ <;> exact ⟨rfl, by simp [data, leafData]⟩
  | node m l r ihl ihr =>
    obtain ⟨hl, hlenl⟩ := ihl
    obtain ⟨hr, hlenr⟩ := ihr
    have happend : vacancies (.node m l r) = vacancies l ++ vacancies r := rfl
    rw [happend, List.count_append, hl, hr, data, List.length_append, pow_succ]
    omega

theorem Active.counted (h : Active V a c t) : Counted Weight.mergeLens isTodo leafTodo a t := by
  induction t generalizing a c with
  | leaf b =>
    cases a <;> trivial
  | node m l r ihl ihr =>
    cases a with
    | zero => trivial
    | succ a =>
      obtain ⟨hleft, hright, -, hl, hr⟩ := h
      refine ⟨?_, ?_, ihl hl, ihr hr⟩
      · rw [count_todos, (jobsAt_active hl).1, show 2 ^ a - min c (2 ^ a) = 2 ^ a - c by omega]
        exact hleft
      · rw [count_todos, (jobsAt_active hr).1]
        exact hright

/-! ### Base weights -/

/-- The base weights count the empty leaves, at the leaves too. -/
structure BaseExact (t : BTree α β n) : Prop where
  counted : Counted Weight.baseLens (fun _ => false) vacant n t
  leaves : ∀ b ∈ t.leaves, b.1.base = if vacant b.2 then 1 else 0

theorem BaseExact.of_node (hleft : m.1.1.base = ((vacancies l).count true : Nat))
    (hright : m.1.2.base = ((vacancies r).count true : Nat)) (hl : BaseExact l) (hr : BaseExact r) : BaseExact (.node m l r) where
  counted := ⟨hleft, hright, hl.counted, hr.counted⟩
  leaves b hb := (List.mem_append.1 hb).elim (hl.leaves b) (hr.leaves b)

theorem BaseExact.of_leaf (h : b.1.base = if vacant b.2 then 1 else 0) : BaseExact (.leaf b : BTree α β 0) where
  counted := trivial
  leaves b' hb' := by rwa [List.mem_singleton.1 hb']

theorem BaseExact.space_eq (h : BaseExact t) : space t = ((vacancies t).count true : Nat) := by
  cases t with
  | leaf b =>
    have hleaf := h.leaves b (List.mem_singleton.2 rfl)
    have hone : vacancies (.leaf b : BTree α β 0) = [vacant b.2] := rfl
    rw [space, hleaf, hone]
    cases vacant b.2 <;> rfl
  | node m l r =>
    obtain ⟨hleft, hright, -, -⟩ := h.counted
    have happend : vacancies (.node m l r) = vacancies l ++ vacancies r := rfl
    rw [happend, List.count_append, Nat.cast_add, ← hleft, ← hright]
    rfl

theorem Filling.baseExact (h : Filling ds t) : BaseExact t := by
  induction t generalizing ds with
  | leaf b =>
    rcases h with ⟨-, hw, hb⟩ | ⟨d, s, -, hw, hb⟩
    · exact .of_leaf (by rw [hw, hb]; rfl)
    · exact .of_leaf (by rw [hw, hb]; rfl)
  | node m l r ihl ihr =>
    obtain ⟨-, hleft, hright, hl, hr⟩ := h
    refine .of_node ?_ ?_ (ihl hl) (ihr hr)
    · rw [(count_vacancies l).1, hl.data_eq, List.length_take, hleft]
      omega
    · rw [(count_vacancies r).1, hr.data_eq, List.length_drop, hright]

/-- All leaves are full, and no weight says otherwise. -/
def Full : {n : Nat} → BTree α β n → Prop
  | 0, .leaf b => b.1.base = 0 ∧ vacant b.2 = false
  | _ + 1, .node m l r => m.1.1.base = 0 ∧ m.1.2.base = 0 ∧ Full l ∧ Full r

theorem Full.count_eq (h : Full t) : (vacancies t).count true = 0 := by
  induction t with
  | leaf b =>
    have hone : vacancies (.leaf b : BTree α β 0) = [vacant b.2] := rfl
    rw [hone, h.2]
    rfl
  | node m l r ihl ihr =>
    have happend : vacancies (.node m l r) = vacancies l ++ vacancies r := rfl
    rw [happend, List.count_append, ihl h.2.2.1, ihr h.2.2.2]

theorem Full.baseExact (h : Full t) : BaseExact t := by
  induction t with
  | leaf b =>
    exact .of_leaf (by rw [h.1, h.2]; rfl)
  | node m l r ihl ihr =>
    obtain ⟨hleft, hright, hl, hr⟩ := h
    exact .of_node (by rw [hleft, hl.count_eq]; rfl) (by rw [hright, hr.count_eq]; rfl) (ihl hl) (ihr hr)

/-! ### What an update does -/

theorem addMerges_base (h : (Tree.addMerges L seqNo Weight.mergeLens jobs d m).toOption = some v) :
    v.1.1.1.base = m.1.1.base ∧ v.1.1.2.base = m.1.2.base := by
  rcases m with ⟨⟨w1, w2⟩, j⟩
  simp only [Tree.addMerges] at h
  split_ifs at h <;> (try split at h) <;> simp only [Except.toOption, Option.some.injEq, reduceCtorEq] at h <;>
    (try subst h) <;> exact ⟨rfl, rfl⟩

theorem addBases_full {b' : BaseNode β} (hb : vacant b.2 = false)
    (h : (Tree.addBases L seqNo lens jobs b).toOption = some b') :
    b' = b ∨ ∃ r, b.2 = .full r ∧ b' = (b.1, .full { r with status := .done }) := by
  rcases b with ⟨w, _ | r⟩
  · cases hb
  · simp only [Tree.addBases] at h
    split at h
    · exact .inl (Option.some.inj h).symm
    · rename_i heq
      cases heq
    · rename_i heq
      cases heq
      exact .inr ⟨r, rfl, (Option.some.inj h).symm⟩
    · cases h

theorem Full.update {L seqNo d : Int} {p : BTree α β n × Option α} (hf : Full t)
    (h : BTree.update jobs L seqNo Weight.mergeLens d t = some p) : Full p.1 := by
  induction t generalizing jobs d with
  | leaf b =>
    obtain ⟨b', hb, rfl⟩ := Option.map_eq_some_iff.1 h
    rcases addBases_full hf.2 hb with rfl | ⟨r, -, rfl⟩
    · exact hf
    · exact ⟨hf.1, rfl⟩
  | node m l r ihl ihr =>
    obtain ⟨hleft, hright, hl, hr⟩ := hf
    obtain ⟨v, hv, hp⟩ := update_node_cases h
    obtain ⟨h1, h2⟩ := addMerges_base hv
    rcases hp with ⟨-, hp⟩ | ⟨l', r', hl', hr', -, hp⟩
    · rw [hp]
      exact ⟨h1.trans hleft, h2.trans hright, hl, hr⟩
    · rw [hp]
      exact ⟨h1.trans hleft, h2.trans hright, ihl hl hl', ihr hr hr'⟩

theorem Full.reset (h : Full t) : Full (reset .merge t) := by
  induction t with
  | leaf b =>
    rcases b with ⟨w, _ | ⟨d, s, _ | _⟩⟩ <;> exact h
  | node m l r ihl ihr =>
    rcases m with ⟨w, _ | _ | ⟨x, y, s, _ | _⟩⟩ <;> exact ⟨h.1, h.2.1, ihl h.2.2.1, ihr h.2.2.2⟩

theorem Full.reseq (f : Int → Int) (h : Full t) : Full (reseq f t) := by
  induction t with
  | leaf b =>
    rcases b with ⟨w, _ | r⟩ <;> exact h
  | node m l r ihl ihr =>
    rw [reseq_node]
    rcases m with ⟨w, _ | _ | r⟩ <;> exact ⟨h.1, h.2.1, ihl h.2.2.1, ihr h.2.2.2⟩

theorem Filling.full_reset (h : Filling ds t) (hlen : ds.length = 2 ^ n) :
    Full (PerfectTree.accumulate (Tree.resetMerge .both) (Tree.resetBase .both) t).1 ∧
      (PerfectTree.accumulate (Tree.resetMerge .both) (Tree.resetBase .both) t).2.1.base = 0 ∧
      (PerfectTree.accumulate (Tree.resetMerge .both) (Tree.resetBase .both) t).2.2.base = 0 := by
  induction t generalizing ds with
  | leaf b =>
    rcases b with ⟨w, j⟩
    rcases h with ⟨rfl, -⟩ | ⟨d, s, rfl, -, rfl⟩
    · cases hlen
    · exact ⟨⟨rfl, rfl⟩, rfl, rfl⟩
  | node m l r ihl ihr =>
    obtain ⟨-, -, -, hl, hr⟩ := h
    rw [Nat.pow_succ] at hlen
    obtain ⟨hfl, hl1, hl2⟩ := ihl hl (by rw [List.length_take]; omega)
    obtain ⟨hfr, hr1, hr2⟩ := ihr hr (by rw [List.length_drop]; omega)
    have hsum1 := congrArg₂ (· + ·) hl1 hl2
    have hsum2 := congrArg₂ (· + ·) hr1 hr2
    exact ⟨⟨hsum1, hsum2, hfl, hfr⟩, hsum1, hsum2⟩

/-! ### Merge weights -/

/-- A node keeps a weight of one for its own job, or has none to do. -/
def Held (w : Int) (todo : Bool) : Prop := w = 1 ∨ w = 0 ∧ todo = false

/-- No weight asks for jobs. -/
def NoneLeft : {n : Nat} → BTree α β n → Prop
  | 0, .leaf b => b.1.merge = 0
  | _ + 1, .node m l r => m.1.1.merge = 0 ∧ m.1.2.merge = 0 ∧ NoneLeft l ∧ NoneLeft r

/-- The nodes at depth `a` hold their own jobs, and below them nothing is left. -/
def Own : {n : Nat} → Nat → BTree α β n → Prop
  | 0, _, .leaf b => Held b.1.merge (leafTodo b.2)
  | _ + 1, 0, .node m l r => Held m.1.1.merge (isTodo m.2) ∧ m.1.2.merge = 0 ∧ NoneLeft l ∧ NoneLeft r
  | _ + 1, a + 1, .node _ l r => Own a l ∧ Own a r

/-- The merge weights count the jobs to do at depth `a`; at that depth a weight may stay when the job is done. -/
structure MergeExact (a : Nat) (t : BTree α β n) : Prop where
  counted : Counted Weight.mergeLens isTodo leafTodo a t
  own : Own a t

theorem addMerges_held (hfirst : Held m.1.1.merge (isTodo m.2))
    (hsecond : m.1.2.merge = 0) (h : (Tree.addMerges d seqNo Weight.mergeLens jobs d m).toOption = some v) :
    Held v.1.1.1.merge (isTodo v.1.2) ∧ v.1.1.2.merge = 0 := by
  rcases m with ⟨⟨w1, w2⟩, j⟩
  have hd : ¬ d = d - 1 := by omega
  simp only [Tree.addMerges] at h
  rw [if_neg hd, if_pos trivial] at h
  split at h
  · have hone : w1.merge = 1 := hfirst.resolve_right fun hzero => absurd hzero.2 Bool.true_eq_false.mp
    split_ifs at h
    · rw [← Option.some.inj h]
      exact ⟨.inr ⟨rfl, rfl⟩, rfl⟩
    · rw [← Option.some.inj h]
      exact ⟨.inl hone, hsecond⟩
  · rw [← Option.some.inj h]
    exact ⟨hfirst, hsecond⟩
  · cases h

theorem Own.update {seqNo d : Int} {p : BTree α β n × Option α} (hactive : Active V a c t) (ho : Own a t)
    (h : BTree.update jobs (d + a) seqNo Weight.mergeLens d t = some p) : Own a p.1 := by
  induction t generalizing a c jobs d with
  | leaf b =>
    cases a with
    | succ a => exact hactive.elim
    | zero =>
      obtain ⟨b', hb, rfl⟩ := Option.map_eq_some_iff.1 h
      obtain ⟨-, hone, x, s, hfull⟩ := hactive
      rcases addBases_full (by rw [hfull]; rfl) hb with rfl | ⟨r, -, rfl⟩
      · exact ho
      · exact .inl hone
  | node m l r ihl ihr =>
    obtain ⟨v, hv, hp⟩ := update_node_cases h
    cases a with
    | zero =>
      have hd : d + ((0 : Nat) : Int) = d := by omega
      rcases hp with ⟨-, hp⟩ | ⟨l', r', -, -, hne, -⟩
      · rw [hd] at hv
        obtain ⟨hfirst, hsecond, hl, hr⟩ := ho
        obtain ⟨hfirst', hsecond'⟩ := addMerges_held hfirst hsecond hv
        rw [hp]
        exact ⟨hfirst', hsecond', hl, hr⟩
      · exact absurd hd hne
    | succ a =>
      obtain ⟨-, -, -, hl, hr⟩ := hactive
      have hd : d + ((a + 1 : Nat) : Int) = d + 1 + a := by push_cast; omega
      rcases hp with ⟨hstop, -⟩ | ⟨l', r', hl', hr', -, hp⟩
      · omega
      · rw [hd] at hl' hr'
        rw [hp]
        exact ⟨ihl hl ho.1 hl', ihr hr ho.2 hr'⟩

theorem finished_of_reset {wt : Tree.WeightType} (h : Finished (reset wt t)) : Finished t := by
  induction t with
  | leaf b =>
    exact h
  | node m l r ihl ihr =>
    obtain ⟨⟨x, y, s, hm⟩, hl, hr⟩ := h
    exact ⟨⟨x, y, s, (resetMerge_job wt _ m).symm.trans hm⟩, ihl hl, ihr hr⟩

theorem Finished.noneLeft_reset (h : Finished t) : NoneLeft (BTree.reset .merge t) := by
  induction t with
  | leaf b =>
    exact (resetUp_finished h).2.1
  | node m l r ihl ihr =>
    obtain ⟨-, hfirst, hsecond⟩ := resetUp_finished h
    obtain ⟨⟨x, y, s, hm⟩, hl, hr⟩ := h
    obtain ⟨-, -, hsame⟩ := resetMerge_sum ((resetUp l).2, (resetUp r).2) (m := m) (by simp [hm])
    rw [resetUp_node] at hfirst hsecond
    rw [← resetUp_fst, resetUp_node]
    exact ⟨hsame ▸ hfirst, hsame ▸ hsecond, ihl hl, ihr hr⟩

/-- **After the weights were recomputed** each node holds its own job. -/
theorem Active.own_of_reset (h : Active V a c (BTree.reset .merge t)) : Own a (BTree.reset .merge t) := by
  induction t generalizing a c with
  | leaf b =>
    cases a with
    | succ a => exact h.elim
    | zero => exact .inl h.2.1
  | node m l r ihl ihr =>
    cases a with
    | succ a =>
      obtain ⟨-, -, -, hl, hr⟩ := h
      exact ⟨ihl hl, ihr hr⟩
    | zero =>
      obtain ⟨hc, hzero, ⟨x, y, s, hm, -⟩, hl, hr⟩ := id h
      rcases Nat.le_one_iff_eq_zero_or_eq_one.1 hc with rfl | rfl
      · obtain ⟨hfirst, hsecond⟩ := hzero rfl
        exact ⟨.inl hfirst, hsecond, (finished_of_reset hl).noneLeft_reset, (finished_of_reset hr).noneLeft_reset⟩
      · obtain ⟨hfirst, hsecond, hnone⟩ := (finished_of_reset h.finished).noneLeft_reset
        refine ⟨.inr ⟨hfirst, ?_⟩, hsecond, hnone⟩
        exact congrArg isTodo hm

theorem Active.own_leaves (h : Active V n c t) : Own n t := by
  induction t generalizing c with
  | leaf b =>
    exact .inl h.2.1
  | node m l r ihl ihr =>
    obtain ⟨-, -, -, hl, hr⟩ := h
    exact ⟨ihl hl, ihr hr⟩

theorem Active.not_above (h : Active V 0 c (.node m l r)) (h' : Active V (a + 1) c' (.node m l r)) : False := by
  obtain ⟨hc, hzero, ⟨x, y, s, hm, -⟩, -⟩ := h
  obtain ⟨hfirst, -, habove, -⟩ := h'
  rw [hm] at habove
  match a, c', habove with
  | 0, 0, habove => cases habove
  | 0, 1, habove =>
    obtain ⟨z, hz, -⟩ := habove
    cases hz
  | 0, c' + 2, habove =>
    obtain ⟨x', y', s', hjob, -⟩ := habove
    have hstatus : statusAfter c = .todo := by
      injection hjob with hrecord
      injection hrecord
    have hnone : c = 0 := by
      by_contra hne
      rw [statusAfter, if_neg hne] at hstatus
      cases hstatus
    have hone := (hzero hnone).1
    rw [hfirst] at hone
    simp at hone
  | a + 1, c', habove => cases habove

/-- **The level that is worked on** can be told from the tree. -/
theorem Active.unique {a' : Nat} (h : Active V a c t) (h' : Active V a' c' t) : a = a' := by
  induction n generalizing a a' c c' with
  | zero =>
    have ha := h.le_height
    have ha' := h'.le_height
    omega
  | succ n ih =>
    cases t with | node m l r =>
    cases a with
    | zero =>
      cases a' with
      | zero => rfl
      | succ a' => exact (h.not_above h').elim
    | succ a =>
      cases a' with
      | zero => exact (h'.not_above h).elim
      | succ a' => rw [ih h.2.2.2.1 h'.2.2.2.1]

/-! ### The current tree -/

theorem Filling.mergeExact_resetUp (h : Filling ds t) :
    MergeExact n (resetUp t).1 ∧ (resetUp t).2.1.merge + (resetUp t).2.2.merge = (ds.length : Nat) := by
  induction t generalizing ds with
  | leaf b =>
    rcases b with ⟨w, j⟩
    rcases h with ⟨rfl, -, rfl⟩ | ⟨d, s, rfl, -, rfl⟩
    · exact ⟨⟨trivial, .inr ⟨rfl, rfl⟩⟩, rfl⟩
    · exact ⟨⟨trivial, .inl rfl⟩, rfl⟩
  | node m l r ihl ihr =>
    obtain ⟨hm, -, -, hl, hr⟩ := h
    obtain ⟨hel, hsl⟩ := ihl hl
    obtain ⟨her, hsr⟩ := ihr hr
    obtain ⟨h1, h2, hsame⟩ := resetMerge_sum ((resetUp l).2, (resetUp r).2) (m := m) (by simp [hm])
    rw [resetUp_node]
    refine ⟨⟨⟨?_, ?_, hel.counted, her.counted⟩, hel.own, her.own⟩, ?_⟩
    · rw [count_todos, resetUp_fst, jobsAt_reset, hl.jobsAt_leaves, List.length_map, ← hsl, ← h1, ← hsame]
      rfl
    · rw [count_todos, resetUp_fst, jobsAt_reset, hr.jobsAt_leaves, List.length_map, ← hsr, ← h2, ← hsame]
      rfl
    · rw [h1, h2, hsl, hsr, List.length_take, List.length_drop]
      omega

theorem reset_empty : reset .merge (empty n : BTree α β n) = empty n := by
  have key : ∀ (m : Nat) (d : Int), ∃ w : Weight × Weight, w.1.merge = 0 ∧ w.2.merge = 0 ∧
      resetUp (PerfectTree.const (emptyMerge n) (⟨1, 0⟩, .empty) m d : BTree α β m) =
        (PerfectTree.const (emptyMerge n) (⟨1, 0⟩, .empty) m d, w) := by
    intro m
    induction m with
    | zero => exact fun d => ⟨(⟨1, 0⟩, ⟨1, 0⟩), rfl, rfl, rfl⟩
    | succ m ih =>
      intro d
      obtain ⟨⟨w1, w2⟩, h1, h2, hw⟩ := ih (d + 1)
      have h1 : w1.merge = 0 := h1
      have h2 : w2.merge = 0 := h2
      have hsum : Tree.resetMerge .merge ((w1, w2), (w1, w2)) (emptyMerge n d : MergeNode α) =
          (emptyMerge n d, (emptyMerge n d : MergeNode α).1) := by
        simp [Tree.resetMerge, Tree.resetSum, emptyMerge, Weight.mergeLens, h1, h2]
      refine ⟨(emptyMerge n d : MergeNode α).1, rfl, rfl, ?_⟩
      rw [PerfectTree.const, resetUp_node, hw, hsum]
  obtain ⟨w, -, -, hw⟩ := key n 0
  exact congrArg Prod.fst hw

theorem mergeExact_empty : MergeExact n (empty n : BTree α β n) := by
  have hf : Filling [] (empty n : BTree α β n) := filling_empty
  rw [← reset_empty]
  exact hf.mergeExact_resetUp.1

/-! ### Renumbering -/

section Reseq

variable (f : Int → Int)

theorem NoneLeft.reseq (h : NoneLeft t) : NoneLeft (reseq f t) := by
  induction t with
  | leaf b =>
    rcases b with ⟨w, _ | r⟩ <;> exact h
  | node m l r ihl ihr =>
    rw [reseq_node]
    rcases m with ⟨w, _ | _ | r⟩ <;> exact ⟨h.1, h.2.1, ihl h.2.2.1, ihr h.2.2.2⟩

theorem Own.reseq (h : Own a t) : Own a (reseq f t) := by
  induction t generalizing a with
  | leaf b =>
    cases a <;> rcases b with ⟨w, _ | ⟨d, s, _ | _⟩⟩ <;> exact h
  | node m l r ihl ihr =>
    rw [reseq_node]
    cases a with
    | succ a => exact ⟨ihl h.1, ihr h.2⟩
    | zero =>
      obtain ⟨hfirst, hsecond, hl, hr⟩ := h
      rcases m with ⟨w, _ | _ | ⟨x, y, s, _ | _⟩⟩ <;> exact ⟨hfirst, hsecond, hl.reseq f, hr.reseq f⟩

theorem MergeExact.reseq (h : MergeExact a t) : MergeExact a (reseq f t) where
  own := h.own.reseq f
  counted := by
    have hcounted := h.counted
    clear h
    induction t generalizing a with
    | leaf b =>
      cases a <;> trivial
    | node m l r ihl ihr =>
      rw [reseq_node]
      cases a with
      | zero => trivial
      | succ a =>
        obtain ⟨hleft, hright, hl, hr⟩ := hcounted
        rw [count_todos] at hleft hright
        refine ⟨?_, ?_, ihl hl, ihr hr⟩
        · rw [count_todos, jobsAt_reseq, ← hleft]
          rcases m with ⟨w, _ | _ | r⟩ <;> rfl
        · rw [count_todos, jobsAt_reseq, ← hright]
          rcases m with ⟨w, _ | _ | r⟩ <;> rfl

end Reseq

end BTree

/-! ### What an operation does to the trees -/

namespace BState

open BTree

variable {D i k m : Nat} {ts : List (BTree α β n)} {js : List α} {b b' : BState α β n}
  {p : Option (α × List β) × BState α β n} {new : List β}

theorem mergeGo_get {seqNo : Int} {res : Option α} {jobs : List (Job α β)} {r : List (BTree α β n) × Option α × List (Job α β)}
    (h : mergeGo D seqNo i res jobs ts = some r) {t' : BTree α β n} (hk : r.1[k]? = some t') :
    ∃ t, ts[k]? = some t ∧ (t' = t ∨
      ∃ js q, BTree.update js ((n : Int) - ((i + k) / D : Nat)) seqNo Weight.mergeLens 0 t = some q ∧ t' = q.1) := by
  induction ts generalizing i k res jobs r with
  | nil =>
    rw [mergeGo, Option.some.injEq] at h
    rw [← h] at hk
    cases hk
  | cons t ts ih =>
    rw [mergeGo] at h
    split_ifs at h
    · obtain ⟨q, hq, h⟩ := Option.bind_eq_some_iff.1 h
      obtain ⟨q', hq', rfl⟩ := Option.map_eq_some_iff.1 h
      cases k with
      | zero => exact ⟨t, rfl, .inr ⟨_, q, hq, (Option.some.inj hk).symm⟩⟩
      | succ k => simpa [Nat.add_assoc, Nat.add_comm 1] using ih hq' hk
    · obtain ⟨q', hq', rfl⟩ := Option.map_eq_some_iff.1 h
      cases k with
      | zero => exact ⟨t, rfl, .inl (Option.some.inj hk).symm⟩
      | succ k => simpa [Nat.add_assoc, Nat.add_comm 1] using ih hq' hk

/-- The trees behind after `add_merge_jobs`, with their weights recomputed or not. -/
theorem addMerge_cases (h : b.addMerge js = some p) : p.2.head = b.head ∧ p.2.delay = b.delay ∧ (p.2.tail = b.tail ∨
    js ≠ [] ∧ ∃ r, mergeGo (b.delay + 1) b.seqNo 0 none (js.map .merge) b.tail = some r ∧
      (p.2.tail = r.1 ∨ ∃ ts : List (BTree α β n), (∀ t ∈ ts, t ∈ r.1) ∧ p.2.tail = ts.map (BTree.reset .merge))) := by
  rw [addMerge] at h
  split_ifs at h with hjs
  · rw [← Option.some.inj h]
    exact ⟨rfl, rfl, .inl rfl⟩
  · obtain ⟨r, hr, rfl⟩ := Option.map_eq_some_iff.1 h
    refine ⟨rfl, rfl, .inr ⟨hjs, r, hr, ?_⟩⟩
    cases r.2.1 with
    | none =>
      rw [finishMerge_none]
      change (if _ then r.1.map _ else r.1) = r.1 ∨ _
      split_ifs
      · exact .inr ⟨r.1, fun _ ht => ht, rfl⟩
      · exact .inl rfl
    | some v =>
      rcases List.eq_nil_or_concat r.1 with hnil | ⟨init, t, hconcat⟩
      · rw [hnil]
        exact .inl (ite_self _)
      · rw [hconcat, List.concat_eq_append, finishMerge_some]
        exact .inr ⟨init, fun _ ht => List.mem_append_left _ ht, rfl⟩

/-- The current tree after `add_data`, which joins the others when it is full. -/
theorem addData_cases (hf : Filling ds b.head) (h : b.addData new = some b') : b' = b ∨
    ∃ u ds', Filling ds' u ∧ (b' = { b with head := u.reset .merge } ∧ ds'.length < 2 ^ n ∨
      b' = { b with head := BTree.empty n, tail := u.reset .both :: b.tail } ∧ ds'.length = 2 ^ n) := by
  have hspace := hf.space_eq
  have hle := hf.length_le
  rw [addData] at h
  by_cases hnew : new = []
  · rw [if_pos hnew] at h
    exact .inl (Option.some.inj h).symm
  by_cases hlen : (new.length : Int) > b.head.space
  · rw [if_neg hnew, if_pos hlen] at h
    cases h
  obtain ⟨u, res, hu, hfill⟩ := update_filling hf new (by omega) 0 b.seqNo
  rw [zero_add] at hu
  rw [if_neg hnew, if_neg hlen, hu, Option.map_some] at h
  refine .inr ⟨u, _, hfill, ?_⟩
  rw [List.length_append]
  by_cases hfull : (new.length : Int) = b.head.space
  · rw [if_pos hfull] at h
    exact .inr ⟨(Option.some.inj h).symm, by omega⟩
  · rw [if_neg hfull] at h
    exact .inl ⟨(Option.some.inj h).symm, by omega⟩

/-! ### Every state -/

/-- The current tree is being filled, with right weights, and those behind it are full. -/
structure Grown (b : BState α β n) : Prop where
  filling : Filling b.head.data b.head
  room : b.head.data.length < 2 ^ n
  merge : MergeExact n b.head
  tail : ∀ t ∈ b.tail, Full t

theorem Grown.of_filling {u : BTree α β n} (hf : Filling ds u) (hlen : ds.length < 2 ^ n) (hmerge : MergeExact n u)
    (hhead : b.head = u) (htail : ∀ t ∈ b.tail, Full t) : Grown b := by
  refine ⟨?_, ?_, hhead ▸ hmerge, htail⟩ <;> rw [hhead, hf.data_eq]
  · exact hf
  · exact hlen

theorem grown_empty (maxBaseJobs delay : Nat) : Grown (empty maxBaseJobs delay : BState α β _) :=
  .of_filling filling_empty (Nat.two_pow_pos _) mergeExact_empty rfl (fun _ ht => absurd ht List.not_mem_nil)

theorem Grown.incrSeqNo (h : Grown b) : Grown b.incrSeqNo := by
  rcases b.incrSeqNo_cases with hb | ⟨f, s, hb⟩ <;> rw [hb]
  · exact ⟨h.filling, h.room, h.merge, h.tail⟩
  · refine .of_filling (h.filling.reseq f) h.room (h.merge.reseq f) rfl fun t ht => ?_
    obtain ⟨u, hu, rfl⟩ := List.mem_map.1 ht
    exact (h.tail u hu).reseq f

theorem Grown.addMerge (h : Grown b) (hp : b.addMerge js = some p) : Grown p.2 := by
  obtain ⟨hhead, -, hcases⟩ := addMerge_cases hp
  refine .of_filling h.filling h.room h.merge hhead ?_
  rcases hcases with htail | ⟨-, r, hr, hcases⟩
  · rw [htail]
    exact h.tail
  have hfull : ∀ t ∈ r.1, Full t := by
    intro t' ht'
    obtain ⟨k, hk⟩ := List.mem_iff_getElem?.1 ht'
    obtain ⟨t, ht, rfl | ⟨_, q, hq, rfl⟩⟩ := mergeGo_get hr hk
    · exact h.tail t' (List.mem_of_getElem? ht)
    · exact (h.tail t (List.mem_of_getElem? ht)).update hq
  rcases hcases with htail | ⟨ts, hts, htail⟩
  · rw [htail]
    exact hfull
  · intro t ht
    rw [htail] at ht
    obtain ⟨u, hu, rfl⟩ := List.mem_map.1 ht
    exact (hfull u (hts u hu)).reset

theorem Grown.addData (h : Grown b) (hb : b.addData new = some b') : Grown b' := by
  obtain rfl | ⟨u, ds, hf, ⟨rfl, hlen⟩ | ⟨rfl, hlen⟩⟩ := addData_cases h.filling hb
  · exact h
  · exact .of_filling hf.reset hlen hf.mergeExact_resetUp.1 rfl h.tail
  · exact .of_filling filling_empty (Nat.two_pow_pos _) mergeExact_empty rfl
      (List.forall_mem_cons.2 ⟨(hf.full_reset hlen).1, h.tail⟩)

/-- **One accepted update**, whatever it leaves behind. -/
theorem Grown.step (h : Grown b) {new : List β} {jobs : List α} (hp : b.step new jobs = some p) : Grown p.2 := by
  rw [step_eq] at hp
  split_ifs at hp
  obtain ⟨p2, hfirst, hp⟩ := Option.bind_eq_some_iff.1 hp
  obtain ⟨b4, hsecond, hp⟩ := Option.bind_eq_some_iff.1 hp
  obtain ⟨p1, hmerge, hfirst⟩ := Option.bind_eq_some_iff.1 hfirst
  obtain ⟨b2, hdata, rfl⟩ := Option.map_eq_some_iff.1 hfirst
  obtain ⟨p3, hmerge', hdata'⟩ := Option.bind_eq_some_iff.1 hsecond
  have h4 := (((h.incrSeqNo.addMerge hmerge).addData hdata).addMerge hmerge').addData hdata'
  split_ifs at hp
  rw [← Option.some.inj hp]
  exact ⟨h4.filling, h4.room, h4.merge, h4.tail⟩

/-! ### Runs that strand nothing -/

/-- Every value is allowed. -/
abbrev Any : List β → α → Prop := fun _ _ => True

theorem Working.get (h : Working V D i m ts) (hk : ts[k]? = some t) : (i + k) / D ≤ n ∧ ∃ c, Active V (n - (i + k) / D) c t := by
  induction ts generalizing i k m with
  | nil => cases hk
  | cons u ts ih =>
    obtain ⟨hi, h⟩ := h
    cases k with
    | zero =>
      obtain rfl := Option.some.inj hk
      split_ifs at h
      · exact ⟨hi, _, h.1⟩
      · exact ⟨hi, _, h.1⟩
    | succ k =>
      rw [← Nat.succ_add_eq_add_succ]
      split_ifs at h
      · exact ih h.2 hk
      · exact ih h.2 hk

theorem Ready.get (h : Ready V D i ts) (hk : ts[k]? = some t) : Active V (n - (i + k + 1) / D) 0 t := by
  induction ts generalizing i k with
  | nil => cases hk
  | cons u ts ih =>
    obtain ⟨-, ht, hts⟩ := h
    cases k with
    | zero =>
      obtain rfl := Option.some.inj hk
      exact ht
    | succ k =>
      have hplace : i + (k + 1) + 1 = i + 1 + k + 1 := by omega
      rw [hplace]
      exact ih hts hk

/-- **The level of a tree behind**: it goes by its place, and by the next one when no work is left. -/
theorem TailInv.active (hD : 0 < D) (h : TailInv V D ts) (hk : ts[k]? = some t) :
    ∃ c, Active V (n - (k + if workFrom D 0 ts = [] then 1 else 0) / D) c t := by
  rcases h.phase with hready | ⟨m, hm, hlt, hwork⟩
  · rw [if_pos (hready.workFrom_eq hD)]
    have hactive := hready.get hk
    rw [Nat.zero_add] at hactive
    exact ⟨0, hactive⟩
  · obtain ⟨-, c, hactive⟩ := hwork.get hk
    rw [Nat.zero_add] at hactive
    cases n with
    | zero =>
      rw [Nat.zero_sub] at hactive ⊢
      exact ⟨c, hactive⟩
    | succ n =>
      have hlen := (workFrom_working hwork hm).1
      have hne : workFrom D 0 ts ≠ [] := by
        intro hnil
        rw [hnil, List.length_nil] at hlen
        have hleft := hlt (Nat.succ_ne_zero n)
        omega
      rw [if_neg hne]
      exact ⟨c, hactive⟩

/-- The trees are worked on, and their nodes hold their own jobs. -/
def Tidy (ts : List (BTree α β n)) : Prop := ∀ t ∈ ts, ∃ a c, Active Any a c t ∧ Own a t

theorem Tidy.addMerge (hb : TailInv Any (b.delay + 1) b.tail) (ht : Tidy b.tail) (hjs : js.length ≤ b.workCurrent.length)
    (h : b.addMerge js = some p) : Tidy p.2.tail := by
  have hD : 0 < b.delay + 1 := Nat.succ_pos _
  have hV := fits_of_length (V := Any) (D := b.delay + 1) (fun _ _ => trivial) hjs
  obtain ⟨_, ts, hadd, hts, -⟩ := addMerge_inv hb js hjs hV
  obtain rfl := Option.some.inj (h.symm.trans hadd)
  obtain ⟨-, -, hsame | ⟨hne, r, hr, hcases⟩⟩ := addMerge_cases h
  · rw [hsame]
    exact ht
  rcases hcases with hsame | ⟨us, -, hreset⟩
  · obtain ⟨m, hm, -, hwork⟩ := hb.phase.resolve_left fun hready => by
      rw [workCurrent, hready.workFrom_eq hD, List.length_nil] at hjs
      exact hne (List.length_eq_zero_iff.1 (Nat.le_zero.1 hjs))
    have hle := hb.length_le
    obtain ⟨ts', hgo, hwork', -⟩ := mergeGo_working hD hwork (by omega) (hV m hm hwork) hm b.seqNo none
    obtain rfl := Option.some.inj (hr.symm.trans hgo)
    intro t' ht'
    rw [hsame] at ht'
    obtain ⟨k, hk⟩ := List.mem_iff_getElem?.1 ht'
    obtain ⟨-, c', hactive'⟩ := hwork'.get hk
    obtain ⟨t, htk, rfl | ⟨_, q, hq, rfl⟩⟩ := mergeGo_get hr hk
    · exact ht t' (List.mem_of_getElem? htk)
    · obtain ⟨a, c, hactive, hown⟩ := ht t (List.mem_of_getElem? htk)
      obtain ⟨hlevel, _, hactive₀⟩ := hwork.get htk
      have ha := hactive.unique hactive₀
      have hint : (n : Int) - ((0 + k) / (b.delay + 1) : Nat) = 0 + a := by omega
      rw [hint] at hq
      exact ⟨_, c', hactive', ha ▸ hown.update hactive hq⟩
  · intro t' ht'
    obtain ⟨k, hk⟩ := List.mem_iff_getElem?.1 ht'
    obtain ⟨c, hactive⟩ := hts.active hD hk
    rw [hreset] at ht'
    obtain ⟨u, -, rfl⟩ := List.mem_map.1 ht'
    exact ⟨_, c, hactive, hactive.own_of_reset⟩

theorem Tidy.addData (hf : Filling ds b.head) (ht : Tidy b.tail) (h : b.addData new = some b') : Tidy b'.tail := by
  obtain rfl | ⟨u, ds', hfill, ⟨rfl, -⟩ | ⟨rfl, hlen⟩⟩ := addData_cases hf h
  · exact ht
  · exact ht
  · have hactive : Active Any n 0 (u.reset .both) := reset_filled hfill hlen
    exact List.forall_mem_cons.2 ⟨⟨n, 0, hactive, hactive.own_leaves⟩, ht⟩

/-- **One accepted update** that strands nothing keeps the merge weights right. -/
theorem Tidy.step (hb : Inv Any b) (ht : Tidy b.tail) {new : List β} {jobs : List α}
    (hfin : new.length + b.head.data.length < 2 ^ n ∨ b.workCurrent.length ≤ jobs.length) (hp : b.step new jobs = some p) :
    Tidy p.2.tail := by
  obtain ⟨r, b2, b4, hfirst, hb2, hjs, hsecond, -, rfl⟩ := finishing_halves (fun _ _ => trivial) hb hfin hp
  have hb0 := hb.incrSeqNo
  have ht0 : Tidy b.incrSeqNo.tail := by
    rcases b.incrSeqNo_cases with hsame | ⟨f, s, hsame⟩ <;> rw [hsame]
    · exact ht
    · intro t' ht'
      obtain ⟨t, hmem, rfl⟩ := List.mem_map.1 ht'
      obtain ⟨a, c, hactive, hown⟩ := ht t hmem
      exact ⟨a, c, hactive.reseq f, hown.reseq f⟩
  obtain ⟨p1, hmerge, hfirst⟩ := Option.bind_eq_some_iff.1 hfirst
  obtain ⟨b2', hdata, heq⟩ := Option.map_eq_some_iff.1 hfirst
  obtain ⟨-, rfl⟩ := Prod.ext_iff.1 heq
  obtain ⟨p3, hmerge', hdata'⟩ := Option.bind_eq_some_iff.1 hsecond
  have ht1 := ht0.addMerge hb0.tail (by rw [incrSeqNo_workCurrent, List.length_take]; omega) hmerge
  have ht2 := ht1.addData (by rw [(addMerge_cases hmerge).1]; exact hb0.filling) hdata
  have ht3 := ht2.addMerge hb2.tail hjs hmerge'
  have ht4 : Tidy b4.tail := ht3.addData (by rw [(addMerge_cases hmerge').1]; exact hb2.filling) hdata'
  exact ht4

end BState

theorem reachable_grown {maxBaseJobs : Nat} (h : Reachable maxBaseJobs delay s) :
    ∃ b : BState α β (ceilLog2 maxBaseJobs), b.toState = s ∧ b.Grown := by
  induction h with
  | empty => exact ⟨_, (BState.empty_toState _ _).symm, BState.grown_empty _ _⟩
  | update _ hu ih =>
    obtain ⟨b, rfl, hb⟩ := ih
    obtain ⟨b', hb', rfl⟩ := BState.update_ok hu
    exact ⟨b', rfl, hb.step hb'⟩

theorem finishingRun_tidy {k : Nat} (h : FinishingRun k delay s) :
    ∃ b : BState α β (ceilLog2 (2 ^ k)), b.toState = s ∧ b.Inv BState.Any ∧ b.Grown ∧ BState.Tidy b.tail := by
  induction h with
  | empty => exact ⟨_, (BState.empty_toState _ _).symm, BState.inv_empty k delay, BState.grown_empty _ _, fun _ ht => absurd ht List.not_mem_nil⟩
  | update _ hfin hu ih =>
    obtain ⟨b, rfl, hb, hgrown, htidy⟩ := ih
    obtain ⟨b', hb', rfl⟩ := BState.update_ok hu
    have hfin' := hfin.finishes hb
    exact ⟨b', rfl, BState.step_finishing (fun _ _ => trivial) hb hfin' hb', hgrown.step hb', htidy.step hb hfin' hb'⟩

/-! ### What the weights are good for -/

namespace BTree

/-- `jobs_split` sends each job to one node at depth `a`, and to the first places that are open. -/
def Reaches (lens : Lens Weight Int) (a : Nat) (jobs : List (Job α β)) (t : BTree α β n) (places : List Bool) : Prop :=
  reach lens a jobs t = hand places jobs ∧ (reach lens a jobs t).flatten = jobs

theorem Counted.reaches {node : Merge.Job α → Bool} {leaf : Base.Job β → Bool}
    (h : Counted lens node leaf a t) (ha : a ≤ n) (hlen : jobs.length ≤ (opens node leaf a t).count true) :
    Reaches lens a jobs t (opens node leaf a t) := by
  rw [Reaches, h.reach_eq ha hlen]
  exact ⟨rfl, flatten_hand hlen⟩

/-- The base weights of a tree are right, and data that they leave room for is taken. -/
structure BaseCounts (t : BTree α β n) : Prop where
  weights : BaseExact t
  space_eq : Tree.availableSpace (toTree 0 t) = ((vacancies t).count true : Nat)
  update : ∀ (new : List β) (seqNo : Int), (new.length : Int) ≤ Tree.availableSpace (toTree 0 t) →
    Reaches Weight.baseLens n (new.map .base) t (vacancies t) ∧
      ∃ (t' : BTree α β n) (res : Option α),
        Tree.update (new.map .base) n seqNo Weight.baseLens (toTree 0 t) = .ok (toTree 0 t', res) ∧
          BaseExact t' ∧ t'.data = t.data ++ new

/-- The merge weights of a tree with the jobs at depth `a` to do are right, and results that they ask for are taken. -/
structure MergeCounts (a : Nat) (t : BTree α β n) : Prop where
  weights : MergeExact a t
  required_eq : 0 < a ∨ todos a t = [true] → Tree.requiredJobCount (toTree 0 t) = ((todos a t).count true : Nat)
  update : ∀ (js : List α) (seqNo : Int), 0 < a ∨ todos a t = [true] → (js.length : Int) ≤ Tree.requiredJobCount (toTree 0 t) →
    Reaches Weight.mergeLens a (js.map .merge) t (todos a t) ∧
      ∃ (t' : BTree α β n) (res : Option α),
        Tree.update (js.map .merge) a seqNo Weight.mergeLens (toTree 0 t) = .ok (toTree 0 t', res) ∧
          MergeExact a t' ∧ BaseExact t' ∧ (todos a t').count true + js.length = (todos a t).count true

theorem update_toTree_ok {L seqNo : Int} {p : BTree α β n × Option α}
    (h : update jobs L seqNo lens 0 t = some p) : Tree.update jobs L seqNo lens (toTree 0 t) = .ok (toTree 0 p.1, p.2) := by
  have htree := update_toTree jobs L seqNo lens t
  rw [h, Option.map_some] at htree
  cases hu : Tree.update jobs L seqNo lens (toTree 0 t) with
  | error e =>
    rw [hu] at htree
    cases htree
  | ok q =>
    rw [hu] at htree
    exact congrArg Except.ok (Option.some.inj htree)

theorem Filling.baseCounts {ds : List β} (h : Filling ds t) : BaseCounts t where
  weights := h.baseExact
  space_eq := by rw [space_toTree, h.baseExact.space_eq]
  update new seqNo hlen := by
    have hspace := h.baseExact.space_eq
    rw [space_toTree, hspace] at hlen
    have hfit : new.length ≤ (vacancies t).count true := by omega
    have hcount := (count_vacancies t).1
    rw [h.data_eq] at hcount
    have hle := h.length_le
    obtain ⟨t', res, hu, ht'⟩ := update_filling h new (by omega) 0 seqNo
    rw [zero_add] at hu
    exact ⟨h.baseExact.counted.reaches le_rfl (by rwa [List.length_map]), t', res, update_toTree_ok hu, ht'.baseExact,
      by rw [ht'.data_eq, h.data_eq]⟩

theorem update_nil (L seqNo d : Int) (lens : Lens Weight Int) (t : BTree α β n) :
    update [] L seqNo lens d t = some (t, none) := by
  induction t generalizing d with
  | leaf b =>
    rfl
  | node m l r ihl ihr =>
    have hnode : (Tree.addMerges L seqNo lens ([] : List (Job α β)) d m).toOption = some (m, none) := by
      simp only [Tree.addMerges]
      split_ifs <;> rfl
    by_cases hd : L = d
    · rw [hd] at hnode ⊢
      rw [update_node_stop, hnode, Option.map_some]
    · have hsplit : Tree.jobsSplit lens m.1 ([] : List (Job α β)) = ([], []) := by
        simp [Tree.jobsSplit, takeInt, dropInt]
      rw [update_node_down hd, hnode, hsplit]
      simp [ihl, ihr]

theorem Full.baseCounts (h : Full t) : BaseCounts t where
  weights := h.baseExact
  space_eq := by rw [space_toTree, h.baseExact.space_eq]
  update new seqNo hlen := by
    rw [space_toTree, h.baseExact.space_eq, h.count_eq] at hlen
    obtain rfl : new = [] := List.length_eq_zero_iff.1 (by omega)
    exact ⟨h.baseExact.counted.reaches le_rfl (Nat.zero_le _), t, none, update_toTree_ok (update_nil _ _ _ _ _), h.baseExact,
      (List.append_nil _).symm⟩

theorem Active.mergeCounts (h : Active BState.Any a c t) (hown : Own a t) (hfull : Full t) : MergeCounts a t := by
  have hcount : (todos a t).count true = 2 ^ a - c := by rw [count_todos, (jobsAt_active h).1]
  have hrequired : 0 < a ∨ todos a t = [true] → required t = ((2 ^ a - c : Nat) : Int) := by
    intro hopen
    refine h.required_eq ?_
    rcases hopen with hpos | hone
    · exact .inr hpos
    · rw [hone, List.count_singleton_self] at hcount
      cases a with
      | zero =>
        rw [pow_zero] at hcount
        exact .inl (by omega)
      | succ a => exact .inr (Nat.succ_pos a)
  refine ⟨⟨h.counted, hown⟩, fun hopen => ?_, fun js seqNo hopen hlen => ?_⟩
  · rw [required_toTree, hrequired hopen, hcount]
  · rw [required_toTree, hrequired hopen] at hlen
    have hle := h.le_pow
    have hV : Aligned BState.Any (segs a t) c js := by
      intro i v hv
      have hi := (List.getElem?_eq_some_iff.1 hv).1
      have hlt : c + i < (segs a t).length := by rw [length_segs h.le_height]; omega
      exact ⟨(segs a t)[c + i], List.getElem?_eq_getElem hlt, trivial⟩
    obtain ⟨t', hu, hactive, -⟩ := update_active h hV le_rfl seqNo
    have hown' := hown.update h hu
    have hfull' := hfull.update hu
    have hcount' : (todos a t').count true = 2 ^ a - (c + js.length) := by rw [count_todos, (jobsAt_active hactive).1]
    rw [zero_add] at hu
    exact ⟨h.counted.reaches h.le_height (by rw [List.length_map, hcount]; omega), t', _, update_toTree_ok hu,
      ⟨hactive.counted, hown'⟩, hfull'.baseExact, by omega⟩

end BTree

/-- The level of the jobs of the tree with this number behind the current one: that of its place, or of the next
place when the level is done. -/
def levelInWork (s : State α β) (i : Nat) : Nat :=
  ceilLog2 s.maxBaseJobs - (i + if (workForTree s .current).isEmpty then 1 else 0) / (s.delay + 1)

end MinaProtocol.ParallelScan
