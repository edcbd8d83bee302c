import MinaProtocol.ParallelScan.Nested

/-!
# ParallelScan.Binary

The scan state over ordinary binary trees: the operations of `ParallelScan.Tree`
and `ParallelScan.State` restated on `PerfectTree` trees, whose height `n` is the
rounded-up logarithm of the state's `max_base_jobs`. `update_toState` says that the source's `update`
is this one seen through `toState`, so an invariant of the binary state machine
is an invariant of the scan state.
-/

namespace MinaProtocol.ParallelScan

open PerfectTree

/-- A tree of the scan state as a binary tree. -/
abbrev BTree (α β : Type) (n : Nat) := PerfectTree (MergeNode α) (BaseNode β) n

variable {α β : Type} {n : Nat}

namespace BTree

/-! ### Updating and resetting -/

/-- `Tree.update` on binary trees. -/
def update (jobs : List (Job α β)) (updateLevel seqNo : Int) (lens : Lens Weight Int) (d : Int)
    (t : BTree α β n) : Option (BTree α β n × Option α) :=
  PerfectTree.split (fun j i m => (Tree.addMerges updateLevel seqNo lens j i m).toOption)
    (fun j b => (Tree.addBases updateLevel seqNo lens j b).toOption) Prod.fst
    (Tree.jobsSplit lens) updateLevel jobs d t

theorem update_toTree (jobs : List (Job α β)) (updateLevel seqNo : Int) (lens : Lens Weight Int)
    (t : BTree α β n) : (Tree.update jobs updateLevel seqNo lens (toTree 0 t)).toOption
      = (update jobs updateLevel seqNo lens 0 t).map fun p => (toTree 0 p.1, p.2) :=
  updateSplit_toTree _ _ _ _ _ _ _ _

theorem update_node_stop (jobs : List (Job α β)) (d seqNo : Int) (lens : Lens Weight Int)
    (m : MergeNode α) (l r : BTree α β n) : update jobs d seqNo lens d (.node m l r)
      = (Tree.addMerges d seqNo lens jobs d m).toOption.map fun v => (.node v.1 l r, v.2) := by
  simp only [update, PerfectTree.split, if_true]
  cases (Tree.addMerges d seqNo lens jobs d m).toOption <;> rfl

variable {jobs : List (Job α β)} {L d seqNo : Int} {lens : Lens Weight Int} {m : MergeNode α} {l r : BTree α β n}

theorem update_node_down (h : L ≠ d) (jobs : List (Job α β)) (seqNo : Int)
    (lens : Lens Weight Int) (m : MergeNode α) (l r : BTree α β n) : update jobs L seqNo lens d (.node m l r)
      = (Tree.addMerges L seqNo lens jobs d m).toOption.bind fun v =>
          (update (Tree.jobsSplit lens m.1 jobs).1 L seqNo lens (d + 1) l).bind fun l' =>
          (update (Tree.jobsSplit lens m.1 jobs).2 L seqNo lens (d + 1) r).map fun r' =>
            (.node v.1 l'.1 r'.1, v.2) := by
  simp only [update, PerfectTree.split, if_neg h]

theorem update_node_cases {p : BTree α β (n + 1) × Option α} (h : update jobs L seqNo lens d (.node m l r) = some p) :
    ∃ v, (Tree.addMerges L seqNo lens jobs d m).toOption = some v ∧ (L = d ∧ p.1 = .node v.1 l r ∨
      ∃ l' r', update (Tree.jobsSplit lens m.1 jobs).1 L seqNo lens (d + 1) l = some l' ∧
        update (Tree.jobsSplit lens m.1 jobs).2 L seqNo lens (d + 1) r = some r' ∧ L ≠ d ∧ p.1 = .node v.1 l'.1 r'.1) := by
  by_cases hd : L = d
  · rw [hd, update_node_stop] at h
    obtain ⟨v, hv, rfl⟩ := Option.map_eq_some_iff.1 h
    exact ⟨v, hd ▸ hv, .inl ⟨hd, rfl⟩⟩
  · rw [update_node_down hd] at h
    obtain ⟨v, hv, h⟩ := Option.bind_eq_some_iff.1 h
    obtain ⟨l', hl, h⟩ := Option.bind_eq_some_iff.1 h
    obtain ⟨r', hr, rfl⟩ := Option.map_eq_some_iff.1 h
    exact ⟨v, hv, .inr ⟨l', r', hl, hr, hd, rfl⟩⟩

theorem resetMerge_job (wt : Tree.WeightType) (lst : (Weight × Weight) × (Weight × Weight)) (m : MergeNode α) :
    (Tree.resetMerge wt lst m).1.2 = m.2 := by
  cases wt <;> rfl

/-- `Tree.reset_weights` on binary trees. -/
def reset (weightType : Tree.WeightType) (t : BTree α β n) : BTree α β n :=
  (PerfectTree.accumulate (Tree.resetMerge weightType) (Tree.resetBase weightType) t).1

theorem reset_toTree (weightType : Tree.WeightType) (t : BTree α β n) :
    Tree.resetWeights weightType (toTree 0 t) = toTree 0 (reset weightType t) := by
  simp only [Tree.resetWeights, updateAccumulate_toTree, reset]

/-! ### Reading -/

/-- The job of a merge node that is still to do, if there is one. -/
def mergeTodo : Merge.Job α → List (AvailableJob α β)
  | .full { left := l, right := r, seqNo := _, status := .todo } => [.merge l r]
  | _ => []

/-- The job of a leaf that is still to do, if there is one. -/
def baseTodo : Base.Job β → List (AvailableJob α β)
  | .full { job := d, seqNo := _, status := .todo } => [.base d]
  | _ => []

/-- The jobs to do at depth `a` below the root; depth `n` are the leaves. -/
def jobsAt : {n : Nat} → Nat → BTree α β n → List (AvailableJob α β)
  | 0, 0, .leaf b => baseTodo b.2
  | 0, _ + 1, .leaf _ => []
  | _ + 1, 0, .node m _ _ => mergeTodo m.2
  | _ + 1, a + 1, .node _ l r => jobsAt a l ++ jobsAt a r

/-- The data of a leaf, if it is full. -/
def leafData : Base.Job β → List β
  | .full r => [r.job]
  | .empty => []

/-- The data of the full leaves, left to right. -/
def data : {n : Nat} → BTree α β n → List β
  | 0, .leaf b => leafData b.2
  | _ + 1, .node _ l r => data l ++ data r

theorem jobsAt_eq (a : Nat) (t : BTree α β n) : jobsAt a t = (level a t).flatMap (fun m => mergeTodo m.2)
      ++ if a = n then t.leaves.flatMap (fun b => baseTodo b.2) else [] := by
  induction n generalizing a with
  | zero =>
    cases t with | leaf b =>
    cases a <;> simp [jobsAt, level, PerfectTree.leaves]
  | succ n ih =>
    cases t with | node m l r =>
    cases a with
    | zero => simp [jobsAt, level]
    | succ a =>
      simp only [jobsAt, level, PerfectTree.leaves, ih, Nat.succ.injEq, List.flatMap_append]
      by_cases h : a = n
      · -- at the leaves of the halves there are no inner nodes left
        subst h
        simp [level_eq_nil]
      · simp [h]

theorem data_eq (t : BTree α β n) : data t = t.leaves.flatMap fun b => leafData b.2 := by
  induction n with
  | zero => cases t; simp [data, PerfectTree.leaves]
  | succ n ih =>
    cases t with | node m l r =>
    simp only [data, PerfectTree.leaves, ih, List.flatMap_append]

variable {A : Type} {X : Type}

/-- A fold that conses what `f` finds collects it in reverse. -/
theorem foldl_collect (f : X → List A) (g : List A → X → List A)
    (hg : ∀ acc x, g acc x = (f x).reverse ++ acc) (l : List X) (acc : List A) :
    l.foldl g acc = (l.flatMap f).reverse ++ acc := by
  induction l generalizing acc with
  | nil => rfl
  | cons x l ih => simp [hg, ih]

theorem flatMap_range_ite (m a : Nat) (l : List A) :
    (List.range m).flatMap (fun i => if i = a then l else []) = if a < m then l else [] := by
  induction m with
  | zero => rfl
  | succ m ih =>
    rw [List.range_succ, List.flatMap_append, ih]
    rcases Nat.lt_trichotomy a m with h | h | h
    · simp [h, Nat.lt_succ_of_lt h, Nat.ne_of_gt h]
    · simp [h]
    · simp [Nat.not_lt_of_gt h, Nat.not_lt_of_ge h, Nat.ne_of_lt h]

theorem jobsOnLevel_toTree (lev : Int) (t : BTree α β n) :
    Tree.jobsOnLevel n lev (toTree 0 t) = if 0 ≤ lev then jobsAt lev.toNat t else [] := by
  simp only [Tree.jobsOnLevel, foldDepth_toTree]
  rw [foldl_collect (fun p : Int × MergeNode α =>
        if p.1 = lev then (mergeTodo p.2.2 : List (AvailableJob α β)) else []), foldl_collect (fun b : BaseNode β =>
        if lev = n then (baseTodo b.2 : List (AvailableJob α β)) else [])]
  · simp only [List.append_nil, List.reverse_append, List.reverse_reverse, levels,
      List.flatMap_assoc, List.flatMap_map, zero_add]
    by_cases hpos : 0 ≤ lev
    · obtain ⟨a, rfl⟩ := Int.eq_ofNat_of_zero_le hpos
      simp only [Int.toNat_natCast, Nat.cast_inj, jobsAt_eq, if_pos hpos]
      congr 1
      · -- only the level `a` contributes
        have hall : ∀ i, ((level i t).flatMap fun m : MergeNode α =>
            if i = a then (mergeTodo m.2 : List (AvailableJob α β)) else [])
            = if i = a then (level a t).flatMap fun m => mergeTodo m.2 else [] := by
          intro i
          by_cases h : i = a
          · subst h; simp
          · simp [h]
        simp only [hall, flatMap_range_ite]
        by_cases ha : a < n
        · simp [ha]
        · simp [ha, level_eq_nil (Nat.le_of_not_lt ha)]
      · by_cases h : a = n <;> simp [h]
    · have hne : ∀ i : Nat, ¬ ((i : Int) = lev) := by intro i h; omega
      have hn : ¬ (lev = n) := by omega
      simp [hne, hn, hpos]
  · intro acc b
    by_cases h : lev = n
    · simp only [h, decide_true]
      rcases b with ⟨w, _ | ⟨j, s, _ | _⟩⟩ <;> simp [baseTodo]
    · simp [h]
  · intro acc p
    by_cases h : p.1 = lev
    · simp only [h, decide_true]
      rcases p with ⟨i, w, _ | _ | ⟨x, y, s, _ | _⟩⟩ <;> simp [mergeTodo]
    · simp [h]

/-- The accumulator a depth fold carries past the inner nodes when they reset it. -/
theorem foldl_nil (l : List X) : l.foldl (fun _ _ => ([] : List A)) [] = [] := by
  induction l with
  | nil => rfl
  | cons x l ih => exact ih

/-- A full leaf, as `Tree.leaves` lists it. -/
def fullLeaf (b : BaseNode β) : List (BaseNode β) :=
  match b.2 with
  | .full _ => [b]
  | .empty => []

theorem leaves_toTree (t : BTree α β n) : Tree.leaves (toTree 0 t) = t.leaves.flatMap fullLeaf := by
  simp only [Tree.leaves, foldDepth_toTree, foldl_nil]
  rw [foldl_collect fullLeaf]
  · simp
  · intro acc b
    rcases b with ⟨w, _ | r⟩ <;> simp [fullLeaf]

theorem baseJobs_toTree (t : BTree α β n) : Tree.baseJobs (toTree 0 t) = data t := by
  simp only [Tree.baseJobs, foldDepth_toTree, data_eq]
  rw [foldl_collect (fun b : BaseNode β => leafData b.2)]
  · simp [foldl_nil]
  · intro acc b
    rcases b with ⟨w, _ | r⟩ <;> simp [leafData]

/-- `required_job_count` on binary trees. -/
def required : {n : Nat} → BTree α β n → Int
  | 0, .leaf b => b.1.merge
  | _ + 1, .node m _ _ => m.1.1.merge + m.1.2.merge

theorem required_toTree (t : BTree α β n) : Tree.requiredJobCount (toTree 0 t) = required t := by
  cases t <;> rfl

/-- `available_space` on binary trees. -/
def space : {n : Nat} → BTree α β n → Int
  | 0, .leaf b => b.1.base
  | _ + 1, .node m _ _ => m.1.1.base + m.1.2.base

theorem space_toTree (t : BTree α β n) : Tree.availableSpace (toTree 0 t) = space t := by
  cases t <;> rfl

/-! ### Building and relabelling -/

/-- The label `create_tree` puts at depth `d` of a tree of height `n`. -/
def emptyMerge (n : Nat) (d : Int) : MergeNode α :=
  let x : Int := 2 ^ n / 2 ^ (d + 1).toNat
  ((⟨x, 0⟩, ⟨x, 0⟩), .empty)

/-- `create_tree` as a binary tree. -/
def empty (n : Nat) : BTree α β n := PerfectTree.const (emptyMerge n) (⟨1, 0⟩, .empty) n 0

theorem createTreeGo_eq {M B : Type} (d : Int) (f : Int → M) (b : B) (m : Nat) :
    createTreeGo d f b m = toTree d (PerfectTree.const f b m d) := by
  induction m generalizing M B d with
  | zero => rfl
  | succ m ih => simp only [createTreeGo, PerfectTree.const, toTree, ih, pair_const]

theorem createTree_eq : createTree n = toTree 0 (empty n : BTree α β n) := by
  have hn : ¬ ((n : Int) = -1) := by omega
  simp only [createTree, createTreeForLevel, createTreeGo_eq, empty, hn, if_false, Int.toNat_natCast]
  rfl

/-- Relabel all nodes. -/
def map (f : MergeNode α → MergeNode α) (g : BaseNode β → BaseNode β) (t : BTree α β n) : BTree α β n :=
  PerfectTree.mapDepth (fun _ => f) g 0 t

@[simp] theorem map_node (f : MergeNode α → MergeNode α) (g : BaseNode β → BaseNode β)
    (m : MergeNode α) (l r : BTree α β n) : map f g (.node m l r) = .node (f m) (map f g l) (map f g r) := by
  rw [map, PerfectTree.mapDepth, mapDepth_const_depth f g (0 + 1) 0 l, mapDepth_const_depth f g (0 + 1) 0 r]
  rfl

theorem map_toTree (f : MergeNode α → MergeNode α) (g : BaseNode β → BaseNode β)
    (t : BTree α β n) : Tree.map f g (toTree 0 t) = toTree 0 (map f g t) :=
  mapDepth_toTree _ _ _ _

end BTree

/-! ### The state -/

/-- A scan state over binary trees of height `n`. -/
structure BState (α β : Type) (n : Nat) where
  head : BTree α β n
  tail : List (BTree α β n)
  acc : Option (α × List β)
  seqNo : Int
  maxBaseJobs : Nat
  delay : Nat
  /-- the height of the trees is the one `create_tree` is called with -/
  depth_eq : ceilLog2 maxBaseJobs = n

/-- The scan state a binary one stands for. -/
def BState.toState (b : BState α β n) : State α β where
  trees := ⟨toTree 0 b.head, b.tail.map (toTree 0)⟩
  acc := b.acc
  currJobSeqNo := b.seqNo
  maxBaseJobs := b.maxBaseJobs
  delay := b.delay

theorem ceilLog2_two_pow (n : Nat) : ceilLog2 (2 ^ n) = n := by
  cases n with
  | zero => rfl
  | succ n =>
    have hpos : 0 < 2 ^ n := Nat.two_pow_pos n
    have hne : ¬ (2 ^ (n + 1) = 1) := by rw [Nat.pow_succ]; omega
    have hlog : Nat.log2 (2 ^ (n + 1) - 1) = n := by
      rw [Nat.log2_eq_iff (by rw [Nat.pow_succ]; omega), Nat.pow_succ]
      omega
    rw [ceilLog2, if_neg hne, hlog]

namespace BState

open BTree

/-- `empty` over binary trees. -/
def empty (maxBaseJobs delay : Nat) : BState α β (ceilLog2 maxBaseJobs) where
  head := BTree.empty (ceilLog2 maxBaseJobs)
  tail := []
  acc := none
  seqNo := 0
  maxBaseJobs := maxBaseJobs
  delay := delay
  depth_eq := rfl

theorem empty_toState (maxBaseJobs delay : Nat) :
    ParallelScan.empty maxBaseJobs delay = (empty maxBaseJobs delay : BState α β _).toState := by
  simp only [ParallelScan.empty, createTree_eq]
  rfl

/-! ### Work -/

/-- The jobs listed for the tree with number `i`: the trees numbered
`delay - 1, 2 * delay - 1, …` are worked on, each one level above the one before. -/
def workOf (delay i : Nat) (t : BTree α β n) : List (AvailableJob α β) :=
  if i % delay = delay - 1 ∧ i / delay ≤ n then jobsAt (n - i / delay) t else []

/-- `work` over binary trees, from the tree numbered `i` on. -/
def workFrom (delay : Nat) : Nat → List (BTree α β n) → List (AvailableJob α β)
  | _, [] => []
  | i, t :: ts => workOf delay i t ++ workFrom delay (i + 1) ts

variable {delay : Nat} {X Y : Type*} {i : Nat}

theorem succ_div_of_last (hd : 0 < delay) (h : i % delay = delay - 1) : (i + 1) / delay = i / delay + 1 := by
  have hi := Nat.div_add_mod i delay
  rw [show i + 1 = delay * (i / delay + 1) by rw [Nat.mul_add]; omega]
  exact Nat.mul_div_cancel_left _ hd

theorem succ_div_of_not_last (hd : 0 < delay) (h : ¬ i % delay = delay - 1) : (i + 1) / delay = i / delay := by
  have hlt := Nat.mod_lt i hd
  have hi := Nat.div_add_mod i delay
  rw [Nat.div_eq_iff hd]
  constructor
  · have : i / delay * delay = delay * (i / delay) := Nat.mul_comm _ _
    omega
  · have : i / delay * delay = delay * (i / delay) := Nat.mul_comm _ _
    omega

theorem jobsOnLevel_sub (j : Nat) (t : BTree α β n) :
    Tree.jobsOnLevel n ((n : Int) - j) (toTree 0 t) = if j ≤ n then jobsAt (n - j) t else [] := by
  rw [jobsOnLevel_toTree]
  by_cases h : j ≤ n
  · rw [if_pos (by omega), if_pos h]
    congr 1
    omega
  · rw [if_neg (by omega), if_neg h]

theorem workFrom_eq (hd : 0 < delay) (i : Nat) (ts : List (BTree α β n)) :
    ((((ts.map (toTree 0)).zipIdx i).filter fun p => p.2 % delay = delay - 1).map
        Prod.fst |>.zipIdx (i / delay)).flatMap
          (fun p => Tree.jobsOnLevel n ((n : Int) - p.2) p.1)
      = workFrom delay i ts := by
  induction ts generalizing i with
  | nil => rfl
  | cons t ts ih =>
    have hrec := ih (i + 1)
    simp only [List.map_cons, List.zipIdx_cons, List.filter_cons, workFrom, workOf]
    by_cases h : i % delay = delay - 1
    · rw [succ_div_of_last hd h] at hrec
      simp only [h, decide_true, if_true, List.map_cons, List.zipIdx_cons, List.flatMap_cons,
        jobsOnLevel_sub, hrec, true_and]
    · rw [succ_div_of_not_last hd h] at hrec
      simpa [h] using hrec

theorem flatMap_zipIdx_take (f : X × Nat → List Y) (m : Nat) (l : List X)
    (hf : ∀ x ∈ l, ∀ j, m ≤ j → f (x, j) = []) : (l.take m).zipIdx.flatMap f = l.zipIdx.flatMap f := by
  conv_rhs => rw [← List.take_append_drop m l, List.zipIdx_append]
  have hnil : ((l.drop m).zipIdx (0 + (l.take m).length)).flatMap f = [] := by
    rw [List.flatMap_eq_nil_iff]
    rintro ⟨x, j⟩ hp
    have hj := List.le_snd_of_mem_zipIdx hp
    have hx := List.fst_mem_of_mem_zipIdx hp
    refine hf x (List.mem_of_mem_drop hx) j ?_
    -- a dropped tree exists, so `take` did take `m` trees
    have hlen : 0 < (l.drop m).length := List.length_pos_of_mem hx
    simp only [List.length_drop, List.length_take] at hlen hj
    omega
  rw [List.flatMap_append, hnil, List.append_nil]

theorem work_map {maxBaseJobs : Nat} (hd : 0 < delay) (hn : ceilLog2 maxBaseJobs = n)
    (ts : List (BTree α β n)) : work (ts.map (toTree 0)) delay maxBaseJobs = workFrom delay 0 ts := by
  have h := workFrom_eq hd 0 ts
  rw [Nat.zero_div] at h
  simp only [work, workToDo, hn]
  rw [flatMap_zipIdx_take]
  · exact h
  · intro x hx j hj
    obtain ⟨⟨y, i⟩, hp, rfl⟩ := List.mem_map.1 hx
    obtain ⟨t, -, ht⟩ := List.mem_map.1 (List.fst_mem_of_mem_zipIdx (List.mem_of_mem_filter hp))
    rw [← ht, jobsOnLevel_sub, if_neg (by omega)]

/-- `max_trees` over binary trees. -/
def maxTrees (b : BState α β n) : Nat := (n + 1) * (b.delay + 1) + 1

variable (b : BState α β n) {r : Option (α × List β)} {data : List β} {jobs : List α}

include b in
theorem maxTrees_toState : ParallelScan.maxTrees b.toState = b.maxTrees := by
  simp [ParallelScan.maxTrees, toState, b.depth_eq, maxTrees]

/-- The work on the trees behind the current one. -/
def workCurrent (b : BState α β n) : List (AvailableJob α β) := workFrom (b.delay + 1) 0 b.tail

/-- The work on all trees, as it would be with a new tree in front. -/
def workNext (b : BState α β n) : List (AvailableJob α β) :=
  workFrom (b.delay + 1) 0 (b.head :: b.tail)

include b

theorem work_tail : work b.toState.trees.tail (b.delay + 1) b.maxBaseJobs = b.workCurrent :=
  work_map (Nat.succ_pos _) b.depth_eq _

theorem work_toList : work b.toState.trees.toList (b.delay + 1) b.maxBaseJobs = b.workNext :=
  work_map (Nat.succ_pos _) b.depth_eq (b.head :: b.tail)

omit b

/-- The jobs `work_for_next_update` asks for, over binary trees. -/
def requiredWork (b : BState α β n) (dataCount : Nat) : List (AvailableJob α β) :=
  let count := min dataCount b.maxBaseJobs
  if b.head.space < count then
    b.workCurrent ++ takeInt b.workNext (((count : Int) - b.head.space) * 2)
  else b.workCurrent.take (2 * count)

theorem flatten_filter_nonempty {X : Type} (l l' : List X) :
    ([l, l'].filter fun s => !s.isEmpty).flatten = l ++ l' := by
  cases l <;> cases l' <;> simp

include b in
theorem workForNextUpdate_toState (dataCount : Nat) :
    (workForNextUpdate b.toState dataCount).flatten = b.requiredWork dataCount := by
  simp only [workForNextUpdate, requiredWork]
  rw [show b.toState.delay = b.delay from rfl, show b.toState.maxBaseJobs = b.maxBaseJobs from rfl,
    show b.toState.trees.head = toTree 0 b.head from rfl, work_tail, work_toList, space_toTree]
  split_ifs with h h'
  · exact flatten_filter_nonempty _ _
  · simpa using h'
  · simp

/-- A new empty tree in front. -/
def shift (b : BState α β n) : BState α β n :=
  { b with head := BTree.empty n, tail := b.head :: b.tail }

include b

theorem iterate_shift_delay (s : Nat) : (shift^[s] b).delay = b.delay := by
  induction s generalizing b with
  | zero => rfl
  | succ s ih => rw [Function.iterate_succ_apply, ih]; rfl

/-- `all_work` lists the current work, then the work after one, two, … more trees. -/
theorem allWork_toState : allWork b.toState = ((List.range (b.delay + 2)).map fun s => (shift^[s] b).workCurrent).filter
      fun w => !w.isEmpty := by
  have hfold : ∀ (m : Nat) (b' : BState α β n) (acc : List (List (AvailableJob α β))),
      (List.range m).foldl (fun acc _ => allWorkStep n acc) (b'.toState, acc)
        = ((shift^[m] b').toState, (((List.range m).map fun s => (shift^[s + 1] b').workCurrent).filter
            fun w => !w.isEmpty).reverse ++ acc) := by
    intro m b' acc
    induction m generalizing acc with
    | zero => rfl
    | succ m ih =>
      rw [List.range_succ, List.foldl_append, ih, List.map_append, List.filter_append, Function.iterate_succ_apply']
      have hw : workForTree { (shift^[m] b').toState with
          trees := (shift^[m] b').toState.trees.cons (createTree n) } .current
          = (shift^[m + 1] b').workCurrent := by
        rw [Function.iterate_succ_apply', ← work_tail]
        simp only [workForTree, toState, NonemptyList.cons, shift]
        rfl
      have hs : ({ (shift^[m] b').toState with
          trees := (shift^[m] b').toState.trees.cons (createTree n) } : State α β)
          = (shift (shift^[m] b')).toState := by
        rw [createTree_eq]; rfl
      simp only [List.foldl_cons, List.foldl_nil, allWorkStep, hw]
      cases hc : (shift^[m + 1] b').workCurrent with
      | nil => simp [hs, hc, -Function.iterate_succ]
      | cons w ws => simp [hs, hc, -Function.iterate_succ]
  have hcur : workForTree b.toState .current = b.workCurrent := b.work_tail
  simp only [allWork, show b.toState.maxBaseJobs = b.maxBaseJobs from rfl, b.depth_eq, hcur]
  rw [show b.toState.delay = b.delay from rfl, hfold, List.append_nil, List.reverse_reverse]
  conv_rhs => rw [List.range_succ_eq_map, List.map_cons, List.filter_cons, List.map_map]
  cases h : b.workCurrent with
  | nil => simp [h, Function.comp_def, -Function.iterate_succ]
  | cons w ws => simp [h, Function.comp_def, -Function.iterate_succ]

omit b

/-! ### Adding completed jobs -/

/-- The fold of `add_merge_jobs`, from the tree numbered `i` on: the updated
trees, the last scan result and the jobs left over. -/
def mergeGo (delay : Nat) (seqNo : Int) : Nat → Option α → List (Job α β) → List (BTree α β n) →
      Option (List (BTree α β n) × Option α × List (Job α β))
  | _, res, jobs, [] => some ([], res, jobs)
  | i, res, jobs, t :: ts =>
    if i % delay = delay - 1 ∧ jobs ≠ [] then
      (BTree.update (takeInt jobs t.required) ((n : Int) - (i / delay : Nat)) seqNo Weight.mergeLens 0 t).bind fun p =>
        (mergeGo delay seqNo (i + 1) p.2 (dropInt jobs t.required) ts).map fun r =>
          (p.1 :: r.1, r.2)
    else (mergeGo delay seqNo (i + 1) res jobs ts).map fun r => (t :: r.1, r.2)

/-- The fold of the source, in its own words. -/
def sourceFold (delay : Nat) (seqNo : Int) (ts : List (ScanTree α β × Nat))
    (acc : OrError (List (ScanTree α β) × Option α × List (Job α β))) :
    OrError (List (ScanTree α β) × Option α × List (Job α β)) :=
  ts.foldl (fun acc p => acc.bind fun acc => addMergeJobsStep delay n seqNo acc p.1 p.2) acc

theorem sourceFold_error (delay : Nat) (seqNo : Int) (ts : List (ScanTree α β × Nat)) (e : Error) :
    sourceFold (n := n) delay seqNo ts (.error e) = .error e := by
  induction ts with
  | nil => rfl
  | cons p ts ih => exact ih

theorem sourceFold_eq (delay : Nat) (seqNo : Int) (i : Nat) (ts : List (BTree α β n))
    (trees : List (ScanTree α β)) (res : Option α) (jobs : List (Job α β)) :
    (sourceFold (n := n) delay seqNo ((ts.map (toTree 0)).zipIdx i) (.ok (trees, res, jobs))).toOption
      = (mergeGo delay seqNo i res jobs ts).map fun r =>
          ((r.1.map (toTree 0)).reverse ++ trees, r.2) := by
  induction ts generalizing i trees res jobs with
  | nil => rfl
  | cons t ts ih =>
    rw [List.map_cons, List.zipIdx_cons, mergeGo]
    show (sourceFold delay seqNo _ (addMergeJobsStep delay n seqNo (trees, res, jobs) _ i)).toOption = _
    simp only [addMergeJobsStep, required_toTree]
    by_cases h : i % delay = delay - 1 ∧ jobs ≠ []
    · have h' : i % delay = delay - 1 ∧ ¬ jobs.isEmpty = true := by simpa using h
      rw [if_pos h, if_pos h']
      have hu := update_toTree (takeInt jobs t.required) ((n : Int) - (i / delay : Nat)) seqNo
        Weight.mergeLens t
      revert hu
      cases Tree.update (takeInt jobs t.required) ((n : Int) - (i / delay : Nat)) seqNo
          Weight.mergeLens (toTree 0 t) with
      | error e =>
        intro hu
        rw [Except.toOption, eq_comm, Option.map_eq_none_iff] at hu
        rw [hu, sourceFold_error]
        rfl
      | ok p =>
        intro hu
        obtain ⟨q, hq, rfl⟩ := Option.map_eq_some_iff.1 hu.symm
        rw [hq, Option.bind_some, ih]
        simp [Option.map_map, Function.comp_def]
    · have h' : ¬ (i % delay = delay - 1 ∧ ¬ jobs.isEmpty = true) := by simpa using h
      rw [if_neg h, if_neg h', ih]
      simp [Option.map_map, Function.comp_def]

/-- What `add_merge_jobs` does with the outcome of its fold: a scan result takes
the oldest tree off the list, and the weights are recomputed when a level is
finished. -/
def finishMerge (b : BState α β n) (exact : Bool) (ts : List (BTree α β n)) (res : Option α) :
    Option (α × List β) × BState α β n :=
  let p : List (BTree α β n) × Option (α × List β) :=
    match res with
    | none => (ts, none)
    | some r =>
      match ts.getLast? with
      | none => ([], none)
      | some t => (ts.dropLast, some (r, t.data))
  let ts' :=
    if p.2.isSome ∨ (p.1.length + 1 < b.maxTrees ∧ exact = true) then
      p.1.map (BTree.reset .merge)
    else p.1
  (p.2, { b with tail := ts' })

/-- `add_merge_jobs` over binary trees. -/
def addMerge (jobs : List α) (b : BState α β n) : Option (Option (α × List β) × BState α β n) :=
  if jobs = [] then some (none, b)
  else if jobs.length > b.workCurrent.length then none
  else
    (mergeGo (b.delay + 1) b.seqNo 0 none (jobs.map .merge) b.tail).map fun r =>
      finishMerge b (jobs.length = b.workCurrent.length) r.1 r.2.1

theorem resetIf_map (c : Prop) [Decidable c] (ts : List (BTree α β n)) :
    (if c then (ts.map (toTree 0)).map (Tree.resetWeights .merge) else ts.map (toTree 0))
      = (if c then ts.map (BTree.reset .merge) else ts).map (toTree 0) := by
  split_ifs
  · simp [reset_toTree]
  · rfl

theorem consTree_eq (b : ScanTree α β) (bs : List (ScanTree α β)) : consTree b bs = ⟨b, bs⟩ := by
  cases bs <;> rfl

theorem appendTrees_eq (b : ScanTree α β) (bs bs' : List (ScanTree α β)) :
    appendTrees ⟨b, bs⟩ bs' = ⟨b, bs ++ bs'⟩ := by
  cases bs' with
  | nil => simp [appendTrees, NonemptyList.ofListOpt]
  | cons t ts => rfl

theorem addMerge_toState (jobs : List α) (b : BState α β n) : (addMergeJobs jobs b.toState).toOption
      = (b.addMerge jobs).map fun p => (p.1, p.2.toState) := by
  simp only [addMergeJobs, addMerge, List.length_eq_zero_iff]
  by_cases hjobs : jobs = []
  · rw [if_pos hjobs, if_pos hjobs]; rfl
  rw [if_neg hjobs, if_neg hjobs]
  have hwork : workForTree b.toState .current = b.workCurrent := b.work_tail
  rw [hwork, List.length_map]
  by_cases hlen : jobs.length > b.workCurrent.length
  · rw [if_pos hlen, if_pos hlen]; rfl
  rw [if_neg hlen, if_neg hlen]
  have hfold := sourceFold_eq (b.delay + 1) b.seqNo 0 b.tail [] none (jobs.map .merge)
  simp only [sourceFold] at hfold
  simp only [show b.toState.trees.tail = b.tail.map (toTree 0) from rfl,
    show b.toState.delay = b.delay from rfl, show b.toState.currJobSeqNo = b.seqNo from rfl,
    show b.toState.maxBaseJobs = b.maxBaseJobs from rfl, b.depth_eq]
  revert hfold
  generalize List.foldl _ _ _ = x
  intro hfold
  cases x with
  | error e =>
    rw [Except.toOption, eq_comm, Option.map_eq_none_iff] at hfold
    rw [hfold]
    rfl
  | ok r =>
    obtain ⟨q, hq, hr⟩ := Option.map_eq_some_iff.1 hfold.symm
    obtain ⟨ts, res, left⟩ := q
    rw [hq]
    simp only [List.append_nil] at hr
    subst hr
    simp only [maxTrees_toState, consTree_eq, List.length_cons, Option.map_some, finishMerge]
    cases res with
    | none =>
      simp only [List.reverse_reverse, List.length_map, decide_eq_true_eq, resetIf_map]
      rfl
    | some a =>
      rcases List.eq_nil_or_concat ts with rfl | ⟨init, t, rfl⟩
      · simp only [List.map_nil, List.reverse_nil, List.getLast?_nil, List.length_nil, decide_eq_true_eq, ite_self]
        rfl
      · simp only [List.concat_eq_append, List.map_append, List.map_cons, List.map_nil, List.reverse_append,
          List.reverse_cons, List.reverse_nil, List.nil_append, List.cons_append,
          List.reverse_reverse, List.getLast?_concat, List.dropLast_concat, List.length_map,
          baseJobs_toTree, decide_eq_true_eq, resetIf_map]
        rfl

/-! ### Adding data -/

/-- `add_data` over binary trees. -/
def addData (data : List β) (b : BState α β n) : Option (BState α β n) :=
  if data = [] then some b
  else if (data.length : Int) > b.head.space then none
  else
    (BTree.update (data.map .base) n b.seqNo Weight.baseLens 0 b.head).map fun p =>
      if (data.length : Int) = b.head.space then
        { b with head := BTree.empty n, tail := p.1.reset .both :: b.tail }
      else { b with head := p.1.reset .merge }

theorem addData_toState (data : List β) (b : BState α β n) :
    (ParallelScan.addData data b.toState).toOption = (b.addData data).map toState := by
  simp only [ParallelScan.addData, addData, List.length_eq_zero_iff]
  by_cases hdata : data = []
  · rw [if_pos hdata, if_pos hdata]; rfl
  rw [if_neg hdata, if_neg hdata]
  simp only [show b.toState.trees.head = toTree 0 b.head from rfl, space_toTree,
    show b.toState.maxBaseJobs = b.maxBaseJobs from rfl, b.depth_eq]
  by_cases hlen : (data.length : Int) > b.head.space
  · rw [if_pos hlen, if_pos hlen]; rfl
  rw [if_neg hlen, if_neg hlen]
  have hu := update_toTree (data.map .base) n b.seqNo Weight.baseLens b.head
  revert hu
  simp only [show b.toState.currJobSeqNo = b.seqNo from rfl]
  cases Tree.update (data.map .base) n b.seqNo Weight.baseLens (toTree 0 b.head) with
  | error e =>
    intro hu
    rw [Except.toOption, eq_comm, Option.map_eq_none_iff] at hu
    rw [hu]
    rfl
  | ok p =>
    intro hu
    obtain ⟨q, hq, rfl⟩ := Option.map_eq_some_iff.1 hu.symm
    rw [hq]
    simp only [List.length_map, Option.map_some, reset_toTree, createTree_eq, consTree_eq, NonemptyList.singleton]
    by_cases hfull : (data.length : Int) = b.head.space
    · simp only [if_pos hfull, appendTrees_eq]; rfl
    · simp only [if_neg hfull, appendTrees_eq]; rfl

/-! ### The sequence number -/

/-- The new number of a job in `reset_seq_no`. -/
def newSeq (b : BState α β n) (seq : Int) : Int :=
  seq - oldestSeqNo (Tree.leaves b.toState.trees.last) + 1

/-- `incr_sequence_no` over binary trees. -/
def incrSeqNo (b : BState α β n) : BState α β n :=
  if b.seqNo + 1 = intMaxValue then
    { b with
      head := b.head.map (reseqMerge b.newSeq) (reseqBase b.newSeq)
      tail := b.tail.map (BTree.map (reseqMerge b.newSeq) (reseqBase b.newSeq))
      seqNo := (resetSeqNo b.toState).currJobSeqNo }
  else { b with seqNo := b.seqNo + 1 }

theorem foldl_snd_collect {Z : Type*} (f : Y → Z) (g : X × List Z → Y → X) (l : List Y) (acc : X × List Z) :
    (l.foldl (fun acc y => (g acc y, f y :: acc.2)) acc).2 = (l.map f).reverse ++ acc.2 := by
  induction l generalizing acc with
  | nil => rfl
  | cons y l ih => simp [ih]

include b

theorem resetSeqNo_trees : (resetSeqNo b.toState).trees =
      ⟨toTree 0 (b.head.map (reseqMerge b.newSeq) (reseqBase b.newSeq)),
        (b.tail.map (BTree.map (reseqMerge b.newSeq) (reseqBase b.newSeq))).map (toTree 0)⟩ := by
  simp only [resetSeqNo, foldl_snd_collect]
  simp only [NonemptyList.toList, toState, List.map_cons, List.map_map, List.append_nil,
    List.reverse_reverse, NonemptyList.ofListOpt, Option.getD_some, Function.comp_def, map_toTree]
  rfl

theorem incrSeqNo_toState : incrSequenceNo b.toState = b.incrSeqNo.toState := by
  simp only [incrSequenceNo, incrSeqNo, show b.toState.currJobSeqNo = b.seqNo from rfl]
  split_ifs
  · have h := b.resetSeqNo_trees
    simp only [toState] at h ⊢
    rw [← h]
    rfl
  · rfl

omit b

/-! ### The step -/

/-- `update` over binary trees. -/
def step (data : List β) (jobs : List α) (b : BState α β n) : Option (Option (α × List β) × BState α β n) :=
  if data.length > b.maxBaseJobs then none
  else if insufficientJobs b.toState data.length jobs.length then none
  else
    (b.incrSeqNo.addMerge (jobs.take b.workCurrent.length)).bind fun p1 =>
    (p1.2.addData (takeInt data b.head.space)).bind fun b2 =>
    (b2.addMerge (jobs.drop b.workCurrent.length)).bind fun p3 =>
    (p3.2.addData (dropInt data b.head.space)).bind fun b4 =>
      if b4.tail.length + 1 > b4.maxTrees then none
      else some (p1.1, { b4 with acc := p1.1.or b4.acc })

/-- **The source's `update` is the binary `step`.** -/
theorem update_toState (data : List β) (jobs : List α) (b : BState α β n) :
    (update data jobs b.toState).toOption = (b.step data jobs).map fun p => (p.1, p.2.toState) := by
  simp only [update, updateHelper, step, show b.toState.maxBaseJobs = b.maxBaseJobs from rfl]
  by_cases hmax : data.length > b.maxBaseJobs
  · rw [if_pos hmax, if_pos hmax]; rfl
  rw [if_neg hmax, if_neg hmax]
  by_cases hins : insufficientJobs b.toState data.length jobs.length
  · rw [if_pos hins, if_pos hins]; rfl
  rw [if_neg hins, if_neg hins]
  simp only [show b.toState.trees.head = toTree 0 b.head from rfl, space_toTree,
    show b.toState.delay = b.delay from rfl, work_tail, incrSeqNo_toState, toOption_bind,
    addMerge_toState, Option.bind_map, Option.map_bind, Function.comp_def, addData_toState]
  congr 1
  funext p1
  congr 1
  funext b2
  congr 1
  funext p3
  congr 1
  funext b4
  rw [maxTrees_toState, show b4.toState.trees.length = b4.tail.length + 1 by
    simp [toState, NonemptyList.length, NonemptyList.toList]]
  split_ifs <;> rfl

theorem update_ok {b : BState α β n} {s' : State α β} (h : update data jobs b.toState = .ok (r, s')) :
    ∃ b', b.step data jobs = some (r, b') ∧ b'.toState = s' := by
  have hstep := b.update_toState data jobs
  rw [h] at hstep
  obtain ⟨⟨r', b'⟩, hb', heq⟩ := Option.map_eq_some_iff.1 hstep.symm
  obtain ⟨rfl, rfl⟩ := Prod.ext_iff.1 heq
  exact ⟨b', hb', rfl⟩

theorem update_of_step {b b' : BState α β n} (h : b.step data jobs = some (r, b')) :
    update data jobs b.toState = .ok (r, b'.toState) := by
  have hstep := b.update_toState data jobs
  rw [h, Option.map_some] at hstep
  cases hu : update data jobs b.toState with
  | error e => rw [hu] at hstep; cases hstep
  | ok p =>
    rw [hu] at hstep
    exact congrArg Except.ok (Option.some.inj hstep)

end BState

end MinaProtocol.ParallelScan
