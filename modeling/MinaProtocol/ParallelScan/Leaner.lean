import MinaProtocol.ParallelScan.Binary

/-!
# ParallelScan.Leaner

What serialization does to a scan state. `with_leaner_trees` replaces every
finished merge job by `Empty`, so a peer that reads a state back continues with
different trees. The two nodes never notice: a finished job sits at or below the
level its tree is worked on (`NoDoneFrom`), while jobs are only ever *created*
strictly above that level, which is the one place where `Empty` and a finished
job are treated differently.
-/

namespace MinaProtocol.ParallelScan

open PerfectTree

variable {α β : Type} {n : Nat} {m : MergeNode α} {L : Int} {d : Int}

/-! ### One node -/

/-- Is this merge job finished? -/
def Merge.Job.isDone : Merge.Job α → Bool
  | .full { left := _, right := _, seqNo := _, status := .done } => true
  | _ => false

@[simp] theorem leanerMerge_fst (m : MergeNode α) : (leanerMerge m).1 = m.1 := by
  rcases m with ⟨w, _ | _ | ⟨x, y, s, _ | _⟩⟩ <;> rfl

@[simp] theorem leanerMerge_leanerMerge (m : MergeNode α) : leanerMerge (leanerMerge m) = leanerMerge m := by
  rcases m with ⟨w, _ | _ | ⟨x, y, s, _ | _⟩⟩ <;> rfl

theorem leanerMerge_of_not_done (h : m.2.isDone = false) : leanerMerge m = m := by
  rcases m with ⟨w, _ | _ | ⟨x, y, s, _ | _⟩⟩
  · rfl
  · rfl
  · rfl
  · simp [Merge.Job.isDone] at h

/-- At a node that is not finished unless it is at the updated level or below,
an update and the update of the leaner node agree up to finished jobs. -/
theorem addMerges_leaner (seqNo : Int) (lens : Lens Weight Int) (jobs : List (Job α β))
    (h : d < L → m.2.isDone = false) : ((Tree.addMerges L seqNo lens jobs d m).toOption).map (Prod.map leanerMerge id)
      = ((Tree.addMerges L seqNo lens jobs d (leanerMerge m)).toOption).map
          (Prod.map leanerMerge id) := by
  by_cases hd : m.2.isDone = false
  · rw [leanerMerge_of_not_done hd]
  · have hL : ¬ d < L := fun hlt => hd (h hlt)
    rcases m with ⟨w, _ | _ | ⟨x, y, s, _ | _⟩⟩ <;> simp [Merge.Job.isDone] at hd
    have h1 : ¬ d = L - 1 := by omega
    have h2 : ¬ d < L - 1 := by omega
    by_cases h3 : d = L
    · simp only [Tree.addMerges, leanerMerge, if_neg h1, if_pos h3]
      rcases jobs with _ | ⟨_ | j, _ | ⟨j', jobs⟩⟩ <;> rfl
    · simp only [Tree.addMerges, leanerMerge, if_neg h1, if_neg h2, if_neg h3]
      rfl

theorem addMerges_noDone {seqNo : Int} {lens : Lens Weight Int} {jobs : List (Job α β)}
    {p : MergeNode α × Option α} (h : d < L → m.2.isDone = false)
    (hp : (Tree.addMerges L seqNo lens jobs d m).toOption = some p) (hd : d < L) : p.1.2.isDone = false := by
  have hm := h hd
  have h3 : ¬ d = L := by omega
  rcases m with ⟨⟨w1, w2⟩, j⟩
  simp only [Tree.addMerges, if_neg h3] at hp
  by_cases h1 : d = L - 1
  · rw [if_pos h1] at hp
    rcases jobs with _ | ⟨_ | a, _ | ⟨_ | b, _ | ⟨c, jobs⟩⟩⟩ <;>
      rcases j with _ | a' | r <;>
      simp only [Except.toOption, Option.some.injEq, reduceCtorEq] at hp <;>
      subst hp <;> first | rfl | exact hm
  · rw [if_neg h1, if_pos (by omega)] at hp
    rcases jobs with _ | ⟨c, jobs⟩ <;>
      simp only [Except.toOption, Option.some.injEq] at hp <;>
      subst hp <;> exact hm

/-! ### One tree -/

namespace BTree

/-- `with_leaner_trees` on one binary tree. -/
def leaner (t : BTree α β n) : BTree α β n := t.map leanerMerge id

@[simp] theorem leaner_node (m : MergeNode α) (l r : BTree α β n) :
    leaner (.node m l r) = .node (leanerMerge m) (leaner l) (leaner r) := map_node _ _ _ _ _

@[simp] theorem leaner_leaner (t : BTree α β n) : leaner (leaner t) = leaner t := by
  induction n with
  | zero => cases t; rfl
  | succ n ih => cases t with | node m l r => simp [ih]

/-- No merge job at a depth below `lim` is finished, the root being at depth `d`. -/
def NoDone (lim : Int) : {n : Nat} → Int → BTree α β n → Prop
  | 0, _, .leaf _ => True
  | _ + 1, d, .node m l r =>
    (d < lim → m.2.isDone = false) ∧ NoDone lim (d + 1) l ∧ NoDone lim (d + 1) r

variable {t : BTree α β n} {d lim : Int}

theorem NoDone.mono {lim' : Int} (h : lim' ≤ lim) (ht : NoDone lim d t) : NoDone lim' d t := by
  induction t generalizing d with
  | leaf b => trivial
  | node m l r ihl ihr =>
    obtain ⟨hm, hl, hr⟩ := ht
    exact ⟨fun hd => hm (by omega), ihl hl, ihr hr⟩

/-- **One update does not see finished jobs.** -/
theorem update_leaner {L : Int} (seqNo : Int) (lens : Lens Weight Int) (jobs : List (Job α β))
    (ht : NoDone L d t) : (update jobs L seqNo lens d t).map (Prod.map leaner id)
      = (update jobs L seqNo lens d (leaner t)).map (Prod.map leaner id) := by
  induction t generalizing jobs d with
  | leaf b => rfl
  | node m l r ihl ihr =>
    obtain ⟨hm, hl, hr⟩ := ht
    have hnode := addMerges_leaner seqNo lens jobs hm
    simp only [leaner_node]
    simp only [update, PerfectTree.split, leanerMerge_fst]
    revert hnode
    cases (Tree.addMerges L seqNo lens jobs d m).toOption with
    | none =>
      intro hnode
      rw [Option.map_none, eq_comm, Option.map_eq_none_iff] at hnode
      rw [hnode]
      rfl
    | some v =>
      intro hnode
      obtain ⟨v', hv', hvv⟩ := Option.map_eq_some_iff.1 hnode.symm
      rw [hv']
      obtain ⟨h1, h2⟩ := Prod.ext_iff.1 hvv
      simp only [Prod.map_fst, Prod.map_snd, id] at h1 h2
      simp only [Option.bind_some]
      by_cases hd : L = d
      · simp [hd, h1, h2]
      · -- the halves get the same jobs, since the weights are the same
        have ihl := ihl (Tree.jobsSplit lens m.1 jobs).1 hl
        have ihr := ihr (Tree.jobsSplit lens m.1 jobs).2 hr
        simp only [update] at ihl ihr
        simp only [if_neg hd]
        revert ihl ihr
        generalize PerfectTree.split _ _ _ _ _ _ _ l = xl
        generalize PerfectTree.split _ _ _ _ _ _ _ r = xr
        generalize PerfectTree.split _ _ _ _ _ _ _ (leaner l) = yl
        generalize PerfectTree.split _ _ _ _ _ _ _ (leaner r) = yr
        intro ihl ihr
        cases xl with
        | none =>
          rw [Option.map_none, eq_comm, Option.map_eq_none_iff] at ihl
          rw [ihl]
          rfl
        | some pl =>
          obtain ⟨ql, rfl, hl'⟩ := Option.map_eq_some_iff.1 ihl.symm
          cases xr with
          | none =>
            rw [Option.map_none, eq_comm, Option.map_eq_none_iff] at ihr
            rw [ihr]
            rfl
          | some pr =>
            obtain ⟨qr, rfl, hr'⟩ := Option.map_eq_some_iff.1 ihr.symm
            have el : leaner pl.1 = leaner ql.1 := (congrArg Prod.fst hl').symm
            have er : leaner pr.1 = leaner qr.1 := (congrArg Prod.fst hr').symm
            simp [h1, h2, el, er]

theorem update_noDone {L seqNo : Int} {lens : Lens Weight Int} {jobs : List (Job α β)}
    (ht : NoDone L d t) {p : BTree α β n × Option α} (hp : update jobs L seqNo lens d t = some p) : NoDone L d p.1 := by
  induction t generalizing jobs d with
  | leaf b => rcases p with ⟨_ | _, r⟩; trivial
  | node m l r ihl ihr =>
    obtain ⟨hm, hl, hr⟩ := ht
    obtain ⟨v, hv, hp⟩ := update_node_cases hp
    have hv' : d < L → v.1.2.isDone = false := addMerges_noDone hm hv
    rcases hp with ⟨-, hp⟩ | ⟨l', r', hl', hr', -, hp⟩
    · rw [hp]
      exact ⟨hv', hl, hr⟩
    · rw [hp]
      exact ⟨hv', ihl hl hl', ihr hr hr'⟩

/-! ### Reading a leaner tree -/

@[simp] theorem jobsAt_leaner (a : Nat) (t : BTree α β n) : jobsAt a (leaner t) = jobsAt a t := by
  induction t generalizing a with
  | leaf b => cases a <;> rfl
  | node m l r ihl ihr =>
    cases a with
    | zero =>
      simp only [leaner_node, jobsAt]
      rcases m with ⟨w, _ | _ | ⟨x, y, s, _ | _⟩⟩ <;> rfl
    | succ a => simp [jobsAt, ihl, ihr]

@[simp] theorem data_leaner (t : BTree α β n) : data (leaner t) = data t := by
  induction n with
  | zero => cases t; rfl
  | succ n ih => cases t with | node m l r => simp [data, ih]

@[simp] theorem required_leaner (t : BTree α β n) : required (leaner t) = required t := by
  cases t with
  | leaf b => rfl
  | node m l r => simp [required]

@[simp] theorem space_leaner (t : BTree α β n) : space (leaner t) = space t := by
  cases t with
  | leaf b => rfl
  | node m l r => simp [space]

theorem leaves_leaner (t : BTree α β n) : (leaner t).leaves = t.leaves := by
  rw [leaner, map, leaves_mapDepth, List.map_id]

variable (wt : Tree.WeightType)

/-- The label of a merge node after a reset, and the weights it hands up, do not
depend on whether it is finished or empty. -/
theorem resetMerge_leaner (lst : (Weight × Weight) × (Weight × Weight)) (m : MergeNode α) :
    Tree.resetMerge wt lst (leanerMerge m)
      = (leanerMerge (Tree.resetMerge wt lst m).1, (Tree.resetMerge wt lst m).2) := by
  cases wt <;> rcases m with ⟨w, _ | _ | ⟨x, y, s, _ | _⟩⟩ <;> rfl

theorem accumulate_leaner (t : BTree α β n) : PerfectTree.accumulate (Tree.resetMerge wt) (Tree.resetBase wt) (leaner t)
      = (leaner (PerfectTree.accumulate (Tree.resetMerge wt) (Tree.resetBase wt) t).1,
          (PerfectTree.accumulate (Tree.resetMerge wt) (Tree.resetBase wt) t).2) := by
  induction t with
  | leaf b => rfl
  | node m l r ihl ihr =>
    simp only [leaner_node, PerfectTree.accumulate, ihl, ihr, resetMerge_leaner]

@[simp] theorem reset_leaner (t : BTree α β n) : reset wt (leaner t) = leaner (reset wt t) := by
  simp only [reset, accumulate_leaner]

theorem NoDone.reset (wt : Tree.WeightType) (ht : NoDone lim d t) : NoDone lim d (reset wt t) := by
  induction t generalizing d with
  | leaf b => trivial
  | node m l r ihl ihr =>
    obtain ⟨hm, hl, hr⟩ := ht
    refine ⟨fun hd => ?_, ihl hl, ihr hr⟩
    rw [resetMerge_job]
    exact hm hd

@[simp] theorem leaner_empty : leaner (empty n : BTree α β n) = empty n := by
  have h : ∀ (m : Nat) (d : Int), leaner (PerfectTree.const (emptyMerge n) (⟨1, 0⟩, .empty) m d
      : BTree α β m) = PerfectTree.const (emptyMerge n) (⟨1, 0⟩, .empty) m d := by
    intro m
    induction m with
    | zero => intro d; rfl
    | succ m ih => intro d; simp only [PerfectTree.const, leaner_node, ih]; rfl
  exact h n 0

theorem noDone_empty (lim : Int) : NoDone lim 0 (empty n : BTree α β n) := by
  have h : ∀ (m : Nat) (d : Int), NoDone lim d (PerfectTree.const (emptyMerge n) (⟨1, 0⟩, .empty) m d
      : BTree α β m) := by
    intro m
    induction m with
    | zero => intro d; trivial
    | succ m ih => intro d; exact ⟨fun _ => rfl, ih _, ih _⟩
  exact h n 0

/-! ### Renumbering -/

theorem leaner_reseq (f : Int → Int) (t : BTree α β n) :
    leaner (t.map (reseqMerge f) (reseqBase f)) = (leaner t).map (reseqMerge f) (reseqBase f) := by
  induction t with
  | leaf b => rfl
  | node m l r ihl ihr =>
    have hm : leanerMerge (reseqMerge f m) = reseqMerge f (leanerMerge m) := by
      rcases m with ⟨w, _ | _ | ⟨x, y, s, _ | _⟩⟩ <;> rfl
    simp [ihl, ihr, hm]

theorem NoDone.reseq (f : Int → Int) (ht : NoDone lim d t) : NoDone lim d (t.map (reseqMerge f) (reseqBase f)) := by
  induction t generalizing d with
  | leaf b => trivial
  | node m l r ihl ihr =>
    obtain ⟨hm, hl, hr⟩ := ht
    rw [map_node]
    refine ⟨fun hd => ?_, ihl hl, ihr hr⟩
    have := hm hd
    rcases m with ⟨w, _ | _ | ⟨x, y, s, _ | _⟩⟩ <;> exact this

theorem leaves_toTree_leaner (t : BTree α β n) : Tree.leaves (toTree 0 (leaner t)) = Tree.leaves (toTree 0 t) := by
  rw [leaves_toTree, leaves_toTree, leaves_leaner]

end BTree

/-! ### The state -/

namespace BState

open BTree

/-- `with_leaner_trees` over binary trees. -/
def leaner (b : BState α β n) : BState α β n :=
  { b with head := b.head.leaner, tail := b.tail.map BTree.leaner }

theorem leaner_toState (b : BState α β n) : withLeanerTrees b.toState = b.leaner.toState := by
  simp only [withLeanerTrees, toState, leaner, NonemptyList.map, map_toTree, List.map_map, Function.comp_def]
  rfl

@[simp] theorem leaner_leaner (b : BState α β n) : b.leaner.leaner = b.leaner := by
  simp [leaner, Function.comp_def]

/-- The trees numbered from `i` on have no finished job above the level they are
worked on. -/
def NoDoneFrom (delay : Nat) : Nat → List (BTree α β n) → Prop
  | _, [] => True
  | i, t :: ts => NoDone ((n : Int) - (i / delay : Nat)) 0 t ∧ NoDoneFrom delay (i + 1) ts

/-- No tree has a finished job above the level it is worked on. -/
structure NoDoneAbove (b : BState α β n) : Prop where
  head : NoDone n 0 b.head
  tail : NoDoneFrom (b.delay + 1) 0 b.tail

variable {ts : List (BTree α β n)} {b b' : BState α β n} {delay i : Nat} {res : Option α}

theorem NoDoneFrom.shift (h : NoDoneFrom delay i ts) : NoDoneFrom delay (i + 1) ts := by
  induction ts generalizing i with
  | nil => trivial
  | cons t ts ih =>
    refine ⟨h.1.mono ?_, ih h.2⟩
    have : i / delay ≤ (i + 1) / delay := Nat.div_le_div_right (Nat.le_succ i)
    omega

theorem NoDoneFrom.map (f : BTree α β n → BTree α β n)
    (hf : ∀ lim t, NoDone lim 0 t → NoDone lim 0 (f t)) (h : NoDoneFrom delay i ts) :
    NoDoneFrom delay i (ts.map f) := by
  induction ts generalizing i with
  | nil => trivial
  | cons t ts ih => exact ⟨hf _ _ h.1, ih h.2⟩

theorem NoDoneFrom.dropLast (h : NoDoneFrom delay i ts) : NoDoneFrom delay i ts.dropLast := by
  induction ts generalizing i with
  | nil => trivial
  | cons t ts ih =>
    cases ts with
    | nil => trivial
    | cons t' ts => exact ⟨h.1, ih h.2⟩

theorem workFrom_leaner (delay i : Nat) (ts : List (BTree α β n)) :
    workFrom delay i (ts.map BTree.leaner) = workFrom delay i ts := by
  induction ts generalizing i with
  | nil => rfl
  | cons t ts ih => simp [workFrom, workOf, ih]

@[simp] theorem workCurrent_leaner (b : BState α β n) : b.leaner.workCurrent = b.workCurrent :=
  workFrom_leaner _ _ _

@[simp] theorem workNext_leaner (b : BState α β n) : b.leaner.workNext = b.workNext :=
  workFrom_leaner _ _ (b.head :: b.tail)

/-! ### Adding completed jobs -/

theorem mergeGo_leaner (seqNo : Int) (res : Option α) (jobs : List (Job α β)) (h : NoDoneFrom delay i ts) :
    (mergeGo delay seqNo i res jobs ts).map (Prod.map (List.map BTree.leaner) id)
      = (mergeGo delay seqNo i res jobs (ts.map BTree.leaner)).map
          (Prod.map (List.map BTree.leaner) id) := by
  induction ts generalizing i res jobs with
  | nil => rfl
  | cons t ts ih =>
    rw [List.map_cons, mergeGo, mergeGo, required_leaner]
    by_cases hi : i % delay = delay - 1 ∧ jobs ≠ []
    · rw [if_pos hi, if_pos hi]
      have hu := update_leaner seqNo Weight.mergeLens (takeInt jobs t.required) h.1
      revert hu
      generalize BTree.update _ _ _ _ _ t = x
      generalize BTree.update _ _ _ _ _ t.leaner = y
      intro hu
      cases x with
      | none =>
        rw [Option.map_none, eq_comm, Option.map_eq_none_iff] at hu
        rw [hu]
        rfl
      | some p =>
        obtain ⟨q, rfl, hq⟩ := Option.map_eq_some_iff.1 hu.symm
        obtain ⟨h1, h2⟩ := Prod.ext_iff.1 hq
        simp only [Prod.map_fst, Prod.map_snd, id] at h1 h2
        have hrec := congrArg (Option.map (Prod.map (List.cons p.1.leaner) id))
          (ih p.2 (dropInt jobs t.required) h.2)
        simp only [Option.map_map, Function.comp_def, Prod.map] at hrec
        simpa [Option.map_map, Function.comp_def, h1, h2, Prod.map] using hrec
    · rw [if_neg hi, if_neg hi]
      have hrec := congrArg (Option.map (Prod.map (List.cons t.leaner) id))
        (ih res jobs h.2)
      simp only [Option.map_map, Function.comp_def, Prod.map] at hrec
      simpa [Option.map_map, Function.comp_def, Prod.map] using hrec

theorem mergeGo_noDone {seqNo : Int} {jobs : List (Job α β)} (h : NoDoneFrom delay i ts)
    {r : List (BTree α β n) × Option α × List (Job α β)}
    (hr : mergeGo delay seqNo i res jobs ts = some r) : NoDoneFrom delay i r.1 := by
  induction ts generalizing i res jobs r with
  | nil =>
    rw [mergeGo, Option.some.injEq] at hr
    subst hr
    trivial
  | cons t ts ih =>
    rw [mergeGo] at hr
    split_ifs at hr with hi
    · obtain ⟨p, hp, hr⟩ := Option.bind_eq_some_iff.1 hr
      obtain ⟨q, hq, rfl⟩ := Option.map_eq_some_iff.1 hr
      exact ⟨update_noDone h.1 hp, ih h.2 hq⟩
    · obtain ⟨q, hq, rfl⟩ := Option.map_eq_some_iff.1 hr
      exact ⟨h.1, ih h.2 hq⟩

theorem finishMerge_leaner (b : BState α β n) (exact : Bool) (ts : List (BTree α β n)) (res : Option α) :
    finishMerge b.leaner exact (ts.map BTree.leaner) res
      = Prod.map id leaner (finishMerge b exact ts res) := by
  have hreset : ∀ l : List (BTree α β n), (l.map BTree.leaner).map (BTree.reset .merge)
      = (l.map (BTree.reset .merge)).map BTree.leaner := by
    intro l
    simp [Function.comp_def]
  have hlast : (ts.map BTree.leaner).getLast? = ts.getLast?.map BTree.leaner :=
    List.getLast?_map
  have hmax : b.leaner.maxTrees = b.maxTrees := rfl
  simp only [finishMerge, hmax, hlast]
  cases res with
  | none => simp only [hreset, List.length_map]; split_ifs <;> rfl
  | some a =>
    cases ts.getLast? with
    | none => simp only [Option.map_none]; split_ifs <;> rfl
    | some t =>
      simp only [Option.map_some, data_leaner, ← List.map_dropLast, hreset, List.length_map]
      split_ifs <;> rfl

variable (hb : b.NoDoneAbove) {p : Option (α × List β) × BState α β n} {jobs : List α} {data : List β}

include hb

theorem finishMerge_noDone {exact : Bool} (hts : NoDoneFrom (b.delay + 1) 0 ts) :
    (finishMerge b exact ts res).2.NoDoneAbove := by
  have hreset : ∀ {l : List (BTree α β n)} {c : Prop} [Decidable c],
      NoDoneFrom (b.delay + 1) 0 l →
      NoDoneFrom (b.delay + 1) 0 (if c then l.map (BTree.reset .merge) else l) := by
    intro l c _ hl
    split_ifs
    · exact hl.map _ fun _ _ => NoDone.reset _
    · exact hl
  refine ⟨hb.head, ?_⟩
  cases res with
  | none => exact hreset hts
  | some a =>
    simp only [finishMerge]
    cases ts.getLast? with
    | none => exact hreset (l := []) trivial
    | some t => exact hreset hts.dropLast

theorem addMerge_leaner (jobs : List α) : (b.addMerge jobs).map (Prod.map id leaner)
      = (b.leaner.addMerge jobs).map (Prod.map id leaner) := by
  simp only [addMerge, workCurrent_leaner]
  split_ifs with hjobs hlen
  · simp
  · rfl
  · have hgo := mergeGo_leaner b.seqNo none (jobs.map .merge) hb.tail
    show ((mergeGo (b.delay + 1) b.seqNo 0 none (jobs.map .merge) b.tail).map _).map _
      = ((mergeGo (b.delay + 1) b.seqNo 0 none (jobs.map .merge) (b.tail.map BTree.leaner)).map _).map _
    revert hgo
    generalize mergeGo _ _ _ _ _ b.tail = x
    generalize mergeGo _ _ _ _ _ (b.tail.map BTree.leaner) = y
    intro hgo
    cases x with
    | none =>
      rw [Option.map_none, eq_comm, Option.map_eq_none_iff] at hgo
      rw [hgo]
      rfl
    | some r =>
      obtain ⟨r', rfl, hr⟩ := Option.map_eq_some_iff.1 hgo.symm
      obtain ⟨h1, h2⟩ := Prod.ext_iff.1 hr
      simp only [Prod.map_fst, Prod.map_snd, id] at h1 h2
      -- the outcome of the fold is only looked at up to finished jobs
      simp only [Option.map_some, ← finishMerge_leaner, h1, h2, leaner_leaner]

theorem addMerge_noDone (hp : b.addMerge jobs = some p) : p.2.NoDoneAbove := by
  rw [addMerge] at hp
  split_ifs at hp with hjobs hlen
  · rw [Option.some.injEq] at hp
    subst hp
    exact hb
  · obtain ⟨r, hr, rfl⟩ := Option.map_eq_some_iff.1 hp
    exact finishMerge_noDone hb (mergeGo_noDone hb.tail hr)

/-! ### Adding data -/

theorem addData_leaner (data : List β) : (b.addData data).map leaner = (b.leaner.addData data).map leaner := by
  have hspace : b.leaner.head.space = b.head.space := space_leaner _
  simp only [addData, hspace]
  by_cases hdata : data = []
  · simp [hdata]
  by_cases hlen : (data.length : Int) > b.head.space
  · simp [hdata, hlen]
  · rw [if_neg hdata, if_neg hdata, if_neg hlen, if_neg hlen]
    have hu := update_leaner b.seqNo Weight.baseLens (data.map .base) hb.head
    show ((BTree.update _ _ b.seqNo _ _ b.head).map _).map _
      = ((BTree.update _ _ b.seqNo _ _ b.head.leaner).map _).map _
    revert hu
    generalize BTree.update _ _ _ _ _ b.head = x
    generalize BTree.update _ _ _ _ _ b.head.leaner = y
    intro hu
    cases x with
    | none =>
      rw [Option.map_none, eq_comm, Option.map_eq_none_iff] at hu
      rw [hu]
      rfl
    | some p =>
      obtain ⟨q, rfl, hq⟩ := Option.map_eq_some_iff.1 hu.symm
      have h1 : q.1.leaner = p.1.leaner := congrArg Prod.fst hq
      simp only [Option.map_some, Option.some.injEq]
      split_ifs
      · simp [leaner, ← reset_leaner, h1, Function.comp_def]
      · simp [leaner, ← reset_leaner, h1, Function.comp_def]

theorem addData_noDone (hb' : b.addData data = some b') : b'.NoDoneAbove := by
  rw [addData] at hb'
  by_cases hdata : data = []
  · rw [if_pos hdata, Option.some.injEq] at hb'
    subst hb'
    exact hb
  by_cases hlen : (data.length : Int) > b.head.space
  · rw [if_neg hdata, if_pos hlen] at hb'
    cases hb'
  · rw [if_neg hdata, if_neg hlen] at hb'
    obtain ⟨p, hp, rfl⟩ := Option.map_eq_some_iff.1 hb'
    have hp1 : NoDone n 0 p.1 := update_noDone hb.head hp
    split_ifs
    · refine ⟨noDone_empty _, ?_, hb.tail.shift⟩
      simpa using hp1.reset .both
    · exact ⟨hp1.reset _, hb.tail⟩

omit hb

/-! ### The sequence number -/

theorem last_leaner (b : BState α β n) :
    Tree.leaves b.leaner.toState.trees.last = Tree.leaves b.toState.trees.last := by
  simp only [toState, leaner, NonemptyList.last]
  rcases List.eq_nil_or_concat b.tail with h | ⟨init, t, h⟩
  · simp [h, leaves_toTree_leaner]
  · simp [h, leaves_toTree_leaner]

theorem newSeq_leaner (b : BState α β n) : b.leaner.newSeq = b.newSeq := by
  funext seq
  simp only [newSeq, last_leaner]

/-- The new sequence number is read off the leaves. -/
theorem resetSeqNo_leaner (b : BState α β n) :
    (resetSeqNo b.leaner.toState).currJobSeqNo = (resetSeqNo b.toState).currJobSeqNo := by
  have hfold : ∀ (f : Int → Int) (ts : List (BTree α β n)) (acc acc' : Int × List (ScanTree α β)),
      acc.1 = acc'.1 →
      (((ts.map BTree.leaner).map (toTree 0)).foldl (fun (acc : Int × List (ScanTree α β)) tree =>
          (newestSeqNo (Tree.leaves (Tree.map (reseqMerge f) (reseqBase f) tree)) acc.1,
            Tree.map (reseqMerge f) (reseqBase f) tree :: acc.2)) acc).1
        = ((ts.map (toTree 0)).foldl (fun (acc : Int × List (ScanTree α β)) tree =>
          (newestSeqNo (Tree.leaves (Tree.map (reseqMerge f) (reseqBase f) tree)) acc.1,
            Tree.map (reseqMerge f) (reseqBase f) tree :: acc.2)) acc').1 := by
    intro f ts
    induction ts with
    | nil => intro acc acc' h; exact h
    | cons t ts ih =>
      intro acc acc' h
      simp only [List.map_cons, List.foldl_cons]
      apply ih
      simp only [map_toTree, ← leaner_reseq, leaves_toTree_leaner, h]
  simp only [resetSeqNo]
  rw [last_leaner]
  exact hfold _ (b.head :: b.tail) _ _ rfl

theorem incrSeqNo_leaner (b : BState α β n) : b.leaner.incrSeqNo = b.incrSeqNo.leaner := by
  simp only [incrSeqNo, newSeq_leaner, resetSeqNo_leaner]
  show (if b.seqNo + 1 = intMaxValue then _ else _) = _
  split_ifs
  · simp [leaner, leaner_reseq, Function.comp_def]
  · rfl

include hb in
theorem incrSeqNo_noDone : b.incrSeqNo.NoDoneAbove := by
  rw [incrSeqNo]
  split_ifs
  · exact ⟨hb.head.reseq _, hb.tail.map _ fun _ _ => NoDone.reseq _⟩
  · exact ⟨hb.head, hb.tail⟩

/-! ### Two states in step -/

/-- Two states that differ in finished merge jobs only. -/
structure Agree (b b' : BState α β n) : Prop where
  leaner_eq : b.leaner = b'.leaner
  left : b.NoDoneAbove
  right : b'.NoDoneAbove

include hb in
theorem NoDoneAbove.agree : Agree b b.leaner where
  leaner_eq := b.leaner_leaner.symm
  left := hb
  right :=
    have hl : ∀ {m : Nat} (lim d : Int) (t : BTree α β m), NoDone lim d t →
        NoDone lim d t.leaner := by
      intro m
      induction m with
      | zero => intro lim d t _; cases t; trivial
      | succ m ih =>
        intro lim d t ht
        cases t with | node node l r =>
        rw [leaner_node]
        refine ⟨fun hd => ?_, ih _ _ _ ht.2.1, ih _ _ _ ht.2.2⟩
        rw [leanerMerge_of_not_done (ht.1 hd)]
        exact ht.1 hd
    ⟨hl _ _ _ hb.head, hb.tail.map _ fun _ _ => hl _ _ _⟩

theorem rel_bind {X X' Y Y' : Type*} {R : X → X' → Prop} {S : Y → Y' → Prop} {x : Option X}
    {x' : Option X'} {f : X → Option Y} {f' : X' → Option Y'} (hx : Option.Rel R x x')
    (hf : ∀ a a', R a a' → Option.Rel S (f a) (f' a')) : Option.Rel S (x.bind f) (x'.bind f') := by
  cases hx with
  | none => exact .none
  | some h => exact hf _ _ h

variable (h : Agree b b')

include h

/-- The shape of every simulation step below: what an operation does to two
states that agree is the same, and leaves them in agreement. -/
theorem Agree.rel {X : Type} {f : BState α β n → Option (X × BState α β n)}
    (hf : ∀ b, b.NoDoneAbove → (f b).map (Prod.map id leaner) = (f b.leaner).map (Prod.map id leaner))
    (hinv : ∀ b, b.NoDoneAbove → ∀ p, f b = some p → p.2.NoDoneAbove) :
    Option.Rel (fun p q => p.1 = q.1 ∧ Agree p.2 q.2) (f b) (f b') := by
  have heq : (f b).map (Prod.map id BState.leaner) = (f b').map (Prod.map id BState.leaner) := by
    rw [hf b h.left, hf b' h.right, h.leaner_eq]
  cases hx : f b with
  | none =>
    rw [hx, Option.map_none, eq_comm, Option.map_eq_none_iff] at heq
    rw [heq]
    exact .none
  | some p =>
    rw [hx] at heq
    obtain ⟨q, hy, hq⟩ := Option.map_eq_some_iff.1 heq.symm
    obtain ⟨h1, h2⟩ := Prod.ext_iff.1 hq
    rw [hy]
    exact .some ⟨h1.symm, h2.symm, hinv _ h.left _ hx, hinv _ h.right _ hy⟩

theorem Agree.addMerge (jobs : List α) :
    Option.Rel (fun p q => p.1 = q.1 ∧ Agree p.2 q.2) (b.addMerge jobs) (b'.addMerge jobs) :=
  h.rel (fun _ hb => addMerge_leaner hb jobs) fun _ hb _ hp => addMerge_noDone hb hp

theorem Agree.addData (data : List β) : Option.Rel Agree (b.addData data) (b'.addData data) := by
  have hrel := h.rel (X := Unit) (f := fun b => (b.addData data).map (Prod.mk ()))
    (fun b hb => by
      have := congrArg (Option.map (Prod.mk ())) (addData_leaner hb data)
      simpa [Option.map_map, Function.comp_def] using this)
    (fun b hb p hp => by
      obtain ⟨b', hb', rfl⟩ := Option.map_eq_some_iff.1 hp
      exact addData_noDone hb hb')
  revert hrel
  cases b.addData data <;> cases b'.addData data <;> simp

theorem Agree.incrSeqNo : Agree b.incrSeqNo b'.incrSeqNo where
  leaner_eq := by rw [← incrSeqNo_leaner, ← incrSeqNo_leaner, h.leaner_eq]
  left := incrSeqNo_noDone h.left
  right := incrSeqNo_noDone h.right

theorem Agree.workCurrent : b.workCurrent = b'.workCurrent := by
  rw [← workCurrent_leaner, h.leaner_eq, workCurrent_leaner]

theorem Agree.workNext : b.workNext = b'.workNext := by
  rw [← workNext_leaner, h.leaner_eq, workNext_leaner]

theorem Agree.space : b.head.space = b'.head.space := by
  rw [← space_leaner, ← space_leaner b'.head]
  exact congrArg (fun c => c.head.space) h.leaner_eq

theorem Agree.maxBaseJobs : b.maxBaseJobs = b'.maxBaseJobs :=
  (congrArg BState.maxBaseJobs h.leaner_eq :)

theorem Agree.delay_eq : b.delay = b'.delay :=
  (congrArg BState.delay h.leaner_eq :)

theorem Agree.maxTrees : b.maxTrees = b'.maxTrees := by
  rw [BState.maxTrees, BState.maxTrees, h.delay_eq]

theorem Agree.length : b.tail.length = b'.tail.length := by
  have := congrArg (fun c : BState α β n => c.tail.length) h.leaner_eq
  simpa [BState.leaner] using this

theorem Agree.acc : b.acc = b'.acc :=
  (congrArg BState.acc h.leaner_eq :)

theorem Agree.workForNextUpdate (dataCount : Nat) : ParallelScan.workForNextUpdate b.toState dataCount
      = ParallelScan.workForNextUpdate b'.toState dataCount := by
  simp only [ParallelScan.workForNextUpdate]
  have hd : ∀ c : BState α β n, c.toState.delay = c.delay := fun _ => rfl
  have hm : ∀ c : BState α β n, c.toState.maxBaseJobs = c.maxBaseJobs := fun _ => rfl
  have hh : ∀ c : BState α β n, c.toState.trees.head = toTree 0 c.head := fun _ => rfl
  simp only [hd, hm, hh, work_tail, work_toList, space_toTree]
  simp only [h.workCurrent, h.workNext, h.space, h.maxBaseJobs]

theorem Agree.insufficientJobs (dataCount count : Nat) : ParallelScan.insufficientJobs b.toState dataCount count
      ↔ ParallelScan.insufficientJobs b'.toState dataCount count := by
  simp only [ParallelScan.insufficientJobs, h.workForNextUpdate]
  show (_ ∧ _ > (b.maxBaseJobs : Int) - _ + _) ↔ (_ ∧ _ > (b'.maxBaseJobs : Int) - _ + _)
  rw [h.maxBaseJobs]

omit h

/-- **A step keeps two states in agreement** and has the same outcome on both. -/
theorem Agree.step {b b' : BState α β n} (h : Agree b b') (data : List β) (jobs : List α) :
    Option.Rel (fun p q => p.1 = q.1 ∧ Agree p.2 q.2) (b.step data jobs) (b'.step data jobs) := by
  rw [BState.step, BState.step]
  simp only [h.insufficientJobs, h.maxBaseJobs, h.workCurrent, h.space]
  split_ifs
  · exact .none
  · exact .none
  · refine rel_bind (h.incrSeqNo.addMerge _) ?_
    rintro p1 q1 ⟨hres, h1⟩
    refine rel_bind (h1.addData _) fun b2 c2 h2 => ?_
    refine rel_bind (h2.addMerge _) ?_
    rintro p3 q3 ⟨-, h3⟩
    refine rel_bind (h3.addData _) fun b4 c4 h4 => ?_
    rw [h4.length, h4.maxTrees]
    split_ifs
    · exact .none
    · refine .some ⟨hres, ?_, ⟨h4.left.head, h4.left.tail⟩, ⟨h4.right.head, h4.right.tail⟩⟩
      rw [hres, h4.acc]
      have := h4.leaner_eq
      simp only [BState.leaner, mk.injEq] at this ⊢
      simp [this]

/-! ### Reading two states -/

include h

theorem Agree.shift : Agree b.shift b'.shift where
  leaner_eq := by
    have := h.leaner_eq
    simp only [BState.leaner, BState.shift, mk.injEq] at this ⊢
    simp [this]
  left := ⟨noDone_empty _, by simpa using h.left.head, h.left.tail.shift⟩
  right := ⟨noDone_empty _, by simpa using h.right.head, h.right.tail.shift⟩

theorem Agree.allWork : ParallelScan.allWork b.toState = ParallelScan.allWork b'.toState := by
  have hiter : ∀ s : Nat, Agree (BState.shift^[s] b) (BState.shift^[s] b') := by
    intro s
    induction s with
    | zero => exact h
    | succ s ih =>
      rw [Function.iterate_succ_apply', Function.iterate_succ_apply']
      exact ih.shift
  rw [allWork_toState, allWork_toState, h.delay_eq]
  simp only [fun s => (hiter s).workCurrent]

theorem Agree.pendingData : ParallelScan.pendingData b.toState = ParallelScan.pendingData b'.toState := by
  have hdata : ∀ c : BState α β n, ParallelScan.pendingData c.toState
      = ((c.leaner.head :: c.leaner.tail).map BTree.data).reverse := by
    intro c
    simp [ParallelScan.pendingData, toState, NonemptyList.toList, baseJobs_toTree, BState.leaner, Function.comp_def]
  rw [hdata, hdata, h.leaner_eq]

theorem Agree.hashInput (fMerge : α → String) (fBase : β → String) : ParallelScan.hashInput b.toState fMerge fBase
      = ParallelScan.hashInput b'.toState fMerge fBase := by
  simp only [ParallelScan.hashInput, leaner_toState, h.leaner_eq]

omit h

/-! ### Reachable states -/

theorem noDoneAbove_empty (maxBaseJobs delay : Nat) : (empty maxBaseJobs delay : BState α β _).NoDoneAbove :=
  ⟨noDone_empty _, trivial⟩

include hb in
theorem step_noDone (hp : b.step data jobs = some p) : p.2.NoDoneAbove := by
  have hrel := hb.agree.step data jobs
  rw [hp] at hrel
  generalize b.leaner.step data jobs = x at hrel
  cases hrel with | some h => exact h.2.left

/-- Every reachable state is one over binary trees, with finished jobs only where
they do no harm. -/
theorem reachable_noDone {maxBaseJobs : Nat} {s : State α β} (h : Reachable maxBaseJobs delay s) :
    ∃ b : BState α β (ceilLog2 maxBaseJobs), b.toState = s ∧ b.NoDoneAbove := by
  induction h with
  | empty => exact ⟨empty maxBaseJobs delay, (empty_toState _ _).symm, noDoneAbove_empty _ _⟩
  | update _ hu ih =>
    obtain ⟨b, rfl, hb⟩ := ih
    obtain ⟨b', hb', rfl⟩ := update_ok hu
    exact ⟨b', rfl, step_noDone hb hb'⟩

end BState

/-! ### The result -/

/-- The pairs of states that two nodes are in, one that started from `s` and one
that read `s` from the network, after they applied the same updates. -/
inductive Lockstep (s : State α β) : State α β → State α β → Prop where
  | start : Lockstep s s (withLeanerTrees s)
  | update {t t' u u' : State α β} {data : List β} {jobs : List α}
      {r r' : Option (α × List β)} :
      Lockstep s t t' → update data jobs t = .ok (r, u) → update data jobs t' = .ok (r', u') →
      Lockstep s u u'

theorem lockstep_agree {s t t' : State α β} {b : BState α β n} (hs : b.toState = s)
    (hb : b.NoDoneAbove) (h : Lockstep s t t') :
    ∃ c c' : BState α β n, c.toState = t ∧ c'.toState = t' ∧ c.Agree c' := by
  induction h with
  | start => exact ⟨b, b.leaner, hs, by rw [← hs, BState.leaner_toState], hb.agree⟩
  | update _ hu hu' ih =>
    obtain ⟨c, c', rfl, rfl, hcc⟩ := ih
    obtain ⟨d, hd, rfl⟩ := BState.update_ok hu
    obtain ⟨d', hd', rfl⟩ := BState.update_ok hu'
    have hrel := hcc.step ‹_› ‹_›
    rw [hd, hd'] at hrel
    cases hrel with | some h => exact ⟨d, d', rfl, rfl, h.2⟩

/-- **Serialization does not change what the scan state does.** From a reachable
state and from what a peer reads of it, the same updates are accepted and emit
the same values; the jobs, the work asked for, the pending data and the hash are
the same after each of them. -/
theorem lockstep_same_behaviour {maxBaseJobs delay : Nat} {s t t' : State α β}
    (hs : Reachable maxBaseJobs delay s) (h : Lockstep s t t') :
    (∀ data jobs, (update data jobs t).toOption.map Prod.fst = (update data jobs t').toOption.map Prod.fst)
      ∧ allJobs t = allJobs t'
      ∧ (∀ dataCount, workForNextUpdate t dataCount = workForNextUpdate t' dataCount)
      ∧ pendingData t = pendingData t'
      ∧ ∀ (H : Type) (sha256 : List String → H) (fMerge : α → String) (fBase : β → String),
          hash sha256 t fMerge fBase = hash sha256 t' fMerge fBase := by
  obtain ⟨b, hb, hnd⟩ := BState.reachable_noDone hs
  obtain ⟨c, c', rfl, rfl, hcc⟩ := lockstep_agree hb hnd h
  refine ⟨fun data jobs => ?_, hcc.allWork, hcc.workForNextUpdate, hcc.pendingData, fun H sha256 fMerge fBase => ?_⟩
  · have hrel := hcc.step data jobs
    rw [BState.update_toState, BState.update_toState]
    generalize c.step data jobs = x at hrel ⊢
    generalize c'.step data jobs = y at hrel ⊢
    cases hrel with
    | none => rfl
    | some h => simp [h.1]
  · rw [hash, hash, hcc.hashInput]

/-- After three full blocks at four transactions per block the oldest tree has two
finished merge jobs, which a peer does not get to see. -/
theorem lockstep_same_behaviour_third_block : ∃ s t t' : State (List Nat) Nat, Reachable 4 0 s ∧ Lockstep s t t' ∧
      (allJobs t).flatten.length = 7 ∧ allJobs t = allJobs t' := by
  have r1 := Reachable.update (.empty : Reachable 4 0 (empty 4 0 : State (List Nat) Nat))
    (show update [0, 1, 2, 3] [] _ = .ok (_, _) from rfl)
  have r2 := Reachable.update r1
    (show update [4, 5, 6, 7] [[0], [1], [2], [3]] _ = .ok (_, _) from rfl)
  have r3 := Reachable.update r2
    (show update [8, 9, 10, 11] [[4], [5], [6], [7], [0, 1], [2, 3]] _ = .ok (_, _) from rfl)
  exact ⟨_, _, _, r3, .start, rfl, (lockstep_same_behaviour r3 .start).2.1⟩

end MinaProtocol.ParallelScan
