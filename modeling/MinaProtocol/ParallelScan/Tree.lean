import Mathlib.Data.Option.NAry
import Mathlib.Tactic

/-!
# ParallelScan.Tree

The job trees of the scan state (`parallel_scan.ml`, modules `Base`, `Merge`,
`Job` and `Tree`).

A tree is stored level by level as a *non-uniform* datatype: below a node with
values of type `M` hangs one subtree with values of type `M × M`, so the node at
depth `d` holds a nest of `2 ^ d` values. All traversals are polymorphic
recursions that double the functions they are given at every level; they are
kept in that form here, and `ParallelScan.Nested` proves what they do to the
ordinary binary tree such a nest describes.
-/

namespace MinaProtocol.ParallelScan

/-! ### Errors -/

/-- `Error.t`, as far as the scan state builds it. -/
inductive Error where
  | ofString (message : String)
  | tag (tag : String) (e : Error)
  | tagArg (tag : String) (arg : String × Nat) (e : Error)
  deriving Repr, DecidableEq

/-- `Error.to_string_hum`. -/
def Error.toStringHum : Error → String
  | .ofString message => message
  | .tag t e => "(" ++ t ++ " " ++ e.toStringHum ++ ")"
  | .tagArg t arg e =>
    "(" ++ t ++ " (" ++ arg.1 ++ " " ++ toString arg.2 ++ ") " ++ e.toStringHum ++ ")"

/-- `Or_error.t`. -/
abbrev OrError (α : Type*) := Except Error α

/-! ### Jobs -/

inductive JobStatus where
  | todo
  | done
  deriving Repr, DecidableEq

def JobStatus.toString : JobStatus → String
  | .todo => "Todo"
  | .done => "Done"

/-- The number of new jobs, base and merge, that can be added below a node. -/
structure Weight where
  base : Int
  merge : Int
  deriving Repr, DecidableEq

/-- `Lens.t`: a getter with the matching functional setter. -/
structure Lens (S A : Type) where
  get : S → A
  set : A → S → S

def Weight.baseLens : Lens Weight Int where
  get w := w.base
  set b w := { w with base := b }

def Weight.mergeLens : Lens Weight Int where
  get w := w.merge
  set m w := { w with merge := m }

namespace Base

structure Record (β : Type) where
  job : β
  seqNo : Int
  status : JobStatus
  deriving Repr, DecidableEq

inductive Job (β : Type) where
  | empty
  | full (r : Record β)
  deriving Repr, DecidableEq

def Job.jobStr {β : Type} : Job β → String
  | .empty => "Base.Empty"
  | .full _ => "Base.Full"

end Base

/-- `Base.t`: a leaf of the tree. -/
abbrev BaseNode (β : Type) := Weight × Base.Job β

namespace Merge

structure Record (α : Type) where
  left : α
  right : α
  seqNo : Int
  status : JobStatus
  deriving Repr, DecidableEq

/-- A merge job; `part` holds the left component only, since jobs are always
completed from left to right. -/
inductive Job (α : Type) where
  | empty
  | part (left : α)
  | full (r : Record α)
  deriving Repr, DecidableEq

def Job.jobStr {α : Type} : Job α → String
  | .empty => "Merge.Empty"
  | .full _ => "Merge.Full"
  | .part _ => "Merge.Part"

end Merge

/-- `Merge.t`: an inner node, with the weights of its two halves. -/
abbrev MergeNode (α : Type) := (Weight × Weight) × Merge.Job α

/-- `Available_job.t`: a job that can be worked on. -/
inductive AvailableJob (α β : Type) where
  | base (d : β)
  | merge (left right : α)
  deriving Repr, DecidableEq

/-- `Job.t`: something to be added to a tree. -/
inductive Job (α β : Type) where
  | base (d : β)
  | merge (a : α)
  deriving Repr, DecidableEq

/-! ### Lists indexed by machine integers

`List.take` and `List.drop` of Core accept any `int` and treat a negative count
as zero. -/

def takeInt {α : Type*} (l : List α) (n : Int) : List α := l.take n.toNat

def dropInt {α : Type*} (l : List α) (n : Int) : List α := l.drop n.toNat

/-! ### The non-uniform tree -/

/-- `Tree.t`. -/
inductive Tree : Type → Type → Type 1 where
  | leaf {M B : Type} (d : B) : Tree M B
  | node {M B : Type} (depth : Int) (value : M) (subTree : Tree (M × M) (B × B)) : Tree M B

namespace Tree

/-- `map_depth`: map with the level of the tree. -/
def mapDepth {M N B C : Type} (fMerge : Int → M → N) (fBase : B → C) (t : Tree M B) : Tree N C :=
  match t with
  | .leaf d => .leaf (fBase d)
  | .node depth value subTree =>
    .node depth (fMerge depth value)
      (mapDepth (fun i (x : M × M) => (fMerge i x.1, fMerge i x.2)) (fun (x : B × B) => (fBase x.1, fBase x.2)) subTree)
termination_by structural t

def map {M N B C : Type} (fMerge : M → N) (fBase : B → C) (t : Tree M B) : Tree N C :=
  mapDepth (fun _ => fMerge) fBase t

/-- `Continue_or_stop.t`. -/
inductive ContinueOrStop (A F : Type) where
  | continue (acc : A)
  | stop (final : F)

/-- `fold_depth_until'` in the identity monad: fold with the current level. -/
def foldDepthUntil' {M B A F : Type} (fMerge : Int → A → M → ContinueOrStop A F)
    (fBase : A → B → ContinueOrStop A F) (init : A) (t : Tree M B) : ContinueOrStop A F :=
  match t with
  | .leaf d => fBase init d
  | .node depth value subTree =>
    match fMerge depth init value with
    | .continue acc' =>
      foldDepthUntil'
        (fun i acc (x : M × M) =>
          match fMerge i acc x.1 with
          | .continue r => fMerge i r x.2
          | .stop f => .stop f)
        (fun acc (x : B × B) =>
          match fBase acc x.1 with
          | .continue r => fBase r x.2
          | .stop f => .stop f)
        acc' subTree
    | .stop f => .stop f
termination_by structural t

def foldDepthUntil {M B A F : Type} (fMerge : Int → A → M → ContinueOrStop A F)
    (fBase : A → B → ContinueOrStop A F) (init : A) (finish : A → F) (t : Tree M B) : F :=
  match foldDepthUntil' fMerge fBase init t with
  | .continue result => finish result
  | .stop e => e

def foldDepth {M B A : Type} (fMerge : Int → A → M → A) (fBase : A → B → A) (init : A) (t : Tree M B) : A :=
  foldDepthUntil (fun i acc a => .continue (fMerge i acc a))
    (fun acc d => .continue (fBase acc d)) init id t

def fold {M B A : Type} (fMerge : A → M → A) (fBase : A → B → A) (init : A) (t : Tree M B) : A :=
  foldDepth (fun _ => fMerge) fBase init t

/-- `update_split`: send the jobs down to level `updateLevel`, splitting them at
every node. The optional result is the one of the root. -/
def updateSplit {M B D W R : Type} (fMerge : D → Int → M → OrError (M × Option R))
    (fBase : D → B → OrError B) (weightMerge : M → W × W) (jobs : D) (updateLevel : Int)
    (jobsSplit : W × W → D → D × D) (t : Tree M B) : OrError (Tree M B × Option R) :=
  match t with
  | .leaf d => (fBase jobs d).map fun updated => (.leaf updated, none)
  | .node depth value subTree =>
    -- update the jobs at the current level, then the updated subtree
    (fMerge jobs depth value).bind fun v =>
      (if updateLevel = depth then .ok (subTree, none)
       else
        updateSplit (R := R × R)
          (fun (b : D × D) i (x : M × M) =>
            (fMerge b.1 i x.1).bind fun left =>
              (fMerge b.2 i x.2).map fun right =>
                ((left.1, right.1), Option.map₂ Prod.mk left.2 right.2))
          (fun (b : D × D) (x : B × B) =>
            (fBase b.1 x.1).bind fun left =>
              (fBase b.2 x.2).map fun right => (left, right))
          (fun (x : M × M) => (weightMerge x.1, weightMerge x.2))
          (jobsSplit (weightMerge value) jobs) updateLevel
          (fun w (j : D × D) => (jobsSplit w.1 j.1, jobsSplit w.2 j.2))
          subTree).map fun sub => (.node depth v.1 sub.1, v.2)
termination_by structural t

/-- `update_accumulate`: rebuild the tree from the leaves upwards, handing the
data of both halves to the node above. -/
def updateAccumulate {M B D : Type} (fMerge : D × D → M → M × D) (fBase : B → B × D) (t : Tree M B) : Tree M B × D :=
  let transpose {X Y : Type} (p : (X × Y) × (X × Y)) : (X × X) × (Y × Y) :=
    ((p.1.1, p.2.1), (p.1.2, p.2.2))
  match t with
  | .leaf d =>
    let r := fBase d
    (.leaf r.1, r.2)
  | .node depth value subTree =>
    let sub :=
      updateAccumulate
        (fun (b : (D × D) × (D × D)) (x : M × M) =>
          transpose (fMerge b.1 x.1, fMerge b.2 x.2))
        (fun (x : B × B) => transpose (fBase x.1, fBase x.2)) subTree
    let v := fMerge sub.2 value
    (.node depth v.1 sub.1, v.2)
termination_by structural t

end Tree

/-- The trees of a scan state. -/
abbrev ScanTree (α β : Type) := Tree (MergeNode α) (BaseNode β)

namespace Tree

variable {α β : Type}

/-! ### Updating one level -/

/-- The error `add_merges` raises when jobs and node do not fit. -/
def mergeMismatch (jobs : List (Job α β)) (updateLevel curLevel : Int) (m : Merge.Job α) : Error :=
  .ofString ("Got " ++ toString jobs.length ++ " jobs when updating level "
    ++ toString updateLevel ++ " and when one of the merge nodes at level " ++ toString curLevel ++ " is " ++ m.jobStr)

/-- `add_merges` in `Tree.update`. -/
def addMerges (updateLevel seqNo : Int) (weightLens : Lens Weight Int) (jobs : List (Job α β))
    (curLevel : Int) (node : MergeNode α) : OrError (MergeNode α × Option α) :=
  let w1 := node.1.1
  let w2 := node.1.2
  let m := node.2
  let left := weightLens.get w1
  let right := weightLens.get w2
  if curLevel = updateLevel - 1 then
    -- create new jobs from the completed ones
    match jobs, m with
    | [], _ => .ok (((w1, w2), m), none)
    | [.merge a, .merge b], .empty =>
      .ok (((weightLens.set (left - 1) w1, weightLens.set (right - 1) w2),
        .full { left := a, right := b, seqNo := seqNo, status := .todo }), none)
    | [.merge a], .empty =>
      .ok (((weightLens.set (left - 1) w1, weightLens.set right w2), .part a), none)
    | [.merge b], .part a =>
      .ok (((weightLens.set left w1, weightLens.set (right - 1) w2),
        .full { left := a, right := b, seqNo := seqNo, status := .todo }), none)
    | [.base _], .empty =>
      -- depending on whether this is the first or second of the two base jobs
      let weight :=
        if left = 0 then (weightLens.set left w1, weightLens.set (right - 1) w2)
        else (weightLens.set (left - 1) w1, weightLens.set right w2)
      .ok ((weight, m), none)
    | [.base _, .base _], .empty =>
      .ok (((weightLens.set (left - 1) w1, weightLens.set (right - 1) w2), m), none)
    | xs, m => .error (mergeMismatch xs updateLevel curLevel m)
  else if curLevel = updateLevel then
    -- mark completed jobs as done
    match jobs, m with
    | [.merge a], .full { left := l, right := r, seqNo := n, status := .todo } =>
      let newJob : Merge.Job α := .full { left := l, right := r, seqNo := n, status := .done }
      if curLevel = 0 then
        .ok (((weightLens.set 0 w1, weightLens.set 0 w2), newJob), some a)
      else .ok (((w1, w2), newJob), none)
    | [], m => .ok (((w1, w2), m), none)
    | xs, m => .error (mergeMismatch xs updateLevel curLevel m)
  else if curLevel < updateLevel - 1 then
    -- update the job count for all the levels above
    match jobs with
    | [] => .ok (((w1, w2), m), none)
    | _ =>
      let jobsSentLeft := min (jobs.length : Int) left
      let jobsSentRight := min ((jobs.length : Int) - jobsSentLeft) right
      .ok (((weightLens.set (left - jobsSentLeft) w1, weightLens.set (right - jobsSentRight) w2), m), none)
  else .ok (((w1, w2), m), none)

/-- `add_bases` in `Tree.update`. -/
def addBases (updateLevel seqNo : Int) (weightLens : Lens Weight Int) (jobs : List (Job α β))
    (node : BaseNode β) : OrError (BaseNode β) :=
  let w := node.1
  let d := node.2
  let weight := weightLens.get w
  match jobs, d with
  | [], _ => .ok (w, d)
  | [.base d], .empty =>
    .ok (weightLens.set (weight - 1) w, .full { job := d, seqNo := seqNo, status := .todo })
  | [.merge _], .full b => .ok (w, .full { b with status := .done })
  | xs, d =>
    .error (.ofString ("Got " ++ toString xs.length ++ " jobs when updating level "
      ++ toString updateLevel ++ " and when one of the base nodes is " ++ d.jobStr))

/-- The `jobs_split` of `Tree.update`: as many jobs to each half as its weight says. -/
def jobsSplit (weightLens : Lens Weight Int) (w : Weight × Weight) (a : List (Job α β)) :
    List (Job α β) × List (Job α β) :=
  let l := weightLens.get w.1
  let r := weightLens.get w.2
  (takeInt a l, takeInt (dropInt a l) r)

/-- `Tree.update`. -/
def update (completedJobs : List (Job α β)) (updateLevel sequenceNo : Int)
    (weightLens : Lens Weight Int) (tree : ScanTree α β) : OrError (ScanTree α β × Option α) :=
  updateSplit (addMerges updateLevel sequenceNo weightLens)
    (addBases updateLevel sequenceNo weightLens) Prod.fst completedJobs updateLevel
    (jobsSplit weightLens) tree

/-! ### Recomputing the weights -/

/-- The argument of `reset_weights`. -/
inductive WeightType where
  | base
  | merge
  | both
  deriving Repr, DecidableEq

/-- `update_merge_weight`: only the leaves still to do are counted. -/
def leafMergeWeight (d : Base.Job β) (w : Weight) : Weight :=
  match d with
  | .full { job := _, seqNo := _, status := .todo } => Weight.mergeLens.set 1 w
  | _ => Weight.mergeLens.set 0 w

/-- `update_base_weight`: only the empty leaves are counted. -/
def leafBaseWeight (d : Base.Job β) (w : Weight) : Weight :=
  match d with
  | .empty => Weight.baseLens.set 1 w
  | _ => Weight.baseLens.set 0 w

variable (weightType : WeightType)

/-- `f_base` in `reset_weights`; the second weight of a leaf is a dummy. -/
def resetBase (base : BaseNode β) : BaseNode β × (Weight × Weight) :=
  let setAllZero (w : Weight) := Weight.baseLens.set 0 (Weight.mergeLens.set 0 w)
  let p : Weight × Weight :=
    match weightType with
    | .merge => (leafMergeWeight base.2 base.1, Weight.mergeLens.set 0 base.1)
    | .base => (leafBaseWeight base.2 base.1, Weight.baseLens.set 0 base.1)
    | .both =>
      let w' := leafBaseWeight base.2 base.1
      (leafMergeWeight base.2 w', setAllZero w')
  ((p.1, base.2), p)

/-- `reset` in `reset_weights`: the weights of a node are the sums of its children's. -/
def resetSum (lst : (Weight × Weight) × (Weight × Weight)) (lens : Lens Weight Int)
    (w : Weight × Weight) : Weight × Weight :=
  (lens.set (lens.get lst.1.1 + lens.get lst.1.2) w.1, lens.set (lens.get lst.2.1 + lens.get lst.2.2) w.2)

/-- `f_merge` in `reset_weights`. -/
def resetMerge (lst : (Weight × Weight) × (Weight × Weight)) (m : MergeNode α) : MergeNode α × (Weight × Weight) :=
  let w' : Weight × Weight :=
    match weightType with
    | .merge =>
      match m.2 with
      | .full { left := _, right := _, seqNo := _, status := .todo } =>
        (Weight.mergeLens.set 1 m.1.1, Weight.mergeLens.set 0 m.1.2)
      | _ => resetSum lst Weight.mergeLens m.1
    | .base => resetSum lst Weight.baseLens m.1
    | .both => resetSum lst Weight.mergeLens (resetSum lst Weight.baseLens m.1)
  ((w', m.2), w')

/-- `reset_weights`. -/
def resetWeights (tree : ScanTree α β) : ScanTree α β :=
  (updateAccumulate (resetMerge weightType) (resetBase weightType) tree).1

/-! ### Reading a tree -/

/-- `jobs_on_level`: the jobs still to do on a level, left to right. -/
def jobsOnLevel (depth level : Int) (tree : ScanTree α β) : List (AvailableJob α β) :=
  (foldDepth (fun i acc (a : MergeNode α) =>
      match decide (i = level), a.2 with
      | true, .full { left := l, right := r, seqNo := _, status := .todo } =>
        AvailableJob.merge l r :: acc
      | _, _ => acc) (fun acc (d : BaseNode β) =>
      match decide (level = depth), d.2 with
      | true, .full { job := job, seqNo := _, status := .todo } =>
        AvailableJob.base job :: acc
      | _, _ => acc) [] tree).reverse

/-- `to_hashable_jobs`: every node that is not done. -/
def toHashableJobs (tree : ScanTree α β) : List (Job (MergeNode α) (BaseNode β)) :=
  (fold (fun acc (a : MergeNode α) =>
      match a.2 with
      | .full { left := _, right := _, seqNo := _, status := .done } => acc
      | _ => Job.merge a :: acc) (fun acc (d : BaseNode β) =>
      match d.2 with
      | .full { job := _, seqNo := _, status := .done } => acc
      | _ => Job.base d :: acc) [] tree).reverse

/-- `jobs_records`. -/
def jobsRecords (tree : ScanTree α β) : List (Job (Merge.Record α) (Base.Record β)) :=
  (fold (fun acc (a : MergeNode α) =>
      match a.2 with
      | .full x => Job.merge x :: acc
      | _ => acc) (fun acc (d : BaseNode β) =>
      match d.2 with
      | .full j => Job.base j :: acc
      | _ => acc) [] tree).reverse

/-- `base_jobs`: the data of the full leaves. Every merge node empties the
accumulator, which is already empty there. -/
def baseJobs (tree : ScanTree α β) : List β :=
  (foldDepth (fun _ _ _ => []) (fun acc (d : BaseNode β) =>
      match d.2 with
      | .full r => r.job :: acc
      | _ => acc) [] tree).reverse

/-- `leaves`: the full leaves. -/
def leaves (tree : ScanTree α β) : List (BaseNode β) :=
  (foldDepth (fun _ _ _ => []) (fun acc (d : BaseNode β) =>
      match d.2 with
      | .full _ => d :: acc
      | _ => acc) [] tree).reverse

/-- `required_job_count`. -/
def requiredJobCount : ScanTree α β → Int
  | .node _ value _ => value.1.1.merge + value.1.2.merge
  | .leaf d => d.1.merge

/-- `available_space`. -/
def availableSpace : ScanTree α β → Int
  | .node _ value _ => value.1.1.base + value.1.2.base
  | .leaf d => d.1.base

end Tree

end MinaProtocol.ParallelScan
