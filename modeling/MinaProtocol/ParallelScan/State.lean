import MinaProtocol.ParallelScan.Tree

/-!
# ParallelScan.State

The scan state and its operations (`parallel_scan.ml`, modules `T` and `State`
and the functions below them): the list of trees with the one being filled in
front, the work that can be done on them, and `update`, which adds completed
work and new data in one step.

`State_or_error.t` is state passing in `Or_error`; an operation takes the state
and returns its result with the new state.
-/

namespace MinaProtocol.ParallelScan

/-! ### Core library functions -/

/-- `Int.ceil_log2`. -/
def ceilLog2 (n : Nat) : Nat := if n = 1 then 0 else Nat.log2 (n - 1) + 1

/-- `Int.max_value` of the 63-bit integers. -/
def intMaxValue : Int := 2 ^ 62 - 1

/-- `Nonempty_list.t`. -/
structure NonemptyList (α : Type*) where
  head : α
  tail : List α

namespace NonemptyList

variable {α : Type*}

def toList (l : NonemptyList α) : List α := l.head :: l.tail

def singleton (x : α) : NonemptyList α := ⟨x, []⟩

def cons (x : α) (l : NonemptyList α) : NonemptyList α := ⟨x, l.head :: l.tail⟩

def ofListOpt : List α → Option (NonemptyList α)
  | [] => none
  | x :: xs => some ⟨x, xs⟩

def append (l l' : NonemptyList α) : NonemptyList α := ⟨l.head, l.tail ++ l'.toList⟩

def length (l : NonemptyList α) : Nat := l.toList.length

def map {β : Type*} (f : α → β) (l : NonemptyList α) : NonemptyList β :=
  ⟨f l.head, l.tail.map f⟩

def last (l : NonemptyList α) : α := l.tail.getLastD l.head

end NonemptyList

/-! ### The state -/

/-- `T.t`. -/
structure State (α β : Type) where
  trees : NonemptyList (ScanTree α β)
  /-- last emitted proof and the corresponding transactions -/
  acc : Option (α × List β)
  /-- sequence number for the jobs added every block -/
  currJobSeqNo : Int
  maxBaseJobs : Nat
  delay : Nat

section Operations

variable {α β : Type}

/-- The job `with_leaner_trees` keeps of a merge node. -/
def leanerMerge (node : MergeNode α) : MergeNode α :=
  match node.2 with
  | .full { left := _, right := _, seqNo := _, status := .done } => (node.1, .empty)
  | _ => node

/-- `with_leaner_trees`: delete all the completed merge jobs. This is what
`to_binable` writes, so it is also what a peer reads back. -/
def withLeanerTrees (t : State α β) : State α β :=
  { t with trees := t.trees.map (Tree.map leanerMerge id) }

/-- `go` in `create_tree_for_level`, with `remaining = depth - d`. -/
def createTreeGo : {M B : Type} → Int → (Int → M) → B → Nat → Tree M B
  | _, _, _, _, base, 0 => .leaf base
  | _, _, d, fmerge, base, remaining + 1 =>
    .node d (fmerge d) (createTreeGo (d + 1) (fun i => (fmerge i, fmerge i)) (base, base) remaining)

/-- `create_tree_for_level`. -/
def createTreeForLevel (level : Int) (depth : Nat) (mergeJob : Merge.Job α) (baseJob : Base.Job β) : ScanTree α β :=
  let baseWeight : Weight := if level = -1 then ⟨0, 0⟩ else ⟨1, 0⟩
  createTreeGo 0
    (fun d =>
      let weight : Weight × Weight :=
        if level = -1 then (⟨0, 0⟩, ⟨0, 0⟩)
        else
          let x : Int := 2 ^ level.toNat / 2 ^ (d + 1).toNat
          (⟨x, 0⟩, ⟨x, 0⟩)
      (weight, mergeJob))
    (baseWeight, baseJob) depth

/-- `create_tree`. -/
def createTree (depth : Nat) : ScanTree α β := createTreeForLevel depth depth .empty .empty

/-- `empty`. -/
def empty (maxBaseJobs delay : Nat) : State α β where
  trees := .singleton (createTree (ceilLog2 maxBaseJobs))
  acc := none
  currJobSeqNo := 0
  maxBaseJobs := maxBaseJobs
  delay := delay

/-! ### Hashing -/

/-- The strings `State.hash` feeds for one merge node. -/
def hashMerge (fMerge : α → String) (node : MergeNode α) : String :=
  let addWeight (w : Weight) : String := toString w.base ++ toString w.merge
  let addWeightPair (w : Weight × Weight) : String := addWeight w.1 ++ addWeight w.2
  match node.2 with
  | .empty => addWeightPair node.1 ++ "Empty"
  | .full r =>
    addWeightPair node.1 ++ "Full" ++ toString r.seqNo ++ r.status.toString
      ++ fMerge r.left ++ fMerge r.right
  | .part j => addWeightPair node.1 ++ "Part" ++ fMerge j

/-- The strings `State.hash` feeds for one leaf. -/
def hashBase (fBase : β → String) (node : BaseNode β) : String :=
  let addWeight (w : Weight) : String := toString w.base ++ toString w.merge
  match node.2 with
  | .empty => addWeight node.1 ++ "Empty"
  | .full r =>
    addWeight node.1 ++ "Full" ++ toString r.seqNo ++ r.status.toString ++ fBase r.job

/-- The strings fed to the digest by `State.hash`, in order. -/
def hashInput (t : State α β) (fMerge : α → String) (fBase : β → String) : List String :=
  let t' := withLeanerTrees t
  let treeHash (tree : ScanTree α β) : List String :=
    (Tree.toHashableJobs tree).map fun
      | .merge a => hashMerge fMerge a
      | .base d => hashBase fBase d
  t'.trees.toList.flatMap treeHash
    ++ (match t'.acc with
        | some (a, dLst) => fMerge a :: dLst.map fBase
        | none => ["None"])
    ++ [toString t'.currJobSeqNo, toString t'.maxBaseJobs, toString t'.delay]

/-- `State.hash`, over the incremental digest `sha256` of what was fed to it. -/
def hash {H : Type} (sha256 : List String → H) (t : State α β) (fMerge : α → String) (fBase : β → String) : H :=
  sha256 (hashInput t fMerge fBase)

/-! ### Work -/

/-- `max_trees`. -/
def maxTrees (t : State α β) : Nat := (ceilLog2 t.maxBaseJobs + 1) * (t.delay + 1) + 1

/-- `work_to_do`. -/
def workToDo (trees : List (ScanTree α β)) (maxBaseJobs : Nat) : List (AvailableJob α β) :=
  let depth := ceilLog2 maxBaseJobs
  trees.zipIdx.flatMap fun (tree, i) => Tree.jobsOnLevel depth ((depth : Int) - i) tree

/-- `work`: every `delay`-th tree, each one level further up than the one before. -/
def work (trees : List (ScanTree α β)) (delay maxBaseJobs : Nat) : List (AvailableJob α β) :=
  let depth := ceilLog2 maxBaseJobs
  let workTrees :=
    ((trees.zipIdx.filter fun (_, i) => i % delay = delay - 1).map Prod.fst).take (depth + 1)
  workToDo workTrees maxBaseJobs

/-- The argument of `work_for_tree`. -/
inductive DataTree where
  | current
  | next

/-- `work_for_tree`. -/
def workForTree (t : State α β) (dataTree : DataTree) : List (AvailableJob α β) :=
  let trees :=
    match dataTree with
    | .current => t.trees.tail
    | .next => t.trees.toList
  work trees (t.delay + 1) t.maxBaseJobs

/-- One step of the fold in `all_work`: put an empty tree in front and list the
work there is then. -/
def allWorkStep (depth : Nat) (acc : State α β × List (List (AvailableJob α β))) :
    State α β × List (List (AvailableJob α β)) :=
  let t' := { acc.1 with trees := acc.1.trees.cons (createTree depth) }
  match workForTree t' .current with
  | [] => (t', acc.2)
  | work => (t', work :: acc.2)

/-- `all_work`: work on all the levels of all the trees, one set for each number
of trees that may still be put in front. -/
def allWork (t : State α β) : List (List (AvailableJob α β)) :=
  let depth := ceilLog2 t.maxBaseJobs
  let set1 := workForTree t .current
  let r :=
    (List.range (t.delay + 1)).foldl (fun acc _ => allWorkStep depth acc) (t, [])
  if set1.isEmpty then r.2.reverse else set1 :: r.2.reverse

/-- `work_for_next_update`. -/
def workForNextUpdate (t : State α β) (dataCount : Nat) : List (List (AvailableJob α β)) :=
  let delay := t.delay + 1
  let currentTreeSpace := Tree.availableSpace t.trees.head
  let set1 := work t.trees.tail delay t.maxBaseJobs
  let count := min dataCount t.maxBaseJobs
  if currentTreeSpace < count then
    let set2 :=
      takeInt (work t.trees.toList delay t.maxBaseJobs) (((count : Int) - currentTreeSpace) * 2)
    [set1, set2].filter fun s => !s.isEmpty
  else
    let set := set1.take (2 * count)
    if set.isEmpty then [] else [set]

/-- `all_jobs`. -/
def allJobs (t : State α β) : List (List (AvailableJob α β)) := allWork t

/-- `pending_data`: the data of each tree, oldest tree first. -/
def pendingData (t : State α β) : List (List β) := t.trees.toList.reverse.map Tree.baseJobs

/-! ### Updating -/

/-- `cons`. -/
def consTree (b : ScanTree α β) (bs : List (ScanTree α β)) : NonemptyList (ScanTree α β) :=
  match NonemptyList.ofListOpt bs with
  | none => .singleton b
  | some bs => .cons b bs

/-- `append`. -/
def appendTrees (bs : NonemptyList (ScanTree α β)) (bs' : List (ScanTree α β)) : NonemptyList (ScanTree α β) :=
  match NonemptyList.ofListOpt bs' with
  | none => bs
  | some bs' => bs.append bs'

/-- One step of the fold in `add_merge_jobs`: every `delay`-th tree takes as many
of the remaining jobs as it requires. -/
def addMergeJobsStep (delay depth : Nat) (seqNo : Int)
    (acc : List (ScanTree α β) × Option α × List (Job α β)) (tree : ScanTree α β) (i : Nat) :
    OrError (List (ScanTree α β) × Option α × List (Job α β)) :=
  let (trees, scanResult, jobs) := acc
  if i % delay = delay - 1 ∧ ¬ jobs.isEmpty then
    match Tree.update (takeInt jobs (Tree.requiredJobCount tree)) ((depth : Int) - (i / delay : Nat))
        seqNo Weight.mergeLens tree with
    | .ok (tree', scanResult') =>
      .ok (tree' :: trees, scanResult', dropInt jobs (Tree.requiredJobCount tree))
    | .error e =>
      .error (.tagArg "Error while adding merge jobs to tree" ("tree_number", i) e)
  else .ok (tree :: trees, scanResult, jobs)

/-- `add_merge_jobs`. -/
def addMergeJobs (completedJobs : List α) (state : State α β) : OrError (Option (α × List β) × State α β) :=
  if completedJobs.length = 0 then .ok (none, state)
  else
    let delay := state.delay + 1
    let depth := ceilLog2 state.maxBaseJobs
    let mergeJobs : List (Job α β) := completedJobs.map .merge
    let jobsRequired := workForTree state .current
    if mergeJobs.length > jobsRequired.length then
      .error (.ofString ("More work than required: Required- " ++ toString jobsRequired.length
        ++ " got- " ++ toString mergeJobs.length))
    else
      let currTree := state.trees.head
      let res : OrError (List (ScanTree α β) × Option α × List (Job α β)) :=
        state.trees.tail.zipIdx.foldl
          (fun acc p => acc.bind fun acc =>
            addMergeJobsStep delay depth state.currJobSeqNo acc p.1 p.2)
          (.ok ([], none, mergeJobs))
      match res with
      | .error e => .error (.ofString e.toStringHum)
      | .ok (updatedTrees, resultOpt, _) =>
        let (updatedTrees, resultOpt) :=
          match resultOpt with
          | none => (updatedTrees.reverse, none)
          | some res =>
            match updatedTrees with
            | [] => ([], none)
            | t :: ts => (ts.reverse, some (res, Tree.baseJobs t))
        let updatedTrees :=
          if resultOpt.isSome ∨
              ((currTree :: updatedTrees).length < maxTrees state ∧ completedJobs.length = jobsRequired.length) then
            updatedTrees.map (Tree.resetWeights .merge)
          else updatedTrees
        .ok (resultOpt, { state with trees := consTree currTree updatedTrees })

/-- `add_data`. -/
def addData (data : List β) (state : State α β) : OrError (State α β) :=
  if data.length = 0 then .ok state
  else
    let depth := ceilLog2 state.maxBaseJobs
    let tree := state.trees.head
    let baseJobs : List (Job α β) := data.map .base
    let availableSpace := Tree.availableSpace tree
    if (data.length : Int) > availableSpace then
      .error (.ofString ("Data count (" ++ toString data.length
        ++ ") exceeded available space (" ++ toString availableSpace ++ ")"))
    else
      match Tree.update baseJobs depth state.currJobSeqNo Weight.baseLens tree with
      | .error e =>
        .error (.ofString (Error.tag "Error while adding base jobs to the tree" e).toStringHum)
      | .ok (tree, _) =>
        let updatedTrees :=
          if (baseJobs.length : Int) = availableSpace then
            consTree (createTree depth) [Tree.resetWeights .both tree]
          else .singleton (Tree.resetWeights .merge tree)
        .ok { state with trees := appendTrees updatedTrees state.trees.tail }

/-- The renumbering of a merge node in `reset_seq_no`. -/
def reseqMerge (newSeq : Int → Int) (a : MergeNode α) : MergeNode α :=
  match a.2 with
  | .full x => (a.1, .full { x with seqNo := newSeq x.seqNo })
  | _ => a

/-- The renumbering of a leaf in `reset_seq_no`. -/
def reseqBase (newSeq : Int → Int) (b : BaseNode β) : BaseNode β :=
  match b.2 with
  | .full x => (b.1, .full { x with seqNo := newSeq x.seqNo })
  | _ => b

/-- `oldest_seq_no` in `reset_seq_no`, of the leaves of the oldest tree. -/
def oldestSeqNo (leaves : List (BaseNode β)) : Int :=
  match leaves.head? with
  | some (_, .full r) => r.seqNo
  | _ => 0

/-- The number of the newest job so far, with the leaves of one more tree. -/
def newestSeqNo (leaves : List (BaseNode β)) (maxSeqNo : Int) : Int :=
  match leaves.getLast? with
  | some (_, .full r) => max r.seqNo maxSeqNo
  | _ => maxSeqNo

/-- `reset_seq_no`. -/
def resetSeqNo (state : State α β) : State α β :=
  let oldestSeqNo : Int := oldestSeqNo (Tree.leaves state.trees.last)
  let newSeq (seq : Int) : Int := seq - oldestSeqNo + 1
  let r :=
    state.trees.toList.foldl
      (fun (acc : Int × List (ScanTree α β)) tree =>
        let tree' := Tree.map (reseqMerge newSeq) (reseqBase newSeq) tree
        (newestSeqNo (Tree.leaves tree') acc.1, tree' :: acc.2))
      (0, [])
  { state with
    currJobSeqNo := r.1
    -- the list of trees is never empty, so `Option.value_exn` does not raise
    trees := (NonemptyList.ofListOpt r.2.reverse).getD state.trees }

/-- `incr_sequence_no`. -/
def incrSequenceNo (state : State α β) : State α β :=
  if state.currJobSeqNo + 1 = intMaxValue then resetSeqNo state
  else { state with currJobSeqNo := state.currJobSeqNo + 1 }

/-- The acceptance test of `update_helper`: with `required` pairs of jobs asked
for and `got` given, every missing pair takes one slot away. -/
def insufficientJobs (t : State α β) (dataCount completedCount : Nat) : Prop :=
  let requiredJobs := (workForNextUpdate t dataCount).flatten
  let required := (requiredJobs.length + 1) / 2
  let got := (completedCount + 1) / 2
  got < required ∧ (dataCount : Int) > (t.maxBaseJobs : Int) - required + got

instance (t : State α β) (dataCount completedCount : Nat) :
    Decidable (insufficientJobs t dataCount completedCount) :=
  inferInstanceAs (Decidable (_ ∧ _))

/-- `update_helper`. -/
def updateHelper (data : List β) (completedJobs : List α) (t : State α β) : OrError (Option (α × List β) × State α β) :=
  let dataCount := data.length
  if dataCount > t.maxBaseJobs then
    .error (.ofString ("Data count (" ++ toString dataCount ++ ") exceeded maximum (" ++ toString t.maxBaseJobs ++ ")"))
  else if insufficientJobs t dataCount completedJobs.length then
    .error (.ofString ("Insufficient jobs (Data count " ++ toString dataCount ++ "): Required- "
      ++ toString (((workForNextUpdate t dataCount).flatten.length + 1) / 2) ++ " got- "
      ++ toString ((completedJobs.length + 1) / 2)))
  else
    let delay := t.delay + 1
    -- increment the sequence number
    let state := incrSequenceNo t
    let latestTree := t.trees.head
    let availableSpace := Tree.availableSpace latestTree
    -- part of the data may go to the current tree and the rest to a new one; the
    -- jobs are then done on two different sets of trees
    let data1 := takeInt data availableSpace
    let data2 := dropInt data availableSpace
    let requiredJobsForCurrentTree := (work t.trees.tail delay t.maxBaseJobs).length
    let jobs1 := completedJobs.take requiredJobsForCurrentTree
    let jobs2 := completedJobs.drop requiredJobsForCurrentTree
    (addMergeJobs jobs1 state).bind fun (resultOpt, state) =>
    (addData data1 state).bind fun state =>
    (addMergeJobs jobs2 state).bind fun (_, state) =>
    (addData data2 state).bind fun state =>
      -- update the latest emitted value
      let state' := { state with acc := resultOpt.or state.acc }
      -- check the tree-list length is under max
      if state.trees.length > maxTrees state then
        .error (.ofString ("Tree list length (" ++ toString state.trees.length
          ++ ") exceeded maximum (" ++ toString (maxTrees state) ++ ")"))
      else .ok (resultOpt, state')

/-- `update`. -/
def update (data : List β) (completedJobs : List α) (state : State α β) : OrError (Option (α × List β) × State α β) :=
  updateHelper data completedJobs state

/-! ### What the transaction snark scan state asks for -/

/-- `jobs_for_next_update`. -/
def jobsForNextUpdate (t : State α β) : List (List (AvailableJob α β)) :=
  workForNextUpdate t t.maxBaseJobs

/-- `jobs_for_slots`. -/
def jobsForSlots (t : State α β) (slots : Nat) : List (List (AvailableJob α β)) := workForNextUpdate t slots

/-- `free_space`. -/
def freeSpace (t : State α β) : Nat := t.maxBaseJobs

/-- `last_emitted_value`. -/
def lastEmittedValue (t : State α β) : Option (α × List β) := t.acc

/-- `Space_partition.t`. -/
structure SpacePartition where
  first : Int × Nat
  second : Option (Int × Nat)
  deriving Repr, DecidableEq

/-- `partition_if_overflowing`. -/
def partitionIfOverflowing (t : State α β) : SpacePartition :=
  let curTreeSpace := Tree.availableSpace t.trees.head
  -- the actual work, because there is none in the beginning
  let workCount := (workForTree t .current).length
  let workCountNewTree := (workForTree t .next).length
  { first := (curTreeSpace, workCount)
    second :=
      if curTreeSpace < t.maxBaseJobs then
        let slots := t.maxBaseJobs - curTreeSpace
        some (slots, (min (workCountNewTree : Int) (2 * slots)).toNat)
      else none }

/-- `next_on_new_tree`. -/
def nextOnNewTree (t : State α β) : Bool := Tree.availableSpace t.trees.head = t.maxBaseJobs

/-- `go` in `fold_chronological_until`. -/
def foldTreesUntil {A F : Type} (fMerge : A → MergeNode α → Tree.ContinueOrStop A F)
    (fBase : A → BaseNode β → Tree.ContinueOrStop A F) : A → List (ScanTree α β) → Tree.ContinueOrStop A F
  | acc, [] => .continue acc
  | acc, tree :: trees =>
    match Tree.foldDepthUntil' (fun _ => fMerge) fBase acc tree with
    | .continue r => foldTreesUntil fMerge fBase r trees
    | .stop e => .stop e

/-- `fold_chronological_until`: the trees from the oldest one on. -/
def foldChronologicalUntil {A F : Type} (t : State α β) (init : A) (fMerge : A → MergeNode α → Tree.ContinueOrStop A F)
    (fBase : A → BaseNode β → Tree.ContinueOrStop A F) (finish : A → F) : F :=
  match foldTreesUntil fMerge fBase init t.trees.toList.reverse with
  | .continue r => finish r
  | .stop e => e

/-- The states that accepted updates lead to, from an empty one. -/
inductive Reachable (maxBaseJobs delay : Nat) : State α β → Prop where
  | empty : Reachable maxBaseJobs delay (empty maxBaseJobs delay)
  | update {s s' : State α β} {data : List β} {jobs : List α} {r : Option (α × List β)} :
      Reachable maxBaseJobs delay s → update data jobs s = .ok (r, s') →
      Reachable maxBaseJobs delay s'

end Operations

end MinaProtocol.ParallelScan
