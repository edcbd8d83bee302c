import MinaProtocol.Lib.Outcome
import MinaProtocol.Lib.ParentTree
import Std.Data.ExtTreeMap

/-!
# TransitionHandler.CatchupScheduler

The catchup scheduler of `catchup_scheduler.ml`. Blocks whose parent is missing wait under the hash of the parent.
A hash that is waited for has a timeout; when it goes off the blocks below the hash are given to a catchup job, and
when the parent is announced they go to the breadcrumb builder. The writer of catchup jobs is open or closed; what
the reader or the builder does with the blocks is left out.
-/

namespace MinaProtocol.TransitionHandler

open Std

scoped instance instTransOrdHash {Hash : Type} [LinearOrder Hash] : TransOrd Hash := inferInstance

/-- `Rose_tree.t`. -/
inductive RoseTree (α : Type) where
  | T (value : α) (children : List (RoseTree α))

/-- What the scheduler reads of a block. -/
structure Header (Transition Hash : Type) where
  stateHash : Transition → Hash
  previousStateHash : Transition → Hash

/-- `Block_time.Timeout.t`, in milliseconds. -/
structure Timeout where
  startTime : UInt64
  span : UInt64

/-- `Timeout.remaining_time`. -/
def Timeout.remainingTime (timeout : Timeout) (now : UInt64) : UInt64 := timeout.span - (now - timeout.startTime)

variable {Transition Hash Callback : Type} [LinearOrder Hash]

/-- `Catchup_scheduler.t`. -/
structure Scheduler (Transition Hash Callback : Type) [LinearOrder Hash] where
  collectedTransitions : ExtTreeMap Hash (List Transition)
  validationCallbacks : ExtTreeMap Hash Callback
  parentRootTimeouts : ExtTreeMap Hash Timeout

/-- The scheduler that `create` returns. -/
def create : Scheduler Transition Hash Callback := ⟨∅, ∅, ∅⟩

namespace Scheduler

/-- `cancel_timeout`: the remaining time of the timeout that is cancelled. -/
def cancelTimeout (t : Scheduler Transition Hash Callback) (now : UInt64) (hash : Hash) :
    Option UInt64 × Scheduler Transition Hash Callback :=
  (t.parentRootTimeouts[hash]?.map fun timeout => timeout.remainingTime now,
    { t with parentRootTimeouts := t.parentRootTimeouts.erase hash })

/-- The blocks that wait under a hash. -/
def successors (t : Scheduler Transition Hash Callback) (hash : Hash) : List Transition :=
  t.collectedTransitions[hash]?.getD []

variable (B : Header Transition Hash)

/-- `extract_subtree`, so many levels deep. -/
def extractSubtree (t : Scheduler Transition Hash Callback) :
    Nat → Transition → Option (RoseTree (Transition × Option Callback))
  | 0, _ => none
  | depth + 1, cachedTransition => do
    let hash := B.stateHash cachedTransition
    let children ← (t.successors hash).mapM (t.extractSubtree depth)
    some (.T (cachedTransition, t.validationCallbacks[hash]?) children)

/-- No chain of waiting blocks is longer than this. -/
def depth (t : Scheduler Transition Hash Callback) : Nat := t.collectedTransitions.size + 1

/-- `extract_forest`. -/
def extractForest (t : Scheduler Transition Hash Callback) (hash : Hash) :
    Option (Hash × List (RoseTree (Transition × Option Callback))) := do
  let forest ← (t.successors hash).mapM (t.extractSubtree B t.depth)
  some (hash, forest)

end Scheduler

variable (B : Header Transition Hash)

/-- `remove_tree`, on the table, so many levels deep. -/
def removeTree : Nat → ExtTreeMap Hash (List Transition) → Hash → Option (ExtTreeMap Hash (List Transition))
  | 0, _, _ => none
  | depth + 1, collected, parentHash =>
    let children := collected[parentHash]?.getD []
    children.foldlM (fun collected child => removeTree depth collected (B.stateHash child)) (collected.erase parentHash)

namespace Scheduler

/-- The action of the timeout that `watch` creates for a parent. The job is `none` if the pipe is closed. -/
def timedOut (t : Scheduler Transition Hash Callback) (isClosed : Bool) (parentHash : Hash) :
    Option (Option (Hash × List (RoseTree (Transition × Option Callback))) × Scheduler Transition Hash Callback) := do
  let forest ← t.extractForest B parentHash
  let collectedTransitions ← removeTree B t.depth t.collectedTransitions parentHash
  some (if isClosed then none else some forest,
    { t with collectedTransitions, parentRootTimeouts := t.parentRootTimeouts.erase parentHash })

/-- The validation callback of a block is kept, unless there is one for its hash already. -/
def addCallback (t : Scheduler Transition Hash Callback) (hash : Hash) (validCb : Option Callback) :
    Scheduler Transition Hash Callback :=
  match validCb with
  | none => t
  | some data => { t with validationCallbacks := t.validationCallbacks.insertIfNew hash data }

/-- `watch`. -/
def watch (t : Scheduler Transition Hash Callback) (now timeoutDuration : UInt64) (cachedTransition : Transition)
    (validCb : Option Callback) : Scheduler Transition Hash Callback :=
  let hash := B.stateHash cachedTransition
  let parentHash := B.previousStateHash cachedTransition
  let t := t.addCallback hash validCb
  match t.collectedTransitions[parentHash]? with
  | none =>
    let remainingTime := (t.cancelTimeout now hash).1
    let t := (t.cancelTimeout now hash).2
    { t with
      collectedTransitions := (t.collectedTransitions.insert parentHash [cachedTransition]).insertIfNew hash []
      parentRootTimeouts := t.parentRootTimeouts.insertIfNew parentHash
        ⟨now, remainingTime.elim timeoutDuration fun remainingTime => min remainingTime timeoutDuration⟩ }
  | some cachedSiblingTransitions =>
    if cachedSiblingTransitions.any fun sibling => hash = B.stateHash sibling then t
    else
      let t := (t.cancelTimeout now hash).2
      { t with
        collectedTransitions :=
          (t.collectedTransitions.insert parentHash (cachedTransition :: cachedSiblingTransitions)).insertIfNew hash [] }

/-- The notification is for a block that waits itself. -/
inductive NotifyError where
  | nonParentRootTransition

/-- What `notify` dispatches to the breadcrumb builder, if anything waits for the block. -/
def dispatched (t : Scheduler Transition Hash Callback) (hash : Hash) :
    Option (Option (Hash × List (RoseTree (Transition × Option Callback)))) :=
  match t.collectedTransitions[hash]? with
  | none => some none
  | some _ => (t.extractForest B hash).map some

/-- `notify`, with the job that it dispatches. -/
def notify (t : Scheduler Transition Hash Callback) (now : UInt64) (hash : Hash) : Outcome NotifyError
      (Option (Hash × List (RoseTree (Transition × Option Callback))) × Scheduler Transition Hash Callback) :=
  if hash ∉ t.parentRootTimeouts ∧ hash ∈ t.collectedTransitions then .error .nonParentRootTransition
  else do
    let t := (t.cancelTimeout now hash).2
    let job ← Outcome.ofOption (t.dispatched B hash)
    let collectedTransitions ← Outcome.ofOption (removeTree B t.depth t.collectedTransitions hash)
    return (job, { t with collectedTransitions })

end Scheduler

end MinaProtocol.TransitionHandler
