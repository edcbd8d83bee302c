import MinaProtocol.Consensus.State
import Std.Data.ExtTreeMap
import Std.Data.ExtTreeSet

/-!
# TransitionFrontier.FullFrontier

The full frontier of `full_frontier.ml`: a table of the blocks that are not final, each
with the hashes of its successors, a root and a best tip. A block is added by diffs that
are calculated before the first of them is applied. The ledgers that the blocks carry are
left out; of a scan state there are the hashes of the protocol states that it requires.
-/

namespace MinaProtocol.TransitionFrontier

open Std Consensus

/-- What is raised. -/
inductive Exn where
  | notFound
  | duplicateKey
  | emptyList
  | assertFailed
  | outOfFuel
deriving DecidableEq, Repr

/-- The value of an option, or raise. -/
def getExn {α : Type} (e : Exn) (o : Option α) : Except Exn α :=
  match o with
  | none => .error e
  | some a => .ok a

/-- `Protocol_state.value`. -/
structure ProtocolState where
  previousStateHash : Nat
  consensusState : ConsensusState

/-- `Breadcrumb.t`: a block with its scan state. -/
structure Breadcrumb where
  stateHash : Nat
  protocolState : ProtocolState
  /-- `Scan_state.required_state_hashes` of the staged ledger. -/
  requiredStateHashes : ExtTreeSet Nat

namespace Breadcrumb

/-- `Breadcrumb.parent_hash`. -/
def parentHash (b : Breadcrumb) : Nat := b.protocolState.previousStateHash

/-- `Breadcrumb.consensus_state_with_hashes`. -/
def consensusStateWithHashes (b : Breadcrumb) : WithHash := ⟨b.stateHash, b.protocolState.consensusState⟩

end Breadcrumb

/-- `Node.t`. -/
structure Node where
  breadcrumb : Breadcrumb
  successorHashes : List Nat
  length : Nat

/-- `Protocol_states_for_root_scan_state.t`. -/
abbrev ProtocolStates := ExtTreeMap Nat ProtocolState

/-- `State_hash.Map.of_alist_exn`. -/
def ofAlistExn : List (Nat × ProtocolState) → Except Exn ProtocolStates
  | [] => .ok ∅
  | (hash, state) :: rest => do
    let states ← ofAlistExn rest
    if hash ∈ states then .error .duplicateKey else .ok (states.insert hash state)

/-- `protocol_states_for_next_root_scan_state`. -/
def protocolStatesForNextRootScanState (protocolStatesForOldRoot : ProtocolStates)
    (newScanState : ExtTreeSet Nat) (oldRootState : Nat × ProtocolState) : Except Exn (List (Nat × ProtocolState)) :=
  let protocolStateMap := protocolStatesForOldRoot.insert oldRootState.1 oldRootState.2
  newScanState.toList.mapM fun hash => do
    let state ← getExn .notFound protocolStateMap[hash]?
    return (hash, state)

/-- `Full_frontier.t`. -/
structure Frontier where
  root : Nat
  bestTip : Nat
  table : ExtTreeMap Nat Node
  protocolStatesForRootScanState : ProtocolStates
  maxLength : Nat

/-- `create`. -/
def create (rootBreadcrumb : Breadcrumb) (protocolStates : List (Nat × ProtocolState)) (maxLength : Nat) :
    Except Exn Frontier := do
  let protocolStatesForRootScanState ← ofAlistExn protocolStates
  return {
    root := rootBreadcrumb.stateHash
    bestTip := rootBreadcrumb.stateHash
    table := (∅ : ExtTreeMap Nat Node).insert rootBreadcrumb.stateHash ⟨rootBreadcrumb, [], 0⟩
    protocolStatesForRootScanState
    maxLength }

namespace Frontier

variable (t : Frontier)

/-- `Hashtbl.find_exn t.table`. -/
def findNodeExn (hash : Nat) : Except Exn Node := getExn .notFound t.table[hash]?

/-- `find_exn`. -/
def findExn (hash : Nat) : Except Exn Breadcrumb := do
  return (← t.findNodeExn hash).breadcrumb

/-- `root`. -/
def rootBreadcrumb : Except Exn Breadcrumb := t.findExn t.root

/-- `best_tip`. -/
def bestTipBreadcrumb : Except Exn Breadcrumb := t.findExn t.bestTip

/-- `successor_hashes`. -/
def successorHashes (hash : Nat) : Except Exn (List Nat) := do
  return (← t.findNodeExn hash).successorHashes

/-- `successors`. -/
def successors (b : Breadcrumb) : Except Exn (List Breadcrumb) := do
  (← t.successorHashes b.stateHash).mapM t.findExn

/-- `successors_rec`. -/
def successorsRec (t : Frontier) : Nat → Breadcrumb → Except Exn (List Breadcrumb)
  | 0, _ => .error .outOfFuel
  | fuel + 1, b => do
    let below ← (← t.successors b).mapM fun succ => do return succ :: (← t.successorsRec fuel succ)
    return below.flatten

/-- `find_path` of `path_map`. -/
def findPath {α : Type} (t : Frontier) (f : Breadcrumb → α) :
    Nat → Breadcrumb → Option Int → List α → Except Exn (List α)
  | 0, _, _, _ => .error .outOfFuel
  | fuel + 1, b, countOpt, acc =>
    if countOpt.any (· ≤ 0) then .ok acc
    else
      let countOpt := countOpt.map (· - 1)
      let elem := f b
      if b.stateHash = t.root then .ok acc
      else if b.parentHash = t.root then .ok (elem :: acc)
      else do t.findPath f fuel (← t.findExn b.parentHash) countOpt (elem :: acc)

/-- No path is longer than this. -/
def fuel : Nat := t.maxLength + 1

/-- `path_map`. -/
def pathMap {α : Type} (maxLength : Option Int) (b : Breadcrumb) (f : Breadcrumb → α) :
    Except Exn (List α) := t.findPath f t.fuel b maxLength []

/-- `hash_path`. -/
def hashPath (b : Breadcrumb) : Except Exn (List Nat) := t.pathMap none b Breadcrumb.stateHash

/-- `best_tip_path`. -/
def bestTipPath (maxLength : Option Int) : Except Exn (List Breadcrumb) := do
  t.pathMap maxLength (← t.bestTipBreadcrumb) id

/-- `best_tip_path_length_exn`. -/
def bestTipPathLengthExn : Except Exn Int :=
  getExn .notFound do
    let bestTipNode ← t.table[t.bestTip]?
    let rootNode ← t.table[t.root]?
    return (bestTipNode.length : Int) - rootNode.length

end Frontier

/-! ### Diffs -/

/-- `Root_data.Limited.t`. -/
structure LimitedRootData where
  stateHash : Nat
  protocolStates : List (Nat × ProtocolState)

/-- `Diff.t` with full nodes. Of a node of the garbage there are its transition and its
scan state. -/
inductive Diff where
  | newNode (breadcrumb : Breadcrumb)
  | rootTransitioned (newRoot : LimitedRootData) (garbage : List Breadcrumb)
  | bestTipChanged (newBestTip : Nat)

namespace Frontier

variable (t : Frontier)

/-- `calculate_root_transition_diff`. -/
def calculateRootTransitionDiff (heir : Breadcrumb) : Except Exn Diff := do
  let root ← t.rootBreadcrumb
  let successors ← t.successors root
  let heirSiblings := successors.filter fun b => decide (heir.stateHash ≠ b.stateHash)
  let below ← heirSiblings.mapM fun sibling => do return sibling :: (← t.successorsRec t.fuel sibling)
  let garbage := below.flatten.reverse
  let protocolStates ← protocolStatesForNextRootScanState t.protocolStatesForRootScanState
    heir.requiredStateHashes (root.stateHash, root.protocolState)
  return .rootTransitioned ⟨heir.stateHash, protocolStates⟩ garbage

/-- Remove a node of the garbage. -/
def removeGarbage (node : Breadcrumb) : Except Exn Frontier := do
  let _ ← t.findExn node.stateHash
  return { t with table := t.table.erase node.stateHash }

/-- `move_root`, as far as it is about the table. -/
def moveRoot (newRootHash : Nat) (newRootProtocolStates : List (Nat × ProtocolState))
    (garbage : List Breadcrumb) : Except Exn Frontier := do
  let _ ← t.findNodeExn t.root
  let newRootNode ← t.findNodeExn newRootHash
  let t ← garbage.foldlM removeGarbage t
  let table := t.table.erase t.root
  let protocolStatesForRootScanState ← ofAlistExn newRootProtocolStates
  return { t with
    root := newRootHash
    table := table.insert newRootHash newRootNode
    protocolStatesForRootScanState }

/-- The root transition of `calculate_diffs`, if the breadcrumb extends the frontier to longer
than its length. -/
def rootDiffs (b : Breadcrumb) (parentNode rootNode : Node) : Except Exn (List Diff) :=
  if (parentNode.length : Int) + 1 - rootNode.length > t.maxLength then do
    let path ← t.hashPath b
    let heir ← t.findExn (← getExn .emptyList path.head?)
    let diff ← t.calculateRootTransitionDiff heir
    return [diff]
  else return []

/-- `calculate_diffs`. -/
def calculateDiffs (hashes : Hashes) (constants : Constants) (t : Frontier) (b : Breadcrumb) :
    Except Exn (List Diff) := do
  let parentNode ← t.findNodeExn b.parentHash
  let rootNode ← t.findNodeExn t.root
  let currentBestTip ← t.bestTipBreadcrumb
  let rootDiffs ← t.rootDiffs b parentNode rootNode
  let status ← getExn .assertFailed <|
    select hashes constants currentBestTip.consensusStateWithHashes b.consensusStateWithHashes
  let tipDiffs := if status = .take then [.bestTipChanged b.stateHash] else []
  return .newNode b :: rootDiffs ++ tipDiffs

/-- `apply_diff`. -/
def applyDiff : Diff → Except Exn Frontier
  | .newNode b => do
    let parentNode ← t.findNodeExn b.parentHash
    let node : Node := ⟨b, [], parentNode.length + 1⟩
    if b.stateHash ∈ t.table then return t
    else
      let table := t.table.insert b.stateHash node
      return { t with
        table := table.insert b.parentHash
          { parentNode with successorHashes := b.stateHash :: parentNode.successorHashes } }
  | .rootTransitioned newRoot garbage => t.moveRoot newRoot.stateHash newRoot.protocolStates garbage
  | .bestTipChanged newBestTip => .ok { t with bestTip := newBestTip }

/-- `apply_diffs`. -/
def applyDiffs (diffs : List Diff) : Except Exn Frontier := do
  let _ ← t.bestTipBreadcrumb
  diffs.foldlM applyDiff t

/-- A breadcrumb is added by its diffs. -/
def addBreadcrumb (hashes : Hashes) (constants : Constants) (t : Frontier) (b : Breadcrumb) : Except Exn Frontier := do
  t.applyDiffs (← t.calculateDiffs hashes constants b)

end Frontier

end MinaProtocol.TransitionFrontier
