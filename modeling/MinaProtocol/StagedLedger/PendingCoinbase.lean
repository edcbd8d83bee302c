import MinaProtocol.Base.Transaction
import MinaProtocol.Lib.Outcome

/-!
# StagedLedger.PendingCoinbase

The pending coinbases: a stack of coinbases and protocol states for each tree of the scan
state that has transactions, in a merkle tree of which a map from stack ids stands here. The
newest stack is at the front of `posList`, and `newPos` is where the next one goes.
-/

namespace MinaProtocol.StagedLedger

open Std

/-- The hashes of the pending coinbase stacks. -/
structure StackDigests where
  /-- `Coinbase_stack.empty`. -/
  emptyCoinbaseStack : Nat
  /-- `Coinbase_stack.push`, of the receiver and the amount. -/
  pushCoinbase : PublicKey × Nat → Nat → Nat
  /-- `Stack_hash.dummy`. -/
  dummyStackHash : Nat
  /-- `State_stack.push`, of the current hash, the state body hash and the slot. -/
  pushState : Nat → Nat → GlobalSlot → Nat

/-- `State_stack.t`. -/
structure StateStack where
  init : Nat
  curr : Nat
deriving DecidableEq, Repr

namespace StateStack

/-- `State_stack.create`. -/
def create (init : Nat) : StateStack := ⟨init, init⟩

end StateStack

/-- `Pending_coinbase.Stack.t`. -/
structure Stack where
  data : Nat
  state : StateStack
deriving DecidableEq, Repr

namespace Stack

variable (digests : StackDigests)

/-- `Stack.empty`. -/
def empty : Stack :=
  ⟨digests.emptyCoinbaseStack, ⟨digests.dummyStackHash, digests.dummyStackHash⟩⟩

/-- `Stack.create_with`. -/
def createWith (t : Stack) : Stack :=
  { empty digests with state := StateStack.create t.state.curr }

/-- `Stack.connected`. -/
def connected (prev : Option Stack) (first second : Stack) : Bool :=
  let coinbaseStackConnected :=
    first.data = second.data || digests.emptyCoinbaseStack = second.data
  let stateStackConnected :=
    first.state = second.state
      -- a new stack, initialized with the state of the last block
      || second.state.init = second.state.curr
      || first.state.curr = second.state.curr
      || (prev.map fun prev => prev.state.curr = second.state.curr : Option Bool).getD true
  coinbaseStackConnected && stateStackConnected

/-- `Stack.push_coinbase`. -/
def pushCoinbase (cb : Coinbase) (t : Stack) : Stack :=
  { t with data := digests.pushCoinbase (cb.receiver, cb.amount) t.data }

/-- `Stack.push_state`. -/
def pushState (stateBodyHash : Nat) (globalSlot : GlobalSlot) (t : Stack) : Stack :=
  { t with state := { t.state with curr := digests.pushState t.state.curr stateBodyHash globalSlot } }

end Stack

/-- `Stack_id.t`, an `int` that only ever counts up from zero. -/
abbrev StackId := Nat

/-- `Pending_coinbase.t`. -/
structure PendingCoinbase where
  tree : ExtTreeMap StackId Stack
  posList : List StackId
  newPos : StackId

namespace PendingCoinbase

/-- The errors of this module. -/
inductive Error where
  | notFound (id : StackId)
  /-- `"Stack_id overflow"`. -/
  | stackIdOverflow
  /-- `"No coinbase stack-with-state-hash to pop"`. -/
  | noStackToPop
deriving DecidableEq, Repr

variable (depth : Nat)

/-- `max_coinbase_stack_count`. -/
def maxCoinbaseStackCount : Nat := 2 ^ depth

/-- `Stack_id.incr_by_one`, where an `int` has 63 bits. -/
def incrByOne (t : StackId) : Outcome Error StackId :=
  if t + 1 < 2 ^ 62 then .ok (t + 1) else .error .stackIdOverflow

/-- `create`. -/
def create (digests : StackDigests) (depth : Nat) : PendingCoinbase where
  tree := (List.range (maxCoinbaseStackCount depth)).foldl
    (fun t key => t.insert key (Stack.empty digests)) ∅
  posList := []
  newPos := 0

variable (t : PendingCoinbase)

/-- `get_stack` at the index that `find_index` returns. -/
def getStack (key : StackId) : Outcome Error Stack :=
  Outcome.okOr t.tree[key]? (.notFound key)

/-- `next_index`. -/
def nextIndex (t : PendingCoinbase) : Outcome Error StackId :=
  if t.newPos = maxCoinbaseStackCount depth - 1 then .ok 0 else incrByOne t.newPos

/-- `incr_index`. -/
def incrIndex (t : PendingCoinbase) (isNewStack : Bool) : Outcome Error PendingCoinbase :=
  if isNewStack then do
    let newPos ← nextIndex depth t
    return { t with posList := t.newPos :: t.posList, newPos }
  else return t

/-- `set_stack`. -/
def setStack (t : PendingCoinbase) (key : StackId) (stack : Stack) (isNewStack : Bool) :
    Outcome Error PendingCoinbase :=
  if t.tree.contains key then incrIndex depth { t with tree := t.tree.insert key stack } isNewStack
  else .error (.notFound key)

/-- `latest_stack_id`. -/
def latestStackId (isNewStack : Bool) : StackId :=
  if isNewStack then t.newPos else t.posList.head?.getD 0

/-- `current_stack`. -/
def currentStack : Outcome Error Stack := t.getStack (t.posList.head?.getD 0)

/-- `latest_stack`. A new one starts with the state of the current one. -/
def latestStack (isNewStack : Bool) : Outcome Error Stack := do
  let res ← t.getStack (t.latestStackId isNewStack)
  if isNewStack then do
    let prevStack ← t.currentStack
    return { res with state := StateStack.create prevStack.state.curr }
  else return res

/-- `remove_oldest_stack_id`. -/
def removeOldestStackId (t : List StackId) : Outcome Error (StackId × List StackId) :=
  match t.reverse with
  | [] => .error .noStackToPop
  | x :: xs => .ok (x, xs.reverse)

/-- `update_coinbase_stack`. -/
def updateCoinbaseStack (t : PendingCoinbase) (stack : Stack) (isNewStack : Bool) : Outcome Error PendingCoinbase := do
  let key := t.latestStackId isNewStack
  let _ ← t.getStack key
  setStack depth t key stack isNewStack

/-- `remove_coinbase_stack`. -/
def removeCoinbaseStack (digests : StackDigests) (depth : Nat) (t : PendingCoinbase) :
    Outcome Error (Stack × PendingCoinbase) := do
  let (oldestStack, remaining) ← removeOldestStackId t.posList
  let stack ← t.getStack oldestStack
  let t' ← setStack depth t oldestStack (Stack.empty digests) false
  return (stack, { t' with posList := remaining })

end PendingCoinbase

end MinaProtocol.StagedLedger
