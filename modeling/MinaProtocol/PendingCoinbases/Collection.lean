import MinaProtocol.MerkleLedger.SparseLedger
import MinaProtocol.StagedLedger.PendingCoinbase

/-!
# PendingCoinbases.Collection

Pending coinbases in their merkle tree (`pending_coinbase.ml`): a sparse ledger of all stacks, the ids of those
that are in use, the newest first, and the id of the next. When the collection is made every stack is added
with its path, and these paths have the bits of the id in reverse, so that an id is not the index of its stack.
-/

namespace MinaProtocol.PendingCoinbases

open AddressTree StagedLedger
open SparseLedger (PathElem Hashing)

/-- The texts of errors and exceptions. -/
inductive Error where
  | sparseLedger (e : SparseLedger.Error)
  /-- `"Sparse_ledger.find_index_exn"`: an id, and those that there are. -/
  | notIn (id : StackId) (ids : List StackId)
  /-- `"Stack_id overflow"`. -/
  | stackIdOverflow
  /-- `"No coinbase stack-with-state-hash to pop"`. -/
  | noStackToPop
  | createFailed
deriving DecidableEq

/-- `T.t`. -/
structure T (Hash : Type) where
  tree : SparseLedger.T Hash StackId Stack
  posList : List StackId
  newPos : StackId
deriving DecidableEq

/-- `try_with` of a function of sparse ledgers. -/
def tryWith {A : Type} : Except SparseLedger.Error A → Outcome Error A
  | .error e => .error (.sparseLedger e)
  | .ok a => .ok a

/-- What raises, where it is not caught. -/
def okExn {A ε : Type} : Except ε A → Outcome Error A
  | .error _ => .raise
  | .ok a => .ok a

/-- `max_coinbase_stack_count`. `Int.pow` raises when the power is no `int` of 63 bits. -/
def maxCoinbaseStackCount (depth : Nat) : Outcome Error Nat :=
  if 2 ^ depth < 2 ^ 62 then .ok (2 ^ depth) else .raise

/-- `Stack_id.incr_by_one`. -/
def incrByOne (t : StackId) : Outcome Error StackId := if t + 1 < 2 ^ 62 then .ok (t + 1) else .error .stackIdOverflow

section Operations

variable {Hash : Type} (hashing : Hashing Hash Stack) (digests : StackDigests)

/-! ### An empty collection -/

/-- `hash_at_level`, which keeps the hashes that it has made. -/
def hashAtLevel : Nat → Hash
  | 0 => hashing.dataHash (Stack.empty digests)
  | i + 1 => hashing.merge i (hashAtLevel i) (hashAtLevel i)

/-- `create_path`, where the source counts the heights that are left from `depth - 1` to below zero. -/
def createPath : Nat → List (PathElem Hash) → Nat → List (PathElem Hash)
  | 0, path, _ => path
  | height + 1, path, key =>
    let hash := hashAtLevel hashing digests height
    createPath height ((if key % 2 = 0 then .left hash else .right hash) :: path) (key / 2)

/-- `make_tree`, by how many keys are left up to the last one. -/
def makeTree (depth : Nat) : Nat → SparseLedger.T Hash StackId Stack → StackId → Outcome Error (SparseLedger.T Hash StackId Stack)
  | 0, t, _ => .ok t
  | left + 1, t, key => do
    let path := createPath hashing digests depth [] key
    let t ← okExn (SparseLedger.addPath hashing t path key (Stack.empty digests))
    match incrByOne key with
    | .ok key => makeTree depth left t key
    | _ => .raise

variable (depth : Nat)

/-- `create_exn'`. -/
def createExn' : Outcome Error (T Hash) := do
  let rootHash := hashAtLevel hashing digests depth
  let count ← maxCoinbaseStackCount depth
  let tree ← makeTree hashing digests depth count (SparseLedger.ofHash depth rootHash) 0
  return { tree, posList := [], newPos := 0 }

/-- `create`. -/
def create (depth : Nat) : Outcome Error (T Hash) := (createExn' hashing digests depth).tryWith .createFailed

/-! ### Reading -/

variable (t : T Hash)

def merkleRoot : Hash := SparseLedger.merkleRoot hashing t.tree

def getStack (index : Nat) : Outcome Error Stack := tryWith (SparseLedger.getExn t.tree index)

def path (index : Nat) : Outcome Error (List (PathElem Hash)) :=
  tryWith (SparseLedger.pathExn hashing t.tree index)

/-- `find_index`, with `Sparse_ledger.find_index_exn`. -/
def findIndex (key : StackId) : Outcome Error Nat :=
  Outcome.okOr (t.tree.indexes.lookup key) (.notIn key (t.tree.indexes.map Prod.fst))

def nextIndex (t : T Hash) : Outcome Error StackId := do
  let count ← maxCoinbaseStackCount depth
  if t.newPos = count - 1 then .ok 0 else incrByOne t.newPos

def nextStackId (t : T Hash) (isNewStack : Bool) : Outcome Error StackId :=
  if isNewStack then nextIndex depth t else .ok t.newPos

def latestStackId (isNewStack : Bool) : StackId :=
  if isNewStack then t.newPos
  else
    match t.posList.head? with
    | some x => x
    | none => 0

def currStackId : Option StackId := t.posList.head?

def currentStack : Outcome Error Stack := do
  let prevStackId := (currStackId t).getD 0
  let index ← findIndex t prevStackId
  getStack t index

def latestStack (isNewStack : Bool) : Outcome Error Stack := do
  let key := latestStackId t isNewStack
  let index ← findIndex t key
  let res ← getStack t index
  if isNewStack then do
    let prevStack ← currentStack t
    return { res with state := StateStack.create prevStack.state.curr }
  else return res

def oldestStackId : Option StackId := t.posList.getLast?

def oldestStack : Outcome Error Stack := do
  let key := (oldestStackId t).getD 0
  let index ← findIndex t key
  getStack t index

/-! ### Writing -/

def incrIndex (t : T Hash) (isNewStack : Bool) : Outcome Error (T Hash) :=
  if isNewStack then do
    let newPos ← nextIndex depth t
    return { t with posList := t.newPos :: t.posList, newPos }
  else return t

def setStack (t : T Hash) (index : Nat) (stack : Stack) (isNewStack : Bool) : Outcome Error (T Hash) := do
  let tree ← tryWith (SparseLedger.setExn hashing t.tree index stack)
  incrIndex depth { t with tree } isNewStack

def removeOldestStackId (t : List StackId) : Outcome Error (StackId × List StackId) :=
  match t.reverse with
  | [] => .error .noStackToPop
  | x :: xs => .ok (x, xs.reverse)

/-- `update_stack'`. -/
def updateStack' (t : T Hash) (f : Stack → Stack) (isNewStack : Bool) : Outcome Error (T Hash) := do
  let key := latestStackId t isNewStack
  let stackIndex ← findIndex t key
  let stackBefore ← getStack t stackIndex
  let stackAfter := f stackBefore
  setStack hashing depth t stackIndex stackAfter isNewStack

def addCoinbase (t : T Hash) (coinbase : Coinbase) (isNewStack : Bool) : Outcome Error (T Hash) :=
  updateStack' hashing depth t (Stack.pushCoinbase digests coinbase) isNewStack

def addState (t : T Hash) (stateBodyHash : Nat) (globalSlot : GlobalSlot) (isNewStack : Bool) :
    Outcome Error (T Hash) :=
  updateStack' hashing depth t (Stack.pushState digests stateBodyHash globalSlot) isNewStack

def updateCoinbaseStack (t : T Hash) (stack : Stack) (isNewStack : Bool) : Outcome Error (T Hash) :=
  updateStack' hashing depth t (fun _ => stack) isNewStack

def removeCoinbaseStack (t : T Hash) : Outcome Error (Stack × T Hash) := do
  let (oldestStack, remaining) ← removeOldestStackId t.posList
  let stackIndex ← findIndex t oldestStack
  let stack ← getStack t stackIndex
  let t' ← setStack hashing depth t stackIndex (Stack.empty digests) false
  return (stack, { t' with posList := remaining })

end Operations

/-! ### The index of a stack -/

section Tree

variable {Hash : Type} {hashing : Hashing Hash Stack} {digests : StackDigests} {depth key : Nat}

/-- The index of the stack with an id: the id with its bits in reverse. -/
def indexOfId (depth : Nat) (key : StackId) : Nat := index (ofIndex depth key).reverse

theorem ofIndex_indexOfId : ofIndex depth (indexOfId depth key) = (ofIndex depth key).reverse := by
  have hindex := ofIndex_index (a := (ofIndex depth key).reverse)
  rwa [List.length_reverse, length_ofIndex] at hindex

theorem indexOfId_lt : indexOfId depth key < 2 ^ depth := by
  have hlt := index_lt (ofIndex depth key).reverse
  rwa [List.length_reverse, length_ofIndex] at hlt

theorem indexOfId_indexOfId (hkey : key < 2 ^ depth) : indexOfId depth (indexOfId depth key) = key := by
  rw [indexOfId, ofIndex_indexOfId, List.reverse_reverse, index_ofIndex hkey]

/-- The ids with their indexes, as they are in the tree. -/
def allIds (depth : Nat) : List (StackId × Nat) :=
  ((List.range (2 ^ depth)).map fun key => (key, indexOfId depth key)).reverse

/-- The tree of these stacks, by id. -/
def treeOf (hashing : Hashing Hash Stack) (depth : Nat) (held : StackId → Stack) : SparseLedger.T Hash StackId Stack :=
  SparseLedger.sparse hashing (fun index => held (indexOfId depth index)) depth (allIds depth)

/-- The root of the merkle tree of these stacks, by id. -/
def rootOf (hashing : Hashing Hash Stack) (depth : Nat) (held : StackId → Stack) : Hash :=
  SparseLedger.fullRoot hashing (fun index => held (indexOfId depth index)) depth

variable {held held' : StackId → Stack} {t : T Hash} {stack : Stack}

theorem mem_allIds (hkey : key < 2 ^ depth) : indexOfId depth key ∈ (allIds depth).map Prod.snd := by
  rw [allIds, List.map_reverse, List.map_map, List.mem_reverse]
  exact List.mem_map_of_mem (f := Prod.snd ∘ fun key => (key, indexOfId depth key)) (List.mem_range.2 hkey)

theorem allIds_lt : ∀ p ∈ allIds depth, p.2 < 2 ^ depth := by
  intro p hp
  rw [allIds, List.mem_reverse] at hp
  obtain ⟨key, -, rfl⟩ := List.mem_map.1 hp
  exact indexOfId_lt

theorem lookup_map_of_mem {A B : Type} [BEq A] [LawfulBEq A] {f : A → B} {keys : List A} {key : A} (hkey : key ∈ keys) :
    (keys.map fun key => (key, f key)).lookup key = some (f key) := by
  induction keys with
  | nil => exact absurd hkey List.not_mem_nil
  | cons key' keys ih =>
    rw [List.map_cons, List.lookup_cons]
    by_cases heq : key = key'
    · simp [heq]
    · simpa [beq_eq_false_iff_ne.2 heq] using ih ((List.mem_cons.1 hkey).resolve_left heq)

variable (htree : t.tree = treeOf hashing depth held) {a : Addr}

include htree

theorem findIndex_treeOf (hkey : key < 2 ^ depth) : findIndex t key = .ok (indexOfId depth key) := by
  have hlookup : (allIds depth).lookup key = some (indexOfId depth key) := by
    rw [allIds, ← List.map_reverse]
    exact lookup_map_of_mem (List.mem_reverse.2 (List.mem_range.2 hkey))
  rw [findIndex, Outcome.okOr_eq_ok, htree]
  exact hlookup

theorem getStack_treeOf (hkey : key < 2 ^ depth) : getStack t (indexOfId depth key) = .ok (held key) := by
  have hget : SparseLedger.getExn (treeOf hashing depth held) (indexOfId depth key) = .ok (held (indexOfId depth (indexOfId depth key))) :=
    (SparseLedger.simulates_sparse allIds_lt).getExn _ (mem_allIds hkey)
  rw [getStack, htree, hget, tryWith, indexOfId_indexOfId hkey]

omit htree

theorem treeOf_congr (hheld : ∀ key < 2 ^ depth, held key = held' key) :
    treeOf hashing depth held = treeOf hashing depth held' :=
  SparseLedger.sparse_congr fun _ _ => hheld _ indexOfId_lt

theorem setExn_treeOf (hkey : key < 2 ^ depth) :
    SparseLedger.setExn hashing (treeOf hashing depth held) (indexOfId depth key) stack =
      .ok (treeOf hashing depth (Function.update held key stack)) := by
  rw [treeOf, SparseLedger.setExn_sparse allIds_lt (mem_allIds hkey), treeOf]
  refine congrArg Except.ok (SparseLedger.sparse_congr fun index hindex => ?_)
  by_cases heq : index = indexOfId depth key
  · rw [heq, indexOfId_indexOfId hkey, Function.update_self, Function.update_self]
  · have hne : indexOfId depth index ≠ key := by
      rintro rfl
      exact heq (indexOfId_indexOfId hindex).symm
    rw [Function.update_of_ne heq, Function.update_of_ne hne]

include htree

theorem merkleRoot_treeOf : merkleRoot hashing t = rootOf hashing depth held := by
  rw [merkleRoot, htree]
  exact SparseLedger.hash_pruned

theorem setStack_treeOf {isNewStack : Bool} (hkey : key < 2 ^ depth) :
    setStack hashing depth t (indexOfId depth key) stack isNewStack =
      incrIndex depth { t with tree := treeOf hashing depth (Function.update held key stack) } isNewStack := by
  rw [setStack, htree, setExn_treeOf hkey]
  rfl

omit htree

/-! ### The tree of an empty collection -/

theorem nodeHash_empty {height : Nat} :
    SparseLedger.nodeHash hashing (fun _ => Stack.empty digests) height a = hashAtLevel hashing digests height := by
  induction height generalizing a with
  | zero => rfl
  | succ height ih => exact congrArg₂ (hashing.merge height) ih ih

theorem createPath_eq {n : Nat} {tail : List (PathElem Hash)} : createPath hashing digests n tail key =
      SparseLedger.pathTo hashing (fun _ => Stack.empty digests) SparseLedger.elem 0 (ofIndex n key).reverse a ++ tail := by
  induction n generalizing tail key a with
  | zero => rfl
  | succ n ih =>
    rw [createPath, ofIndex, List.reverse_cons, SparseLedger.pathTo_append, List.length_reverse, length_ofIndex, Nat.zero_add,
      List.append_assoc, ← ih]
    refine congrArg (fun e => createPath hashing digests n (e :: tail) (key / 2)) ?_
    rw [nodeHash_empty, nodeHash_empty, SparseLedger.elem]
    by_cases heven : key % 2 = 0
    · simp [heven]
    · simp [Nat.mod_two_ne_zero.1 heven]

theorem makeTree_eq (hcount : 2 ^ depth < 2 ^ 62) {left key : Nat} {included : List (StackId × Nat)}
    (hkey : key + left = 2 ^ depth) :
    makeTree hashing digests depth left (SparseLedger.sparse hashing (fun _ => Stack.empty digests) depth included) key =
      .ok (SparseLedger.sparse hashing (fun _ => Stack.empty digests) depth
        (((List.range' key left).map fun key => (key, indexOfId depth key)).reverse ++ included)) := by
  induction left generalizing key included with
  | zero => rfl
  | succ left ih =>
    have hpath : createPath hashing digests depth [] key =
        SparseLedger.merklePath hashing (fun _ => Stack.empty digests) depth (indexOfId depth key) := by
      rw [createPath_eq, List.append_nil, SparseLedger.merklePath, ofIndex_indexOfId]
    have hincr : incrByOne key = .ok (key + 1) := if_pos (show key + 1 < 2 ^ 62 by omega)
    have hadd : SparseLedger.addPath hashing (SparseLedger.sparse hashing (fun _ => Stack.empty digests) depth included)
        (createPath hashing digests depth [] key) key (Stack.empty digests) = _ :=
      hpath ▸ SparseLedger.addPath_sparse indexOfId_lt
    rw [makeTree, hadd, okExn, Outcome.ok_bind, hincr]
    dsimp only
    rw [ih (by omega), List.range'_succ, List.map_cons, List.reverse_cons, List.append_assoc]
    rfl

/-- **An empty collection** has an empty stack for each id, if there are not too many of them. -/
theorem createExn'_eq : createExn' hashing digests depth =
    if 2 ^ depth < 2 ^ 62 then .ok ⟨treeOf hashing depth fun _ => Stack.empty digests, [], 0⟩ else .raise := by
  rw [createExn', maxCoinbaseStackCount]
  split_ifs with hcount
  · have hstart : SparseLedger.ofHash depth (hashAtLevel hashing digests depth) =
        SparseLedger.sparse hashing (fun _ => Stack.empty digests) depth ([] : List (StackId × Nat)) := by
      have hnone : ¬ Above [] [] := by simp [Above]
      rw [SparseLedger.sparse, List.map_nil, SparseLedger.pruned_of_not hnone, nodeHash_empty]
      rfl
    rw [Outcome.ok_bind, hstart, makeTree_eq hcount (Nat.zero_add _), List.append_nil, ← List.range_eq_range']
    rfl
  · rfl

end Tree

end MinaProtocol.PendingCoinbases
