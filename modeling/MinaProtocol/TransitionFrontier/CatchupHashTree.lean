import MinaProtocol.Lib.Coverage
import MinaProtocol.Lib.ParentTree
import Std.Data.ExtTreeMap
import Mathlib.Data.Finset.Sort
import Mathlib.Data.Set.Finite.Lattice

/-!
# TransitionFrontier.CatchupHashTree

The hash tree of catchup: the nodes that have a breadcrumb, and those that are part of catchup jobs. The children of
a node are those that name it as their parent, a job is only kept with nodes that need it, and after a root
transition what remains is below the root.

A new node is not given the job that adds it. So the tree tracks what is missing only as long as no node is added.
-/

namespace MinaProtocol.CatchupHashTree

open Std

scoped instance instTransOrdHash {Hash : Type} [LinearOrder Hash] : TransOrd Hash := inferInstance

/-! ### The tree -/

/-- `Node.State.t`. -/
inductive State (Job : Type) where
  | haveBreadcrumb
  | partOfCatchups (ids : Finset Job)

structure Node (Hash Job : Type) where
  parent : Hash
  state : State Job

/-- `Catchup_hash_tree.t`. -/
structure T (Hash Job : Type) [LinearOrder Hash] where
  nodes : ExtTreeMap Hash (Node Hash Job)
  tips : Finset Hash
  children : ExtTreeMap Hash (Finset Hash)
  root : Hash

variable {Hash Job : Type} [LinearOrder Hash]

/-- A breadcrumb is above its parent: the hash of a block is made from that of its parent. -/
structure Breadcrumb (height : Hash → Nat) where
  stateHash : Hash
  parentHash : Hash
  above : height parentHash < height stateHash

variable {height : Hash → Nat}

def create (root : Breadcrumb height) : T Hash Job where
  nodes := (∅ : ExtTreeMap Hash (Node Hash Job)).insert root.stateHash ⟨root.parentHash, .haveBreadcrumb⟩
  tips := ∅
  children := (∅ : ExtTreeMap Hash (Finset Hash)).insert root.parentHash {root.stateHash}
  root := root.stateHash

namespace T

variable (t : T Hash Job)

def childrenOf (h : Hash) : Finset Hash := t.children[h]?.getD ∅

def parentOf (h : Hash) : Option Hash := t.nodes[h]?.map (·.parent)

def stateOf (h : Hash) : Option (State Job) := t.nodes[h]?.map (·.state)

/-- How many nodes without a breadcrumb there are from a node on, going from parent to parent. -/
def missingLength (t : T Hash Job) : Nat → Nat → Node Hash Job → Option Nat
  | fuel, acc, node =>
    match node.state with
    | .haveBreadcrumb => some acc
    | .partOfCatchups _ =>
      match t.nodes[node.parent]?, fuel with
      | none, _ => some acc
      | some _, 0 => none
      | some parent, fuel + 1 => missingLength t fuel (acc + 1) parent

def maxCatchupChainLength (fuel : Nat) (t : T Hash Job) : Option Nat :=
  (t.tips.sort (· ≤ ·)).foldlM (fun acc tip => do
    let node ← t.nodes[tip]?
    let length ← t.missingLength fuel 0 node
    some (max acc length)) 0

def addChild (children : ExtTreeMap Hash (Finset Hash)) (h parent : Hash) : ExtTreeMap Hash (Finset Hash) :=
  children.insert parent (insert h (children[parent]?.getD ∅))

def breadcrumbAdded (b : Breadcrumb height) : T Hash Job :=
  match t.nodes[b.stateHash]? with
  | none =>
    -- new child
    { t with
      nodes := t.nodes.insert b.stateHash ⟨b.parentHash, .haveBreadcrumb⟩
      children := addChild t.children b.stateHash b.parentHash
      tips := t.tips.erase b.stateHash }
  | some x =>
    { t with
      nodes := t.nodes.insert b.stateHash { x with state := .haveBreadcrumb }
      tips := t.tips.erase b.stateHash }

def removeChild (children : ExtTreeMap Hash (Finset Hash)) (h parent : Hash) : ExtTreeMap Hash (Finset Hash) :=
  match children[parent]? with
  | none => children
  | some s => if s.erase h = ∅ then children.erase parent else children.insert parent (s.erase h)

def removeNode (h : Hash) : T Hash Job :=
  match t.nodes[h]? with
  | none => { t with tips := t.tips.erase h }
  | some node =>
    { t with
      tips := t.tips.erase h
      nodes := t.nodes.erase h
      children := removeChild t.children h node.parent }

/-- The loop of `prune`: what can be reached from the stack. -/
def reach (children : Hash → Finset Hash) : Nat → List Hash → Finset Hash → Option (Finset Hash)
  | _, [], keep => some keep
  | 0, _ :: _, _ => none
  | fuel + 1, next :: stack, keep => reach children fuel (((children next).sort (· ≤ ·)).reverse ++ stack) (insert next keep)

/-- Remove everything not reachable from the root. -/
def prune (fuel : Nat) (t : T Hash Job) : Option (T Hash Job) := do
  let keep ← reach t.childrenOf fuel [t.root] ∅
  some (t.nodes.keys.foldl (fun t h => if h ∈ keep then t else t.removeNode h) t)

/-- The new root has a breadcrumb, if it is there. -/
def setRoot (h : Hash) : T Hash Job :=
  match t.nodes[h]? with
  | none => t
  | some x => { t with root := h, nodes := t.nodes.insert h { x with state := .haveBreadcrumb } }

end T

/-! ### What changes -/

variable {t : T Hash Job} {h p x : Hash} {keep : Finset Hash}

section Tables

variable {V : Type}

theorem lookup_insert (m : ExtTreeMap Hash V) (k : Hash) (v : V) (x : Hash) :
    (m.insert k v)[x]? = if k = x then some v else m[x]? := by
  simp only [ExtTreeMap.getElem?_insert, Std.compare_eq_iff_eq]

theorem lookup_insert_cases {m : ExtTreeMap Hash V} {k x : Hash} {v w : V} (h : (m.insert k v)[x]? = some w) :
    k = x ∧ v = w ∨ m[x]? = some w := by
  rw [lookup_insert] at h
  by_cases hk : k = x
  · rw [if_pos hk] at h
    exact .inl ⟨hk, Option.some.inj h⟩
  · rw [if_neg hk] at h
    exact .inr h

theorem lookup_erase (m : ExtTreeMap Hash V) (k x : Hash) : (m.erase k)[x]? = if k = x then none else m[x]? := by
  simp only [ExtTreeMap.getElem?_erase, Std.compare_eq_iff_eq]

namespace T

theorem mem_nodes_iff : h ∈ t.nodes ↔ t.nodes[h]? ≠ none := by
  rw [ExtTreeMap.mem_iff_isSome_getElem?, Option.isSome_iff_ne_none]

theorem addChild_getD (children : ExtTreeMap Hash (Finset Hash)) (h parent p : Hash) :
    (addChild children h parent)[p]?.getD ∅ = if parent = p then insert h (children[p]?.getD ∅) else children[p]?.getD ∅ := by
  rw [addChild, lookup_insert]
  by_cases heq : parent = p
  · rw [if_pos heq, if_pos heq, heq, Option.getD_some]
  · rw [if_neg heq, if_neg heq]

theorem removeChild_getD (children : ExtTreeMap Hash (Finset Hash)) (h parent p : Hash) :
    (removeChild children h parent)[p]?.getD ∅ = if parent = p then Finset.erase (children[p]?.getD ∅) h else children[p]?.getD ∅ := by
  rw [removeChild]
  by_cases heq : parent = p
  · rw [if_pos heq, heq]
    cases hs : children[p]? with
    | none => simp [hs]
    | some s =>
      by_cases hempty : s.erase h = ∅
      · simp [hempty]
      · simp [hempty]
  · rw [if_neg heq]
    cases hs : children[parent]? with
    | none => rfl
    | some s =>
      by_cases hempty : s.erase h = ∅
      · simp [hempty, lookup_erase, heq]
      · simp [hempty, lookup_insert, heq]

theorem nodes_removeNode (t : T Hash Job) (h x : Hash) : (t.removeNode h).nodes[x]? = if h = x then none else t.nodes[x]? := by
  rw [removeNode]
  cases hh : t.nodes[h]? with
  | none =>
    by_cases heq : h = x
    · rw [if_pos heq, ← heq]
      exact hh
    · rw [if_neg heq]
  | some node => exact lookup_erase t.nodes h x

theorem parentOf_removeNode (t : T Hash Job) (h x : Hash) : (t.removeNode h).parentOf x = if h = x then none else t.parentOf x := by
  rw [parentOf, nodes_removeNode, apply_ite (Option.map _)]
  rfl

theorem root_removeNode (t : T Hash Job) (h : Hash) : (t.removeNode h).root = t.root := by
  rw [removeNode]
  cases t.nodes[h]? <;> rfl

theorem tips_removeNode (t : T Hash Job) (h : Hash) : (t.removeNode h).tips = t.tips.erase h := by
  rw [removeNode]
  cases t.nodes[h]? <;> rfl

theorem childrenOf_removeNode (t : T Hash Job) (h p : Hash) :
    (t.removeNode h).childrenOf p = if t.parentOf h = some p then (t.childrenOf p).erase h else t.childrenOf p := by
  rw [removeNode, parentOf]
  cases hh : t.nodes[h]? with
  | none => rfl
  | some node =>
    change (removeChild t.children h node.parent)[p]?.getD ∅ = _
    rw [removeChild_getD]
    by_cases heq : node.parent = p
    · rw [if_pos heq, if_pos (by rw [Option.map_some, heq])]
      rfl
    · rw [if_neg heq, if_neg (by simpa using heq)]
      rfl

variable (hs : List Hash)

theorem nodes_removeNodes (t : T Hash Job) (x : Hash) :
    (hs.foldl removeNode t).nodes[x]? = if x ∈ hs then none else t.nodes[x]? := by
  induction hs generalizing t with
  | nil => simp
  | cons h hs ih =>
    rw [List.foldl_cons, ih, nodes_removeNode]
    by_cases hx : x ∈ hs
    · rw [if_pos hx, if_pos (List.mem_cons_of_mem _ hx)]
    · by_cases heq : h = x
      · rw [if_neg hx, if_pos heq, if_pos (by simp [heq])]
      · rw [if_neg hx, if_neg heq, if_neg (by simpa [hx] using Ne.symm heq)]

theorem root_removeNodes (t : T Hash Job) : (hs.foldl removeNode t).root = t.root := by
  induction hs generalizing t with
  | nil => rfl
  | cons h hs ih => rw [List.foldl_cons, ih, root_removeNode]

theorem tips_removeNodes (htips : t.tips = ∅) : (hs.foldl removeNode t).tips = ∅ := by
  induction hs generalizing t with
  | nil => exact htips
  | cons h hs ih =>
    refine ih ?_
    rw [tips_removeNode, htips, Finset.erase_empty]

/-- What `prune` removes, with what it keeps. -/
theorem foldl_keep (t : T Hash Job) :
    hs.foldl (fun t h => if h ∈ keep then t else t.removeNode h) t = (hs.filter (· ∉ keep)).foldl removeNode t := by
  induction hs generalizing t with
  | nil => rfl
  | cons h hs ih =>
    rw [List.foldl_cons, ih]
    by_cases hh : h ∈ keep
    · rw [if_pos hh, List.filter_cons_of_neg (by simpa using hh)]
    · rw [if_neg hh, List.filter_cons_of_pos (by simpa using hh), List.foldl_cons]

end T

end Tables

section Jobs

variable [DecidableEq Job]

/-- A node once a job has failed. -/
def Node.without (job : Job) (node : Node Hash Job) : Node Hash Job :=
  match node.state with
  | .haveBreadcrumb => node
  | .partOfCatchups s => { node with state := .partOfCatchups (s.erase job) }

/-- No job is left for the node. -/
def Node.isUnused (node : Node Hash Job) : Bool :=
  match node.state with
  | .haveBreadcrumb => false
  | .partOfCatchups s => s = ∅

namespace T

def add (t : T Hash Job) (h parent : Hash) (job : Job) : T Hash Job :=
  match t.nodes[h]? with
  | some node =>
    match node.state with
    | .haveBreadcrumb => t
    | .partOfCatchups s => { t with nodes := t.nodes.insert h { node with state := .partOfCatchups (insert job s) } }
  | none =>
    { t with
      tips := (if h ∈ t.children then t.tips else insert h t.tips).erase parent
      children := addChild t.children h parent
      nodes := t.nodes.insert h ⟨parent, .partOfCatchups ∅⟩ }

def catchupFailed (t : T Hash Job) (job : Job) : T Hash Job :=
  let nodes := t.nodes.map fun _ node => node.without job
  let toRemove := ((nodes.toList.filter fun p => p.2.isUnused).map (·.1)).reverse
  toRemove.foldl removeNode { t with nodes }

end T

/-! ### Runs -/

/-- The operations; the last two are the diffs that the frontier applies. -/
inductive Op (Job : Type) (height : Hash → Nat) where
  | add (h parent : Hash) (job : Job)
  | catchupFailed (job : Job)
  | breadcrumbAdded (b : Breadcrumb height)
  | rootTransitioned (newRoot : Hash) (garbage : List Hash)

/-- One operation; the loop of `prune` may need more steps than it is given. -/
def step (fuel : Nat) (t : T Hash Job) : Op Job height → Option (T Hash Job)
  | .add h parent job => some (t.add h parent job)
  | .catchupFailed job => some (t.catchupFailed job)
  | .breadcrumbAdded b => some (t.breadcrumbAdded b)
  | .rootTransitioned newRoot garbage => ((garbage.foldl T.removeNode t).setRoot newRoot).prune fuel

/-- The operation returns. -/
def Steps (t : T Hash Job) (op : Op Job height) (t' : T Hash Job) : Prop := ∃ fuel, step fuel t op = some t'

/-- After the operations of the list, the tree is `t`. -/
inductive Run (root : Breadcrumb height) : List (Op Job height) → T Hash Job → Prop where
  | create : Run root [] (create root)
  | step {ops : List (Op Job height)} {t t' : T Hash Job} {op : Op Job height} : Run root ops t → Steps t op t' → Run root (ops ++ [op]) t'

end Jobs

/-! ### What is tracked -/

/-- The job added the node, and has not failed since. -/
def Needs (log : List (Op Job height)) (h : Hash) (job : Job) : Prop :=
  ∃ before parent after, log = before ++ .add h parent job :: after ∧ .catchupFailed job ∉ after

/-- The node has no breadcrumb. -/
def Missing (t : T Hash Job) (h : Hash) : Prop := ∃ ids, t.stateOf h = some (.partOfCatchups ids)

/-- Nodes without a breadcrumb, each the parent of the one before. -/
def MissingChain (t : T Hash Job) : List Hash → Prop
  | [] => True
  | [h] => Missing t h
  | h :: p :: chain => Missing t h ∧ t.parentOf h = some p ∧ MissingChain t (p :: chain)

/-- The tree is that of the operations. -/
structure Tracks (log : List (Op Job height)) (t : T Hash Job) : Prop where
  jobs : ∀ h ids, t.stateOf h = some (.partOfCatchups ids) → ∀ job, job ∈ ids ↔ Needs log h job
  children : ∀ p h, h ∈ t.childrenOf p ↔ t.parentOf h = some p
  tips : ∀ h, h ∈ t.tips ↔ Missing t h ∧ t.childrenOf h = ∅
  chain : ∃ fuel n, t.maxCatchupChainLength fuel = some n ∧ (∃ chain, MissingChain t chain ∧ chain.length = n) ∧
    ∀ chain, MissingChain t chain → chain.length ≤ n

/-- The jobs that are kept with a node need it. -/
def JobsNeed (log : List (Op Job height)) (t : T Hash Job) : Prop :=
  ∀ h ids, t.stateOf h = some (.partOfCatchups ids) → ∀ job ∈ ids, Needs log h job

/-- Every node is the root or below it. -/
def BelowRoot (t : T Hash Job) : Prop := ∀ h ∈ t.nodes, ParentTree.Below t.parentOf t.root h

variable [DecidableEq Job]

/-- What an operation removes. -/
structure StepTracks (log : List (Op Job height)) (t : T Hash Job) (op : Op Job height) (t' : T Hash Job) : Prop where
  failed : ∀ job, op = .catchupFailed job → ∀ h, h ∈ t.nodes ∧ h ∉ t'.nodes ↔
    Missing t h ∧ Needs log h job ∧ ∀ job', Needs log h job' → job' = job
  rooted : ∀ newRoot garbage, op = .rootTransitioned newRoot garbage → BelowRoot t'

/-- All operations return, and the tree is that of the operations all along. -/
def Follows (log : List (Op Job height)) (t : T Hash Job) : List (Op Job height) → Prop
  | [] => Tracks log t
  | op :: ops => Tracks log t ∧ ∃ t', Steps t op t' ∧ StepTracks log t op t' ∧ Follows (log ++ [op]) t' ops

/-- Only hashes that are nodes already are added. -/
def AddsNoNode (t : T Hash Job) : List (Op Job height) → Prop
  | [] => True
  | op :: ops => (∀ h parent job, op = .add h parent job → h ∈ t.nodes) ∧ ∀ t', Steps t op t' → AddsNoNode t' ops


namespace T

theorem add_none (hh : t.nodes[h]? = none) (parent : Hash) (job : Job) : t.add h parent job =
      { t with
        tips := (if h ∈ t.children then t.tips else insert h t.tips).erase parent
        children := addChild t.children h parent
        nodes := t.nodes.insert h ⟨parent, .partOfCatchups ∅⟩ } := by
  rw [add, hh]

variable {node : Node Hash Job}

theorem add_haveBreadcrumb (hh : t.nodes[h]? = some node)
    (hstate : node.state = .haveBreadcrumb) (parent : Hash) (job : Job) : t.add h parent job = t := by
  simp only [add, hh, hstate]

theorem add_partOfCatchups {s : Finset Job} (hh : t.nodes[h]? = some node)
    (hstate : node.state = .partOfCatchups s) (parent : Hash) (job : Job) :
    t.add h parent job = { t with nodes := t.nodes.insert h { node with state := .partOfCatchups (insert job s) } } := by
  simp only [add, hh, hstate]

theorem nodes_failed (t : T Hash Job) (job : Job) (x : Hash) :
    (t.catchupFailed job).nodes[x]? = (t.nodes[x]?.map (Node.without job)).filter (!·.isUnused) := by
  rw [catchupFailed, nodes_removeNodes]
  have hmap : (t.nodes.map fun _ node => node.without job)[x]? = t.nodes[x]?.map (Node.without job) := ExtTreeMap.getElem?_map
  have hmem : x ∈ (((t.nodes.map fun _ node => node.without job).toList.filter fun p => p.2.isUnused).map (·.1)).reverse ↔
      ∃ node, t.nodes[x]?.map (Node.without job) = some node ∧ node.isUnused = true := by
    simp only [List.mem_reverse, List.mem_map, List.mem_filter, Prod.exists, ExtTreeMap.mem_toList_iff_getElem?_eq_some,
      exists_and_right, exists_eq_right, hmap]
  simp only [hmem, hmap]
  cases hnode : t.nodes[x]?.map (Node.without job) with
  | none => simp
  | some node =>
    cases hunused : node.isUnused with
    | true => rw [if_pos ⟨node, rfl, hunused⟩, Option.filter_some_neg (by simp [hunused])]
    | false => rw [if_neg (by simp [hunused]), Option.filter_some_pos (by simp [hunused])]

end T

/-! ### Children and descendants -/

variable {t' : T Hash Job} {children : Hash → Finset Hash} {stack : List Hash}

section Children

omit [DecidableEq Job]

/-- The children of a node are the nodes that name it as their parent. -/
def ChildrenExact (t : T Hash Job) : Prop := ∀ p h, h ∈ t.childrenOf p ↔ t.parentOf h = some p

variable (hexact : ChildrenExact t) {keep' : Finset Hash} {fuel : Nat}

include hexact

theorem ChildrenExact.congr (hchildren : t'.children = t.children)
    (hparent : ∀ x, t'.parentOf x = t.parentOf x) : ChildrenExact t' := by
  intro p h
  have hsame : t'.childrenOf p = t.childrenOf p := by rw [T.childrenOf, hchildren, T.childrenOf]
  rw [hsame, hparent]
  exact hexact p h

theorem ChildrenExact.addChild (hnone : t.nodes[h]? = none) (hchildren : t'.children = T.addChild t.children h p)
    (hparent : ∀ x, t'.parentOf x = if h = x then some p else t.parentOf x) : ChildrenExact t' := by
  intro p' x
  have hnew : h ∉ t.childrenOf p' := fun hmem => by
    have hp := (hexact p' h).mp hmem
    rw [T.parentOf, hnone] at hp
    cases hp
  have hgetD : t'.childrenOf p' = if p = p' then insert h (t.childrenOf p') else t.childrenOf p' := by
    rw [T.childrenOf, hchildren, T.addChild_getD]
    rfl
  rw [hgetD, hparent]
  by_cases hx : h = x
  · rw [if_pos hx, ← hx]
    by_cases heq : p = p'
    · simp [heq]
    · simp [heq, hnew]
  · rw [if_neg hx, ← hexact p' x]
    by_cases heq : p = p'
    · rw [if_pos heq, Finset.mem_insert]
      exact or_iff_right (Ne.symm hx)
    · rw [if_neg heq]

theorem ChildrenExact.removeNode (h : Hash) : ChildrenExact (t.removeNode h) := by
  intro p x
  rw [T.childrenOf_removeNode, T.parentOf_removeNode]
  by_cases hx : h = x
  · rw [if_pos hx, ← hx]
    by_cases hp : t.parentOf h = some p
    · simp [hp]
    · rw [if_neg hp, hexact p h]
      simp [hp]
  · rw [if_neg hx]
    have hsame := hexact p x
    by_cases hp : t.parentOf h = some p
    · rw [if_pos hp, Finset.mem_erase, hsame]
      exact and_iff_right (Ne.symm hx)
    · rw [if_neg hp]
      exact hsame

theorem ChildrenExact.removeNodes (hs : List Hash) : ChildrenExact (hs.foldl T.removeNode t) := by
  induction hs generalizing t with
  | nil => exact hexact
  | cons h hs ih => exact ih (hexact.removeNode h)

omit hexact

theorem parentOf_setRoot (t : T Hash Job) (h x : Hash) : (t.setRoot h).parentOf x = t.parentOf x := by
  rw [T.setRoot]
  cases hh : t.nodes[h]? with
  | none => rfl
  | some node =>
    rw [T.parentOf, T.parentOf, lookup_insert]
    by_cases heq : h = x
    · rw [if_pos heq, ← heq, hh]
      rfl
    · rw [if_neg heq]

theorem children_setRoot (t : T Hash Job) (h : Hash) : (t.setRoot h).children = t.children := by
  rw [T.setRoot]
  cases t.nodes[h]? <;> rfl

include hexact

theorem ChildrenExact.setRoot (h : Hash) : ChildrenExact (t.setRoot h) :=
  hexact.congr (children_setRoot t h) (parentOf_setRoot t h)

theorem ChildrenExact.breadcrumbAdded (b : Breadcrumb height) : ChildrenExact (t.breadcrumbAdded b) := by
  rw [T.breadcrumbAdded]
  cases hb : t.nodes[b.stateHash]? with
  | none =>
    refine hexact.addChild hb rfl fun x => ?_
    rw [T.parentOf, lookup_insert, apply_ite (Option.map _)]
    rfl
  | some node =>
    refine hexact.congr rfl fun x => ?_
    rw [T.parentOf, T.parentOf, lookup_insert]
    by_cases heq : b.stateHash = x
    · rw [if_pos heq, ← heq, hb]
      rfl
    · rw [if_neg heq]

omit hexact

/-! ### Pruning -/

theorem reach_closed
    (hreach : T.reach children fuel stack keep = some keep') (hclosed : ∀ p ∈ keep, ∀ c ∈ children p, c ∈ keep ∨ c ∈ stack) :
    (∀ h, h ∈ keep ∨ h ∈ stack → h ∈ keep') ∧ ∀ p ∈ keep', ∀ c ∈ children p, c ∈ keep' := by
  induction fuel generalizing stack keep with
  | zero =>
    cases stack with
    | nil =>
      cases hreach
      simpa using hclosed
    | cons next stack => cases hreach
  | succ fuel ih =>
    cases stack with
    | nil =>
      cases hreach
      simpa using hclosed
    | cons next stack =>
      obtain ⟨hkept, hclosed'⟩ := ih hreach fun p hp c hc => by
        rcases Finset.mem_insert.mp hp with rfl | hp
        · exact Or.inr (List.mem_append_left _ (by simpa using hc))
        · rcases hclosed p hp c hc with hkeep | hstack
          · exact Or.inl (Finset.mem_insert_of_mem hkeep)
          · rcases List.mem_cons.mp hstack with rfl | hstack
            · exact Or.inl (Finset.mem_insert_self _ _)
            · exact Or.inr (List.mem_append_right _ hstack)
      refine ⟨fun h hh => ?_, hclosed'⟩
      rcases hh with hkeep | hstack
      · exact hkept h (Or.inl (Finset.mem_insert_of_mem hkeep))
      · rcases List.mem_cons.mp hstack with rfl | hstack
        · exact hkept _ (Or.inl (Finset.mem_insert_self _ _))
        · exact hkept h (Or.inr (List.mem_append_right _ hstack))

theorem reach_sound {good : Hash → Prop}
    (hreach : T.reach children fuel stack keep = some keep') (hchild : ∀ p c, good p → c ∈ children p → good c)
    (hkeep : ∀ h ∈ keep, good h) (hstack : ∀ h ∈ stack, good h) : ∀ h ∈ keep', good h := by
  induction fuel generalizing stack keep with
  | zero =>
    cases stack with
    | nil =>
      cases hreach
      exact hkeep
    | cons next stack => cases hreach
  | succ fuel ih =>
    cases stack with
    | nil =>
      cases hreach
      exact hkeep
    | cons next stack =>
      have hnext := hstack next List.mem_cons_self
      refine ih hreach (fun h hh => ?_) fun h hh => ?_
      · rcases Finset.mem_insert.mp hh with rfl | hh
        · exact hnext
        · exact hkeep h hh
      · rcases List.mem_append.mp hh with hh | hh
        · exact hchild next h hnext (by simpa using hh)
        · exact hstack h (List.mem_cons_of_mem _ hh)

include hexact

theorem prune_spec (hprune : t.prune fuel = some t') :
    ∃ hs : List Hash, t' = hs.foldl T.removeNode t ∧ ∀ x ∈ t.nodes, x ∉ hs ↔ ParentTree.Below t.parentOf t.root x := by
  obtain ⟨keep, hkeep, htree⟩ := Option.bind_eq_some_iff.mp hprune
  cases htree
  obtain ⟨hkept, hclosed⟩ := reach_closed hkeep (by simp)
  refine ⟨_, T.foldl_keep t.nodes.keys t, fun x hx => ?_⟩
  have hmem : x ∉ t.nodes.keys.filter (· ∉ keep) ↔ x ∈ keep := by
    simp [hx]
  rw [hmem]
  constructor
  · refine reach_sound hkeep (fun p c hp hc => .step ((hexact p c).mp hc) hp) (by simp) (fun h hh => ?_) x
    rw [List.mem_singleton.mp hh]
    exact .refl
  · intro hbelow
    clear hx hmem
    induction hbelow with
    | refl => exact hkept _ (Or.inr List.mem_cons_self)
    | step hp _ ih => exact hclosed _ ih _ ((hexact _ _).mpr hp)

theorem prune_belowRoot (hprune : t.prune fuel = some t') : BelowRoot t' := by
  obtain ⟨hs, rfl, hkept⟩ := prune_spec hexact hprune
  have hleft : ∀ x ∈ t.nodes, ParentTree.Below t.parentOf t.root x → (hs.foldl T.removeNode t).parentOf x = t.parentOf x := by
    intro x hx hbelow
    rw [T.parentOf, T.nodes_removeNodes, if_neg ((hkept x hx).mpr hbelow), T.parentOf]
  intro h hh
  rw [T.root_removeNodes]
  rw [T.mem_nodes_iff, T.nodes_removeNodes] at hh
  have hnot : h ∉ hs := fun hmem => hh (if_pos hmem)
  rw [if_neg hnot] at hh
  have hbelow := (hkept h (T.mem_nodes_iff.mpr hh)).mp hnot
  clear hh hnot
  induction hbelow with
  | refl => exact .refl
  | @step x p hp hbelow ih =>
    have hx : x ∈ t.nodes := by
      rw [T.mem_nodes_iff]
      intro hnone
      rw [T.parentOf, hnone] at hp
      cases hp
    exact .step ((hleft x hx (.step hp hbelow)).trans hp) ih

omit hexact

end Children

/-! ### Termination -/

section Termination

variable {bound : Nat}

/-- The nodes below a node, as the loop of `prune` reads them. -/
def below (children : Hash → Finset Hash) (p : Hash) : Option (Unit × List Hash) := some ((), ((children p).sort (· ≤ ·)).reverse)

theorem covered_below (hrank : ∀ p c, c ∈ children p → height p < height c)
    (hbound : ∀ p c, c ∈ children p → height c ≤ bound) (p : Hash) : LevelOrder.Covered (below children) (fun _ => False) p := by
  induction hn : bound + 1 - height p using Nat.strong_induction_on generalizing p with
  | h n ih =>
    refine .read rfl fun c hc => ?_
    have hmem : c ∈ children p := by simpa using hc
    have hlt := hrank p c hmem
    have hle := hbound p c hmem
    exact ih (bound + 1 - height c) (by omega) c rfl

theorem reach_of_trees {n : Nat} (htrees : LevelOrder.Trees (below children) stack n) (keep : Finset Hash) :
    ∃ keep', T.reach children n stack keep = some keep' := by
  induction n using Nat.strong_induction_on generalizing stack keep with
  | h n ih =>
    cases htrees with
    | nil => exact ⟨keep, by rw [T.reach]⟩
    | @cons next b ls stack m k hread hls hstack =>
      cases hread
      rw [T.reach]
      exact ih (m + k) (by omega) (hls.append hstack) _

theorem exists_reach (hrank : ∀ p c, c ∈ children p → height p < height c)
    (hbound : ∀ p c, c ∈ children p → height c ≤ bound) (stack : List Hash) (keep : Finset Hash) :
    ∃ fuel keep', T.reach children fuel stack keep = some keep' := by
  obtain ⟨n, htrees⟩ := LevelOrder.exists_trees fun p _ => (covered_below hrank hbound p).trees
  exact ⟨n, reach_of_trees htrees keep⟩

/-- More steps do not change what is kept. -/
theorem reach_unique {fuel fuel' : Nat} {keep₁ keep₂ : Finset Hash} (h : T.reach children fuel stack keep = some keep₁)
    (h' : T.reach children fuel' stack keep = some keep₂) : keep₁ = keep₂ := by
  induction fuel generalizing fuel' stack keep with
  | zero =>
    cases stack with
    | nil =>
      rw [T.reach] at h h'
      exact Option.some.inj (h.symm.trans h')
    | cons next stack => cases h
  | succ fuel ih =>
    cases stack with
    | nil =>
      rw [T.reach] at h h'
      exact Option.some.inj (h.symm.trans h')
    | cons next stack =>
      cases fuel' with
      | zero => cases h'
      | succ fuel' => exact ih h h'

end Termination

theorem steps_unique {t t₁ t₂ : T Hash Job} {op : Op Job height} (h : Steps t op t₁) (h' : Steps t op t₂) : t₁ = t₂ := by
  obtain ⟨fuel, hstep⟩ := h
  obtain ⟨fuel', hstep'⟩ := h'
  cases op with
  | add h parent job => exact Option.some.inj (hstep.symm.trans hstep')
  | catchupFailed job => exact Option.some.inj (hstep.symm.trans hstep')
  | breadcrumbAdded b => exact Option.some.inj (hstep.symm.trans hstep')
  | rootTransitioned newRoot garbage =>
    obtain ⟨keep, hkeep, heq⟩ := Option.bind_eq_some_iff.mp hstep
    obtain ⟨keep', hkeep', heq'⟩ := Option.bind_eq_some_iff.mp hstep'
    rw [reach_unique hkeep hkeep'] at heq
    exact Option.some.inj (heq.symm.trans heq')

/-! ### Runs in which no node is added -/

/-- All nodes have breadcrumbs. -/
structure Settled (height : Hash → Nat) (t : T Hash Job) : Prop where
  exact : ChildrenExact t
  tips : t.tips = ∅
  breadcrumbs : ∀ h s, t.stateOf h = some s → s = .haveBreadcrumb
  ranked : ∀ h p, t.parentOf h = some p → height p < height h

variable {log : List (Op Job height)}

section Settled

omit [DecidableEq Job] in
theorem Settled.of_nodes (h : Settled height t) (hexact : ChildrenExact t') (htips : t'.tips = ∅)
    (hnodes : ∀ x node, t'.nodes[x]? = some node →
      node.state = .haveBreadcrumb ∧ (t.parentOf x = some node.parent ∨ height node.parent < height x)) : Settled height t' where
  exact := hexact
  tips := htips
  breadcrumbs := fun x s hs => by
    obtain ⟨node, hnode, rfl⟩ := Option.map_eq_some_iff.mp hs
    exact (hnodes x node hnode).1
  ranked := fun x p hp => by
    obtain ⟨node, hnode, rfl⟩ := Option.map_eq_some_iff.mp hp
    rcases (hnodes x node hnode).2 with hold | hnew
    · exact h.ranked x _ hold
    · exact hnew

omit [DecidableEq Job] in
theorem Settled.node (h : Settled height t) {x : Hash} {node : Node Hash Job} (hnode : t.nodes[x]? = some node) :
    node.state = .haveBreadcrumb ∧ (t.parentOf x = some node.parent ∨ height node.parent < height x) :=
  ⟨h.breadcrumbs x node.state (by rw [T.stateOf, hnode, Option.map_some]), Or.inl (by rw [T.parentOf, hnode, Option.map_some])⟩

omit [DecidableEq Job] in
theorem settled_create (root : Breadcrumb height) : Settled height (create root : T Hash Job) where
  exact := by
    intro p h
    rw [T.childrenOf, create, T.parentOf, lookup_insert, lookup_insert]
    by_cases hp : root.parentHash = p
    · by_cases hh : root.stateHash = h
      · simp [hp, hh]
      · simp [hp, hh, Ne.symm hh]
    · by_cases hh : root.stateHash = h
      · simp [hp, hh]
      · simp [hp, hh]
  tips := rfl
  breadcrumbs := fun h s hs => by
    rw [T.stateOf, create, lookup_insert] at hs
    by_cases hh : root.stateHash = h
    · rw [if_pos hh] at hs
      exact (Option.some.inj hs).symm
    · rw [if_neg hh] at hs
      simp at hs
  ranked := fun h p hp => by
    rw [T.parentOf, create, lookup_insert] at hp
    by_cases hh : root.stateHash = h
    · rw [if_pos hh] at hp
      rw [← hh, ← Option.some.inj hp]
      exact root.above
    · rw [if_neg hh] at hp
      simp at hp

omit [DecidableEq Job] in
theorem Settled.removeNodes (h : Settled height t) (hs : List Hash) : Settled height (hs.foldl T.removeNode t) := by
  refine h.of_nodes (h.exact.removeNodes hs) (T.tips_removeNodes hs h.tips) fun x node hnode => ?_
  rw [T.nodes_removeNodes] at hnode
  by_cases hx : x ∈ hs
  · simp [hx] at hnode
  · rw [if_neg hx] at hnode
    exact h.node hnode

omit [DecidableEq Job] in
theorem Settled.setRoot (h : Settled height t) (newRoot : Hash) : Settled height (t.setRoot newRoot) := by
  have hexact := h.exact.setRoot newRoot
  rw [T.setRoot] at hexact ⊢
  cases hroot : t.nodes[newRoot]? with
  | none => exact h
  | some root =>
    rw [hroot] at hexact
    refine h.of_nodes hexact h.tips fun x node hnode => ?_
    rcases lookup_insert_cases hnode with ⟨rfl, rfl⟩ | hnode
    · exact ⟨rfl, (h.node hroot).2⟩
    · exact h.node hnode

omit [DecidableEq Job] in
theorem Settled.breadcrumbAdded (h : Settled height t) (b : Breadcrumb height) : Settled height (t.breadcrumbAdded b) := by
  have hexact := h.exact.breadcrumbAdded b
  rw [T.breadcrumbAdded] at hexact ⊢
  cases hb : t.nodes[b.stateHash]? with
  | none =>
    rw [hb] at hexact
    refine h.of_nodes hexact (by rw [h.tips, Finset.erase_empty]) fun x node hnode => ?_
    rcases lookup_insert_cases hnode with ⟨rfl, rfl⟩ | hnode
    · exact ⟨rfl, Or.inr b.above⟩
    · exact h.node hnode
  | some old =>
    rw [hb] at hexact
    refine h.of_nodes hexact (by rw [h.tips, Finset.erase_empty]) fun x node hnode => ?_
    rcases lookup_insert_cases hnode with ⟨rfl, rfl⟩ | hnode
    · exact ⟨rfl, (h.node hb).2⟩
    · exact h.node hnode

omit [DecidableEq Job] in
theorem Settled.prune (h : Settled height t) : ∃ fuel t', t.prune fuel = some t' ∧ Settled height t' ∧ BelowRoot t' := by
  obtain ⟨bound, hbound⟩ := (t.nodes.keys.map height).toFinset.bddAbove
  have hchild : ∀ p c, c ∈ t.childrenOf p → height p < height c := fun p c hc => h.ranked c p ((h.exact p c).mp hc)
  have hle : ∀ p c, c ∈ t.childrenOf p → height c ≤ bound := by
    intro p c hc
    have hparent := (h.exact p c).mp hc
    have hnode : c ∈ t.nodes := T.mem_nodes_iff.mpr fun hnone => by
      rw [T.parentOf, hnone] at hparent
      cases hparent
    exact hbound (List.mem_toFinset.mpr (List.mem_map_of_mem (ExtTreeMap.mem_keys.mpr hnode)))
  obtain ⟨fuel, keep, hkeep⟩ := exists_reach hchild hle [t.root] ∅
  have hprune : t.prune fuel = some (t.nodes.keys.foldl (fun t h => if h ∈ keep then t else t.removeNode h) t) := by
    rw [T.prune, hkeep]
    rfl
  refine ⟨fuel, _, hprune, ?_, prune_belowRoot h.exact hprune⟩
  rw [T.foldl_keep]
  exact h.removeNodes _

theorem ChildrenExact.catchupFailed (hexact : ChildrenExact t) (job : Job) : ChildrenExact (t.catchupFailed job) := by
  have hmapped : ChildrenExact { t with nodes := t.nodes.map fun _ node => node.without job } := by
    refine hexact.congr rfl fun x => ?_
    rw [T.parentOf, ExtTreeMap.getElem?_map, Option.map_map, T.parentOf]
    refine congrArg (Option.map · _) (funext fun node => ?_)
    rw [Function.comp_apply, Node.without]
    cases node.state <;> rfl
  rw [T.catchupFailed]
  exact hmapped.removeNodes _

theorem Settled.nodes_failed (h : Settled height t) (job : Job) (x : Hash) : (t.catchupFailed job).nodes[x]? = t.nodes[x]? := by
  rw [T.nodes_failed]
  cases hnode : t.nodes[x]? with
  | none => rfl
  | some node =>
    have hstate := (h.node hnode).1
    have hwithout : node.without job = node := by rw [Node.without, hstate]
    rw [Option.map_some, hwithout, Option.filter_some_pos]
    rw [Node.isUnused, hstate]
    rfl

theorem Settled.catchupFailed (h : Settled height t) (job : Job) : Settled height (t.catchupFailed job) := by
  refine h.of_nodes (h.exact.catchupFailed job) (T.tips_removeNodes _ h.tips) fun x node hnode => ?_
  rw [h.nodes_failed] at hnode
  exact h.node hnode

/-- A node that is there already keeps its breadcrumb. -/
theorem Settled.add_eq (h : Settled height t) {x : Hash} (hx : x ∈ t.nodes) (parent : Hash) (job : Job) : t.add x parent job = t := by
  obtain ⟨node, hnode⟩ := Option.ne_none_iff_exists'.mp (T.mem_nodes_iff.mp hx)
  exact T.add_haveBreadcrumb hnode (h.node hnode).1 parent job

omit [DecidableEq Job] in
theorem Settled.not_missing (h : Settled height t) (x : Hash) : ¬ Missing t x := by
  intro hmissing
  obtain ⟨ids, hids⟩ := hmissing
  cases h.breadcrumbs x _ hids

omit [DecidableEq Job] in
theorem Settled.tracks (h : Settled height t) : Tracks log t where
  jobs := fun x ids hids => absurd ⟨ids, hids⟩ (h.not_missing x)
  children := h.exact
  tips := fun x => by
    rw [h.tips]
    simp [h.not_missing x]
  chain := by
    have hempty : ∀ chain, MissingChain t chain → chain = [] := by
      intro chain hchain
      cases chain with
      | nil => rfl
      | cons x chain =>
        cases chain with
        | nil => exact absurd hchain (h.not_missing x)
        | cons y chain => exact absurd hchain.1 (h.not_missing x)
    refine ⟨0, 0, ?_, ⟨[], trivial, rfl⟩, fun chain hchain => by rw [hempty chain hchain, List.length_nil]⟩
    rw [T.maxCatchupChainLength, h.tips, Finset.sort_empty]
    rfl

/-- One operation that adds no node. -/
theorem Settled.step (h : Settled height t) {op : Op Job height} (hknown : ∀ x parent job, op = .add x parent job → x ∈ t.nodes) :
    ∃ t', Steps t op t' ∧ StepTracks log t op t' ∧ Settled height t' := by
  cases op with
  | add x parent job =>
    refine ⟨t, ⟨0, ?_⟩, ⟨by simp, by simp⟩, h⟩
    rw [CatchupHashTree.step, h.add_eq (hknown x parent job rfl)]
  | catchupFailed job =>
    refine ⟨_, ⟨0, rfl⟩, ⟨fun job' hjob x => ?_, by simp⟩, h.catchupFailed job⟩
    rw [T.mem_nodes_iff, T.mem_nodes_iff, h.nodes_failed]
    exact ⟨fun hgone => absurd hgone.1 hgone.2, fun hmissing => absurd hmissing.1 (h.not_missing x)⟩
  | breadcrumbAdded b => exact ⟨_, ⟨0, rfl⟩, ⟨by simp, by simp⟩, h.breadcrumbAdded b⟩
  | rootTransitioned newRoot garbage =>
    obtain ⟨fuel, t', hprune, hsettled, hbelow⟩ := ((h.removeNodes garbage).setRoot newRoot).prune
    exact ⟨t', ⟨fuel, hprune⟩, ⟨by simp, fun _ _ _ => hbelow⟩, hsettled⟩

theorem Settled.follows {ops : List (Op Job height)} (h : Settled height t) (hops : AddsNoNode t ops) : Follows log t ops := by
  induction ops generalizing t log with
  | nil => exact h.tracks
  | cons op ops ih =>
    obtain ⟨t', hstep, htracks, hsettled⟩ : ∃ t', Steps t op t' ∧ StepTracks log t op t' ∧ Settled height t' := h.step hops.1
    exact ⟨h.tracks, t', hstep, htracks, ih hsettled (hops.2 t' hstep)⟩

end Settled

/-! ### All runs -/

section Runs

variable {job : Job} {ids : Finset Job} {ops : List (Op Job height)} {parent : Hash} {job' : Job}

theorem ChildrenExact.add (hexact : ChildrenExact t) (h parent : Hash) (job : Job) : ChildrenExact (t.add h parent job) := by
  cases hh : t.nodes[h]? with
  | none =>
    rw [T.add_none hh]
    refine hexact.addChild hh rfl fun x => ?_
    rw [T.parentOf, lookup_insert, apply_ite (Option.map _)]
    rfl
  | some node =>
    cases hstate : node.state with
    | haveBreadcrumb =>
      rw [T.add_haveBreadcrumb hh hstate]
      exact hexact
    | partOfCatchups s =>
      rw [T.add_partOfCatchups hh hstate]
      refine hexact.congr rfl fun x => ?_
      rw [T.parentOf, T.parentOf, lookup_insert]
      by_cases heq : h = x
      · rw [if_pos heq, ← heq, hh]
        rfl
      · rw [if_neg heq]

theorem ChildrenExact.step (hexact : ChildrenExact t) {op : Op Job height} (hstep : Steps t op t') : ChildrenExact t' := by
  obtain ⟨fuel, hstep⟩ := hstep
  cases op with
  | add h parent job =>
    cases hstep
    exact hexact.add h parent job
  | catchupFailed job =>
    cases hstep
    exact hexact.catchupFailed job
  | breadcrumbAdded b =>
    cases hstep
    exact hexact.breadcrumbAdded b
  | rootTransitioned newRoot garbage =>
    have hbefore := (hexact.removeNodes garbage).setRoot newRoot
    obtain ⟨hs, rfl, -⟩ := prune_spec hbefore hstep
    exact hbefore.removeNodes hs

omit [LinearOrder Hash] [DecidableEq Job] in
theorem needs_add (log : List (Op Job height)) (h parent : Hash) (job : Job) : Needs (log ++ [.add h parent job]) h job :=
  ⟨log, parent, [], rfl, List.not_mem_nil⟩

omit [LinearOrder Hash] [DecidableEq Job] in
theorem Needs.append (hneeds : Needs log h job) {op : Op Job height} (hop : op ≠ .catchupFailed job) : Needs (log ++ [op]) h job := by
  obtain ⟨before, parent, later, hlog, hnot⟩ := hneeds
  refine ⟨before, parent, later ++ [op], by rw [hlog, List.append_assoc, List.cons_append], fun hmem => ?_⟩
  rcases List.mem_append.mp hmem with hmem | hmem
  · exact hnot hmem
  · exact hop (List.mem_singleton.mp hmem).symm

theorem jobs_add (hids : (t.add h parent job).stateOf x = some (.partOfCatchups ids)) (hmem : job' ∈ ids) :
    (∃ ids', t.stateOf x = some (.partOfCatchups ids') ∧ job' ∈ ids') ∨ (x = h ∧ job' = job) := by
  cases hh : t.nodes[h]? with
  | none =>
    rw [T.add_none hh, T.stateOf, lookup_insert] at hids
    by_cases heq : h = x
    · rw [if_pos heq] at hids
      cases hids
      cases hmem
    · rw [if_neg heq] at hids
      exact Or.inl ⟨ids, hids, hmem⟩
  | some node =>
    cases hstate : node.state with
    | haveBreadcrumb =>
      rw [T.add_haveBreadcrumb hh hstate] at hids
      exact Or.inl ⟨ids, hids, hmem⟩
    | partOfCatchups s =>
      rw [T.add_partOfCatchups hh hstate, T.stateOf, lookup_insert] at hids
      by_cases heq : h = x
      · rw [if_pos heq] at hids
        cases hids
        rcases Finset.mem_insert.mp hmem with hjob | hold
        · exact Or.inr ⟨heq.symm, hjob⟩
        · exact Or.inl ⟨s, by rw [T.stateOf, ← heq, hh, Option.map_some, hstate], hold⟩
      · rw [if_neg heq] at hids
        exact Or.inl ⟨ids, hids, hmem⟩

theorem jobs_failed (hids : (t.catchupFailed job).stateOf x = some (.partOfCatchups ids)) (hmem : job' ∈ ids) :
    job' ≠ job ∧ ∃ ids', t.stateOf x = some (.partOfCatchups ids') ∧ job' ∈ ids' := by
  obtain ⟨node, hnode, hstate⟩ := Option.map_eq_some_iff.mp hids
  rw [T.nodes_failed] at hnode
  obtain ⟨hnode, -⟩ := Option.filter_eq_some_iff.mp hnode
  obtain ⟨old, hold, rfl⟩ := Option.map_eq_some_iff.mp hnode
  rw [Node.without] at hstate
  cases hs : old.state with
  | haveBreadcrumb =>
    simp only [hs] at hstate
    cases hstate
  | partOfCatchups s =>
    simp only [hs] at hstate
    cases hstate
    obtain ⟨hne, hmem⟩ := Finset.mem_erase.mp hmem
    exact ⟨hne, s, by rw [T.stateOf, hold, Option.map_some, hs], hmem⟩

omit [DecidableEq Job] in
theorem JobsNeed.of_nodes (hneed : JobsNeed log t) {op : Op Job height} (hop : ∀ job, op ≠ .catchupFailed job)
    (hstates : ∀ x ids, t'.stateOf x = some (.partOfCatchups ids) → t.stateOf x = some (.partOfCatchups ids)) :
    JobsNeed (log ++ [op]) t' :=
  fun x ids hids job hjob => (hneed x ids (hstates x ids hids) job hjob).append (hop job)

omit [DecidableEq Job] in
theorem stateOf_setRoot (hids : (t.setRoot h).stateOf x = some (.partOfCatchups ids)) : t.stateOf x = some (.partOfCatchups ids) := by
  rw [T.setRoot] at hids
  cases hh : t.nodes[h]? with
  | none =>
    rw [hh] at hids
    exact hids
  | some node =>
    rw [hh, T.stateOf, lookup_insert] at hids
    by_cases heq : h = x
    · rw [if_pos heq] at hids
      cases hids
    · rw [if_neg heq] at hids
      exact hids

omit [DecidableEq Job] in
theorem stateOf_breadcrumbAdded {b : Breadcrumb height} (hids : (t.breadcrumbAdded b).stateOf x = some (.partOfCatchups ids)) :
    t.stateOf x = some (.partOfCatchups ids) := by
  rw [T.breadcrumbAdded] at hids
  by_cases heq : b.stateHash = x
  · cases hb : t.nodes[b.stateHash]? <;> rw [hb, T.stateOf, lookup_insert, if_pos heq] at hids <;> cases hids
  · cases hb : t.nodes[b.stateHash]? <;> rwa [hb, T.stateOf, lookup_insert, if_neg heq] at hids

omit [DecidableEq Job] in
theorem stateOf_removeNodes {hs : List Hash} {s : State Job} (hs' : (hs.foldl T.removeNode t).stateOf x = some s) : t.stateOf x = some s := by
  rw [T.stateOf, T.nodes_removeNodes] at hs'
  by_cases hx : x ∈ hs
  · simp [hx] at hs'
  · rw [if_neg hx] at hs'
    exact hs'

theorem JobsNeed.step (hneed : JobsNeed log t) {op : Op Job height} (hexact : ChildrenExact t) (hstep : Steps t op t') :
    JobsNeed (log ++ [op]) t' := by
  obtain ⟨fuel, hstep⟩ := hstep
  cases op with
  | add h parent job =>
    cases hstep
    intro x ids hids job' hjob'
    rcases jobs_add hids hjob' with hold | hnew
    · obtain ⟨ids', hids', hmem⟩ := hold
      exact (hneed x ids' hids' job' hmem).append (by simp)
    · rw [hnew.1, hnew.2]
      exact needs_add log h parent job
  | catchupFailed job =>
    cases hstep
    intro x ids hids job' hjob'
    obtain ⟨hne, ids', hids', hmem⟩ := jobs_failed hids hjob'
    exact (hneed x ids' hids' job' hmem).append fun heq => hne (Op.catchupFailed.inj heq).symm
  | breadcrumbAdded b =>
    cases hstep
    exact hneed.of_nodes (by simp) fun x ids => stateOf_breadcrumbAdded
  | rootTransitioned newRoot garbage =>
    obtain ⟨hs, rfl, -⟩ := prune_spec ((hexact.removeNodes garbage).setRoot newRoot) hstep
    exact hneed.of_nodes (by simp) fun x ids hids => stateOf_removeNodes (stateOf_setRoot (stateOf_removeNodes hids))

/-- What holds in all runs. -/
theorem Run.sound {root : Breadcrumb height} (hrun : Run root ops t) : ChildrenExact t ∧ JobsNeed ops t := by
  induction hrun with
  | create =>
    have hsettled : Settled height (CatchupHashTree.create root : T Hash Job) := settled_create root
    exact ⟨hsettled.exact, fun h ids hids => absurd ⟨ids, hids⟩ (hsettled.not_missing h)⟩
  | step _ hstep ih => exact ⟨ih.1.step hstep, ih.2.step ih.1 hstep⟩

theorem not_tracks_add (log : List (Op Job height)) {h : Hash} {job : Job} (hnew : h ∉ t.nodes) :
    ¬ Tracks (log ++ [.add h parent job]) (t.add h parent job) := by
  intro htracks
  have hnone : t.nodes[h]? = none := not_not.mp fun hsome => hnew (T.mem_nodes_iff.mpr hsome)
  have hstate : (t.add h parent job).stateOf h = some (.partOfCatchups ∅) := by
    rw [T.add_none hnone, T.stateOf, lookup_insert, if_pos rfl]
    rfl
  have hmem := (htracks.jobs h ∅ hstate job).mpr (needs_add log h parent job)
  cases hmem

theorem Follows.tracks (hfollows : Follows log t ops) : Tracks log t := by
  cases ops with
  | nil => exact hfollows
  | cons op ops => exact hfollows.1

theorem Follows.addsNoNode (hfollows : Follows log t ops) : AddsNoNode t ops := by
  induction ops generalizing t log with
  | nil => trivial
  | cons op ops ih =>
    obtain ⟨-, t', hstep, -, hrest⟩ := hfollows
    refine ⟨fun x parent job hop => ?_, fun t'' hstep' => ?_⟩
    · refine not_not.mp fun hnew => not_tracks_add log hnew (?_ : Tracks (log ++ [.add x parent job]) (t.add x parent job))
      rw [hop] at hstep hrest
      obtain ⟨fuel, hstep⟩ := hstep
      cases hstep
      exact hrest.tracks
    · rw [← steps_unique hstep hstep']
      exact ih hrest

/-- In all runs the children are the nodes that name their parent, nodes only keep jobs that need them, and a root transition
leaves what is below the root. All is tracked in the runs, and only in those, in which no node is added. -/
theorem follows_iff_addsNoNode (root : Breadcrumb height) :
    (∀ (ops : List (Op Job height)) (t : T Hash Job), Run root ops t →
      (∀ p h, h ∈ t.childrenOf p ↔ t.parentOf h = some p) ∧
      (∀ h ids, t.stateOf h = some (.partOfCatchups ids) → ∀ job ∈ ids, Needs ops h job) ∧
      ∀ newRoot garbage t', Steps t (.rootTransitioned newRoot garbage : Op Job height) t' → BelowRoot t') ∧
    ∀ ops : List (Op Job height), Follows [] (create root) ops ↔ AddsNoNode (create root) ops := by
  constructor
  · intro ops t hrun
    obtain ⟨hexact, hneed⟩ := hrun.sound
    refine ⟨hexact, hneed, fun newRoot garbage t' hstep => ?_⟩
    obtain ⟨fuel, hprune⟩ := hstep
    exact prune_belowRoot ((hexact.removeNodes garbage).setRoot newRoot) hprune
  · intro ops
    exact ⟨Follows.addsNoNode, (settled_create root).follows⟩

/-- The job that adds the child of the root is not kept with it. -/
theorem not_follows_add :
    ¬ Follows [] (create (⟨1, 0, Nat.zero_lt_one⟩ : Breadcrumb fun h : Nat => h) : T Nat Nat) [(.add 2 1 7 : Op Nat fun h : Nat => h)] := by
  intro hfollows
  obtain ⟨-, t', hstep, -, htracks⟩ := hfollows
  obtain ⟨fuel, hstep⟩ := hstep
  cases hstep
  refine not_tracks_add [] (fun hmem => ?_) htracks
  rw [T.mem_nodes_iff, create, lookup_insert] at hmem
  simp at hmem

end Runs

end MinaProtocol.CatchupHashTree
