import MinaProtocol.Lib.ParentTree
import MinaProtocol.TransitionFrontier.FullFrontier

/-!
# TransitionFrontier.Tree

The table of a frontier as a tree. `IsTree` says what a reader of the table can rely on.
`Sound` adds what carries it from one addition to the next: hashes without collisions,
lengths that follow the heights of the blocks, and the protocol states that the root
requires. In a sound frontier no search in the table fails.
-/

namespace MinaProtocol.TransitionFrontier

open Std Consensus ParentTree

/-- What a state hash commits to: the hash of the previous state and the number of states
before it. -/
structure StateHashes where
  previous : Nat → Nat
  height : Nat → Nat

/-- The hash of the block has no collisions: it commits to the block's own previous state. -/
structure HashedBy (H : StateHashes) (b : Breadcrumb) : Prop where
  previous_eq : b.parentHash = H.previous b.stateHash
  height_eq : H.height b.stateHash = H.height b.parentHash + 1

variable {t : Frontier} {hash : Nat} {node : Node}

namespace Frontier

/-- The parent of an entry other than the root. -/
def parentOf (t : Frontier) (hash : Nat) : Option Nat :=
  if hash = t.root then none else t.table[hash]?.map fun node => node.breadcrumb.parentHash

/-- The successor hashes of an entry. -/
def childrenOf (t : Frontier) (hash : Nat) : List Nat :=
  (t.table[hash]?.map Node.successorHashes).getD []

theorem mem_table (h : t.table[hash]? = some node) : hash ∈ t.table := by
  rw [ExtTreeMap.mem_iff_isSome_getElem?, h]
  rfl

theorem exists_node (h : hash ∈ t.table) : ∃ node, t.table[hash]? = some node :=
  Option.isSome_iff_exists.1 (ExtTreeMap.mem_iff_isSome_getElem?.1 h)

theorem parentOf_eq_some {p : Nat} : t.parentOf hash = some p
      ↔ hash ≠ t.root ∧ ∃ node, t.table[hash]? = some node ∧ node.breadcrumb.parentHash = p := by
  unfold parentOf
  split
  · simp_all
  · rename_i h
    simp [h]

theorem childrenOf_eq (h : t.table[hash]? = some node) : t.childrenOf hash = node.successorHashes := by
  simp [childrenOf, h]

end Frontier

/-- The table is a tree with the root, in which no entry is further above the root than the
length. -/
structure IsTree (t : Frontier) (maxLength : Nat) : Prop where
  root_mem : ∃ rootNode, t.table[t.root]? = some rootNode
    ∧ ∀ (hash : Nat) (node : Node), t.table[hash]? = some node →
      node.length ≤ rootNode.length + maxLength
  stateHash_eq : ∀ (hash : Nat) (node : Node), t.table[hash]? = some node →
    node.breadcrumb.stateHash = hash
  parent_mem : ∀ (hash : Nat) (node : Node), t.table[hash]? = some node → hash ≠ t.root →
    ∃ parentNode, t.table[node.breadcrumb.parentHash]? = some parentNode
      ∧ node.length = parentNode.length + 1
  successors : ∀ (hash : Nat) (node : Node), t.table[hash]? = some node →
    node.successorHashes.Nodup ∧ ∀ c, c ∈ node.successorHashes
      ↔ ∃ child, t.table[c]? = some child ∧ child.breadcrumb.parentHash = hash

/-- The scan state of a block requires nothing but what the scan state of its parent
requires, and the parent itself. -/
def BuiltOn (b parent : Breadcrumb) : Prop :=
  ∀ hash ∈ b.requiredStateHashes, hash ∈ parent.requiredStateHashes ∨ hash = parent.stateHash

/-- A tree of blocks with hashes that do not collide, and with the protocol states for its
root. -/
structure Sound (H : StateHashes) (t : Frontier) (maxLength : Nat) : Prop where
  tree : IsTree t maxLength
  hashed : ∀ (hash : Nat) (node : Node), t.table[hash]? = some node → HashedBy H node.breadcrumb
  builtOn : ∀ (hash : Nat) (node parentNode : Node), t.table[hash]? = some node → hash ≠ t.root →
    t.table[node.breadcrumb.parentHash]? = some parentNode →
    BuiltOn node.breadcrumb parentNode.breadcrumb
  length_eq : ∀ (hash : Nat) (node rootNode : Node), t.table[hash]? = some node →
    t.table[t.root]? = some rootNode → node.length + H.height t.root = rootNode.length + H.height hash
  required : ∀ rootNode : Node, t.table[t.root]? = some rootNode →
    ∀ hash ∈ rootNode.breadcrumb.requiredStateHashes, hash ∈ t.protocolStatesForRootScanState

namespace Sound

variable {H : StateHashes} {maxLength : Nat} {a : Nat} {b : Breadcrumb}

variable (hs : Sound H t maxLength)

include hs

theorem ranked : Ranked t.parentOf H.height := by
  intro x p hp
  obtain ⟨-, node, hx, rfl⟩ := Frontier.parentOf_eq_some.1 hp
  rw [← hs.tree.stateHash_eq x node hx]
  exact (hs.hashed x node hx).height_eq

theorem mem_of_parentOf {x p : Nat} (h : t.parentOf x = some p) : x ∈ t.table ∧ p ∈ t.table := by
  obtain ⟨hne, node, hx, rfl⟩ := Frontier.parentOf_eq_some.1 h
  obtain ⟨parentNode, hp, -⟩ := hs.tree.parent_mem x node hx hne
  exact ⟨Frontier.mem_table hx, Frontier.mem_table hp⟩

theorem below_root (h : t.table[hash]? = some node) : Below t.parentOf t.root hash := by
  -- the parent of an entry is shorter
  induction hlen : node.length generalizing hash node with
  | zero =>
    by_cases hroot : hash = t.root
    · rw [hroot]
      exact .refl
    · obtain ⟨parentNode, -, hlen'⟩ := hs.tree.parent_mem hash node h hroot
      omega
  | succ n ih =>
    by_cases hroot : hash = t.root
    · rw [hroot]
      exact .refl
    · obtain ⟨parentNode, hp, hlen'⟩ := hs.tree.parent_mem hash node h hroot
      exact .step (Frontier.parentOf_eq_some.2 ⟨hroot, node, h, rfl⟩) (ih hp (by omega))

theorem root_parent_not_mem (h : t.table[t.root]? = some node) : t.table[node.breadcrumb.parentHash]? = none := by
  by_contra hne
  obtain ⟨parentNode, hp⟩ := Option.ne_none_iff_exists'.1 hne
  have hle := hs.ranked.height_le (hs.below_root hp)
  have heq := (hs.hashed t.root node h).height_eq
  rw [hs.tree.stateHash_eq t.root node h] at heq
  omega

theorem height_le (h : t.table[hash]? = some node) : H.height hash ≤ H.height t.root + maxLength := by
  obtain ⟨rootNode, hroot, hle⟩ := hs.tree.root_mem
  have := hle hash node h
  have := hs.length_eq hash node rootNode h hroot
  omega

theorem lists : Lists t.parentOf H.height t.childrenOf (H.height t.root + maxLength) where
  mem_children x c := by
    rw [Frontier.parentOf_eq_some]
    constructor
    · intro hc
      cases hx : t.table[x]? with
      | none => simp [Frontier.childrenOf, hx] at hc
      | some node =>
        rw [Frontier.childrenOf_eq hx] at hc
        obtain ⟨child, hchild, hp⟩ := ((hs.tree.successors x node hx).2 c).1 hc
        refine ⟨fun hroot => ?_, child, hchild, hp⟩
        rw [hroot] at hchild
        have := hs.root_parent_not_mem hchild
        rw [hp, hx] at this
        exact Option.some_ne_none node this
    · rintro ⟨hne, child, hchild, rfl⟩
      obtain ⟨parentNode, hp, -⟩ := hs.tree.parent_mem c child hchild hne
      rw [Frontier.childrenOf_eq hp]
      exact ((hs.tree.successors _ parentNode hp).2 c).2 ⟨child, hchild, rfl⟩
  nodup x := by
    cases hx : t.table[x]? with
    | none => simp [Frontier.childrenOf, hx]
    | some node =>
      rw [Frontier.childrenOf_eq hx]
      exact (hs.tree.successors x node hx).1
  le_top c x hp := by
    obtain ⟨-, child, hchild, -⟩ := Frontier.parentOf_eq_some.1 hp
    exact hs.height_le hchild

omit hs

end Sound

end MinaProtocol.TransitionFrontier
