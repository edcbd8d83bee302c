import Mathlib
import MinaProtocol.Bitswap.Completeness

/-!
# Bitswap.DeleteRoot

What is left after a root is deleted. `viewBlockF` appends the links of each block that is viewed to the
list that the loop goes through, but a loop over a slice in Go goes through the elements that the slice had
when the loop began. That is the root alone, so its own links are appended and theirs are never seen.
-/

namespace MinaProtocol.Bitswap

open Std

/-! ### The traversal -/

/-- The links of a block are appended. -/
def viewBlockF (allDescendants : List BitswapBlockLink) (b : Bytes) : Option (List BitswapBlockLink) :=
  (readBitswapBlock b).map fun r => allDescendants ++ r.1

/-- View one block; one that is not found is passed over. -/
def viewDescendant (faults : Faults) (s : BitswapState) (allDescendants : List BitswapBlockLink)
    (block : BitswapBlockLink) : Option (List BitswapBlockLink) :=
  if faults.view block then none
  else
    match s.storage block with
    | none => some allDescendants
    | some b => viewBlockF allDescendants b

/-- The loop, over the elements that the list has when it begins. -/
def viewDescendants (faults : Faults) (s : BitswapState) (allDescendants : List BitswapBlockLink) :
    Option (List BitswapBlockLink) :=
  allDescendants.foldlM (viewDescendant faults s) allDescendants

def deleteBlocks (s : BitswapState) (keys : List BitswapBlockLink) : BitswapState :=
  { s with storage := fun key => if keys.contains key then none else s.storage key }

/-- The state that a deletion leaves, and whether it returns nil. -/
structure Deletion where
  bs : BitswapState
  isNil : Bool

/-- `deleteRoot` by itself, before its caller reports the root as removed. -/
def deletion (faults : Faults) (s : BitswapState) (root : Root) : Deletion :=
  match setStatus faults s root .Deleting with
  | none => { bs := s, isNil := false }
  | some s =>
    let s := clearRootDownloadState s root
    match viewDescendants faults s [root] with
    | none => { bs := s, isNil := false }
    | some allDescendants =>
      if faults.deleteBlocks then { bs := s, isNil := false }
      else
        let s := deleteBlocks s allDescendants
        if faults.deleteStatus then { bs := s, isNil := false }
        else { bs := { s with statuses := Function.update s.statuses root none }, isNil := true }

/-! ### The tree of a root -/

variable (storage : BlockMap) {c : Cid}

/-- A stored block has a link. -/
def Links (c l : Cid) : Prop :=
  ∃ b links chunk, storage c = some b ∧ readBitswapBlock b = some (links, chunk) ∧ l ∈ links

/-- A block is in the tree of a root. -/
def InTree (root c : Cid) : Prop := Relation.ReflTransGen (Links storage) root c

def CompletelyStored (root : Cid) : Prop := ∀ c, InTree storage root c → storage c ≠ none

/-- The tree has no block below the links of its root. -/
def TwoLevels (root : Cid) : Prop := ∀ c, InTree storage root c → c = root ∨ Links storage root c

/-- No block of the tree is left, the status is gone, and the other blocks are as before. -/
structure Deleted (s s' : BitswapState) (root : Root) : Prop where
  tree : ∀ c, InTree s.storage root c → s'.storage c = none
  status : s'.statuses root = none
  others : ∀ c, ¬ InTree s.storage root c → s'.storage c = s.storage c

theorem InTree.of_links {storage : BlockMap} {root : Cid} (h : Links storage root c) : InTree storage root c :=
  Relation.ReflTransGen.single h

/-! ### What a deletion deletes -/

section Deletion

variable {faults : Faults} {s : BitswapState} {root : Root}

theorem viewDescendants_root : viewDescendants faults s [root] = viewDescendant faults s [root] root := by
  simp [viewDescendants]

theorem mem_of_viewDescendants {allDescendants : List BitswapBlockLink}
    (h : viewDescendants faults s [root] = some allDescendants) (c : Cid) :
    c ∈ allDescendants ↔ c = root ∨ Links s.storage root c := by
  rw [viewDescendants_root] at h
  simp only [viewDescendant, viewBlockF, Links] at h ⊢
  cases hview : faults.view root with
  | true => simp [hview] at h
  | false =>
    cases hroot : s.storage root with
    | none =>
      have hall : [root] = allDescendants := by simpa [hview, hroot] using h
      simp [← hall]
    | some b =>
      cases hread : readBitswapBlock b with
      | none => simp [hview, hroot, hread] at h
      | some r =>
        have hall : [root] ++ r.1 = allDescendants := by simpa [hview, hroot, hread] using h
        subst hall
        simp [hread, Prod.ext_iff]

theorem deletion_nil (h : (deletion faults s root).isNil = true) :
    ∃ s₁ allDescendants, setStatus faults s root .Deleting = some s₁ ∧
      viewDescendants faults (clearRootDownloadState s₁ root) [root] = some allDescendants ∧
      (deletion faults s root).bs =
        { deleteBlocks (clearRootDownloadState s₁ root) allDescendants with
          statuses := Function.update s₁.statuses root none } := by
  unfold deletion at h ⊢
  cases hset : setStatus faults s root .Deleting with
  | none => simp [hset] at h
  | some s₁ =>
    cases hview : viewDescendants faults (clearRootDownloadState s₁ root) [root] with
    | none => simp [hset, hview] at h
    | some allDescendants =>
      refine ⟨s₁, allDescendants, rfl, hview, ?_⟩
      cases hblocks : faults.deleteBlocks <;> cases hstatus : faults.deleteStatus <;>
        simp_all [deleteBlocks, statuses_clear]

theorem storage_deletion (h : (deletion faults s root).isNil = true) :
    (deletion faults s root).bs.statuses root = none ∧
      (∀ c, c = root ∨ Links s.storage root c → (deletion faults s root).bs.storage c = none) ∧
      ∀ c, ¬ (c = root ∨ Links s.storage root c) → (deletion faults s root).bs.storage c = s.storage c := by
  obtain ⟨s₁, allDescendants, hset, hview, hbs⟩ := deletion_nil h
  have hstorage : (clearRootDownloadState s₁ root).storage = s.storage := by
    rw [storage_clear, setStatus_eq hset]
    rfl
  have hmem := mem_of_viewDescendants hview
  rw [hstorage] at hmem
  rw [hbs]
  refine ⟨Function.update_self .., fun c hc => if_pos (List.contains_iff_mem.2 ((hmem c).2 hc)), fun c hc => ?_⟩
  calc (deleteBlocks (clearRootDownloadState s₁ root) allDescendants).storage c
      = (clearRootDownloadState s₁ root).storage c := if_neg fun h => hc ((hmem c).1 (List.contains_iff_mem.1 h))
    _ = s.storage c := by rw [hstorage]

/-- **Deleting a root** deletes its tree exactly where the tree has no block below the links of the root. -/
theorem deleted_iff_twoLevels (hstored : CompletelyStored s.storage root)
    (hnil : (deletion faults s root).isNil = true) :
    Deleted s (deletion faults s root).bs root ↔ TwoLevels s.storage root := by
  obtain ⟨hstatus, hgone, hkept⟩ := storage_deletion hnil
  constructor
  · intro h c hc
    by_contra hne
    exact hstored c hc ((hkept c hne).symm.trans (h.tree c hc))
  · intro h
    refine ⟨fun c hc => hgone c (h c hc), hstatus, fun c hc => hkept c ?_⟩
    rintro (rfl | hlink)
    · exact hc Relation.ReflTransGen.refl
    · exact hc (.of_links hlink)

end Deletion

/-! ### A chain of blocks -/

def chainLink (i : Nat) : Cid := Vector.replicate 32 (UInt8.ofNat i)

/-- Blocks that each have the next as their only link, the last with none. -/
def chainStorage (n : Nat) : BlockMap := fun c =>
  let i := (c.head).toNat
  if c = chainLink i ∧ i ≤ n then some (encodeBlock (if i < n then [chainLink (i + 1)] else []) []) else none

/-- The chain is stored as the full tree of its first block. -/
def chainState (n : Nat) : BitswapState :=
  { emptyMachine.bs with
    storage := chainStorage n
    statuses := fun root => if root = chainLink 0 then some .Full else none }

theorem links_of_stored {storage : BlockMap} {l : Cid} {links : List BitswapBlockLink} {chunk : Bytes}
    (hc : storage c = some (encodeBlock links chunk)) (hlen : links.length ≤ 65535) : Links storage c l ↔ l ∈ links := by
  simp [Links, hc, readBitswapBlock_encodeBlock hlen]

section Chain

variable {n i : Nat}

theorem chainStorage_chainLink (hn : n ≤ 255) (hi : i ≤ n) :
    chainStorage n (chainLink i) = some (encodeBlock (if i < n then [chainLink (i + 1)] else []) []) := by
  have hhead : (chainLink i).head.toNat = i := by
    simp [chainLink, Vector.head]
    omega
  simp [chainStorage, hhead, hi]

theorem links_chain {l : Cid} (hn : n ≤ 255) (hi : i ≤ n) :
    Links (chainStorage n) (chainLink i) l ↔ i < n ∧ l = chainLink (i + 1) := by
  rw [links_of_stored (chainStorage_chainLink hn hi) (by split <;> simp)]
  split <;> simp_all

theorem inTree_chain {c : Cid} (hn : n ≤ 255) (h : InTree (chainStorage n) (chainLink 0) c) :
    ∃ i ≤ n, c = chainLink i := by
  induction h with
  | refl => exact ⟨0, Nat.zero_le n, rfl⟩
  | tail _ hlink ih =>
    obtain ⟨i, hi, rfl⟩ := ih
    obtain ⟨hlt, rfl⟩ := (links_chain hn hi).1 hlink
    exact ⟨i + 1, hlt, rfl⟩

theorem completelyStored_chain (hn : n ≤ 255) : CompletelyStored (chainState n).storage (chainLink 0) := by
  intro c hc
  obtain ⟨i, hi, rfl⟩ := inTree_chain hn hc
  exact (chainStorage_chainLink hn hi).trans_ne (Option.some_ne_none _)

end Chain

/-- The condition is met by a root with one leaf. -/
theorem deleted_iff_twoLevels_chain : (deletion noFaults (chainState 1) (chainLink 0)).isNil = true ∧
      (Deleted (chainState 1) (deletion noFaults (chainState 1) (chainLink 0)).bs (chainLink 0) ↔
        TwoLevels (chainState 1).storage (chainLink 0)) := by
  have hnil : (deletion noFaults (chainState 1) (chainLink 0)).isNil = true := by decide
  exact ⟨hnil, deleted_iff_twoLevels (completelyStored_chain (by decide)) hnil⟩

/-- **A block below the second level stays.** The root links a block that links a third one, and the third one is
in storage after the root is deleted. -/
theorem third_level_stays :
    ¬ ∀ (faults : Faults) (s : BitswapState) (root : Root), s.statuses root ≠ none → CompletelyStored s.storage root →
      (deletion faults s root).isNil = true → Deleted s (deletion faults s root).bs root := by
  intro h
  have hdeleted := h noFaults (chainState 2) (chainLink 0) (by decide) (completelyStored_chain (by decide)) (by decide)
  have hfirst : Links (chainStorage 2) (chainLink 0) (chainLink 1) := (links_chain (by decide) (by decide)).2 ⟨by decide, rfl⟩
  have hsecond : Links (chainStorage 2) (chainLink 1) (chainLink 2) := (links_chain (by decide) (by decide)).2 ⟨by decide, rfl⟩
  have hgone := hdeleted.tree (chainLink 2) ((InTree.of_links hfirst).tail hsecond)
  exact absurd hgone (by decide)

end MinaProtocol.Bitswap
