import MinaProtocol.Lib.FoldMap
import MinaProtocol.TransitionHandler.CatchupScheduler

/-!
# TransitionHandler.Subtrees

What `extract_forest` and `remove_tree` do with the table of waiting blocks. The table is a forest: a hash commits
to the previous hash, so a block waits under one hash only, and no block is below itself. The trees that are
extracted have the blocks below a hash, each one under its parent, and those are the keys that are removed.
-/

namespace MinaProtocol.TransitionHandler

open Std ParentTree

namespace RoseTree

variable {α K : Type} (key : α → K)

mutual

/-- The values of a tree, each with the key of the value above it. -/
def placed (above : K) : RoseTree α → List (K × α)
  | .T value children => (above, value) :: placedAll (key value) children

/-- The values of trees below one key, each with the key of the value above it. -/
def placedAll (above : K) : List (RoseTree α) → List (K × α)
  | [] => []
  | tree :: trees => placed above tree ++ placedAll above trees

end

end RoseTree

variable {Transition Hash Callback : Type} [LinearOrder Hash] {B : Header Transition Hash}
  {previous : Hash → Hash} {height : Hash → Nat}

/-- The hash of a block commits to the previous hash, and is further from the first block. -/
structure Committed (B : Header Transition Hash) (previous : Hash → Hash) (height : Hash → Nat) : Prop where
  previous_eq : ∀ b, B.previousStateHash b = previous (B.stateHash b)
  height_eq : ∀ b, height (B.stateHash b) = height (B.previousStateHash b) + 1

/-- The blocks that wait under a hash in the table. -/
def waiting (collected : ExtTreeMap Hash (List Transition)) (hash : Hash) : List Transition := collected[hash]?.getD []

/-- The hashes of these blocks. -/
def childrenOf (B : Header Transition Hash) (collected : ExtTreeMap Hash (List Transition)) (hash : Hash) : List Hash :=
  (waiting collected hash).map B.stateHash

/-- The hash that a block waits under. -/
def parentOf (B : Header Transition Hash) (previous : Hash → Hash) (collected : ExtTreeMap Hash (List Transition))
    (hash : Hash) : Option Hash :=
  if hash ∈ childrenOf B collected (previous hash) then some (previous hash) else none

/-- Every block waits under its parent, once. -/
structure IsForest (B : Header Transition Hash) (collected : ExtTreeMap Hash (List Transition)) : Prop where
  parent_eq : ∀ h, ∀ b ∈ waiting collected h, B.previousStateHash b = h
  nodup : ∀ h, (childrenOf B collected h).Nodup

variable {collected : ExtTreeMap Hash (List Transition)} {h : Hash}

section Forest

variable {x : Hash} {b : Transition}

theorem mem_childrenOf : x ∈ childrenOf B collected h ↔ ∃ b ∈ waiting collected h, B.stateHash b = x := List.mem_map

theorem mem_of_waiting (hb : b ∈ waiting collected h) : h ∈ collected := by
  rw [ExtTreeMap.mem_iff_isSome_getElem?]
  unfold waiting at hb
  cases hf : collected[h]? with
  | none => simp [hf] at hb
  | some l => rfl

variable (hB : Committed B previous height)

include hB

variable (hf : IsForest B collected)

include hf

theorem parentOf_eq_some : parentOf B previous collected x = some h ↔ x ∈ childrenOf B collected h := by
  unfold parentOf
  constructor
  · intro hp
    split at hp
    · rename_i hx
      rwa [← Option.some.inj hp]
    · cases hp
  · intro hx
    obtain ⟨b, hb, rfl⟩ := mem_childrenOf.1 hx
    have hprevious : previous (B.stateHash b) = h := (hB.previous_eq b).symm.trans (hf.parent_eq h b hb)
    rw [hprevious, if_pos hx]

theorem ranked : Ranked (parentOf B previous collected) height := by
  intro x p hp
  obtain ⟨b, hb, rfl⟩ := mem_childrenOf.1 ((parentOf_eq_some hB hf).1 hp)
  rw [hB.height_eq, hf.parent_eq p b hb]

theorem below_iff : Below (parentOf B previous collected) h x ↔
      x = h ∨ ∃ b ∈ waiting collected h, Below (parentOf B previous collected) (B.stateHash b) x := by
  rw [Below.iff_child]
  refine or_congr_right ⟨?_, ?_⟩
  · intro hx
    obtain ⟨c, hc, hcx⟩ := hx
    obtain ⟨b, hb, rfl⟩ := mem_childrenOf.1 ((parentOf_eq_some hB hf).1 hc)
    exact ⟨b, hb, hcx⟩
  · intro hx
    obtain ⟨b, hb, hbx⟩ := hx
    exact ⟨B.stateHash b, (parentOf_eq_some hB hf).2 (mem_childrenOf.2 ⟨b, hb, rfl⟩), hbx⟩

theorem eq_of_below {b c : Transition} (hb : b ∈ waiting collected h) (hc : c ∈ waiting collected h)
    (hbx : Below (parentOf B previous collected) (B.stateHash b) x)
    (hcx : Below (parentOf B previous collected) (B.stateHash c) x) : B.stateHash b = B.stateHash c := by
  refine (ranked hB hf).unique hbx hcx ?_
  rw [hB.height_eq, hB.height_eq, hf.parent_eq h b hb, hf.parent_eq h c hc]

theorem not_below_of_waiting (hb : b ∈ waiting collected h) :
    ¬ Below (parentOf B previous collected) (B.stateHash b) h :=
  (ranked hB hf).not_below_parent ((parentOf_eq_some hB hf).2 (mem_childrenOf.2 ⟨b, hb, rfl⟩))

omit hf

omit hB

/-- The keys that are at least so far from the first block. -/
def keysFrom (height : Hash → Nat) (collected : ExtTreeMap Hash (List Transition)) (n : Nat) : Nat :=
  (collected.keys.filter fun k => n ≤ height k).length

theorem keysFrom_lt (height : Hash → Nat) (hx : h ∈ collected) :
    keysFrom height collected (height h + 1) < keysFrom height collected (height h) := by
  unfold keysFrom
  have hmem : h ∈ collected.keys.filter fun k => decide (height h ≤ height k) :=
    List.mem_filter.2 ⟨ExtTreeMap.mem_keys.2 hx, by simp⟩
  have hsub : (collected.keys.filter fun k => decide (height h + 1 ≤ height k)).Subperm
      ((collected.keys.filter fun k => decide (height h ≤ height k)).erase h) := by
    refine List.subperm_of_subset ((ExtTreeMap.nodup_keys).filter _) fun k hk => ?_
    obtain ⟨hk, hlt⟩ := List.mem_filter.1 hk
    have hlt : height h + 1 ≤ height k := of_decide_eq_true hlt
    refine (List.mem_erase_of_ne ?_).2 (List.mem_filter.2 ⟨hk, by simp; omega⟩)
    intro hkh
    rw [hkh] at hlt
    omega
  have hle := hsub.length_le
  rw [List.length_erase_of_mem hmem] at hle
  have hpos := List.length_pos_of_mem hmem
  omega

theorem keysFrom_le_size (height : Hash → Nat) (n : Nat) : keysFrom height collected n ≤ collected.size := by
  unfold keysFrom
  rw [← ExtTreeMap.length_keys]
  exact List.length_filter_le _ _

end Forest

/-! ### Extraction -/

section Extraction

variable {t : Scheduler Transition Hash Callback}

/-- The hashes of the blocks in trees. -/
def hashes (B : Header Transition Hash) (l : List (Hash × Transition × Option Callback)) : List Hash :=
  l.map fun p => B.stateHash p.2.1

/-- The trees have the blocks below a list of waiting blocks, each once, under its parent and with its callback. -/
structure Extracts (B : Header Transition Hash) (previous : Hash → Hash) (t : Scheduler Transition Hash Callback)
    (roots : List Transition) (l : List (Hash × Transition × Option Callback)) : Prop where
  mem_hashes : ∀ x, x ∈ hashes B l ↔
    ∃ b ∈ roots, Below (parentOf B previous t.collectedTransitions) (B.stateHash b) x
  nodup : (hashes B l).Nodup
  placed : ∀ p ∈ l, p.2.1 ∈ t.successors p.1 ∧ p.2.2 = t.validationCallbacks[B.stateHash p.2.1]?

theorem extracts_all (hB : Committed B previous height) (hf : IsForest B t.collectedTransitions)
    {roots : List Transition} {trees : List (RoseTree (Transition × Option Callback))}
    (hroots : ∀ b ∈ roots, b ∈ waiting t.collectedTransitions h) (hnodup : (roots.map B.stateHash).Nodup)
    (htrees : List.Forall₂ (fun b tree => Extracts B previous t [b] (RoseTree.placed (fun v => B.stateHash v.1) h tree))
      roots trees) : Extracts B previous t roots (RoseTree.placedAll (fun v => B.stateHash v.1) h trees) := by
  induction htrees with
  | nil => exact ⟨by simp [RoseTree.placedAll, hashes], by simp [RoseTree.placedAll, hashes], by simp [RoseTree.placedAll]⟩
  | @cons b tree roots trees hb _ ih =>
    rw [List.map_cons, List.nodup_cons] at hnodup
    have hrest := ih (fun c hc => hroots c (List.mem_cons_of_mem b hc)) hnodup.2
    rw [RoseTree.placedAll]
    refine ⟨fun x => ?_, ?_, fun p hp => (List.mem_append.1 hp).elim (hb.placed p) (hrest.placed p)⟩
    · rw [hashes, List.map_append, List.mem_append]
      refine (or_congr (hb.mem_hashes x) (hrest.mem_hashes x)).trans ?_
      simp
    · rw [hashes, List.map_append]
      refine List.Nodup.append hb.nodup hrest.nodup fun x hx hx' => ?_
      obtain ⟨b', hb', hbx⟩ := (hb.mem_hashes x).1 hx
      obtain ⟨c, hc, hcx⟩ := (hrest.mem_hashes x).1 hx'
      rw [List.mem_singleton.1 hb'] at hbx
      have heq := eq_of_below hB hf (hroots b List.mem_cons_self) (hroots c (List.mem_cons_of_mem b hc)) hbx hcx
      exact hnodup.1 (heq ▸ List.mem_map_of_mem hc)

/-- A block over the trees of the blocks that wait under it. -/
theorem Extracts.cons (hB : Committed B previous height) (hf : IsForest B t.collectedTransitions) {h : Hash} {b : Transition}
    {l : List (Hash × Transition × Option Callback)} (hb : b ∈ waiting t.collectedTransitions h)
    (hl : Extracts B previous t (waiting t.collectedTransitions (B.stateHash b)) l) :
    Extracts B previous t [b] ((h, b, t.validationCallbacks[B.stateHash b]?) :: l) := by
  refine ⟨fun x => ?_, ?_, fun p hp => ?_⟩
  · rw [hashes, List.map_cons, List.mem_cons]
    refine (or_congr_right (hl.mem_hashes x)).trans ?_
    simp [below_iff hB hf (h := B.stateHash b)]
  · rw [hashes, List.map_cons, List.nodup_cons]
    refine ⟨fun hmem => ?_, hl.nodup⟩
    obtain ⟨c, hc, hcb⟩ := (hl.mem_hashes _).1 hmem
    exact not_below_of_waiting hB hf hc hcb
  · rcases List.mem_cons.1 hp with rfl | hp
    · exact ⟨hb, rfl⟩
    · exact hl.placed p hp

/-- **A subtree** is extracted, if the depth exceeds the number of keys that can be on the way. -/
theorem extractSubtree_spec (hB : Committed B previous height) (hf : IsForest B t.collectedTransitions)
    {b : Transition} {depth : Nat} (hb : b ∈ waiting t.collectedTransitions h)
    (hdepth : keysFrom height t.collectedTransitions (height (B.stateHash b)) < depth) :
    ∃ tree, t.extractSubtree B depth b = some tree ∧
      Extracts B previous t [b] (RoseTree.placed (fun v => B.stateHash v.1) h tree) := by
  induction depth generalizing b h with
  | zero => omega
  | succ depth ih =>
    have hchildren : ∀ c ∈ t.successors (B.stateHash b), ∃ tree, t.extractSubtree B depth c = some tree ∧
        Extracts B previous t [c] (RoseTree.placed (fun v => B.stateHash v.1) (B.stateHash b) tree) := by
      intro c hc
      refine ih hc ?_
      have hlt := keysFrom_lt height (mem_of_waiting hc)
      rw [hB.height_eq, hf.parent_eq _ c hc]
      omega
    obtain ⟨trees, htrees, hall⟩ := exists_mapM hchildren
    refine ⟨.T (b, t.validationCallbacks[B.stateHash b]?) trees, ?_, ?_⟩
    · simp [Scheduler.extractSubtree, htrees]
    · rw [RoseTree.placed]
      exact .cons hB hf hb (extracts_all hB hf (fun _ hc => hc) (hf.nodup _) hall)

/-- **`extract_forest`** returns the trees below a hash. -/
theorem extractForest_spec (hB : Committed B previous height) (hf : IsForest B t.collectedTransitions) (h : Hash) :
    ∃ trees, t.extractForest B h = some (h, trees) ∧
      Extracts B previous t (waiting t.collectedTransitions h) (RoseTree.placedAll (fun v => B.stateHash v.1) h trees) := by
  have hchildren : ∀ b ∈ t.successors h, ∃ tree, t.extractSubtree B t.depth b = some tree ∧
      Extracts B previous t [b] (RoseTree.placed (fun v => B.stateHash v.1) h tree) := by
    intro b hb
    exact extractSubtree_spec hB hf hb (Nat.lt_succ_of_le (keysFrom_le_size height _))
  obtain ⟨trees, htrees, hall⟩ := exists_mapM hchildren
  refine ⟨trees, ?_, extracts_all hB hf (fun _ hb => hb) (hf.nodup h) hall⟩
  simp [Scheduler.extractForest, htrees]

end Extraction

/-! ### Removal -/

section Removal

variable {acc : ExtTreeMap Hash (List Transition)}

/-- The entries with these keys are gone, and the others are as before. -/
def Removes (keys : Hash → Prop) (before after : ExtTreeMap Hash (List Transition)) : Prop :=
  ∀ k, (keys k → after[k]? = none) ∧ (¬ keys k → after[k]? = before[k]?)

variable (hB : Committed B previous height)

include hB

theorem removeTree_all (hf : IsForest B collected)
    {step : ExtTreeMap Hash (List Transition) → Transition → Option (ExtTreeMap Hash (List Transition))}
    {roots : List Transition} (hroots : ∀ b ∈ roots, b ∈ waiting collected h) (hnodup : (roots.map B.stateHash).Nodup)
    (hstep : ∀ b ∈ roots, ∀ acc, (∀ k, Below (parentOf B previous collected) (B.stateHash b) k → acc[k]? = collected[k]?) →
      ∃ acc', step acc b = some acc' ∧ Removes (Below (parentOf B previous collected) (B.stateHash b)) acc acc')
    (hacc : ∀ b ∈ roots, ∀ k, Below (parentOf B previous collected) (B.stateHash b) k → acc[k]? = collected[k]?) :
    ∃ acc', roots.foldlM step acc = some acc' ∧
      Removes (fun k => ∃ b ∈ roots, Below (parentOf B previous collected) (B.stateHash b) k) acc acc' := by
  induction roots generalizing acc with
  | nil => exact ⟨acc, rfl, fun k => ⟨by simp, fun _ => rfl⟩⟩
  | cons b roots ih =>
    rw [List.map_cons, List.nodup_cons] at hnodup
    obtain ⟨acc₁, h₁, hremoves₁⟩ := hstep b List.mem_cons_self acc (hacc b List.mem_cons_self)
    -- nothing below the other blocks has been touched
    have hacc₁ : ∀ c ∈ roots, ∀ k, Below (parentOf B previous collected) (B.stateHash c) k → acc₁[k]? = collected[k]? := by
      intro c hc k hk
      have hnot : ¬ Below (parentOf B previous collected) (B.stateHash b) k := by
        intro hbk
        have heq := eq_of_below hB hf (hroots b List.mem_cons_self) (hroots c (List.mem_cons_of_mem b hc)) hbk hk
        exact hnodup.1 (heq ▸ List.mem_map_of_mem hc)
      rw [(hremoves₁ k).2 hnot]
      exact hacc c (List.mem_cons_of_mem b hc) k hk
    obtain ⟨acc₂, h₂, hremoves₂⟩ := ih (fun c hc => hroots c (List.mem_cons_of_mem b hc)) hnodup.2
      (fun c hc => hstep c (List.mem_cons_of_mem b hc)) hacc₁
    refine ⟨acc₂, by rw [List.foldlM_cons, h₁]; exact h₂, fun k => ⟨fun hk => ?_, fun hk => ?_⟩⟩
    · by_cases hrest : ∃ c ∈ roots, Below (parentOf B previous collected) (B.stateHash c) k
      · exact (hremoves₂ k).1 hrest
      · obtain ⟨c, hc, hck⟩ := hk
        rcases List.mem_cons.1 hc with rfl | hc
        · rw [(hremoves₂ k).2 hrest]
          exact (hremoves₁ k).1 hck
        · exact absurd ⟨c, hc, hck⟩ hrest
    · rw [(hremoves₂ k).2 fun hrest => hk ?_, (hremoves₁ k).2 fun hbk => hk ⟨b, List.mem_cons_self, hbk⟩]
      obtain ⟨c, hc, hck⟩ := hrest
      exact ⟨c, List.mem_cons_of_mem b hc, hck⟩

/-- `remove_tree`, on a table that still has all below the hash. -/
theorem removeTree_below (hf : IsForest B collected) {depth : Nat}
    (hdepth : keysFrom height collected (height h) < depth)
    (hacc : ∀ k, Below (parentOf B previous collected) h k → acc[k]? = collected[k]?) :
    ∃ acc', removeTree B depth acc h = some acc' ∧ Removes (Below (parentOf B previous collected) h) acc acc' := by
  induction depth generalizing h acc with
  | zero => omega
  | succ depth ih =>
    have hroots : acc[h]?.getD [] = waiting collected h := by
      rw [hacc h .refl]
      rfl
    have hrest : ∀ b ∈ waiting collected h, ∀ k, Below (parentOf B previous collected) (B.stateHash b) k →
        (acc.erase h)[k]? = collected[k]? := by
      intro b hb k hk
      have hne : h ≠ k := by
        intro hkh
        rw [← hkh] at hk
        exact not_below_of_waiting hB hf hb hk
      rw [ExtTreeMap.getElem?_erase, if_neg (by simpa using hne)]
      exact hacc k ((below_iff hB hf).2 (.inr ⟨b, hb, hk⟩))
    have hstep : ∀ b ∈ waiting collected h, ∀ acc : ExtTreeMap Hash (List Transition),
        (∀ k, Below (parentOf B previous collected) (B.stateHash b) k → acc[k]? = collected[k]?) →
        ∃ acc', removeTree B depth acc (B.stateHash b) = some acc' ∧
          Removes (Below (parentOf B previous collected) (B.stateHash b)) acc acc' := by
      intro b hb acc hacc
      refine ih ?_ hacc
      have hlt := keysFrom_lt height (mem_of_waiting hb)
      rw [hB.height_eq, hf.parent_eq _ b hb]
      omega
    obtain ⟨acc', hacc', hremoves⟩ := removeTree_all hB hf (fun b hb => hb) (hf.nodup h) hstep hrest
    refine ⟨acc', ?_, fun k => ⟨fun hk => ?_, fun hk => ?_⟩⟩
    · rw [removeTree, hroots]
      exact hacc'
    · by_cases hbelow : ∃ b ∈ waiting collected h, Below (parentOf B previous collected) (B.stateHash b) k
      · exact (hremoves k).1 hbelow
      · obtain rfl := ((below_iff hB hf).1 hk).resolve_right hbelow
        rw [(hremoves k).2 hbelow]
        simp
    · rw [below_iff hB hf, not_or] at hk
      rw [(hremoves k).2 hk.2, ExtTreeMap.getElem?_erase, if_neg (by simpa using Ne.symm hk.1)]

/-- **`remove_tree`** removes what is below the hash. -/
theorem removeTree_spec (hf : IsForest B collected) (h : Hash) :
    ∃ collected', removeTree B (collected.size + 1) collected h = some collected' ∧
      Removes (Below (parentOf B previous collected) h) collected collected' :=
  removeTree_below hB hf (Nat.lt_succ_of_le (keysFrom_le_size height _)) fun _ _ => rfl

omit hB

end Removal

end MinaProtocol.TransitionHandler
