import MinaProtocol.TransitionFrontier.Runs

/-!
# TransitionFrontier.CommonAncestor

`common_ancestor` of `full_frontier.ml`: two walks go up from two breadcrumbs, a step each at
a time, and stop when one of them comes to where the other has been. A walk has visited what
lies between its start and where it is, so the walks stop at the lowest common ancestor: above
it, both of them have been there.
-/

namespace MinaProtocol.TransitionFrontier

open Std ParentTree
open Sound (Stored)

namespace Frontier

/-- `parent_unless_root`. -/
def parentUnlessRoot (t : Frontier) (breadcrumb : Breadcrumb) : Except Exn Breadcrumb :=
  if breadcrumb.stateHash = t.root then .ok breadcrumb else t.findExn breadcrumb.parentHash

/-- `go` of `common_ancestor`. -/
def goCommonAncestor (t : Frontier) : Nat → ExtTreeSet Nat → ExtTreeSet Nat → Breadcrumb → Breadcrumb → Except Exn Nat
  | 0, _, _, _, _ => .error .outOfFuel
  | fuel + 1, ancestors1, ancestors2, b1, b2 =>
    let sh1 := b1.stateHash
    let sh2 := b2.stateHash
    let ancestors1 := ancestors1.insert sh1
    let ancestors2 := ancestors2.insert sh2
    if sh2 ∈ ancestors1 then .ok sh2
    else if sh1 ∈ ancestors2 then .ok sh1
    else do
      let b1 ← t.parentUnlessRoot b1
      let b2 ← t.parentUnlessRoot b2
      t.goCommonAncestor fuel ancestors1 ancestors2 b1 b2

/-- `common_ancestor`. -/
def commonAncestor (t : Frontier) (fuel : Nat) (bc1 bc2 : Breadcrumb) : Except Exn Nat :=
  t.goCommonAncestor fuel ∅ ∅ bc1 bc2

end Frontier

/-- The table is a tree with the root: it has the parent of each other entry, and the parents of
an entry lead to the root. -/
structure Rooted (t : Frontier) : Prop where
  root_mem : t.root ∈ t.table
  stateHash_eq : ∀ (hash : Nat) (node : Node), t.table[hash]? = some node →
    node.breadcrumb.stateHash = hash
  parent_mem : ∀ (hash : Nat) (node : Node), t.table[hash]? = some node → hash ≠ t.root →
    node.breadcrumb.parentHash ∈ t.table
  below_root : ∀ hash ∈ t.table, Below t.parentOf t.root hash

variable {t : Frontier} {b b' : Breadcrumb} {hash : Nat}

theorem Frontier.parentOf_root (t : Frontier) : t.parentOf t.root = none := if_pos rfl

namespace Rooted

theorem ranked (ht : Rooted t) : ∃ height, Ranked t.parentOf height := by
  refine exists_ranked t.parentOf_root fun x p hp => ht.below_root x ?_
  obtain ⟨-, node, hx, -⟩ := Frontier.parentOf_eq_some.1 hp
  exact Frontier.mem_table hx

theorem parentUnlessRoot_ok (ht : Rooted t) (hb : Stored t b) : ∃ b', t.parentUnlessRoot b = .ok b' ∧ Stored t b'
      ∧ (b.stateHash = t.root ∧ b' = b ∨ t.parentOf b.stateHash = some b'.stateHash) := by
  unfold Frontier.parentUnlessRoot
  by_cases hroot : b.stateHash = t.root
  · exact ⟨b, if_pos hroot, hb, .inl ⟨hroot, rfl⟩⟩
  · obtain ⟨node, hnode, rfl⟩ := hb
    obtain ⟨parentNode, hp⟩ := Frontier.exists_node (ht.parent_mem _ node hnode hroot)
    have heq := ht.stateHash_eq _ parentNode hp
    refine ⟨parentNode.breadcrumb, ?_, ⟨parentNode, by rwa [heq], rfl⟩, .inr ?_⟩
    · rw [if_neg hroot]
      unfold Frontier.findExn Frontier.findNodeExn
      rw [hp]
      rfl
    · rw [heq]
      exact Sound.parentOf_stored ⟨node, hnode, rfl⟩ hroot

end Rooted

/-! ### A walk -/

/-- A walk from `x` is at the breadcrumb, and has visited all that lies between. -/
structure Walk (t : Frontier) (x : Nat) (visited : ExtTreeSet Nat) (b : Breadcrumb) : Prop where
  stored : Stored t b
  above : Below t.parentOf b.stateHash x
  visited_below : ∀ a ∈ visited, Below t.parentOf a x ∧ Below t.parentOf b.stateHash a
  visited_or_above : ∀ a, Below t.parentOf a x → a ∈ visited ∨ Below t.parentOf a b.stateHash

namespace Walk

variable {x y m : Nat} {visited visited1 visited2 : ExtTreeSet Nat} {b1 b2 : Breadcrumb} {a : Nat}

theorem start (hb : Stored t b) : Walk t b.stateHash ∅ b where
  stored := hb
  above := .refl
  visited_below _ ha := absurd ha ExtTreeSet.not_mem_empty
  visited_or_above _ ha := .inr ha

theorem mem_insert {k : Nat} : a ∈ visited.insert k ↔ k = a ∨ a ∈ visited := by
  rw [ExtTreeSet.mem_insert, Nat.compare_eq_eq]

theorem below_of_mem (h : Walk t x visited b) (ha : a ∈ visited.insert b.stateHash) :
    Below t.parentOf a x ∧ Below t.parentOf b.stateHash a := by
  obtain rfl | ha := mem_insert.1 ha
  · exact ⟨h.above, .refl⟩
  · exact h.visited_below a ha

theorem step (h : Walk t x visited b) (hb' : Stored t b')
    (hstep : b.stateHash = t.root ∧ b' = b ∨ t.parentOf b.stateHash = some b'.stateHash) :
    Walk t x (visited.insert b.stateHash) b' := by
  obtain ⟨-, rfl⟩ | hp := hstep
  · refine ⟨hb', h.above, fun a ha => h.below_of_mem ha, fun a ha => ?_⟩
    exact (h.visited_or_above a ha).imp_left fun ha => mem_insert.2 (.inr ha)
  · have habove := Below.of_parent hp
    refine ⟨hb', habove.trans h.above, fun a ha => ?_, fun a ha => ?_⟩
    · exact ⟨(h.below_of_mem ha).1, habove.trans (h.below_of_mem ha).2⟩
    · obtain hmem | hbelow := h.visited_or_above a ha
      · exact .inl (mem_insert.2 (.inr hmem))
      · obtain heq | ⟨p, hp', hbelow⟩ := Below.iff_parent.1 hbelow
        · exact .inl (mem_insert.2 (.inl heq))
        · obtain rfl := Option.some.inj (hp.symm.trans hp')
          exact .inr hbelow

/-- Where the second walk comes to what the first one has visited is the lowest common ancestor,
if they have not both been there before. -/
theorem eq_lowest {height : Nat → Nat} (hr : Ranked t.parentOf height) (hm : LowestCommon t.parentOf m x y)
    (h1 : Walk t x visited1 b1) (h2 : Walk t y visited2 b2) (hnew : ¬ (m ∈ visited1 ∧ m ∈ visited2))
    (hmem : b2.stateHash ∈ visited1.insert b1.stateHash) : b2.stateHash = m := by
  obtain ⟨hx, hbelow⟩ := h1.below_of_mem hmem
  have habove := hm.lowest b2.stateHash hx h2.above
  have heq : Below t.parentOf m b2.stateHash → b2.stateHash = m :=
    fun h => hr.eq_of_height_le h (hr.height_le habove)
  by_contra hne
  refine hnew ⟨?_, ?_⟩
  · exact (h1.visited_or_above m hm.left).resolve_right fun h => hne (heq (h.trans hbelow))
  · exact (h2.visited_or_above m hm.right).resolve_right fun h => hne (heq h)

end Walk

theorem goCommonAncestor_ok {height : Nat → Nat} (ht : Rooted t) (hr : Ranked t.parentOf height)
    {x y m : Nat} (hm : LowestCommon t.parentOf m x y) (fuel : Nat) {visited1 visited2 : ExtTreeSet Nat}
    {b1 b2 : Breadcrumb} (h1 : Walk t x visited1 b1) (h2 : Walk t y visited2 b2)
    (hnew : ¬ (m ∈ visited1 ∧ m ∈ visited2)) (hfuel : height b1.stateHash + height b2.stateHash < fuel) :
    t.goCommonAncestor fuel visited1 visited2 b1 b2 = .ok m := by
  induction fuel generalizing visited1 visited2 b1 b2 with
  | zero => omega
  | succ fuel ih =>
    rw [Frontier.goCommonAncestor]
    by_cases hmem2 : b2.stateHash ∈ visited1.insert b1.stateHash
    · rw [if_pos hmem2, h1.eq_lowest hr hm h2 hnew hmem2]
    · rw [if_neg hmem2]
      by_cases hmem1 : b1.stateHash ∈ visited2.insert b2.stateHash
      · rw [if_pos hmem1, h2.eq_lowest hr hm.symm h1 (fun h => hnew h.symm) hmem1]
      · rw [if_neg hmem1]
        obtain ⟨b1', hb1, hstored1, hstep1⟩ := ht.parentUnlessRoot_ok h1.stored
        obtain ⟨b2', hb2, hstored2, hstep2⟩ := ht.parentUnlessRoot_ok h2.stored
        rw [hb1, hb2]
        refine ih (h1.step hstored1 hstep1) (h2.step hstored2 hstep2) ?_ ?_
        · rintro ⟨hm1, hm2⟩
          obtain rfl | hv1 := Walk.mem_insert.1 hm1
          · exact hmem1 hm2
          · obtain rfl | hv2 := Walk.mem_insert.1 hm2
            · exact hmem2 hm1
            · exact hnew ⟨hv1, hv2⟩
        · -- not both walks are at the root
          have hne : b1.stateHash ≠ b2.stateHash := fun h => hmem2 (Walk.mem_insert.2 (.inl h))
          obtain ⟨hroot1, rfl⟩ | hp1 := hstep1 <;> obtain ⟨hroot2, rfl⟩ | hp2 := hstep2
          · exact absurd (hroot1.trans hroot2.symm) hne
          · have := hr _ _ hp2
            omega
          · have := hr _ _ hp1
            omega
          · have := hr _ _ hp1
            have := hr _ _ hp2
            omega

/-- **The common ancestor is the lowest one.** In a table that is a tree the search returns the
hash of the lowest common ancestor of any two breadcrumbs, in either order. -/
theorem common_ancestor_lowest (t : Frontier) (ht : Rooted t) (bc1 bc2 : Breadcrumb)
    (h1 : Stored t bc1) (h2 : Stored t bc2) : ∃ m, LowestCommon t.parentOf m bc1.stateHash bc2.stateHash
      ∧ ∃ n, ∀ fuel, n ≤ fuel →
        t.commonAncestor fuel bc1 bc2 = .ok m ∧ t.commonAncestor fuel bc2 bc1 = .ok m := by
  obtain ⟨height, hr⟩ := ht.ranked
  have hbelow : ∀ b, Stored t b → Below t.parentOf t.root b.stateHash := by
    rintro b ⟨node, hnode, -⟩
    exact ht.below_root _ (Frontier.mem_table hnode)
  obtain ⟨m, hm⟩ := LowestCommon.exists_of_below (hbelow bc1 h1) (hbelow bc2 h2)
  have hnew : ¬ (m ∈ (∅ : ExtTreeSet Nat) ∧ m ∈ (∅ : ExtTreeSet Nat)) :=
    fun h => ExtTreeSet.not_mem_empty h.1
  refine ⟨m, hm, height bc1.stateHash + height bc2.stateHash + 1, fun fuel hfuel => ⟨?_, ?_⟩⟩
  · exact goCommonAncestor_ok ht hr hm fuel (.start h1) (.start h2) hnew (by omega)
  · exact goCommonAncestor_ok ht hr hm.symm fuel (.start h2) (.start h1) hnew (by omega)

theorem rooted_of_increasing (hroot : t.root ∈ t.table)
    (h : ∀ entry ∈ t.table.toList, entry.2.breadcrumb.stateHash = entry.1 ∧ (entry.1 = t.root
      ∨ entry.2.breadcrumb.parentHash ∈ t.table ∧ entry.2.breadcrumb.parentHash < entry.1)) :
    Rooted t := by
  have hentry : ∀ (hash : Nat) (node : Node), t.table[hash]? = some node → node.breadcrumb.stateHash = hash
      ∧ (hash = t.root ∨ node.breadcrumb.parentHash ∈ t.table ∧ node.breadcrumb.parentHash < hash) :=
    fun hash node hnode => h (hash, node) (ExtTreeMap.mem_toList_iff_getElem?_eq_some.2 hnode)
  refine ⟨hroot, fun hash node hnode => (hentry hash node hnode).1,
    fun hash node hnode hne => ((hentry hash node hnode).2.resolve_left hne).1, fun hash hmem => ?_⟩
  induction hash using Nat.strong_induction_on with
  | _ hash ih =>
    obtain ⟨node, hnode⟩ := Frontier.exists_node hmem
    by_cases hne : hash = t.root
    · rw [hne]
      exact .refl
    · obtain ⟨hp, hlt⟩ := (hentry hash node hnode).2.resolve_left hne
      exact .step (Frontier.parentOf_eq_some.2 ⟨hne, node, hnode, rfl⟩) (ih _ hlt hp)

/-- Two branches on the genesis block, the even one longer. -/
def forkedFrontier : Frontier where
  root := 10
  bestTip := 31
  table := (∅ : ExtTreeMap Nat Node)
    |>.insert 10 ⟨genesisBreadcrumb, [22, 21], 0⟩
    |>.insert 21 ⟨onParent genesisBreadcrumb 21 1, [31], 1⟩
    |>.insert 31 ⟨onParent (onParent genesisBreadcrumb 21 1) 31 3, [], 2⟩
    |>.insert 22 ⟨onParent genesisBreadcrumb 22 3, [], 1⟩
  protocolStatesForRootScanState := ∅
  maxLength := 3

/-- The walks from the tips of the two branches, of different lengths. -/
theorem common_ancestor_two_branches : ∃ m, LowestCommon forkedFrontier.parentOf m 31 22 ∧ ∃ n, ∀ fuel, n ≤ fuel →
      forkedFrontier.commonAncestor fuel (onParent (onParent genesisBreadcrumb 21 1) 31 3)
          (onParent genesisBreadcrumb 22 3) = .ok m
        ∧ forkedFrontier.commonAncestor fuel (onParent genesisBreadcrumb 22 3)
          (onParent (onParent genesisBreadcrumb 21 1) 31 3) = .ok m :=
  common_ancestor_lowest forkedFrontier (rooted_of_increasing (by decide) (by decide))
    (onParent (onParent genesisBreadcrumb 21 1) 31 3) (onParent genesisBreadcrumb 22 3) ⟨_, rfl, rfl⟩ ⟨_, rfl, rfl⟩

example : forkedFrontier.commonAncestor 3 (onParent (onParent genesisBreadcrumb 21 1) 31 3)
    (onParent genesisBreadcrumb 22 3) = .ok 10 := by rfl

end MinaProtocol.TransitionFrontier
