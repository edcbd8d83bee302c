import Mathlib.Tactic

/-!
# Lib.ParentTree

Trees that are given by the parent of each node. A height that grows by one from a parent
to its children rules out cycles, so the nodes above a node form a line. `subtree` lists
the nodes below a node from lists of children: a node comes before all that is below it.
-/

namespace MinaProtocol.ParentTree

variable {K : Type} {parent : K → Option K} {height : K → Nat} {a b c p x y : K}

/-- Going from parent to parent leads from `x` to `a`. -/
inductive Below (parent : K → Option K) (a : K) : K → Prop
  | refl : Below parent a a
  | step {x p : K} : parent x = some p → Below parent a p → Below parent a x

namespace Below

theorem of_parent (h : parent x = some p) : Below parent p x := .step h .refl

theorem trans (hab : Below parent a b) (hbx : Below parent b x) : Below parent a x := by
  induction hbx with
  | refl => exact hab
  | step hp _ ih => exact .step hp ih

/-- What is below `a` is `a`, or its parent is below `a`. -/
theorem iff_parent : Below parent a x ↔ x = a ∨ ∃ p, parent x = some p ∧ Below parent a p := by
  constructor
  · intro h
    cases h with
    | refl => exact .inl rfl
    | step hp h => exact .inr ⟨_, hp, h⟩
  · rintro (rfl | ⟨p, hp, h⟩)
    · exact .refl
    · exact .step hp h

/-- What is below `a` is `a`, or it is below one of the children of `a`. -/
theorem iff_child : Below parent a x ↔ x = a ∨ ∃ c, parent c = some a ∧ Below parent c x := by
  constructor
  · intro h
    induction h with
    | refl => exact .inl rfl
    | @step x p hp _ ih =>
      obtain rfl | ⟨c, hc, h⟩ := ih
      · exact .inr ⟨x, hp, .refl⟩
      · exact .inr ⟨c, hc, .step hp h⟩
  · rintro (rfl | ⟨c, hc, h⟩)
    · exact .refl
    · exact (of_parent hc).trans h

end Below

/-- The height grows by one from a parent to its children. -/
def Ranked (parent : K → Option K) (height : K → Nat) : Prop :=
  ∀ x p, parent x = some p → height x = height p + 1

namespace Ranked

variable (hr : Ranked parent height)

include hr

theorem height_le (h : Below parent a x) : height a ≤ height x := by
  induction h with
  | refl => exact le_rfl
  | step hp _ ih =>
    have := hr _ _ hp
    omega

theorem eq_of_height_le (h : Below parent a x) (hle : height x ≤ height a) : x = a := by
  cases h with
  | refl => rfl
  | step hp h =>
    have := hr _ _ hp
    have := hr.height_le h
    omega

theorem not_below_parent (hp : parent x = some p) : ¬ Below parent x p := by
  intro h
  have := hr _ _ hp
  have := hr.height_le h
  omega

/-- Of two nodes above a third one, the lower is above the other. -/
theorem linear (ha : Below parent a x) (hb : Below parent b x) (hle : height a ≤ height b) : Below parent a b := by
  induction ha with
  | refl =>
    rw [hr.eq_of_height_le hb hle]
    exact .refl
  | step hp ha ih =>
    cases hb with
    | refl => exact .step hp ha
    | step hp' hb =>
      obtain rfl := Option.some.inj (hp.symm.trans hp')
      exact ih hb

theorem unique (ha : Below parent a x) (hb : Below parent b x) (heq : height a = height b) : a = b :=
  (hr.eq_of_height_le (hr.linear ha hb heq.le) heq.ge).symm

omit hr

end Ranked

/-- Going `n` times from parent to parent leads from `x` to `a`. -/
def Steps (parent : K → Option K) (a : K) (x : K) (n : Nat) : Prop :=
  (fun o => o.bind parent)^[n] (some x) = some a

theorem steps_zero : Steps parent a x 0 ↔ x = a := by
  simp [Steps]

theorem steps_succ (hp : parent x = some p) {n : Nat} : Steps parent a x (n + 1) ↔ Steps parent a p n := by
  simp [Steps, hp]

theorem exists_parent_of_steps {n : Nat} (h : Steps parent a x (n + 1)) : ∃ p, parent x = some p ∧ Steps parent a p n := by
  cases hp : parent x with
  | none =>
    rw [Steps, Function.iterate_succ_apply, Option.bind_some, hp, Function.iterate_fixed rfl] at h
    exact absurd h.symm (Option.some_ne_none a)
  | some p => exact ⟨p, rfl, (steps_succ hp).1 h⟩

theorem exists_ranked (htop : parent a = none) (h : ∀ x p, parent x = some p → Below parent a x) :
    ∃ height, Ranked parent height := by
  classical
  have hsteps : ∀ x, Below parent a x → ∃ n, Steps parent a x n := by
    intro x hx
    induction hx with
    | refl => exact ⟨0, steps_zero.2 rfl⟩
    | step hp _ ih =>
      obtain ⟨n, hn⟩ := ih
      exact ⟨n + 1, (steps_succ hp).2 hn⟩
  refine ⟨fun x => if hx : ∃ n, Steps parent a x n then Nat.find hx else 0, fun x p hp => ?_⟩
  have hne : ¬ Steps parent a x 0 := by
    rw [steps_zero]
    rintro rfl
    exact Option.some_ne_none p (hp.symm.trans htop)
  have hx := hsteps x (h x p hp)
  have hp' : ∃ n, Steps parent a p n := by
    obtain ⟨n, hn⟩ := hx
    cases n with
    | zero => exact absurd hn hne
    | succ n => exact ⟨n, (steps_succ hp).1 hn⟩
  dsimp only
  rw [dif_pos hx, dif_pos hp', Nat.find_comp_succ hx (hp'.imp fun n => (steps_succ hp).2) hne]
  simp only [steps_succ hp]

/-! ### The lowest common ancestor -/

/-- The lowest node that is above both nodes, or equal to one of them. -/
structure LowestCommon (parent : K → Option K) (m x y : K) : Prop where
  left : Below parent m x
  right : Below parent m y
  lowest : ∀ c, Below parent c x → Below parent c y → Below parent c m

namespace LowestCommon

variable {m : K}

theorem symm (h : LowestCommon parent m x y) : LowestCommon parent m y x :=
  ⟨h.right, h.left, fun c hx hy => h.lowest c hy hx⟩

theorem exists_of_below (hx : Below parent a x) (hy : Below parent a y) : ∃ m, LowestCommon parent m x y := by
  induction hx with
  | refl => exact ⟨a, .refl, hy, fun c hc _ => hc⟩
  | @step x p hp hx ih =>
    by_cases hxy : Below parent x y
    · exact ⟨x, .refl, hxy, fun c hc _ => hc⟩
    · obtain ⟨m, hm⟩ := ih
      refine ⟨m, .step hp hm.left, hm.right, fun c hcx hcy => ?_⟩
      cases hcx with
      | refl => exact absurd hcy hxy
      | step hp' h =>
        obtain rfl := Option.some.inj (hp.symm.trans hp')
        exact hm.lowest c h hcy

end LowestCommon

/-! ### The nodes below a node -/

/-- A node, and what is below its children, so many levels deep. -/
def subtree (children : K → List K) : Nat → K → List K
  | 0, x => [x]
  | n + 1, x => x :: (children x).flatMap (subtree children n)

/-- The lists of children are those of the tree, which has no nodes above the height. -/
structure Lists (parent : K → Option K) (height : K → Nat) (children : K → List K) (top : Nat) :
    Prop where
  mem_children : ∀ x c, c ∈ children x ↔ parent c = some x
  nodup : ∀ x, (children x).Nodup
  le_top : ∀ c x, parent c = some x → height c ≤ top

namespace Lists

variable {children : K → List K} {top n : Nat}

variable (hr : Ranked parent height)

include hr

variable (hl : Lists parent height children top)

include hl

theorem children_eq_nil (h : top ≤ height x) : children x = [] := by
  refine List.eq_nil_iff_forall_not_mem.2 fun c hc => ?_
  have hp := (hl.mem_children x c).1 hc
  have := hr c x hp
  have := hl.le_top c x hp
  omega

theorem mem_subtree
    (hn : top ≤ height x + n) : y ∈ subtree children n x ↔ Below parent x y := by
  rw [Below.iff_child]
  induction n generalizing x with
  | zero =>
    rw [subtree, List.mem_singleton]
    refine ⟨.inl, ?_⟩
    rintro (rfl | ⟨c, hc, -⟩)
    · rfl
    · have hmem := (hl.mem_children x c).2 hc
      rw [hl.children_eq_nil hr (by omega)] at hmem
      simp at hmem
  | succ n ih =>
    rw [subtree, List.mem_cons, List.mem_flatMap]
    refine or_congr_right (exists_congr fun c => ?_)
    rw [hl.mem_children]
    refine and_congr_right fun hc => ?_
    have := hr c x hc
    rw [ih (by omega), ← Below.iff_child]

omit hl

/-- Nothing comes after what is above or equal to it. -/
theorem pairwise_flatMap {roots : List K} (hnodup : roots.Nodup)
    (hroots : ∀ r ∈ roots, ∀ r' ∈ roots, height r = height r') {f : K → List K}
    (hmem : ∀ r ∈ roots, ∀ y, y ∈ f r → Below parent r y)
    (hf : ∀ r ∈ roots, (f r).Pairwise fun y z => ¬ Below parent z y) :
    (roots.flatMap f).Pairwise fun y z => ¬ Below parent z y := by
  rw [List.pairwise_flatMap]
  refine ⟨hf, hnodup.imp_of_mem fun {r r'} hr₁ hr₂ hne y hy z hz hzy => hne ?_⟩
  exact hr.unique (hmem r hr₁ y hy) ((hmem r' hr₂ z hz).trans hzy) (hroots r hr₁ r' hr₂)

include hl in
theorem pairwise_subtree (hn : top ≤ height x + n) :
    (subtree children n x).Pairwise fun y z => ¬ Below parent z y := by
  induction n generalizing x with
  | zero => simp [subtree]
  | succ n ih =>
    have hchild : ∀ c ∈ children x, parent c = some x := fun c hc => (hl.mem_children x c).1 hc
    have hdeep : ∀ c ∈ children x, top ≤ height c + n := by
      intro c hc
      have := hr c x (hchild c hc)
      omega
    rw [subtree, List.pairwise_cons]
    constructor
    · intro z hz hzx
      obtain ⟨c, hc, hz⟩ := List.mem_flatMap.1 hz
      have hcz := (hl.mem_subtree hr (hdeep c hc)).1 hz
      exact hr.not_below_parent (hchild c hc) (hcz.trans hzx)
    · refine pairwise_flatMap hr (hl.nodup x) ?_ (fun c hc y => (hl.mem_subtree hr (hdeep c hc)).1)
        fun c hc => ih (hdeep c hc)
      intro c hc c' hc'
      rw [hr c x (hchild c hc), hr c' x (hchild c' hc')]

omit hr

end Lists

end MinaProtocol.ParentTree
