import Mathlib.Data.List.Basic

/-!
# Lib.PairCut

Cutting a list into pieces of one element or of two neighbours, where some elements have to be alone. Taking a pair
whenever the next two allow it makes the fewest pieces: one more element in front never makes fewer, nor more than
one more.
-/

namespace MinaProtocol

variable {A : Type} {solo : A → Bool} {xs : List A} {x : A}

/-- One element, or two neighbours that need not be alone. -/
def IsPiece (solo : A → Bool) (piece : List A) : Prop :=
  (∃ x, piece = [x]) ∨ ∃ x y, piece = [x, y] ∧ solo x = false ∧ solo y = false

/-- The pieces are the list, in order. -/
structure IsPairCut (solo : A → Bool) (xs : List A) (pieces : List (List A)) : Prop where
  flatten : pieces.flatten = xs
  pieces : ∀ piece ∈ pieces, IsPiece solo piece

/-- The next two together, if they may. -/
def pairCut (solo : A → Bool) : List A → List (List A)
  | [] => []
  | [x] => [[x]]
  | x :: y :: xs => if solo x || solo y then [x] :: pairCut solo (y :: xs) else [x, y] :: pairCut solo xs

theorem pairCut_solo (h : solo x = true ∨ ∀ y, xs.head? = some y → solo y = true) :
    pairCut solo (x :: xs) = [x] :: pairCut solo xs := by
  cases xs with
  | nil => rfl
  | cons y xs =>
    have hsolo : (solo x || solo y) = true := by
      rcases h with hx | hy
      · rw [hx, Bool.true_or]
      · rw [hy y rfl, Bool.or_true]
    rw [pairCut, if_pos hsolo]

theorem pairCut_pair {y : A} (hx : solo x = false) (hy : solo y = false) :
    pairCut solo (x :: y :: xs) = [x, y] :: pairCut solo xs := by
  rw [pairCut, hx, hy, Bool.or_false, if_neg Bool.false_ne_true]

theorem pairCut_cases (solo : A → Bool) (x : A) (xs : List A) : pairCut solo (x :: xs) = [x] :: pairCut solo xs ∨
      ∃ y ys, xs = y :: ys ∧ solo x = false ∧ solo y = false ∧ pairCut solo (x :: xs) = [x, y] :: pairCut solo ys := by
  cases xs with
  | nil => exact Or.inl rfl
  | cons y ys =>
    cases hx : solo x with
    | true => exact Or.inl (pairCut_solo (Or.inl hx))
    | false =>
      cases hy : solo y with
      | true => exact Or.inl (pairCut_solo (Or.inr fun z hz => Option.some.inj hz ▸ hy))
      | false => exact Or.inr ⟨y, ys, rfl, rfl, hy, pairCut_pair hx hy⟩

theorem pairCut_isPairCut (solo : A → Bool) (xs : List A) : IsPairCut solo xs (pairCut solo xs) := by
  induction hn : xs.length using Nat.strongRecOn generalizing xs with
  | ind n ih =>
    cases xs with
    | nil => exact ⟨rfl, by simp [pairCut]⟩
    | cons x xs =>
      rcases pairCut_cases solo x xs with hone | htwo
      · obtain ⟨hflatten, hpieces⟩ := ih xs.length (by rw [← hn]; simp) xs rfl
        rw [hone]
        exact ⟨by rw [List.flatten_cons, hflatten]; rfl, List.forall_mem_cons.mpr ⟨Or.inl ⟨x, rfl⟩, hpieces⟩⟩
      · obtain ⟨y, ys, rfl, hx, hy, hcut⟩ := htwo
        obtain ⟨hflatten, hpieces⟩ := ih ys.length (by rw [← hn, List.length_cons, List.length_cons]; omega) ys rfl
        rw [hcut]
        exact ⟨by rw [List.flatten_cons, hflatten]; rfl, List.forall_mem_cons.mpr ⟨Or.inr ⟨x, y, rfl, hx, hy⟩, hpieces⟩⟩

/-- Where the elements come from does not matter. -/
theorem pairCut_map {B : Type} (solo : A → Bool) (f : B → A) (xs : List B) :
    pairCut solo (xs.map f) = (pairCut (solo ∘ f) xs).map (·.map f) := by
  fun_induction pairCut (solo ∘ f) xs with
  | case1 => rfl
  | case2 x => rfl
  | case3 x y xs hsolo ih =>
    have hsolo : (solo (f x) || solo (f y)) = true := hsolo
    rw [List.map_cons, List.map_cons, pairCut, if_pos hsolo, List.map_cons, ← ih]
    rfl
  | case4 x y xs hsolo ih =>
    have hsolo : ¬ (solo (f x) || solo (f y)) = true := hsolo
    rw [List.map_cons, List.map_cons, pairCut, if_neg hsolo, List.map_cons, ← ih]
    rfl

/-- One more element in front makes no fewer pieces, and at most one more. -/
theorem length_pairCut_cons (solo : A → Bool) (x : A) (xs : List A) :
    (pairCut solo xs).length ≤ (pairCut solo (x :: xs)).length ∧ (pairCut solo (x :: xs)).length ≤ (pairCut solo xs).length + 1 := by
  induction xs generalizing x with
  | nil => exact ⟨Nat.zero_le _, Nat.le_refl _⟩
  | cons y ys ih =>
    rcases pairCut_cases solo x (y :: ys) with hone | htwo
    · rw [hone, List.length_cons]
      omega
    · obtain ⟨z, zs, heq, hx, hz, hcut⟩ := htwo
      cases heq
      obtain ⟨hle, hle'⟩ := ih y
      rw [hcut, List.length_cons]
      omega

theorem IsPairCut.length_le {pieces : List (List A)} (h : IsPairCut solo xs pieces) :
    (pairCut solo xs).length ≤ pieces.length := by
  induction pieces generalizing xs with
  | nil =>
    rw [← h.flatten]
    exact Nat.le_refl 0
  | cons piece pieces ih =>
    obtain ⟨hflatten, hpieces⟩ := h
    obtain ⟨hpiece, hpieces⟩ := List.forall_mem_cons.mp hpieces
    have hrest := ih ⟨rfl, hpieces⟩
    rw [List.length_cons]
    rcases hpiece with hone | htwo
    · obtain ⟨x, rfl⟩ := hone
      have hle := (length_pairCut_cons solo x pieces.flatten).2
      rw [← hflatten]
      exact Nat.le_trans hle (Nat.add_le_add_right hrest 1)
    · obtain ⟨x, y, rfl, hx, hy⟩ := htwo
      have hcut : pairCut solo xs = [x, y] :: pairCut solo pieces.flatten := by
        rw [← hflatten]
        exact pairCut_pair hx hy
      rw [hcut, List.length_cons]
      exact Nat.add_le_add_right hrest 1

end MinaProtocol
