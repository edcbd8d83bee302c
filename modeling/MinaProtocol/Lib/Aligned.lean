import Mathlib.Tactic

/-!
# Lib.Aligned

A list of answers matched against a list of questions of which the first `c` have
been answered already. This is how work that is handed out in order, done
elsewhere and brought back in pieces is checked: each piece is aligned with the
questions from where the last piece ended.
-/

namespace MinaProtocol

variable {X Y Z : Type*}

/-- The entries of `ys` answer those of `xs` in order, from position `c` on. -/
def Aligned (R : X → Y → Prop) (xs : List X) (c : Nat) (ys : List Y) : Prop :=
  ∀ i y, ys[i]? = some y → ∃ x, xs[c + i]? = some x ∧ R x y

namespace Aligned

variable {R : X → Y → Prop} {xs xs' : List X} {c : Nat} {ys ys' : List Y}

@[simp] theorem nil : Aligned R xs c [] := by
  intro i y h
  simp at h

/-- There are no more answers than open questions. -/
theorem length_le (h : Aligned R xs c ys) (hc : c ≤ xs.length) : c + ys.length ≤ xs.length := by
  rcases List.eq_nil_or_concat ys with rfl | ⟨init, y, rfl⟩
  · simpa using hc
  · rw [List.concat_eq_append] at h ⊢
    obtain ⟨x, hx, -⟩ := h init.length y (by simp)
    have := (List.getElem?_eq_some_iff.1 hx).1
    simp only [List.length_append, List.length_cons, List.length_nil]
    omega

theorem take (h : Aligned R xs c ys) (p : Nat) : Aligned R xs c (ys.take p) := by
  intro i y hi
  rw [List.getElem?_take] at hi
  split_ifs at hi
  exact h i y hi

theorem drop (h : Aligned R xs c ys) (p : Nat) : Aligned R xs (c + p) (ys.drop p) := by
  intro i y hi
  rw [List.getElem?_drop] at hi
  rw [Nat.add_assoc]
  exact h _ y hi

theorem append_right (h : Aligned R xs c ys) : Aligned R (xs ++ xs') c ys := by
  intro i y hi
  obtain ⟨x, hx, hxy⟩ := h i y hi
  have hlt := (List.getElem?_eq_some_iff.1 hx).1
  exact ⟨x, by rw [List.getElem?_append_left hlt, hx], hxy⟩

theorem append_left (h : Aligned R xs' c ys) : Aligned R (xs ++ xs') (xs.length + c) ys := by
  intro i y hi
  obtain ⟨x, hx, hxy⟩ := h i y hi
  refine ⟨x, ?_, hxy⟩
  rw [List.getElem?_append_right (by omega), ← hx]
  congr 1
  omega

variable (h : Aligned R (xs ++ xs') c ys)

include h

/-- Answers to the first part only. -/
theorem of_append_left (hlen : c + ys.length ≤ xs.length) : Aligned R xs c ys := by
  intro i y hi
  have hlt := (List.getElem?_eq_some_iff.1 hi).1
  obtain ⟨x, hx, hxy⟩ := h i y hi
  rw [List.getElem?_append_left (by omega)] at hx
  exact ⟨x, hx, hxy⟩

/-- Answers to the second part only. -/
theorem of_append_right (hlen : xs.length ≤ c) : Aligned R xs' (c - xs.length) ys := by
  intro i y hi
  obtain ⟨x, hx, hxy⟩ := h i y hi
  rw [List.getElem?_append_right (by omega), show c + i - xs.length = c - xs.length + i by omega]
    at hx
  exact ⟨x, hx, hxy⟩

/-- The share of the first part when it is answered up to the position `c`. -/
theorem left : Aligned R xs (min c xs.length) (ys.take (xs.length - min c xs.length)) := by
  by_cases hc : c ≤ xs.length
  · rw [Nat.min_eq_left hc]
    refine (h.take _).of_append_left ?_
    rw [List.length_take]
    omega
  · rw [Nat.min_eq_right (by omega), Nat.sub_self]
    exact nil

/-- The share of the second part. -/
theorem right : Aligned R xs' (c - xs.length) (ys.drop (xs.length - min c xs.length)) := by
  by_cases hc : c ≤ xs.length
  · have hd := (h.drop (xs.length - min c xs.length)).of_append_right (by omega)
    rwa [show c + (xs.length - min c xs.length) - xs.length = c - xs.length by omega] at hd
  · have hd := h.of_append_right (by omega)
    rwa [show xs.length - min c xs.length = 0 by omega]

omit h

/-- All open questions of the first part and some of the second. -/
theorem join (h : Aligned R xs (min c xs.length) ys) (hlen : ys.length = xs.length - c)
    (h' : Aligned R xs' (c - xs.length) ys') : Aligned R (xs ++ xs') c (ys ++ ys') := by
  intro i y hi
  by_cases hlt : i < ys.length
  · rw [List.getElem?_append_left hlt] at hi
    obtain ⟨x, hx, hxy⟩ := h.append_right i y hi
    rw [Nat.min_eq_left (by omega)] at hx
    exact ⟨x, hx, hxy⟩
  · rw [List.getElem?_append_right (by omega)] at hi
    obtain ⟨x, hx, hxy⟩ := h'.append_left _ y hi
    refine ⟨x, ?_, hxy⟩
    rw [← hx]
    congr 1
    omega

theorem map {S : X → Z → Prop} {f : Y → Z} (h : Aligned R xs c ys)
    (hf : ∀ x y, R x y → S x (f y)) : Aligned S xs c (ys.map f) := by
  intro i z hi
  rw [List.getElem?_map, Option.map_eq_some_iff] at hi
  obtain ⟨y, hy, rfl⟩ := hi
  obtain ⟨x, hx, hxy⟩ := h i y hy
  exact ⟨x, hx, hf x y hxy⟩

end Aligned

end MinaProtocol
