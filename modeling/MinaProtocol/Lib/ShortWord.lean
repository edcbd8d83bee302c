import Mathlib

/-!
# Lib.ShortWord

Products of two factors in a free product of monoids. A product `of x * of y` is
reduced if a trivial factor stands on the right and nontrivial factors are from
different monoids. Reduced products are equal only if their nontrivial factors are:
they are words of the free product, which are unique.
-/

namespace MinaProtocol

open Monoid Monoid.CoprodI

variable {ι : Type} {M : ι → Type} [∀ i, Monoid (M i)]

/-- The product of two factors. -/
def shortProd {i j : ι} (x : M i) (y : M j) : CoprodI M := of x * of y

/-- The nontrivial factors stand to the left, and two of them cannot be multiplied. -/
structure Reduced {i j : ι} (x : M i) (y : M j) : Prop where
  left : x = 1 → y = 1
  distinct : x ≠ 1 → y ≠ 1 → i ≠ j

variable [∀ i, DecidableEq (M i)] {i j : ι}

/-- The nontrivial factors of a product. -/
def syllables {i j : ι} (x : M i) (y : M j) : List (Σ i, M i) :=
  if x = 1 then [] else if y = 1 then [⟨i, x⟩] else [⟨i, x⟩, ⟨j, y⟩]

/-- A reduced product as a word. -/
def Reduced.word {i j : ι} {x : M i} {y : M j} (h : Reduced x y) : Word M where
  toList := syllables x y
  ne_one := by
    unfold syllables
    split
    · simp
    · split <;> simp [*]
  chain_ne := by
    unfold syllables
    split
    · simp
    · split
      · simp
      · simpa using h.distinct ‹_› ‹_›

theorem Reduced.word_prod {x : M i} {y : M j} (h : Reduced x y) : h.word.prod = shortProd x y := by
  unfold Word.prod Reduced.word syllables shortProd
  by_cases hx : x = 1
  · simp [hx, h.left hx]
  · by_cases hy : y = 1 <;> simp [hx, hy]

/-- **Reduced products are unique.** -/
theorem Reduced.syllables_eq [DecidableEq ι] {i' j' : ι} {x : M i} {y : M j} {x' : M i'} {y' : M j'}
    (h : Reduced x y) (h' : Reduced x' y') (he : shortProd x y = shortProd x' y') :
    syllables x y = syllables x' y' := by
  rw [← h.word_prod, ← h'.word_prod] at he
  exact congrArg Word.toList (Word.equiv.symm.injective he)

end MinaProtocol
