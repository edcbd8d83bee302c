import Mathlib
import MinaProtocol.Base.CheckedNumber
import MinaProtocol.Currency.Arithmetic

/-!
# Currency.Checked

The checked fees and amounts of `currency.ml`. `range_check_flagged` brings an element back to 64
bits by an adjustment that the prover chooses. On the elements it is made for it leaves no choice
(`rangeCheckFlagged_eq`), and the operations on it are the ones on words
(`rangeCheckFlagged_exact`). On other elements it allows what `returns_rangeCheckFlagged` says.
-/

namespace MinaProtocol.Currency

/-- Natural numbers of a hundred bits are different elements of the field. -/
class WideField (F : Type) [Field F] : Prop where
  cast_inj : ∀ m n : Nat, m < 2 ^ 100 → n < 2 ^ 100 → (m : F) = n → m = n

instance (priority := low) largeFieldOfWide {F : Type} [Field F] [WideField F] : LargeField F where
  cast_inj m n hm hn := WideField.cast_inj m n (by omega) (by omega)

/-- The kinds of `range_check_flagged`. -/
inductive Kind where
  | add
  | sub
  | addOrSub
deriving DecidableEq, Repr

/-- The inputs that `range_check_flagged` documents. -/
def Kind.Invariant : Kind → Int → Prop
  | .add, t => 0 ≤ t ∧ t < 2 * 2 ^ 64 - 1
  | .sub, t => -2 ^ 64 < t ∧ t < 2 ^ 64
  | .addOrSub, t => -2 ^ 64 < t ∧ t < 2 * 2 ^ 64 - 1

/-- The adjustments of a kind. -/
def Kind.Factor : Kind → Int → Prop
  | .add, k => k = 0 ∨ k = -1
  | .sub, k => k = 0 ∨ k = 1
  | .addOrSub, k => k = 0 ∨ k = 1 ∨ k = -1

namespace Checked

open CheckedNumber (InRange rangeCheck booleanOfField)

variable {F : Type} [Field F] {b : Bool} {kind : Kind}

/-- The flag of `range_check_flagged`, from the adjustment factor. -/
def outOfRange (kind : Kind) (adjustmentFactor : F) : Circuit Bool :=
  match kind with
  -- 0 or -1 => 0 or 1
  | .add => booleanOfField (-adjustmentFactor)
  | .sub => booleanOfField adjustmentFactor
  | .addOrSub => booleanOfField (adjustmentFactor * adjustmentFactor)

/-- `range_check_flagged`. -/
def rangeCheckFlagged (kind : Kind) (t : F) : Circuit (F × Bool) := do
  let adjustmentFactor ← Circuit.choose fun _ => True
  let outOfRange ← outOfRange kind adjustmentFactor
  let tAdjusted := t + adjustmentFactor * ((2 : Nat) : F) ^ 64
  rangeCheck 64 tAdjusted
  pure (tAdjusted, outOfRange)

/-- `Checked.sub_flagged`. -/
def subFlagged (x y : F) : Circuit (F × Bool) := rangeCheckFlagged .sub (x - y)

/-- `Checked.sub_or_zero`. -/
def subOrZero (x y : F) : Circuit F := do
  let (res, underflow) ← subFlagged x y
  pure (if underflow then 0 else res)

/-- `Checked.( < )`. -/
def lt (x y : F) : Circuit Bool := do
  let (_, lt) ← rangeCheckFlagged .sub (x - y)
  pure lt

/-- `Checked.( <= )`. -/
def le (x y : F) : Circuit Bool := do
  let yLtX ← lt y x
  pure (!yLtX)

/-- `Checked.( >= )`. -/
def ge (x y : F) : Circuit Bool := le y x

/-- `Checked.( > )`. -/
def gt (x y : F) : Circuit Bool := lt y x

/-- `Checked.add_flagged`. -/
def addFlagged (x y : F) : Circuit (F × Bool) := rangeCheckFlagged .add (x + y)

/-- `Signed_var.t`: a magnitude and a sign, and their product where it is known. -/
structure SignedVar (F : Type) where
  magnitude : F
  sgn : F
  value : Option F

/-- `Signed.Checked.value`, which is `to_field_var`. -/
def SignedVar.toFieldVar (t : SignedVar F) : Circuit F :=
  match t.value with
  | some x => pure x
  | none => pure (t.sgn * t.magnitude)

/-- `Checked.add_signed_flagged`. -/
def addSignedFlagged (t : F) (d : SignedVar F) : Circuit (F × Bool) := do
  let d ← d.toFieldVar
  rangeCheckFlagged .addOrSub (t + d)

/-! ### The range check -/

theorem returns_outOfRange {a : F} :
    (outOfRange kind a).Returns b ↔ ∃ k, kind.Factor k ∧ a = ((k : Int) : F) ∧ b = decide (k ≠ 0) := by
  cases kind with
  | add =>
    show -a = (if b then 1 else 0) ↔ _
    constructor
    · intro h
      cases b with
      | true => exact ⟨-1, .inr rfl, by simpa using neg_eq_iff_eq_neg.1 h, rfl⟩
      | false => exact ⟨0, .inl rfl, by simpa using h, rfl⟩
    · rintro ⟨k, rfl | rfl, rfl, rfl⟩ <;> simp
  | sub =>
    show a = (if b then 1 else 0) ↔ _
    constructor
    · intro h
      cases b with
      | true => exact ⟨1, .inr rfl, by simpa using h, rfl⟩
      | false => exact ⟨0, .inl rfl, by simpa using h, rfl⟩
    · rintro ⟨k, rfl | rfl, rfl, rfl⟩ <;> simp
  | addOrSub =>
    show a * a = (if b then 1 else 0) ↔ _
    constructor
    · intro h
      cases b with
      | true =>
        obtain h1 | h1 := mul_self_eq_one_iff.1 h
        · exact ⟨1, .inr (.inl rfl), by simpa using h1, rfl⟩
        · exact ⟨-1, .inr (.inr rfl), by simpa using h1, rfl⟩
      | false => exact ⟨0, .inl rfl, by simpa using h, rfl⟩
    · rintro ⟨k, rfl | rfl | rfl, rfl, rfl⟩ <;> simp

theorem returns_rangeCheckFlagged' {t z : F} : (rangeCheckFlagged kind t).Returns (z, b) ↔
      ∃ k, kind.Factor k ∧ z = t + ((k : Int) : F) * 2 ^ 64 ∧ InRange 64 z ∧ b = decide (k ≠ 0) := by
  unfold rangeCheckFlagged
  simp only [CheckedNumber.rangeCheck_eq, Circuit.returns_bind, Circuit.returns_choose,
    Circuit.returns_assert, Circuit.returns_pure, returns_outOfRange, true_and, Prod.mk.injEq]
  constructor
  · intro h
    obtain ⟨_, _, ⟨k, hk, rfl, rfl⟩, -, hrange, rfl, rfl⟩ := h
    exact ⟨k, hk, rfl, hrange, rfl⟩
  · intro h
    obtain ⟨k, hk, rfl, hrange, rfl⟩ := h
    exact ⟨_, _, ⟨k, hk, rfl, rfl⟩, (), hrange, rfl, rfl⟩

section Spec

variable [WideField F] {kind : Kind} {t : Int}

theorem intCast_inj {m n : Int} (hm : |m| < 2 ^ 98) (hn : |n| < 2 ^ 98) : (m : F) = n ↔ m = n := by
  rw [abs_lt] at hm hn
  constructor
  · intro h
    -- both moved up by the same natural number
    obtain ⟨m', hm'⟩ := Int.eq_ofNat_of_zero_le (show 0 ≤ m + 2 ^ 98 by omega)
    obtain ⟨n', hn'⟩ := Int.eq_ofNat_of_zero_le (show 0 ≤ n + 2 ^ 98 by omega)
    have hcast : (m' : F) = n' := by
      have hm'' : (m' : F) = ((m + 2 ^ 98 : Int) : F) := by rw [hm', Int.cast_natCast]
      have hn'' : (n' : F) = ((n + 2 ^ 98 : Int) : F) := by rw [hn', Int.cast_natCast]
      rw [hm'', hn'', Int.cast_add, Int.cast_add, h]
    have := WideField.cast_inj m' n' (by omega) (by omega) hcast
    omega
  · intro h
    rw [h]

/-- The words among the integers that are not too large. -/
theorem inRange_intCast {z : Int} (hz : |z| < 2 ^ 98) : InRange 64 (z : F) ↔ 0 ≤ z ∧ z < 2 ^ 64 := by
  constructor
  · intro h
    obtain ⟨n, hn, heq⟩ := h
    rw [← Int.cast_natCast] at heq
    have := (intCast_inj hz (by rw [abs_of_nonneg (by omega)]; omega)).1 heq
    omega
  · intro h
    obtain ⟨n, rfl⟩ := Int.eq_ofNat_of_zero_le h.1
    exact ⟨n, by omega, Int.cast_natCast n⟩

/-- **What the flagged range check allows on an integer:** every adjustment of its kind that leads
to a word. -/
theorem returns_rangeCheckFlagged (ht : |t| < 2 ^ 97) {z : F} {b : Bool} :
    (rangeCheckFlagged kind (t : F)).Returns (z, b) ↔
      ∃ k, kind.Factor k ∧ 0 ≤ t + k * 2 ^ 64 ∧ t + k * 2 ^ 64 < 2 ^ 64
        ∧ z = ((t + k * 2 ^ 64 : Int) : F) ∧ b = decide (k ≠ 0) := by
  rw [returns_rangeCheckFlagged']
  refine exists_congr fun k => and_congr_right fun hk => ?_
  have hcast : (t : F) + (k : F) * 2 ^ 64 = ((t + k * 2 ^ 64 : Int) : F) := by push_cast; ring
  have hsmall : |t + k * 2 ^ 64| < 2 ^ 98 := by
    rw [abs_lt] at ht ⊢
    have hk' : -1 ≤ k ∧ k ≤ 1 := by
      cases kind <;> unfold Kind.Factor at hk <;> omega
    omega
  rw [hcast]
  constructor
  · intro h
    obtain ⟨rfl, hrange, rfl⟩ := h
    obtain ⟨hlo, hhi⟩ := (inRange_intCast hsmall).1 hrange
    exact ⟨hlo, hhi, rfl, rfl⟩
  · intro h
    obtain ⟨hlo, hhi, rfl, rfl⟩ := h
    exact ⟨rfl, (inRange_intCast hsmall).2 ⟨hlo, hhi⟩, rfl⟩

/-- **On its inputs the flagged range check leaves no choice.** -/
theorem rangeCheckFlagged_eq (h : kind.Invariant t) :
    rangeCheckFlagged kind (t : F) = pure (((t % 2 ^ 64 : Int) : F), decide (t % 2 ^ 64 ≠ t)) := by
  have hsmall : |t| < 2 ^ 97 := by
    rw [abs_lt]
    cases kind <;> unfold Kind.Invariant at h <;> omega
  ext ⟨z, b⟩
  rw [returns_rangeCheckFlagged hsmall, Circuit.returns_pure, Prod.mk.injEq]
  constructor
  · intro hk
    obtain ⟨k, -, hlo, hhi, rfl, rfl⟩ := hk
    have hmod : t % 2 ^ 64 = t + k * 2 ^ 64 := by omega
    rw [hmod]
    exact ⟨rfl, decide_eq_decide.2 (by omega)⟩
  · intro hz
    obtain ⟨rfl, rfl⟩ := hz
    -- the adjustment is the quotient
    refine ⟨-(t / 2 ^ 64), ?_, by omega, by omega, ?_, decide_eq_decide.2 (by omega)⟩
    · cases kind <;> unfold Kind.Invariant at h <;> unfold Kind.Factor <;> omega
    · congr 1
      omega

/-! ### The operations on words -/

/-- The variable of a fee or an amount. -/
def word (x : UInt64) : F := (x.toNat : F)

omit [WideField F] in
theorem word_add (x y : UInt64) : (word x : F) + word y = ((x.toNat + y.toNat : Int) : F) := by
  simp [word]

omit [WideField F] in
theorem word_sub (x y : UInt64) : (word x : F) - word y = ((x.toNat - y.toNat : Int) : F) := by
  simp [word]

theorem rangeCheckFlagged_word (h : kind.Invariant t) {z : UInt64} {b : Bool}
    (hz : (z.toNat : Int) = t % 2 ^ 64) (hb : b = true ↔ ¬ Fits t) :
    rangeCheckFlagged kind (t : F) = pure (word z, b) := by
  have hflag : decide (t % 2 ^ 64 ≠ t) = b := by
    rw [Bool.eq_iff_iff, hb, decide_eq_true_eq]
    unfold Fits
    omega
  rw [rangeCheckFlagged_eq h, hflag, ← hz, Int.cast_natCast]
  rfl

theorem addFlagged_word (x y : UInt64) (h : kind.Invariant (x.toNat + y.toNat)) :
    rangeCheckFlagged kind (((x.toNat + y.toNat : Int)) : F)
      = pure (word (Currency.addFlagged x y).1, (Currency.addFlagged x y).2) := by
  refine rangeCheckFlagged_word h ?_ ((flagAgrees_add x y).flagExact (isExact_add x y)).1
  show ((x + y).toNat : Int) = _
  rw [UInt64.toNat_add]
  omega

theorem subFlagged_word (x y : UInt64) (h : kind.Invariant (x.toNat - y.toNat)) :
    rangeCheckFlagged kind (((x.toNat - y.toNat : Int)) : F)
      = pure (word (Currency.subFlagged x y).1, (Currency.subFlagged x y).2) := by
  have hx := x.toNat_lt
  have hy := y.toNat_lt
  refine rangeCheckFlagged_word h ?_ ((flagAgrees_sub x y).flagExact (isExact_sub x y)).1
  show ((x - y).toNat : Int) = _
  rw [UInt64.toNat_sub]
  omega

theorem addFlagged_eq (x y : UInt64) : addFlagged (word x : F) (word y)
    = pure (word (Currency.addFlagged x y).1, (Currency.addFlagged x y).2) := by
  have hx := x.toNat_lt
  have hy := y.toNat_lt
  unfold addFlagged
  rw [word_add]
  exact addFlagged_word x y (by unfold Kind.Invariant; omega)

theorem subFlagged_eq (x y : UInt64) : subFlagged (word x : F) (word y)
    = pure (word (Currency.subFlagged x y).1, (Currency.subFlagged x y).2) := by
  have hx := x.toNat_lt
  have hy := y.toNat_lt
  unfold subFlagged
  rw [word_sub]
  exact subFlagged_word x y (by unfold Kind.Invariant; omega)

theorem subOrZero_eq (x y : UInt64) : subOrZero (word x : F) (word y) = pure (word ((Currency.sub x y).getD 0)) := by
  unfold subOrZero
  rw [subFlagged_eq, pure_bind]
  by_cases h : x < y <;> simp [Currency.subFlagged, Currency.sub, h, word]

theorem addSignedFlagged_eq (x : UInt64) (y : SignedPoly) {d : SignedVar F}
    (hd : d.toFieldVar = pure ((y.toInt : Int) : F)) : addSignedFlagged (word x) d
      = pure (word (Currency.addSignedFlagged x y).1, (Currency.addSignedFlagged x y).2) := by
  obtain ⟨m, sgn⟩ := y
  have hx := x.toNat_lt
  have hm := m.toNat_lt
  unfold addSignedFlagged
  rw [hd, pure_bind]
  cases sgn with
  | pos =>
    have hcast : (word x : F) + ((SignedPoly.toInt ⟨m, .pos⟩ : Int) : F)
        = ((x.toNat + m.toNat : Int) : F) := by
      rw [Int.cast_add, Int.cast_natCast]
      rfl
    rw [hcast]
    exact addFlagged_word x m (by unfold Kind.Invariant; omega)
  | neg =>
    have hcast : (word x : F) + ((SignedPoly.toInt ⟨m, .neg⟩ : Int) : F)
        = ((x.toNat - m.toNat : Int) : F) := by
      rw [Int.sub_eq_add_neg, Int.cast_add, Int.cast_natCast]
      rfl
    rw [hcast]
    exact subFlagged_word x m (by unfold Kind.Invariant; omega)

theorem lt_eq (x y : UInt64) : lt (word x : F) (word y) = pure (decide (x < y)) := by
  have hx := x.toNat_lt
  have hy := y.toNat_lt
  unfold lt
  rw [word_sub, subFlagged_word x y (by unfold Kind.Invariant; omega), pure_bind]
  rfl

theorem le_eq (x y : UInt64) : le (word x : F) (word y) = pure (decide (x ≤ y)) := by
  unfold le
  rw [lt_eq, pure_bind, ← decide_not]
  simp only [UInt64.not_lt]

/-- **The flagged range check is unique, and the operations on it are the unchecked ones.** -/
theorem rangeCheckFlagged_exact : (∀ (kind : Kind) (t : Int), kind.Invariant t →
      ∃! t' : Int, (0 ≤ t' ∧ t' < 2 ^ 64 ∧ t' ≡ t [ZMOD 2 ^ 64])
        ∧ rangeCheckFlagged kind (t : F) = pure ((t' : F), decide (t' ≠ t)))
      ∧ ∀ x y : UInt64,
        addFlagged (word x : F) (word y)
            = pure (word (Currency.addFlagged x y).1, (Currency.addFlagged x y).2)
          ∧ subFlagged (word x : F) (word y)
            = pure (word (Currency.subFlagged x y).1, (Currency.subFlagged x y).2)
          ∧ subOrZero (word x : F) (word y) = pure (word ((Currency.sub x y).getD 0))
          ∧ (∀ (z : SignedPoly) (d : SignedVar F), d.toFieldVar = pure ((z.toInt : Int) : F) →
            addSignedFlagged (word x) d
              = pure (word (Currency.addSignedFlagged x z).1, (Currency.addSignedFlagged x z).2))
          ∧ lt (word x : F) (word y) = pure (decide (x < y))
          ∧ le (word x : F) (word y) = pure (decide (x ≤ y))
          ∧ ge (word x : F) (word y) = pure (decide (x ≥ y))
          ∧ gt (word x : F) (word y) = pure (decide (x > y)) := by
  constructor
  · intro kind t h
    refine ⟨t % 2 ^ 64, ⟨⟨by omega, by omega, Int.mod_modEq t _⟩, rangeCheckFlagged_eq h⟩, ?_⟩
    intro t' ht'
    obtain ⟨⟨hlo, hhi, hmod⟩, -⟩ := ht'
    rw [← hmod.eq, Int.emod_eq_of_lt hlo hhi]
  · intro x y
    exact ⟨addFlagged_eq x y, subFlagged_eq x y, subOrZero_eq x y,
      fun z d hd => addSignedFlagged_eq x z hd, lt_eq x y, le_eq x y, le_eq y x, lt_eq y x⟩

end Spec

/-! ### A field -/

theorem prime_mersenne : (mersenne 107).Prime := lucas_lehmer_sufficiency 107 (by decide) (by norm_num)

instance factPrime : Fact (mersenne 107).Prime := ⟨prime_mersenne⟩

instance wideField : WideField (ZMod (mersenne 107)) where
  cast_inj m n hm hn h := by
    have hlarge : (2 : Nat) ^ 100 ≤ mersenne 107 := by norm_num [mersenne]
    rw [ZMod.natCast_eq_natCast_iff', Nat.mod_eq_of_lt (by omega), Nat.mod_eq_of_lt (by omega)] at h
    exact h

/-- One is less than two, and the difference wraps. -/
theorem lt_one_two : lt (word 1 : ZMod (mersenne 107)) (word 2) = pure true
    ∧ subFlagged (word 1 : ZMod (mersenne 107)) (word 2) = pure (word (1 - 2), true) := by
  obtain ⟨-, hsub, -, -, hlt, -, -, -⟩ := (rangeCheckFlagged_exact (F := ZMod (mersenne 107))).2 1 2
  exact ⟨hlt, hsub⟩

end Checked

end MinaProtocol.Currency
