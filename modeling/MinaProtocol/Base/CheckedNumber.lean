import MinaProtocol.Base.Signed
import MinaProtocol.Lib.Circuit

/-!
# Base.CheckedNumber

The checked numbers of `mina_numbers/nat.ml` and the checked amounts of `currency.ml`.
They are elements of a field that is large enough for the sums and products of words of
32 and 64 bits. `range_check'` and `image_from_bits_unsafe` return a word that the prover
chooses; only `range_check` asserts that it is the argument.
-/

namespace MinaProtocol

/-- Natural numbers of a few more than 64 bits are different elements of the field. -/
class LargeField (F : Type) [Field F] : Prop where
  cast_inj : ∀ m n : Nat, m < 2 ^ 67 → n < 2 ^ 67 → (m : F) = n → m = n

namespace CheckedNumber

variable {F : Type} [Field F] [DecidableEq F]

/-- The element is a word of so many bits. -/
def InRange (bits : Nat) (t : F) : Prop := ∃ n : Nat, n < 2 ^ bits ∧ t = n

/-- `range_check`. -/
def rangeCheck (bits : Nat) (t : F) : Circuit Unit := do
  let actual ← Circuit.choose (InRange (F := F) bits)
  Circuit.assert (actual = t)

/-- `range_check_flag`. -/
def rangeCheckFlag (bits : Nat) (t : F) : Circuit Bool := do
  let actual ← Circuit.choose (InRange (F := F) bits)
  pure (actual = t)

/-- `div_mod`. Nothing bounds the remainder by the divisor. -/
def divMod (x y : F) : Circuit (F × F) := do
  let q ← Circuit.choose (InRange 32)
  let r ← Circuit.choose (InRange 32)
  Circuit.assert (q * y = x - r)
  pure (q, r)

/-- `gte`. -/
def gte (x y : F) : Circuit Bool := do
  let xGteY ← rangeCheckFlag 32 (x - y)
  let yGteX ← rangeCheckFlag 32 (-(x - y))
  Circuit.assert ((xGteY || yGteX) = true)
  pure xGteY

/-- `( < )`. -/
def lt (a b : F) : Circuit Bool := do
  let bGteA ← gte b a
  pure (bGteA && !(b = a))

/-- `( > )`. -/
def gt (a b : F) : Circuit Bool := lt b a

/-- `min`. -/
def min (a b : F) : Circuit F := do
  let aLteB ← gte b a
  pure (if aLteB then a else b)

/-- `succ_if`. -/
def succIf (t : F) (c : Bool) : F := t + if c then 1 else 0

/-- `succ`. -/
def succ (t : F) : F := t + 1

/-- `add`. -/
def add (x y : F) : Circuit F := do
  rangeCheck 32 (x + y)
  pure (x + y)

/-- `mul`. -/
def mul (x y : F) : Circuit F := do
  rangeCheck 32 (x * y)
  pure (x * y)

/-- `sub`. -/
def sub (x y : F) : Circuit F := do
  rangeCheck 32 (x - y)
  pure (x - y)

/-- `sub_or_zero`: whether it underflows, and the difference. -/
def subOrZero (x y : F) : Circuit (Bool × F) := do
  let res := x - y
  let negRes := -res
  let xGteY ← rangeCheckFlag 32 res
  let yGteX ← rangeCheckFlag 32 negRes
  Circuit.assert ((xGteY || yGteX) = true)
  let underflow := yGteX && !(x = y)
  pure (underflow, if underflow then 0 else res)

/-- `Boolean.of_field`. -/
def booleanOfField (t : F) : Circuit Bool := Circuit.choose fun b => t = if b then 1 else 0

/-- `range_check_flagged` of `currency.ml` for the kind `Add_or_sub`. -/
def rangeCheckFlagged (t : F) : Circuit (F × Bool) := do
  let adjustmentFactor ← Circuit.choose fun _ => True
  let outOfRange ← booleanOfField (adjustmentFactor * adjustmentFactor)
  let adjusted := t + adjustmentFactor * 2 ^ 64
  rangeCheck 64 adjusted
  pure (adjusted, outOfRange)

/-- `Amount.Checked.add_signed_flagged`, with the field element of the signed amount. -/
def addSignedFlagged (t d : F) : Circuit (F × Bool) := rangeCheckFlagged (t + d)

/-- The field element of a signed amount. -/
def signedValue (d : Signed) : F :=
  match d.sgn with
  | .pos => d.magnitude
  | .neg => -d.magnitude

/-! ### What the circuits return -/

section Spec

variable [LargeField F] {bits x y a : Nat} {b : Bool} {t : F}

omit [DecidableEq F] in
/-- The words among the integers that sums and differences reach. -/
theorem inRange_intCast {z : Int} (hbits : bits ≤ 64) (hlo : -2 ^ 66 < z)
    (hhi : z < 2 ^ 66) : InRange bits (z : F) ↔ 0 ≤ z ∧ z < 2 ^ bits := by
  have hpow : (2 : Nat) ^ bits ≤ 2 ^ 64 := Nat.pow_le_pow_right (by decide) hbits
  constructor
  · intro h
    obtain ⟨n, hn, hz⟩ := h
    rcases Int.eq_nat_or_neg z with ⟨m, rfl | rfl⟩
    · rw [Int.cast_natCast] at hz
      have hm := LargeField.cast_inj m n (by omega) (by omega) hz
      subst hm
      exact ⟨Int.natCast_nonneg m, by exact_mod_cast hn⟩
    · rw [Int.cast_neg, Int.cast_natCast] at hz
      have hsum : ((m + n : Nat) : F) = (0 : Nat) := by
        rw [Nat.cast_add, ← hz, Nat.cast_zero]
        ring
      have hzero := LargeField.cast_inj (m + n) 0 (by omega) (by decide) hsum
      have hm : m = 0 := by omega
      subst hm
      exact ⟨by simp, by simp⟩
  · intro h
    obtain ⟨hlo, hhi⟩ := h
    obtain ⟨m, rfl⟩ := Int.eq_ofNat_of_zero_le hlo
    exact ⟨m, by exact_mod_cast hhi, Int.cast_natCast m⟩

omit [DecidableEq F] [LargeField F] in
theorem rangeCheck_eq (bits : Nat) (t : F) : rangeCheck bits t = Circuit.assert (InRange bits t) := by
  ext u
  constructor
  · intro h
    obtain ⟨actual, hactual, heq⟩ := h
    exact (show actual = t from heq) ▸ hactual
  · intro h
    exact ⟨t, h, rfl⟩

omit [LargeField F] in
theorem returns_rangeCheckFlag (hbits : 0 < bits) :
    (rangeCheckFlag bits t).Returns b ↔ (b = true → InRange bits t) := by
  unfold rangeCheckFlag
  simp only [Circuit.returns_bind, Circuit.returns_choose, Circuit.returns_pure]
  constructor
  · intro h hb
    obtain ⟨actual, hactual, heq⟩ := h
    rw [hb, eq_comm, decide_eq_true_eq] at heq
    exact heq ▸ hactual
  · intro h
    cases b with
    | true => exact ⟨t, h rfl, (decide_eq_true rfl).symm⟩
    | false =>
      -- one of the words 0 and 1 is different
      have hone : 1 < 2 ^ bits := Nat.one_lt_two_pow hbits.ne'
      by_cases ht : t = 0
      · refine ⟨1, ⟨1, hone, Nat.cast_one.symm⟩, (decide_eq_false ?_).symm⟩
        rw [ht]
        exact one_ne_zero
      · exact ⟨0, ⟨0, by omega, Nat.cast_zero.symm⟩, (decide_eq_false (Ne.symm ht)).symm⟩

omit [DecidableEq F] in
theorem natCast_inj {m n : Nat} (hm : m < 2 ^ 67) (hn : n < 2 ^ 67) : (m : F) = n ↔ m = n :=
  ⟨LargeField.cast_inj m n hm hn, congrArg _⟩

omit [DecidableEq F] in
theorem inRange_sub {x y : Nat} (hx : x < 2 ^ 32) (hy : y < 2 ^ 32) : InRange 32 ((x : F) - y) ↔ y ≤ x := by
  have hcast : (x : F) - y = ((x - y : Int) : F) := by push_cast; ring
  rw [hcast, inRange_intCast (by decide) (by omega) (by omega)]
  omega

theorem returns_gte (hx : x < 2 ^ 32) (hy : y < 2 ^ 32) :
    (gte (x : F) y).Returns b ↔ (b = true → y ≤ x) ∧ (b = false → x ≤ y) := by
  have hneg : -((x : F) - y) = (y : F) - x := by ring
  unfold gte
  simp only [Circuit.returns_bind, Circuit.returns_assert, Circuit.returns_pure,
    returns_rangeCheckFlag (F := F) (show 0 < 32 by decide), hneg, inRange_sub hx hy, inRange_sub hy hx]
  constructor
  · intro h
    obtain ⟨xy, hxy, yx, hyx, -, hany, rfl⟩ := h
    refine ⟨hxy, fun hb => hyx ?_⟩
    rw [hb] at hany
    simpa using hany
  · intro h
    obtain ⟨htrue, hfalse⟩ := h
    exact ⟨b, htrue, !b, fun hb => hfalse (by simpa using hb), (), by cases b <;> rfl, rfl⟩

theorem lt_eq {b : Nat} (ha : a < 2 ^ 32) (hb : b < 2 ^ 32) : lt (a : F) b = pure (decide (a < b)) := by
  have hcast : (b : F) = a ↔ b = a := natCast_inj (by omega) (by omega)
  ext c
  unfold lt
  simp only [Circuit.returns_bind, Circuit.returns_pure, returns_gte hb ha, hcast]
  constructor
  · intro h
    obtain ⟨g, ⟨htrue, hfalse⟩, rfl⟩ := h
    cases g with
    | true =>
      have := htrue rfl
      by_cases heq : b = a
      · simp [heq]
      · simp [heq, show a < b by omega]
    | false =>
      have := hfalse rfl
      simp [show ¬ a < b by omega]
  · intro h
    refine ⟨decide (a ≤ b), ⟨of_decide_eq_true, fun hf => ?_⟩, ?_⟩
    · have := of_decide_eq_false hf
      omega
    · rw [h, Bool.eq_iff_iff]
      simp only [decide_eq_true_eq, Bool.and_eq_true, Bool.not_eq_true', decide_eq_false_iff_not]
      omega

theorem min_eq {b : Nat} (ha : a < 2 ^ 32) (hb : b < 2 ^ 32) : min (a : F) b = pure ((Min.min a b : Nat) : F) := by
  ext c
  unfold min
  simp only [Circuit.returns_bind, Circuit.returns_pure, returns_gte hb ha]
  constructor
  · intro h
    obtain ⟨g, ⟨htrue, hfalse⟩, rfl⟩ := h
    cases g with
    | true => rw [if_pos rfl, Nat.min_eq_left (htrue rfl)]
    | false => rw [if_neg (by decide), Nat.min_eq_right (hfalse rfl)]
  · intro h
    rcases Nat.le_total a b with hab | hba
    · exact ⟨true, ⟨fun _ => hab, by simp⟩, by rw [h, if_pos rfl, Nat.min_eq_left hab]⟩
    · exact ⟨false, ⟨by simp, fun _ => hba⟩, by rw [h, if_neg (by decide), Nat.min_eq_right hba]⟩

omit [DecidableEq F] in
/-- Every quotient up to the real one goes with some remainder. -/
theorem returns_divMod {q r : F} (hx : x < 2 ^ 32) (hy : y < 2 ^ 32) (hpos : 0 < y) :
    (divMod (x : F) y).Returns (q, r) ↔ ∃ a b : Nat, a * y + b = x ∧ q = a ∧ r = b := by
  unfold divMod
  simp only [Circuit.returns_bind, Circuit.returns_choose, Circuit.returns_assert, Circuit.returns_pure]
  constructor
  · intro h
    obtain ⟨q', ⟨a, ha, rfl⟩, r', ⟨b, hb, rfl⟩, -, heq, hout⟩ := h
    obtain ⟨rfl, rfl⟩ := Prod.mk.inj hout
    refine ⟨a, b, ?_, rfl, rfl⟩
    have hprod : a * y < 2 ^ 32 * 2 ^ 32 := Nat.mul_lt_mul'' ha hy
    have hsum : ((a * y + b : Nat) : F) = x := by
      rw [Nat.cast_add, Nat.cast_mul, heq]
      ring
    exact LargeField.cast_inj _ _ (by omega) (by omega) hsum
  · intro h
    obtain ⟨a, b, heq, rfl, rfl⟩ := h
    have ha : a ≤ a * y := Nat.le_mul_of_pos_right a hpos
    refine ⟨a, ⟨a, by omega, rfl⟩, b, ⟨b, by omega, rfl⟩, (), ?_, rfl⟩
    rw [← heq, Nat.cast_add, Nat.cast_mul]
    ring

omit [DecidableEq F] [LargeField F] in
theorem rangeCheck_natCast {n : Nat} (hn : n < 2 ^ 32) : rangeCheck 32 (n : F) = pure () := by
  rw [rangeCheck_eq, ← Circuit.assert_true]
  congr 1
  exact propext ⟨fun _ => trivial, fun _ => ⟨n, hn, rfl⟩⟩

omit [DecidableEq F] [LargeField F] in
theorem add_eq {x y : Nat} (h : x + y < 2 ^ 32) : add (x : F) y = pure ((x + y : Nat) : F) := by
  unfold add
  rw [← Nat.cast_add, rangeCheck_natCast h, pure_bind]

omit [DecidableEq F] [LargeField F] in
theorem mul_eq {x y : Nat} (h : x * y < 2 ^ 32) : mul (x : F) y = pure ((x * y : Nat) : F) := by
  unfold mul
  rw [← Nat.cast_mul, rangeCheck_natCast h, pure_bind]

omit [DecidableEq F] in
theorem returns_sub {x y : Nat} {z : F} (hx : x < 2 ^ 32) (hy : y < 2 ^ 32) :
    (sub (x : F) y).Returns z ↔ y ≤ x ∧ z = ((x - y : Nat) : F) := by
  unfold sub
  simp only [rangeCheck_eq, Circuit.returns_bind, Circuit.returns_assert, Circuit.returns_pure, inRange_sub hx hy]
  constructor
  · intro h
    obtain ⟨-, hle, rfl⟩ := h
    exact ⟨hle, by rw [Nat.cast_sub hle]⟩
  · intro h
    obtain ⟨hle, rfl⟩ := h
    exact ⟨(), hle, by rw [Nat.cast_sub hle]⟩

/-- An underflow cannot be hidden, and none can be made up. -/
theorem subOrZero_eq (hx : x < 2 ^ 32) (hy : y < 2 ^ 32) :
    subOrZero (x : F) y = pure (decide (x < y), ((x - y : Nat) : F)) := by
  have hneg : -((x : F) - y) = (y : F) - x := by ring
  have hcast : (x : F) = y ↔ x = y := natCast_inj (by omega) (by omega)
  have hres : ∀ {b : Bool}, (b = true → x ≤ y) → (b = false → y ≤ x) →
      ((b && !decide ((x : F) = y)), if (b && !decide ((x : F) = y)) = true then 0 else (x : F) - y)
        = (decide (x < y), ((x - y : Nat) : F)) := by
    intro b htrue hfalse
    obtain hlt | heq | hgt := lt_trichotomy x y
    · have hb : b = true := by
        cases b with
        | true => rfl
        | false => exact absurd (hfalse rfl) (by omega)
      simp [hb, hcast, hlt, hlt.ne, Nat.sub_eq_zero_of_le hlt.le]
    · simp [heq]
    · have hb : b = false := by
        cases b with
        | true => exact absurd (htrue rfl) (by omega)
        | false => rfl
      simp [hb, hgt.le, Nat.cast_sub hgt.le]
  ext ⟨underflow, z⟩
  unfold subOrZero
  simp only [Circuit.returns_bind, Circuit.returns_assert, Circuit.returns_pure,
    returns_rangeCheckFlag (F := F) (show 0 < 32 by decide), hneg, inRange_sub hx hy, inRange_sub hy hx]
  constructor
  · intro h
    obtain ⟨xy, hxy, yx, hyx, -, hany, hout⟩ := h
    rw [hout]
    refine hres hyx fun hb => hxy ?_
    rw [hb] at hany
    simpa using hany
  · intro h
    refine ⟨decide (y ≤ x), of_decide_eq_true, decide (x ≤ y), of_decide_eq_true, (), ?_, ?_⟩
    · simpa using Nat.le_total y x
    · rw [h, hres of_decide_eq_true fun hb => ?_]
      have := of_decide_eq_false hb
      omega

omit [DecidableEq F] [LargeField F] in
/-- Without the flag the adjustment is zero. -/
theorem returns_rangeCheckFlagged {z : F} : (rangeCheckFlagged t).Returns (z, false) ↔ z = t ∧ InRange 64 t := by
  unfold rangeCheckFlagged booleanOfField
  simp only [rangeCheck_eq, Circuit.returns_bind, Circuit.returns_choose, Circuit.returns_assert,
    Circuit.returns_pure, true_and]
  constructor
  · intro h
    obtain ⟨factor, flag, hflag, -, hrange, hout⟩ := h
    obtain ⟨rfl, rfl⟩ := Prod.mk.inj hout
    rw [if_neg (by decide), mul_self_eq_zero] at hflag
    rw [hflag, zero_mul, add_zero] at hrange ⊢
    exact ⟨rfl, hrange⟩
  · intro h
    obtain ⟨rfl, hrange⟩ := h
    refine ⟨0, false, by simp, (), ?_, ?_⟩
    · rwa [zero_mul, add_zero]
    · rw [zero_mul, add_zero]

omit [DecidableEq F] in
theorem returns_addSignedFlagged {t : Nat} {d : Signed} {z : F} (ht : t < 2 ^ 64) (hd : d.magnitude < 2 ^ 64) :
    (addSignedFlagged (t : F) (signedValue d)).Returns (z, false)
      ↔ ∃ total, Amount.addSigned t d = some total ∧ z = total := by
  obtain ⟨m, sgn⟩ := d
  unfold addSignedFlagged
  rw [returns_rangeCheckFlagged]
  cases sgn with
  | pos =>
    change z = (t : F) + m ∧ InRange 64 ((t : F) + m) ↔ _
    have hcast : (t : F) + m = ((t + m : Int) : F) := by push_cast; ring
    rw [hcast, inRange_intCast (by decide) (by dsimp only at hd; omega) (by dsimp only at hd; omega)]
    constructor
    · intro h
      obtain ⟨rfl, -, hlt⟩ := h
      exact ⟨t + m, Amount.add_eq_some.2 ⟨rfl, by omega⟩, by push_cast; ring⟩
    · intro h
      obtain ⟨total, htotal, rfl⟩ := h
      obtain ⟨rfl, hlt⟩ := Amount.add_eq_some.1 htotal
      dsimp only at hlt ⊢
      exact ⟨by push_cast; ring, by omega, by push_cast; omega⟩
  | neg =>
    change z = (t : F) + -(m : F) ∧ InRange 64 ((t : F) + -(m : F)) ↔ _
    have hcast : (t : F) + -(m : F) = ((t - m : Int) : F) := by push_cast; ring
    rw [hcast, inRange_intCast (by decide) (by dsimp only at hd; omega) (by dsimp only at hd; omega)]
    constructor
    · intro h
      obtain ⟨rfl, hle, -⟩ := h
      refine ⟨t - m, Amount.sub_eq_some.2 ?_, ?_⟩
      · dsimp only
        omega
      · rw [Nat.cast_sub (by omega)]
        push_cast
        ring
    · intro h
      obtain ⟨total, htotal, rfl⟩ := h
      have hsub := Amount.sub_eq_some.1 htotal
      dsimp only at hsub
      subst hsub
      exact ⟨by push_cast; ring, by omega, by push_cast; omega⟩

end Spec

end CheckedNumber

end MinaProtocol
