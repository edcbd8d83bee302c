import MinaProtocol.Base.Currency

/-!
# Base.Signed

Signed amounts of currency: a magnitude of 64 bits and a sign. `create` gives zero the
sign `pos`, but a record with a negative zero can be written down, and `equal` does not
tell the two zeros apart. Signed amounts stand for integers; `add` fails exactly when the
magnitude of the sum does not fit.
-/

namespace MinaProtocol

/-- `Sgn.t`. -/
inductive Sgn where
  | pos
  | neg
deriving DecidableEq, Repr

/-- `Sgn.negate`. -/
def Sgn.negate : Sgn → Sgn
  | .pos => .neg
  | .neg => .pos

/-- `Currency.Signed_poly.t`, for fees and amounts. -/
structure Signed where
  magnitude : Nat
  sgn : Sgn
deriving DecidableEq, Repr

namespace Signed

/-- `Signed.create`. -/
def create (magnitude : Nat) (sgn : Sgn) : Signed :=
  ⟨magnitude, if magnitude = 0 then .pos else sgn⟩

/-- `Signed.zero`. -/
def zero : Signed := ⟨0, .pos⟩

variable (magnitude : Nat)

/-- `Signed.of_unsigned`. -/
def ofUnsigned : Signed := create magnitude .pos

/-- `Signed.equal`. -/
def equal (x y : Signed) : Bool :=
  if x.magnitude = 0 ∧ y.magnitude = 0 then true else x = y

/-- `Signed.is_zero`. -/
def isZero (x : Signed) : Bool := x.magnitude = 0

/-- `Signed.is_negative`. -/
def isNegative (x : Signed) : Bool :=
  match x.sgn with
  | .neg => x.magnitude ≠ 0
  | .pos => false

/-- `Signed.negate`. -/
def negate (x : Signed) : Signed :=
  if x.magnitude = 0 then zero else { x with sgn := x.sgn.negate }

/-- The sum of signed amounts with different signs. -/
def addOpposite (x y : Signed) : Signed :=
  if x.magnitude < y.magnitude then create (y.magnitude - x.magnitude) y.sgn
  else if y.magnitude < x.magnitude then create (x.magnitude - y.magnitude) x.sgn
  else zero

/-- `Signed.add`. -/
def add (x y : Signed) : Option Signed :=
  if x.sgn = y.sgn then do
    let magnitude ← Amount.add x.magnitude y.magnitude
    some (create magnitude x.sgn)
  else some (addOpposite x y)

/-- The integer that a signed amount stands for. -/
def toInt (x : Signed) : Int :=
  match x.sgn with
  | .pos => x.magnitude
  | .neg => -x.magnitude

/-- Zero has the sign that `create` gives it. -/
def Normal (x : Signed) : Prop := x.magnitude = 0 → x.sgn = .pos

instance (x : Signed) : Decidable x.Normal := by
  unfold Normal
  infer_instance

theorem create_normal (sgn : Sgn) : (create magnitude sgn).Normal := by
  intro h
  exact if_pos h

@[simp] theorem toInt_pos (m : Nat) : (⟨m, .pos⟩ : Signed).toInt = m := rfl

@[simp] theorem toInt_neg (m : Nat) : (⟨m, .neg⟩ : Signed).toInt = -m := rfl

@[simp] theorem toInt_zero : zero.toInt = 0 := rfl

@[simp] theorem toInt_create (sgn : Sgn) : (create magnitude sgn).toInt = (⟨magnitude, sgn⟩ : Signed).toInt := by
  unfold create
  by_cases h : magnitude = 0
  · rw [if_pos h, h]
    cases sgn <;> rfl
  · rw [if_neg h]

@[simp] theorem toInt_ofUnsigned : (ofUnsigned magnitude).toInt = magnitude :=
  toInt_create magnitude .pos

variable {x y : Signed} {z : Signed}

theorem toInt_eq_zero : x.toInt = 0 ↔ x.magnitude = 0 := by
  obtain ⟨m, s⟩ := x
  cases s <;> simp [toInt]

theorem toInt_nonneg_of_sgn (h : x.sgn ≠ .neg) : 0 ≤ x.toInt := by
  obtain ⟨m, s⟩ := x
  cases s with
  | pos => exact Int.natCast_nonneg m
  | neg => exact absurd rfl h

theorem toInt_nonpos_of_sgn (h : x.sgn ≠ .pos) : x.toInt ≤ 0 := by
  obtain ⟨m, s⟩ := x
  cases s with
  | pos => exact absurd rfl h
  | neg => exact Int.neg_nonpos_of_nonneg (Int.natCast_nonneg m)

theorem natAbs_toInt (x : Signed) : x.toInt.natAbs = x.magnitude := by
  obtain ⟨m, s⟩ := x
  cases s <;> simp [toInt]

@[simp] theorem toInt_negate (x : Signed) : x.negate.toInt = -x.toInt := by
  obtain ⟨m, s⟩ := x
  unfold negate
  by_cases h : m = 0
  · subst h
    cases s <;> rfl
  · rw [if_neg h]
    cases s <;> simp [toInt, Sgn.negate]

theorem toInt_addOpposite (h : x.sgn ≠ y.sgn) : (addOpposite x y).toInt = x.toInt + y.toInt := by
  obtain ⟨m, s⟩ := x
  obtain ⟨m', s'⟩ := y
  unfold addOpposite
  rcases Nat.lt_trichotomy m m' with hlt | rfl | hgt
  · rw [if_pos hlt, toInt_create]
    cases s <;> cases s' <;> simp only [toInt_pos, toInt_neg, ne_eq, not_true_eq_false] at h ⊢ <;> omega
  · rw [if_neg (Nat.lt_irrefl m), if_neg (Nat.lt_irrefl m), toInt_zero]
    cases s <;> cases s' <;> simp only [toInt_pos, toInt_neg, ne_eq, not_true_eq_false] at h ⊢ <;> omega
  · rw [if_neg (Nat.lt_asymm hgt), if_pos hgt, toInt_create]
    cases s <;> cases s' <;> simp only [toInt_pos, toInt_neg, ne_eq, not_true_eq_false] at h ⊢ <;> omega

theorem addOpposite_normal (x y : Signed) : (addOpposite x y).Normal := by
  unfold addOpposite
  split
  · exact create_normal _ _
  · split
    · exact create_normal _ _
    · exact fun _ => rfl

/-- **The sum stands for the sum of the integers.** -/
theorem toInt_add (h : add x y = some z) : z.toInt = x.toInt + y.toInt ∧ z.Normal := by
  unfold add at h
  split at h
  · rename_i hs
    obtain ⟨m, hm, h⟩ := Option.bind_eq_some_iff.1 h
    obtain rfl := Option.some.inj h
    obtain ⟨rfl, -⟩ := Amount.add_eq_some.1 hm
    refine ⟨?_, create_normal _ _⟩
    rw [toInt_create]
    obtain ⟨m, s⟩ := x
    obtain ⟨m', s'⟩ := y
    obtain rfl : s = s' := hs
    cases s with
    | pos => simp [toInt]
    | neg => simp [toInt]; omega
  · rename_i hs
    obtain rfl := Option.some.inj h
    exact ⟨toInt_addOpposite hs, addOpposite_normal x y⟩

theorem create_zero (sgn : Sgn) : create 0 sgn = zero := rfl

theorem add_of_left_zero (hx : x.magnitude = 0) (hy : y.magnitude < 2 ^ 64) :
    add x y = some (create y.magnitude y.sgn) := by
  unfold add
  split
  · rename_i hs
    rw [hx, Amount.add_eq_some.2 ⟨Nat.zero_add _, hy⟩, Option.bind_eq_bind, Option.bind_some, hs]
  · congr 1
    unfold addOpposite
    rw [hx]
    rcases Nat.eq_zero_or_pos y.magnitude with h0 | hpos
    · rw [h0, if_neg (Nat.lt_irrefl 0), if_neg (Nat.lt_irrefl 0), create_zero]
    · rw [if_pos hpos, Nat.sub_zero]

theorem add_of_right_zero (hx : x.magnitude < 2 ^ 64) (hy : y.magnitude = 0) :
    add x y = some (create x.magnitude x.sgn) := by
  unfold add
  split
  · rw [hy, Amount.add_eq_some.2 ⟨Nat.add_zero _, hx⟩, Option.bind_eq_bind, Option.bind_some]
  · congr 1
    unfold addOpposite
    rw [hy, if_neg (Nat.not_lt_zero _)]
    rcases Nat.eq_zero_or_pos x.magnitude with h0 | hpos
    · rw [h0, if_neg (Nat.lt_irrefl 0), create_zero]
    · rw [if_pos hpos, Nat.sub_zero]

theorem add_magnitude_lt (hx : x.magnitude < 2 ^ 64) (hy : y.magnitude < 2 ^ 64)
    (h : add x y = some z) : z.magnitude < 2 ^ 64 := by
  unfold add at h
  split at h
  · obtain ⟨m, hm, h⟩ := Option.bind_eq_some_iff.1 h
    obtain rfl := Option.some.inj h
    exact (Amount.add_eq_some.1 hm).2
  · obtain rfl := Option.some.inj h
    unfold addOpposite
    split
    · exact lt_of_le_of_lt (Nat.sub_le _ _) hy
    · split
      · exact lt_of_le_of_lt (Nat.sub_le _ _) hx
      · decide

theorem eq_of_toInt_eq (hx : x.Normal) (hy : y.Normal) (h : x.toInt = y.toInt) : x = y := by
  obtain ⟨m, s⟩ := x
  obtain ⟨m', s'⟩ := y
  have hm : m = m' := by
    have := congrArg Int.natAbs h
    rwa [natAbs_toInt, natAbs_toInt] at this
  subst hm
  by_cases hz : m = 0
  · have hxs : s = .pos := hx hz
    have hys : s' = .pos := hy hz
    rw [hxs, hys]
  · cases s <;> cases s' <;> first | rfl | (simp only [toInt] at h; omega)

theorem equal_iff : equal x y = true ↔ x.toInt = y.toInt := by
  unfold equal
  by_cases hz : x.magnitude = 0 ∧ y.magnitude = 0
  · rw [if_pos hz, toInt_eq_zero.2 hz.1, toInt_eq_zero.2 hz.2]
    simp
  · rw [if_neg hz, decide_eq_true_eq]
    refine ⟨fun e => by rw [e], fun h => ?_⟩
    have hm := congrArg Int.natAbs h
    rw [natAbs_toInt, natAbs_toInt] at hm
    have hx : x.magnitude ≠ 0 := fun hx => hz ⟨hx, hm ▸ hx⟩
    exact eq_of_toInt_eq (fun h0 => absurd h0 hx) (fun h0 => absurd (hm ▸ h0) hx) h

end Signed

/-- `Currency.Amount.add_signed_flagged`; `none` where the flag is set. -/
def Amount.addSigned (x : Nat) (d : Signed) : Option Nat :=
  match d.sgn with
  | .pos => Amount.add x d.magnitude
  | .neg => Amount.sub x d.magnitude

theorem Amount.addSigned_eq_some {x y : Nat} {d : Signed} (h : Amount.addSigned x d = some y) :
    (y : Int) = x + d.toInt := by
  obtain ⟨m, s⟩ := d
  cases s with
  | pos =>
    obtain ⟨rfl, -⟩ := Amount.add_eq_some.1 h
    exact Nat.cast_add x m
  | neg =>
    have hx := Amount.sub_eq_some.1 h
    rw [hx, Nat.cast_add, Signed.toInt_neg]
    ring

/-! ### Arithmetic that goes on after an overflow -/

/-- `Currency.Amount.add_flagged`: the sum modulo `2 ^ 64` and whether it overflowed. -/
def Amount.addFlagged (x y : Nat) : Nat × Bool := ((x + y) % 2 ^ 64, 2 ^ 64 ≤ x + y)

/-- `Currency.Amount.sub_flagged`: the difference modulo `2 ^ 64` and whether it underflowed. -/
def Amount.subFlagged (x y : Nat) : Nat × Bool :=
  if x < y then (x + 2 ^ 64 - y, true) else (x - y, false)

/-- `Currency.Amount.add_signed_flagged`, also for balances. -/
def Amount.addSignedFlagged (x : Nat) (y : Signed) : Nat × Bool :=
  match y.sgn with
  | .pos => Amount.addFlagged x y.magnitude
  | .neg => Amount.subFlagged x y.magnitude

/-- `Signed.add_flagged`. -/
def Signed.addFlagged (x y : Signed) : Signed × Bool :=
  if x.sgn = y.sgn then
    let (magnitude, overflow) := Amount.addFlagged x.magnitude y.magnitude
    (create magnitude x.sgn, overflow)
  else (addOpposite x y, false)

/-- Where the flag is not set, the sum is that of the integers. -/
theorem Signed.toInt_addFlagged {x y : Signed} (h : (addFlagged x y).2 = false) :
    (addFlagged x y).1.toInt = x.toInt + y.toInt := by
  unfold addFlagged at h ⊢
  by_cases hs : x.sgn = y.sgn
  · rw [if_pos hs] at h ⊢
    have hlt : ¬ 2 ^ 64 ≤ x.magnitude + y.magnitude := of_decide_eq_false h
    have hmod : (x.magnitude + y.magnitude) % 2 ^ 64 = x.magnitude + y.magnitude :=
      Nat.mod_eq_of_lt (Nat.not_le.1 hlt)
    dsimp only [Amount.addFlagged]
    rw [hmod, toInt_create]
    obtain ⟨m, s⟩ := x
    obtain ⟨m', s'⟩ := y
    obtain rfl : s = s' := hs
    cases s with
    | pos => simp
    | neg =>
      simp only [toInt_neg, Nat.cast_add]
      omega
  · rw [if_neg hs]
    exact toInt_addOpposite hs

theorem Amount.coe_addSignedFlagged {x : Nat} {y : Signed} (h : (addSignedFlagged x y).2 = false) :
    ((addSignedFlagged x y).1 : Int) = x + y.toInt := by
  obtain ⟨m, s⟩ := y
  unfold addSignedFlagged at h ⊢
  cases s with
  | pos =>
    have hlt : ¬ 2 ^ 64 ≤ x + m := of_decide_eq_false h
    have hmod : (x + m) % 2 ^ 64 = x + m := Nat.mod_eq_of_lt (Nat.not_le.1 hlt)
    change (((x + m) % 2 ^ 64 : Nat) : Int) = x + m
    rw [hmod, Nat.cast_add]
  | neg =>
    dsimp only [subFlagged] at h ⊢
    split at h
    · cases h
    · rename_i hle
      rw [if_neg hle, Signed.toInt_neg]
      dsimp only
      omega

end MinaProtocol
