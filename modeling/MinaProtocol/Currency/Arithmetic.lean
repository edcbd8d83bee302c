import MinaProtocol.Base.Signed

/-!
# Currency.Arithmetic

Fees and amounts as the code computes them, in words of 64 bits that wrap, with the tests by which
it finds an overflow. On words it is the arithmetic of `Amount` and `Signed`
(`toNat_add`, `toSigned_add` and so on), and an operation with a flag goes with the one that
returns an option (`flagged_agrees_iff`), except for fee rates.
-/

namespace MinaProtocol.Currency

/-! ### Unsigned -/

/-- `sub`. -/
def sub (x y : UInt64) : Option UInt64 := if x < y then none else some (x - y)

/-- `sub_flagged`. -/
def subFlagged (x y : UInt64) : UInt64 × Bool :=
  let z := x - y
  (z, x < y)

/-- `add`. -/
def add (x y : UInt64) : Option UInt64 :=
  let z := x + y
  if z < x then none else some z

/-- `add_flagged`. -/
def addFlagged (x y : UInt64) : UInt64 × Bool :=
  let z := x + y
  (z, z < x)

/-- `scale`, with an integer of the language. -/
def scale (u64 : UInt64) (i : Int) : Option UInt64 :=
  if i = 0 then some 0
  else
    let i := UInt64.ofInt i
    let maxVal := UInt64.ofNat (2 ^ 64 - 1) / i
    if maxVal ≥ u64 then some (u64 * i) else none

/-! ### Signed -/

/-- `Signed_poly.t`. -/
structure SignedPoly where
  magnitude : UInt64
  sgn : Sgn
deriving DecidableEq, Repr

variable (x : UInt64)

variable (y : SignedPoly)

/-- `add_signed_flagged`. -/
def addSignedFlagged : UInt64 × Bool :=
  match y.sgn with
  | .pos => addFlagged x y.magnitude
  | .neg => subFlagged x y.magnitude

namespace SignedPoly

/-- `Signed.create`. -/
def create (magnitude : UInt64) (sgn : Sgn) : SignedPoly :=
  ⟨magnitude, if magnitude = 0 then .pos else sgn⟩

/-- `Signed.zero`. -/
def zero : SignedPoly := ⟨0, .pos⟩

/-- `Signed.of_unsigned`. -/
def ofUnsigned (magnitude : UInt64) : SignedPoly := create magnitude .pos

/-- `Signed.negate`. -/
def negate (t : SignedPoly) : SignedPoly :=
  if t.magnitude = 0 then zero else { t with sgn := t.sgn.negate }

/-- The sum of amounts with different signs, in `Signed.add` and `Signed.add_flagged`. -/
def addOpposite (x y : SignedPoly) : SignedPoly :=
  if x.magnitude < y.magnitude then create (y.magnitude - x.magnitude) y.sgn
  else if y.magnitude < x.magnitude then create (x.magnitude - y.magnitude) x.sgn
  else zero

/-- `Signed.add`. -/
def add (x y : SignedPoly) : Option SignedPoly :=
  match x.sgn, y.sgn with
  | .neg, .neg => (Currency.add x.magnitude y.magnitude).map fun magnitude => create magnitude .neg
  | .pos, .pos => (Currency.add x.magnitude y.magnitude).map fun magnitude => create magnitude .pos
  | .pos, .neg => some (addOpposite x y)
  | .neg, .pos => some (addOpposite x y)

/-- `Signed.add_flagged`. -/
def addFlagged (x y : SignedPoly) : SignedPoly × Bool :=
  match x.sgn, y.sgn with
  | .neg, .neg =>
    let (magnitude, b) := Currency.addFlagged x.magnitude y.magnitude
    (create magnitude .neg, b)
  | .pos, .pos =>
    let (magnitude, b) := Currency.addFlagged x.magnitude y.magnitude
    (create magnitude .pos, b)
  | .pos, .neg => (addOpposite x y, false)
  | .neg, .pos => (addOpposite x y, false)

/-- The signed amount with its magnitude as a number. -/
def toSigned (x : SignedPoly) : Signed := ⟨x.magnitude.toNat, x.sgn⟩

/-- The integer that a signed amount stands for. -/
def toInt (x : SignedPoly) : Int := x.toSigned.toInt

end SignedPoly

namespace Inputs

/-- `Inputs.Amount.add_signed_flagged` of the transaction logic. -/
def addSignedFlagged (x1 : UInt64) (x2 : SignedPoly) : UInt64 × Bool :=
  let (y, b) := (SignedPoly.ofUnsigned x1).addFlagged x2
  match y.sgn with
  | .pos => (y.magnitude, b)
  -- the value that the snarked logic has
  | .neg => ((0 - 1) * y.magnitude, true)

end Inputs

/-! ### Fee rates -/

/-- `Q.t`: a fraction, or one of three values with the denominator zero. -/
structure Q where
  num : Int
  den : Int
deriving DecidableEq, Repr

namespace Q

/-- `Q.undef`. -/
def undef : Q := ⟨0, 0⟩

/-- `Q.make`: in lowest terms, with a denominator that is not negative. -/
def make (num den : Int) : Q :=
  if den = 0 then ⟨num.sign, 0⟩
  else ⟨den.sign * num / Int.gcd num den, den.natAbs / Int.gcd num den⟩

/-- `Q.neg`. -/
def neg (x : Q) : Q := ⟨-x.num, x.den⟩

/-- `Q.add`. Infinities of different signs have no sum. -/
def add (x y : Q) : Q :=
  if x = undef ∨ y = undef then undef
  else if x.den = 0 ∧ y.den = 0 then if x = y then x else undef
  else if x.den = 0 then x
  else if y.den = 0 then y
  else make (x.num * y.den + y.num * x.den) (x.den * y.den)

/-- `Q.sub`. -/
def sub (x y : Q) : Q := add x y.neg

end Q

namespace FeeRate

/-- `Fee_rate.fits_uint64`. -/
def fitsUint64 (z : Int) : Bool := 0 ≤ z && z ≤ 2 ^ 64 - 1

/-- `Z.fits_int32`. -/
def fitsInt32 (z : Int) : Bool := -2 ^ 31 ≤ z && z < 2 ^ 31

/-- `Fee_rate.check_q`. -/
def checkQ (q : Q) : Bool :=
  fitsUint64 q.num && fitsInt32 q.den && if q.den = 0 then q.num = 0 else true

/-- `Fee_rate.of_q`. -/
def ofQ (q : Q) : Option Q := if checkQ q then some q else none

/-- `Fee_rate.add`. -/
def add (x y : Q) : Option Q := ofQ (Q.add x y)

/-- `Fee_rate.add_flagged`. -/
def addFlagged (x y : Q) : Q × Bool :=
  let z := Q.add x y
  (z, checkQ z)

/-- `Fee_rate.sub`. -/
def sub (x y : Q) : Option Q := ofQ (Q.sub x y)

/-- `Fee_rate.sub_flagged`. -/
def subFlagged (x y : Q) : Q × Bool :=
  let z := Q.sub x y
  (z, checkQ z)

end FeeRate

/-! ### On numbers -/

theorem toNat_sub (x y : UInt64) : (sub x y).map UInt64.toNat = Amount.sub x.toNat y.toNat := by
  unfold sub Amount.sub
  by_cases h : x < y
  · rw [if_pos h, if_neg (by rw [UInt64.lt_iff_toNat_lt] at h; omega)]
    rfl
  · rw [UInt64.not_lt] at h
    rw [if_neg (UInt64.not_lt.2 h), if_pos (UInt64.le_iff_toNat_le.1 h), Option.map_some, UInt64.toNat_sub_of_le _ _ h]

theorem toNat_subFlagged (x y : UInt64) :
    ((subFlagged x y).1.toNat, (subFlagged x y).2) = Amount.subFlagged x.toNat y.toNat := by
  unfold subFlagged Amount.subFlagged
  have hx := x.toNat_lt
  have hy := y.toNat_lt
  by_cases h : x.toNat < y.toNat
  · rw [if_pos h]
    simp only [UInt64.toNat_sub, UInt64.lt_iff_toNat_lt, h, decide_true, Prod.mk.injEq, and_true]
    omega
  · rw [if_neg h]
    simp only [UInt64.toNat_sub, UInt64.lt_iff_toNat_lt, h, decide_false, Prod.mk.injEq, and_true]
    omega

/-- A sum wraps exactly when it is below its first summand. -/
theorem add_lt_left_iff (x y : UInt64) : x + y < x ↔ 2 ^ 64 ≤ x.toNat + y.toNat := by
  have hx := x.toNat_lt
  have hy := y.toNat_lt
  rw [UInt64.lt_iff_toNat_lt, UInt64.toNat_add]
  omega

theorem toNat_add_of_not_lt {x y : UInt64} (h : ¬ x + y < x) : (x + y).toNat = x.toNat + y.toNat := by
  rw [add_lt_left_iff] at h
  rw [UInt64.toNat_add]
  omega

theorem toNat_add (x y : UInt64) : (add x y).map UInt64.toNat = Amount.add x.toNat y.toNat := by
  unfold add Amount.add
  dsimp only
  by_cases h : x + y < x
  · rw [if_pos h, if_neg (by rw [add_lt_left_iff] at h; omega)]
    rfl
  · rw [if_neg h, if_pos (by rw [add_lt_left_iff] at h; omega), Option.map_some, toNat_add_of_not_lt h]

theorem toNat_addFlagged (x y : UInt64) :
    ((addFlagged x y).1.toNat, (addFlagged x y).2) = Amount.addFlagged x.toNat y.toNat := by
  unfold addFlagged Amount.addFlagged
  simp only [UInt64.toNat_add, add_lt_left_iff]

theorem toNat_addSignedFlagged : ((addSignedFlagged x y).1.toNat, (addSignedFlagged x y).2)
      = Amount.addSignedFlagged x.toNat y.toSigned := by
  obtain ⟨m, s⟩ := y
  cases s with
  | pos => exact toNat_addFlagged x m
  | neg => exact toNat_subFlagged x m

namespace SignedPoly

theorem toNat_eq_zero_iff {x : UInt64} : x.toNat = 0 ↔ x = 0 := by
  rw [← UInt64.toNat_inj]
  rfl

@[simp] theorem toSigned_create (magnitude : UInt64) (sgn : Sgn) :
    (create magnitude sgn).toSigned = Signed.create magnitude.toNat sgn := by
  simp [create, toSigned, Signed.create, toNat_eq_zero_iff]

theorem toSigned_ofUnsigned (magnitude : UInt64) :
    (ofUnsigned magnitude).toSigned = Signed.ofUnsigned magnitude.toNat := toSigned_create magnitude .pos

@[simp] theorem toSigned_magnitude (x : SignedPoly) : x.toSigned.magnitude = x.magnitude.toNat := rfl

@[simp] theorem toSigned_sgn (x : SignedPoly) : x.toSigned.sgn = x.sgn := rfl

theorem toSigned_negate (x : SignedPoly) : x.negate.toSigned = x.toSigned.negate := by
  unfold negate Signed.negate
  by_cases h : x.magnitude = 0
  · rw [if_pos h, if_pos (show x.toSigned.magnitude = 0 from toNat_eq_zero_iff.2 h)]
    rfl
  · rw [if_neg h, if_neg (show ¬ x.toSigned.magnitude = 0 from mt toNat_eq_zero_iff.1 h)]
    rfl

theorem toSigned_addOpposite (x y : SignedPoly) :
    (addOpposite x y).toSigned = Signed.addOpposite x.toSigned y.toSigned := by
  unfold addOpposite Signed.addOpposite
  have hlt : x.magnitude < y.magnitude ↔ x.toSigned.magnitude < y.toSigned.magnitude :=
    UInt64.lt_iff_toNat_lt
  have hgt : y.magnitude < x.magnitude ↔ y.toSigned.magnitude < x.toSigned.magnitude :=
    UInt64.lt_iff_toNat_lt
  by_cases h : x.magnitude < y.magnitude
  · rw [if_pos h, if_pos (hlt.1 h), toSigned_create, UInt64.toNat_sub_of_le _ _ (UInt64.le_of_lt h)]
    rfl
  · rw [if_neg h, if_neg (mt hlt.2 h)]
    by_cases h' : y.magnitude < x.magnitude
    · rw [if_pos h', if_pos (hgt.1 h'), toSigned_create, UInt64.toNat_sub_of_le _ _ (UInt64.le_of_lt h')]
      rfl
    · rw [if_neg h', if_neg (mt hgt.2 h')]
      rfl

/-- **Signed addition in words is signed addition.** -/
theorem toSigned_add (x y : SignedPoly) : (x.add y).map toSigned = Signed.add x.toSigned y.toSigned := by
  obtain ⟨m, s⟩ := x
  obtain ⟨m', s'⟩ := y
  have hsame : ∀ s, ((Currency.add m m').map fun magnitude => create magnitude s).map toSigned
      = Signed.add ⟨m.toNat, s⟩ ⟨m'.toNat, s⟩ := by
    intro s
    unfold Signed.add
    rw [if_pos rfl, ← toNat_add]
    cases Currency.add m m' <;> simp
  have hopposite := toSigned_addOpposite ⟨m, s⟩ ⟨m', s'⟩
  cases s <;> cases s'
  · exact hsame .pos
  · exact congrArg some hopposite
  · exact congrArg some hopposite
  · exact hsame .neg

theorem toSigned_addFlagged (x y : SignedPoly) :
    ((x.addFlagged y).1.toSigned, (x.addFlagged y).2) = Signed.addFlagged x.toSigned y.toSigned := by
  obtain ⟨m, s⟩ := x
  obtain ⟨m', s'⟩ := y
  have hsame : ∀ s, ((create (Currency.addFlagged m m').1 s).toSigned, (Currency.addFlagged m m').2)
      = Signed.addFlagged ⟨m.toNat, s⟩ ⟨m'.toNat, s⟩ := by
    intro s
    unfold Signed.addFlagged
    rw [if_pos rfl, ← toNat_addFlagged, toSigned_create]
  have hopposite := toSigned_addOpposite ⟨m, s⟩ ⟨m', s'⟩
  cases s <;> cases s'
  · exact hsame .pos
  · exact congrArg (·, false) hopposite
  · exact congrArg (·, false) hopposite
  · exact hsame .neg

end SignedPoly

/-- **Words go with numbers**: fees and amounts in words of 64 bits, with their tests for an overflow, are added and
subtracted as the numbers that the transaction logic is about. -/
theorem words_refine_numbers (x y : UInt64) (s t : SignedPoly) :
    (add x y).map UInt64.toNat = Amount.add x.toNat y.toNat ∧ (sub x y).map UInt64.toNat = Amount.sub x.toNat y.toNat ∧
    ((addFlagged x y).1.toNat, (addFlagged x y).2) = Amount.addFlagged x.toNat y.toNat ∧
    ((subFlagged x y).1.toNat, (subFlagged x y).2) = Amount.subFlagged x.toNat y.toNat ∧
    ((addSignedFlagged x s).1.toNat, (addSignedFlagged x s).2) = Amount.addSignedFlagged x.toNat s.toSigned ∧
    (SignedPoly.ofUnsigned x).toSigned = Signed.ofUnsigned x.toNat ∧ s.negate.toSigned = s.toSigned.negate ∧
    (s.add t).map SignedPoly.toSigned = Signed.add s.toSigned t.toSigned ∧
    ((s.addFlagged t).1.toSigned, (s.addFlagged t).2) = Signed.addFlagged s.toSigned t.toSigned :=
  ⟨toNat_add x y, toNat_sub x y, toNat_addFlagged x y, toNat_subFlagged x y, toNat_addSignedFlagged x s,
    SignedPoly.toSigned_ofUnsigned x, SignedPoly.toSigned_negate s, SignedPoly.toSigned_add s t, SignedPoly.toSigned_addFlagged s t⟩

/-! ### Flags and options -/

/-- The flag is set exactly where the option is empty, and otherwise the values are the same. -/
def FlagAgrees {A : Type} (flagged : A × Bool) (option : Option A) : Prop :=
  (flagged.2 = true ↔ option = none) ∧ (flagged.2 = false → option = some flagged.1)

/-- The integer is a word. -/
def Fits (n : Int) : Prop := 0 ≤ n ∧ n < 2 ^ 64

/-- The option has the integer, or nothing if it is no word. -/
def IsExact (option : Option UInt64) (n : Int) : Prop :=
  (option = none ↔ ¬ Fits n) ∧ ∀ z, option = some z → (z.toNat : Int) = n

/-- The flag is set exactly where the integer is no word, and otherwise this is the value. -/
def FlagExact (flagged : UInt64 × Bool) (n : Int) : Prop :=
  (flagged.2 = true ↔ ¬ Fits n) ∧ (flagged.2 = false → (flagged.1.toNat : Int) = n)

/-- An operation on fees, amounts or fee rates and what it is given. -/
inductive Operation where
  | add (x y : UInt64)
  | sub (x y : UInt64)
  | addSigned (x : UInt64) (y : SignedPoly)
  | inputsAddSigned (x : UInt64) (y : SignedPoly)
  | signedAdd (x y : SignedPoly)
  | scale (x : UInt64) (i : Int) (nonneg : 0 ≤ i) (fits : i < 2 ^ 62)
  | feeRateAdd (x y : Q)
  | feeRateSub (x y : Q)

namespace Operation

/-- The operations of `Fee_rate`. -/
def IsFeeRate : Operation → Prop
  | .feeRateAdd _ _ => True
  | .feeRateSub _ _ => True
  | _ => False

/-- The forms of the operation go together, and are exact. -/
def Agrees : Operation → Prop
  | .add x y =>
    FlagAgrees (Currency.addFlagged x y) (Currency.add x y)
      ∧ IsExact (Currency.add x y) (x.toNat + y.toNat)
  | .sub x y =>
    FlagAgrees (Currency.subFlagged x y) (Currency.sub x y)
      ∧ IsExact (Currency.sub x y) (x.toNat - y.toNat)
  | .addSigned x y => FlagExact (Currency.addSignedFlagged x y) (x.toNat + y.toInt)
  | .inputsAddSigned x y => FlagExact (Inputs.addSignedFlagged x y) (x.toNat + y.toInt)
  | .signedAdd x y =>
    FlagAgrees (x.addFlagged y) (x.add y) ∧ (x.add y = none ↔ 2 ^ 64 ≤ (x.toInt + y.toInt).natAbs)
      ∧ ∀ z, x.add y = some z → z.toInt = x.toInt + y.toInt ∧ (z.magnitude = 0 → z.sgn = .pos)
  | .scale x i _ _ => IsExact (Currency.scale x i) (x.toNat * i)
  | .feeRateAdd x y => FlagAgrees (FeeRate.addFlagged x y) (FeeRate.add x y)
  | .feeRateSub x y => FlagAgrees (FeeRate.subFlagged x y) (FeeRate.sub x y)

end Operation

theorem flagAgrees_add (x y : UInt64) : FlagAgrees (addFlagged x y) (add x y) := by
  unfold FlagAgrees addFlagged add
  by_cases h : x + y < x <;> simp [h]

theorem flagAgrees_sub (x y : UInt64) : FlagAgrees (subFlagged x y) (sub x y) := by
  unfold FlagAgrees subFlagged sub
  by_cases h : x < y <;> simp [h]

theorem isExact_add (x y : UInt64) : IsExact (add x y) (x.toNat + y.toNat) := by
  have hlt := add_lt_left_iff x y
  unfold IsExact Fits add
  dsimp only
  by_cases h : x + y < x
  · rw [if_pos h]
    refine ⟨iff_of_true rfl ?_, fun z hz => by cases hz⟩
    have := hlt.1 h
    omega
  · rw [if_neg h]
    refine ⟨iff_of_false (by simp) ?_, fun z hz => ?_⟩
    · have := mt hlt.2 h
      omega
    · obtain rfl := Option.some.inj hz
      rw [toNat_add_of_not_lt h]
      exact Nat.cast_add _ _

theorem isExact_sub (x y : UInt64) : IsExact (sub x y) (x.toNat - y.toNat) := by
  have hx := x.toNat_lt
  unfold IsExact Fits sub
  by_cases h : x < y
  · rw [if_pos h]
    refine ⟨iff_of_true rfl ?_, fun z hz => by cases hz⟩
    rw [UInt64.lt_iff_toNat_lt] at h
    omega
  · rw [if_neg h]
    have hle : y.toNat ≤ x.toNat := UInt64.le_iff_toNat_le.1 (UInt64.not_lt.1 h)
    refine ⟨iff_of_false (by simp) (by omega), fun z hz => ?_⟩
    obtain rfl := Option.some.inj hz
    rw [UInt64.toNat_sub_of_le _ _ (UInt64.not_lt.1 h)]
    omega

theorem FlagAgrees.flagExact {flagged : UInt64 × Bool} {option : Option UInt64} {n : Int}
    (h : FlagAgrees flagged option) (hexact : IsExact option n) : FlagExact flagged n :=
  ⟨h.1.trans hexact.1, fun hb => hexact.2 _ (h.2 hb)⟩

theorem flagExact_addSigned : FlagExact (addSignedFlagged x y) (x.toNat + y.toInt) := by
  obtain ⟨m, s⟩ := y
  cases s with
  | pos => exact (flagAgrees_add x m).flagExact (isExact_add x m)
  | neg =>
    have h := (flagAgrees_sub x m).flagExact (isExact_sub x m)
    rwa [Int.sub_eq_add_neg] at h

namespace SignedPoly

theorem ofUnsigned_eq (x : UInt64) : ofUnsigned x = ⟨x, .pos⟩ := by
  unfold ofUnsigned create
  rw [ite_self]

theorem flagAgrees_add (x y : SignedPoly) : FlagAgrees (x.addFlagged y) (x.add y) := by
  obtain ⟨m, s⟩ := x
  obtain ⟨m', s'⟩ := y
  have hsame : ∀ s, FlagAgrees (create (Currency.addFlagged m m').1 s, (Currency.addFlagged m m').2)
      ((Currency.add m m').map fun magnitude => create magnitude s) := by
    intro s
    obtain ⟨hnone, hsome⟩ := Currency.flagAgrees_add m m'
    refine ⟨?_, fun hb => ?_⟩
    · rw [Option.map_eq_none_iff]
      exact hnone
    · rw [hsome hb]
      rfl
  have hopposite : FlagAgrees (addOpposite ⟨m, s⟩ ⟨m', s'⟩, false) (some (addOpposite ⟨m, s⟩ ⟨m', s'⟩)) := by
    simp [FlagAgrees]
  cases s <;> cases s'
  · exact hsame .pos
  · exact hopposite
  · exact hopposite
  · exact hsame .neg

/-- The sum fails exactly when its magnitude does not fit. -/
theorem add_eq_none_iff (x y : SignedPoly) : x.add y = none ↔ 2 ^ 64 ≤ (x.toInt + y.toInt).natAbs := by
  obtain ⟨m, s⟩ := x
  obtain ⟨m', s'⟩ := y
  have hm := m.toNat_lt
  have hm' := m'.toNat_lt
  have hsame : ∀ s, (Currency.add m m').map (fun magnitude => create magnitude s) = none
      ↔ 2 ^ 64 ≤ m.toNat + m'.toNat := by
    intro s
    rw [Option.map_eq_none_iff, (isExact_add m m').1]
    unfold Fits
    omega
  cases s <;> cases s'
  · refine (hsame .pos).trans ?_
    simp only [toInt, toSigned, Signed.toInt_pos]
    omega
  · refine iff_of_false (by simp [add]) ?_
    simp only [toInt, toSigned, Signed.toInt_pos, Signed.toInt_neg]
    omega
  · refine iff_of_false (by simp [add]) ?_
    simp only [toInt, toSigned, Signed.toInt_pos, Signed.toInt_neg]
    omega
  · refine (hsame .neg).trans ?_
    simp only [toInt, toSigned, Signed.toInt_neg]
    omega

theorem toInt_add {x y z : SignedPoly} (h : x.add y = some z) :
    z.toInt = x.toInt + y.toInt ∧ (z.magnitude = 0 → z.sgn = .pos) := by
  have hadd := toSigned_add x y
  rw [h] at hadd
  obtain ⟨hint, hnormal⟩ := Signed.toInt_add hadd.symm
  exact ⟨hint, fun hz => hnormal (toNat_eq_zero_iff.2 hz)⟩

end SignedPoly

theorem flagExact_inputsAddSigned : FlagExact (Inputs.addSignedFlagged x y) (x.toNat + y.toInt) := by
  have hexact := flagExact_addSigned x y
  obtain ⟨m, s⟩ := y
  cases s with
  | pos =>
    have heq : Inputs.addSignedFlagged x ⟨m, .pos⟩ = addSignedFlagged x ⟨m, .pos⟩ := by
      unfold Inputs.addSignedFlagged
      rw [SignedPoly.ofUnsigned_eq]
      simp [SignedPoly.addFlagged, SignedPoly.create, addSignedFlagged]
    rw [heq]
    exact hexact
  | neg =>
    have hadd : (SignedPoly.ofUnsigned x).addFlagged ⟨m, .neg⟩
        = (SignedPoly.addOpposite ⟨x, .pos⟩ ⟨m, .neg⟩, false) := by
      rw [SignedPoly.ofUnsigned_eq]
      rfl
    have hint : (SignedPoly.mk m .neg).toInt = -(m.toNat : Int) := rfl
    have hx := x.toNat_lt
    unfold Inputs.addSignedFlagged FlagExact Fits
    rw [hadd, hint]
    unfold SignedPoly.addOpposite
    simp only
    by_cases hlt : x < m
    · have hne : m - x ≠ 0 := by
        intro h0
        have hsub := UInt64.toNat_sub_of_le _ _ (UInt64.le_of_lt hlt)
        rw [h0, UInt64.toNat_zero] at hsub
        rw [UInt64.lt_iff_toNat_lt] at hlt
        omega
      rw [UInt64.lt_iff_toNat_lt] at hlt
      simp only [UInt64.lt_iff_toNat_lt, hlt, if_true, SignedPoly.create, hne, if_false]
      refine ⟨iff_of_true trivial ?_, fun hb => by cases hb⟩
      omega
    · by_cases hgt : m < x
      · have hsub := UInt64.toNat_sub_of_le _ _ (UInt64.le_of_lt hgt)
        simp only [hlt, hgt, if_true, if_false, SignedPoly.create, ite_self, hsub]
        rw [UInt64.lt_iff_toNat_lt] at hgt
        refine ⟨iff_of_false (by simp) (by omega), fun _ => by omega⟩
      · have heq : x.toNat = m.toNat := by
          rw [UInt64.lt_iff_toNat_lt] at hlt hgt
          omega
        simp only [hlt, hgt, if_false, SignedPoly.zero, heq]
        refine ⟨iff_of_false (by simp) (by omega), fun _ => ?_⟩
        rw [UInt64.toNat_zero]
        omega

/-- `scale` is exact for the integers of the language. -/
theorem isExact_scale {i : Int} (hnonneg : 0 ≤ i) (hfits : i < 2 ^ 62) : IsExact (scale x i) (x.toNat * i) := by
  obtain ⟨n, rfl⟩ := Int.eq_ofNat_of_zero_le hnonneg
  unfold IsExact scale
  by_cases h0 : (n : Int) = 0
  · rw [if_pos h0, h0, Int.mul_zero]
    refine ⟨iff_of_false (by simp) (by simp [Fits]), fun z hz => ?_⟩
    obtain rfl := Option.some.inj hz
    rfl
  · rw [if_neg h0]
    have hi : (UInt64.ofInt n).toNat = n := by
      rw [UInt64.ofInt, UInt64.toNat_ofNat_of_lt' (by simp only [UInt64.size]; omega)]
      omega
    have hmax : (UInt64.ofNat (2 ^ 64 - 1) / UInt64.ofInt n ≥ x) ↔ x.toNat * n ≤ 2 ^ 64 - 1 := by
      rw [ge_iff_le, UInt64.le_iff_toNat_le, UInt64.toNat_div, hi]
      exact Nat.le_div_iff_mul_le (by omega)
    dsimp only
    by_cases hle : UInt64.ofNat (2 ^ 64 - 1) / UInt64.ofInt n ≥ x
    · rw [if_pos hle]
      have hprod := hmax.1 hle
      refine ⟨iff_of_false (by simp) ?_, fun z hz => ?_⟩
      · unfold Fits
        rw [← Nat.cast_mul]
        omega
      · obtain rfl := Option.some.inj hz
        rw [UInt64.toNat_mul, hi, Nat.mod_eq_of_lt (by omega), Nat.cast_mul]
    · rw [if_neg hle]
      have hprod := mt hmax.2 hle
      refine ⟨iff_of_true rfl ?_, fun z hz => by cases hz⟩
      unfold Fits
      rw [← Nat.cast_mul]
      omega

theorem not_flagAgrees_feeRate (z : Q) : ¬ FlagAgrees (z, FeeRate.checkQ z) (FeeRate.ofQ z) := by
  intro h
  have hflag := h.1
  unfold FeeRate.ofQ at hflag
  cases hcheck : FeeRate.checkQ z with
  | true =>
    rw [hcheck] at hflag
    cases hflag.1 rfl
  | false =>
    rw [hcheck] at hflag
    cases hflag.2 rfl

/-- **The forms of an operation agree, except those of the fee rates.** -/
theorem flagged_agrees_iff (op : Operation) : op.Agrees ↔ ¬ op.IsFeeRate := by
  cases op with
  | add x y => exact iff_of_true ⟨flagAgrees_add x y, isExact_add x y⟩ id
  | sub x y => exact iff_of_true ⟨flagAgrees_sub x y, isExact_sub x y⟩ id
  | addSigned x y => exact iff_of_true (flagExact_addSigned x y) id
  | inputsAddSigned x y => exact iff_of_true (flagExact_inputsAddSigned x y) id
  | signedAdd x y =>
    exact iff_of_true ⟨x.flagAgrees_add y, x.add_eq_none_iff y, fun z hz => SignedPoly.toInt_add hz⟩ id
  | scale x i hnonneg hfits => exact iff_of_true (isExact_scale x hnonneg hfits) id
  | feeRateAdd x y => exact iff_of_false (not_flagAgrees_feeRate _) fun h => h trivial
  | feeRateSub x y => exact iff_of_false (not_flagAgrees_feeRate _) fun h => h trivial

/-- One and one: the sum is two, and the flag is set. -/
theorem feeRate_one_add_one : ¬ (Operation.feeRateAdd ⟨1, 1⟩ ⟨1, 1⟩).Agrees
    ∧ FeeRate.add ⟨1, 1⟩ ⟨1, 1⟩ = some ⟨2, 1⟩ ∧ FeeRate.addFlagged ⟨1, 1⟩ ⟨1, 1⟩ = (⟨2, 1⟩, true) :=
  ⟨not_flagAgrees_feeRate _, by decide, by decide⟩

end MinaProtocol.Currency
