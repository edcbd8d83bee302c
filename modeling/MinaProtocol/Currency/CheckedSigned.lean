import MinaProtocol.Currency.Checked

/-!
# Currency.CheckedSigned

The checked addition of signed amounts. Its sign is the prover's, and so is the adjustment of its
magnitude (`returns_addFlagged`): a sum that is not zero and fits has a second assignment, with
the other sign and the flag set. Where the magnitude is adjusted, the value that goes with it is
not. It is the unchecked addition exactly on amounts that cancel (`addFlagged_correct_iff`).
-/

namespace MinaProtocol.Currency.Checked

variable {F : Type} [Field F]

/-- `Sgn.typ`. -/
def sgnTyp : Circuit F := Circuit.choose fun sgn => sgn * sgn = 1

namespace SignedVar

/-- `Signed.Checked.add_flagged`. -/
def addFlagged (x y : SignedVar F) : Circuit (SignedVar F × Bool) := do
  let xv ← x.toFieldVar
  let yv ← y.toFieldVar
  let sgn ← sgnTyp
  let value := xv + yv
  let magnitude := sgn * value
  let (resMagnitude, overflow) ← rangeCheckFlagged .addOrSub magnitude
  -- "recompute the result from [res_magnitude], since it may have been adjusted"
  let resValue := sgn * magnitude
  pure (⟨resMagnitude, sgn, some resValue⟩, overflow)

/-- A sign as an integer. -/
def sign : Sgn → Int
  | .pos => 1
  | .neg => -1

/-- The variable is one of the amount. -/
structure Represents (d : SignedVar F) (x : SignedPoly) : Prop where
  magnitude : d.magnitude = word x.magnitude
  sgn : d.sgn = ((sign x.sgn : Int) : F)
  value : ∀ v, d.value = some v → v = ((x.toInt : Int) : F)

/-- The variable is one of the amount, up to the sign of zero. -/
def Matches (d : SignedVar F) (x : SignedPoly) : Prop :=
  d.magnitude = word x.magnitude ∧ (x.magnitude ≠ 0 → d.sgn = ((sign x.sgn : Int) : F))

/-- `Signed.Checked.add_flagged` on two amounts is sound, complete and consistent. -/
structure AddFlaggedCorrect (F : Type) [Field F] (x y : SignedPoly) : Prop where
  sound : ∀ dx dy out : SignedVar F, ∀ b, dx.Represents x → dy.Represents y →
    (dx.addFlagged dy).Returns (out, b) → out.Matches (x.addFlagged y).1 ∧ b = (x.addFlagged y).2
  complete : ∀ dx dy : SignedVar F, dx.Represents x → dy.Represents y →
    (dx.addFlagged dy).Satisfiable
  consistent : ∀ dx dy out : SignedVar F, ∀ b, dx.Represents x → dy.Represents y →
    (dx.addFlagged dy).Returns (out, b) → out.value = some (out.sgn * out.magnitude)

variable (x : SignedPoly)

/-- The variable that `Signed.typ` makes. -/
def ofSigned : SignedVar F := ⟨word x.magnitude, ((sign x.sgn : Int) : F), none⟩

theorem represents_ofSigned : (ofSigned x : SignedVar F).Represents x :=
  ⟨rfl, rfl, fun v hv => by cases hv⟩

theorem toInt_eq_sign_mul : x.toInt = sign x.sgn * x.magnitude.toNat := by
  obtain ⟨m, s⟩ := x
  cases s with
  | pos => exact (one_mul _).symm
  | neg => exact (neg_one_mul _).symm

theorem Represents.toFieldVar {d : SignedVar F} {x : SignedPoly} (h : d.Represents x) :
    d.toFieldVar = pure ((x.toInt : Int) : F) := by
  unfold SignedVar.toFieldVar
  cases hv : d.value with
  | some v => rw [h.value v hv]
  | none =>
    dsimp only
    rw [h.magnitude, h.sgn, toInt_eq_sign_mul, Int.cast_mul, Int.cast_natCast]
    rfl

theorem abs_toInt_lt : |x.toInt| < 2 ^ 64 := by
  obtain ⟨m, s⟩ := x
  have hm := m.toNat_lt
  rw [toInt_eq_sign_mul, abs_lt]
  cases s <;> simp only [sign] <;> omega

section Spec

variable [WideField F] {x y : SignedPoly} {dx dy : SignedVar F}

/-- **What the checked addition allows:** either sign, and an adjustment that leads to a word. -/
theorem returns_addFlagged (hx : dx.Represents x) (hy : dy.Represents y)
    {out : SignedVar F} {b : Bool} : (dx.addFlagged dy).Returns (out, b) ↔
      ∃ s k : Int, (s = 1 ∨ s = -1) ∧ Kind.addOrSub.Factor k
        ∧ 0 ≤ s * (x.toInt + y.toInt) + k * 2 ^ 64 ∧ s * (x.toInt + y.toInt) + k * 2 ^ 64 < 2 ^ 64
        ∧ out = ⟨((s * (x.toInt + y.toInt) + k * 2 ^ 64 : Int) : F), (s : F),
          some ((x.toInt + y.toInt : Int) : F)⟩ ∧ b = decide (k ≠ 0) := by
  have hxlt := abs_lt.1 (abs_toInt_lt x)
  have hylt := abs_lt.1 (abs_toInt_lt y)
  have hsmall : ∀ s : Int, s = 1 ∨ s = -1 → |s * (x.toInt + y.toInt)| < 2 ^ 97 := by
    rintro s (rfl | rfl) <;> rw [abs_lt] <;> omega
  have hcast : ∀ s : Int, (s : F) * (((x.toInt : Int) : F) + ((y.toInt : Int) : F))
      = ((s * (x.toInt + y.toInt) : Int) : F) := by
    intro s
    push_cast
    rfl
  have hvalue : ∀ s : Int, s = 1 ∨ s = -1 → (s : F) * ((s * (x.toInt + y.toInt) : Int) : F)
      = ((x.toInt + y.toInt : Int) : F) := by
    rintro s (rfl | rfl) <;> push_cast <;> ring
  unfold addFlagged
  rw [hx.toFieldVar, hy.toFieldVar, pure_bind, pure_bind]
  simp only [Circuit.returns_bind, Circuit.returns_pure, sgnTyp, Circuit.returns_choose, Prod.exists,
    Prod.mk.injEq, mul_self_eq_one_iff]
  constructor
  · intro h
    obtain ⟨sgn, hsgn, z, b', hrange, rfl, rfl⟩ := h
    obtain ⟨s, hs, rfl⟩ : ∃ s : Int, (s = 1 ∨ s = -1) ∧ sgn = (s : F) := by
      obtain rfl | rfl := hsgn
      · exact ⟨1, .inl rfl, by simp⟩
      · exact ⟨-1, .inr rfl, by simp⟩
    rw [hcast] at hrange ⊢
    obtain ⟨k, hk, hlo, hhi, rfl, rfl⟩ := (returns_rangeCheckFlagged (hsmall s hs)).1 hrange
    exact ⟨s, k, hs, hk, hlo, hhi, by rw [hvalue s hs], rfl⟩
  · intro h
    obtain ⟨s, k, hs, hk, hlo, hhi, rfl, rfl⟩ := h
    refine ⟨(s : F), ?_, ((s * (x.toInt + y.toInt) + k * 2 ^ 64 : Int) : F), decide (k ≠ 0), ?_, ?_, rfl⟩
    · obtain rfl | rfl := hs
      · exact .inl Int.cast_one
      · exact .inr (by simp)
    · rw [hcast]
      exact (returns_rangeCheckFlagged (hsmall s hs)).2 ⟨k, hk, hlo, hhi, rfl, rfl⟩
    · rw [hcast, hvalue s hs]

theorem satisfiable_addFlagged (hx : dx.Represents x) (hy : dy.Represents y) : (dx.addFlagged dy).Satisfiable := by
  have hxlt := abs_lt.1 (abs_toInt_lt x)
  have hylt := abs_lt.1 (abs_toInt_lt y)
  obtain ⟨s, hs, hpos⟩ : ∃ s : Int, (s = 1 ∨ s = -1) ∧ 0 ≤ s * (x.toInt + y.toInt) := by
    obtain h | h := le_total 0 (x.toInt + y.toInt)
    · exact ⟨1, .inl rfl, by omega⟩
    · exact ⟨-1, .inr rfl, by omega⟩
  have hlt : s * (x.toInt + y.toInt) < 2 * 2 ^ 64 := by
    obtain rfl | rfl := hs <;> omega
  by_cases hfits : s * (x.toInt + y.toInt) < 2 ^ 64
  · exact ⟨_, (returns_addFlagged hx hy).2 ⟨s, 0, hs, .inl rfl, by omega, by omega, rfl, rfl⟩⟩
  · exact ⟨_, (returns_addFlagged hx hy).2 ⟨s, -1, hs, .inr (.inr rfl), by omega, by omega, rfl, rfl⟩⟩

omit [WideField F] in
theorem addFlagged_of_cancel (h : x.toInt + y.toInt = 0) :
    (x.addFlagged y).1.magnitude = 0 ∧ (x.addFlagged y).2 = false := by
  have hagrees := x.flagAgrees_add y
  have hnone : x.add y ≠ none := by
    rw [Ne, SignedPoly.add_eq_none_iff, h]
    simp
  have hflag : (x.addFlagged y).2 = false := by
    rw [← Bool.not_eq_true]
    exact mt hagrees.1.1 hnone
  have hzero := (SignedPoly.toInt_add (hagrees.2 hflag)).1
  rw [h, toInt_eq_sign_mul] at hzero
  refine ⟨SignedPoly.toNat_eq_zero_iff.1 ?_, hflag⟩
  cases hsgn : (x.addFlagged y).1.sgn <;> rw [hsgn, sign] at hzero <;> omega

theorem addFlaggedCorrect_of_cancel (h : x.toInt + y.toInt = 0) : AddFlaggedCorrect F x y := by
  have hout : ∀ dx dy out : SignedVar F, ∀ b, dx.Represents x → dy.Represents y →
      (dx.addFlagged dy).Returns (out, b) → out.magnitude = 0 ∧ out.value = some 0 ∧ b = false := by
    intro dx dy out b hx hy hreturns
    obtain ⟨s, k, -, -, hlo, hhi, rfl, rfl⟩ := (returns_addFlagged hx hy).1 hreturns
    rw [h] at hlo hhi ⊢
    have hk : k = 0 := by omega
    subst hk
    simp
  obtain ⟨hmagnitude, hflag⟩ := addFlagged_of_cancel h
  refine ⟨fun dx dy out b hx hy hreturns => ?_, fun dx dy hx hy => satisfiable_addFlagged hx hy,
    fun dx dy out b hx hy hreturns => ?_⟩
  · obtain ⟨hout, -, rfl⟩ := hout dx dy out b hx hy hreturns
    refine ⟨⟨?_, fun hne => absurd hmagnitude hne⟩, hflag.symm⟩
    rw [hout, hmagnitude]
    simp [word]
  · obtain ⟨hout, hvalue, -⟩ := hout dx dy out b hx hy hreturns
    rw [hvalue, hout, mul_zero]

theorem exists_returns_flag (hx : dx.Represents x) (hy : dy.Represents y)
    (hzero : x.toInt + y.toInt ≠ 0) (hfits : |x.toInt + y.toInt| < 2 ^ 64) :
    ∃ out, (dx.addFlagged dy).Returns (out, true) := by
  rw [abs_lt] at hfits
  obtain h | h := lt_or_gt_of_ne hzero
  · exact ⟨_, (returns_addFlagged hx hy).2 ⟨1, 1, .inl rfl, .inr (.inl rfl), by omega, by omega, rfl, rfl⟩⟩
  · exact ⟨_, (returns_addFlagged hx hy).2 ⟨-1, 1, .inr rfl, .inr (.inl rfl), by omega, by omega, rfl, rfl⟩⟩

/-- Where the sum does not fit, an assignment keeps the value of the sum beside the magnitude that
was adjusted. -/
theorem exists_returns_inconsistent (hx : dx.Represents x)
    (hy : dy.Represents y) (hlarge : 2 ^ 64 ≤ |x.toInt + y.toInt|) :
    ∃ out b, (dx.addFlagged dy).Returns (out, b) ∧ out.value ≠ some (out.sgn * out.magnitude) := by
  have hxlt := abs_lt.1 (abs_toInt_lt x)
  have hylt := abs_lt.1 (abs_toInt_lt y)
  obtain ⟨s, hs, habs⟩ : ∃ s : Int, (s = 1 ∨ s = -1) ∧ s * (x.toInt + y.toInt) = |x.toInt + y.toInt| := by
    obtain h | h := le_total 0 (x.toInt + y.toInt)
    · exact ⟨1, .inl rfl, by rw [abs_of_nonneg h, one_mul]⟩
    · exact ⟨-1, .inr rfl, by rw [abs_of_nonpos h, neg_one_mul]⟩
  have hlt : s * (x.toInt + y.toInt) < 2 * 2 ^ 64 := by
    obtain rfl | rfl := hs <;> omega
  refine ⟨_, _, (returns_addFlagged hx hy).2 ⟨s, -1, hs, .inr (.inr rfl), by omega, by omega, rfl, rfl⟩, ?_⟩
  -- the two are apart by the modulus of the words
  intro h
  have heq : ((x.toInt + y.toInt : Int) : F)
      = ((s * (s * (x.toInt + y.toInt) + -1 * 2 ^ 64) : Int) : F) := by
    rw [Int.cast_mul]
    exact Option.some.inj h
  rw [intCast_inj (by rw [abs_lt]; omega) (by rw [abs_lt]; obtain rfl | rfl := hs <;> omega)] at heq
  obtain rfl | rfl := hs <;> omega

/-- **The checked addition is the unchecked one exactly on amounts that cancel.** -/
theorem addFlagged_correct_iff : AddFlaggedCorrect F x y ↔ x.toInt + y.toInt = 0 := by
  refine ⟨fun h => ?_, addFlaggedCorrect_of_cancel⟩
  by_contra hzero
  have hx := represents_ofSigned (F := F) x
  have hy := represents_ofSigned (F := F) y
  by_cases hfits : |x.toInt + y.toInt| < 2 ^ 64
  · obtain ⟨out, hreturns⟩ := exists_returns_flag hx hy hzero hfits
    have hflag := (h.sound _ _ _ _ hx hy hreturns).2
    have hnone := (x.flagAgrees_add y).1.1 hflag.symm
    rw [SignedPoly.add_eq_none_iff] at hnone
    rw [Int.abs_eq_natAbs] at hfits
    omega
  · obtain ⟨out, b, hreturns, hne⟩ := exists_returns_inconsistent hx hy (not_lt.1 hfits)
    exact hne (h.consistent _ _ _ _ hx hy hreturns)

end Spec

/-- One and minus one. -/
theorem addFlagged_one_neg_one : AddFlaggedCorrect (ZMod (mersenne 107)) ⟨1, .pos⟩ ⟨1, .neg⟩ :=
  addFlagged_correct_iff.2 (by decide)

/-- The largest amount twice: the value that is returned is the sum before the adjustment. -/
theorem not_addFlaggedCorrect_max_max :
    ¬ AddFlaggedCorrect (ZMod (mersenne 107)) ⟨0xFFFFFFFFFFFFFFFF, .pos⟩ ⟨0xFFFFFFFFFFFFFFFF, .pos⟩ := by
  intro h
  have hmax := represents_ofSigned (F := ZMod (mersenne 107)) ⟨0xFFFFFFFFFFFFFFFF, .pos⟩
  have hvalue : SignedPoly.toInt ⟨0xFFFFFFFFFFFFFFFF, .pos⟩ = 18446744073709551615 := rfl
  obtain ⟨out, b, hreturns, hne⟩ := exists_returns_inconsistent hmax hmax (by rw [hvalue]; decide)
  exact hne (h.consistent _ _ _ _ hmax hmax hreturns)

end SignedVar

end MinaProtocol.Currency.Checked
