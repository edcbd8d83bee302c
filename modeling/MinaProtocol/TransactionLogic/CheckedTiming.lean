import MinaProtocol.Currency.Checked
import MinaProtocol.TransactionLogic.Timing

/-!
# TransactionLogic.CheckedTiming

The minimum balance of a vesting account in the circuit. The code outside the circuit caps what
has vested at the largest amount; the circuit multiplies in the field and subtracts the product
with a range check for differences of words. It goes with the code outside the circuit exactly
where the product does not exceed what is left after the cliff by more than `2 ^ 64`
(`vestingAgrees_iff`); from there on its constraints cannot be satisfied.
-/

namespace MinaProtocol.TransactionLogic

open Currency (WideField)
open Currency.Checked (word)

/-- The schedule of a timed account in words. -/
structure Schedule where
  initialMinimumBalance : UInt64
  cliffTime : GlobalSlot
  cliffAmount : UInt64
  vestingPeriod : GlobalSlot
  vestingIncrement : UInt64
deriving DecidableEq, Repr

namespace Schedule

/-- The schedule with its amounts as numbers. -/
def toTimingInfo (t : Schedule) : TimingInfo :=
  ⟨t.initialMinimumBalance.toNat, t.cliffTime, t.cliffAmount.toNat, t.vestingPeriod, t.vestingIncrement.toNat⟩

/-- The whole periods since the cliff. -/
def periods (t : Schedule) (slot : GlobalSlot) : Nat :=
  (slot.toNat - t.cliffTime.toNat) / t.vestingPeriod.toNat

/-- What is left of the initial minimum balance at the cliff. -/
def pastCliff (t : Schedule) : Nat := t.initialMinimumBalance.toNat - t.cliffAmount.toNat

end Schedule

/-! ### The circuit -/

section Checked

variable {F : Type} [Field F] [DecidableEq F]

variable (divMod : F → F → Circuit (F × F))

/-- `Account.Checked.min_balance_at_slot`, with the circuit of `div_mod`. -/
def minBalanceAtSlotChecked (globalSlot cliffTime cliffAmount
    vestingPeriod vestingIncrement initialMinimumBalance : F) : Circuit F := do
  let beforeCliff ← CheckedNumber.lt globalSlot cliffTime
  let (_, slotDiff) ← CheckedNumber.subOrZero globalSlot cliffTime
  let cliffDecrement := cliffAmount
  let minBalanceLessCliffDecrement ← Currency.Checked.subOrZero initialMinimumBalance cliffDecrement
  let (numPeriods, _) ← divMod slotDiff vestingPeriod
  let vestingDecrement := numPeriods * vestingIncrement
  let elseBranch ← Currency.Checked.subOrZero minBalanceLessCliffDecrement vestingDecrement
  pure (if beforeCliff then initialMinimumBalance else elseBranch)

/-- A word of 32 bits as an element of the field. -/
def slotVar (x : UInt32) : F := (x.toNat : F)

/-- The circuit on a schedule. -/
def Schedule.checked (t : Schedule) (slot : GlobalSlot) : Circuit F :=
  minBalanceAtSlotChecked divMod (slotVar slot) (slotVar t.cliffTime) (word t.cliffAmount)
    (slotVar t.vestingPeriod) (word t.vestingIncrement) (word t.initialMinimumBalance)

/-- `div_mod` divides words of 32 bits. -/
def DivModCorrect : Prop :=
  ∀ x y : UInt32, y ≠ 0 → divMod (slotVar x) (slotVar y) = pure (slotVar (x / y), slotVar (x % y))

/-- Outside the circuit the minimum balance is the formula and does not grow, and the circuit
gives it, and nothing else. -/
structure VestingAgrees (t : Schedule) (slot : GlobalSlot) : Prop where
  before : slot < t.cliffTime →
    Account.minBalanceAtSlot slot t.toTimingInfo = t.initialMinimumBalance.toNat
  after : ¬ slot < t.cliffTime → (Account.minBalanceAtSlot slot t.toTimingInfo : Int)
    = max 0 ((t.initialMinimumBalance.toNat : Int) - t.cliffAmount.toNat
      - (t.periods slot * t.vestingIncrement.toNat : Nat))
  antitone : ∀ slot', slot ≤ slot' →
    Account.minBalanceAtSlot slot' t.toTimingInfo ≤ Account.minBalanceAtSlot slot t.toTimingInfo
  checked : t.checked divMod slot = pure (Account.minBalanceAtSlot slot t.toTimingInfo : F)

variable [WideField F] {slot : GlobalSlot} {t : Schedule} {z : F}

omit [DecidableEq F] in
/-- The difference of a word and a number that may be no word: there is one only if the number does
not exceed the word by more than the modulus. -/
theorem returns_subOrZero {b d : Nat} (hb : b < 2 ^ 64) (hd : d < 2 ^ 96) :
    (Currency.Checked.subOrZero (b : F) d).Returns z ↔ d ≤ b + 2 ^ 64 ∧ z = ((b - d : Nat) : F) := by
  have hcast : (b : F) - d = ((b - d : Int) : F) := by push_cast; rfl
  have hsmall : |(b : Int) - d| < 2 ^ 97 := by
    rw [abs_lt]
    omega
  unfold Currency.Checked.subOrZero Currency.Checked.subFlagged
  rw [hcast]
  simp only [Circuit.returns_bind, Circuit.returns_pure, Prod.exists, Currency.Checked.returns_rangeCheckFlagged hsmall]
  constructor
  · intro h
    obtain ⟨_, _, ⟨k, hk, hlo, hhi, rfl, rfl⟩, rfl⟩ := h
    obtain rfl | rfl := hk
    · have hle : d ≤ b := by omega
      refine ⟨by omega, ?_⟩
      rw [Nat.cast_sub hle]
      simp
    · refine ⟨by omega, ?_⟩
      rw [Nat.sub_eq_zero_of_le (by omega)]
      simp
  · intro h
    obtain ⟨hle, rfl⟩ := h
    by_cases hdb : d ≤ b
    · refine ⟨_, _, ⟨0, .inl rfl, by omega, by omega, rfl, rfl⟩, ?_⟩
      rw [Nat.cast_sub hdb]
      simp
    · refine ⟨_, _, ⟨1, .inr rfl, by omega, by omega, rfl, rfl⟩, ?_⟩
      rw [Nat.sub_eq_zero_of_le (by omega)]
      simp

theorem periods_mul_lt (t : Schedule) (slot : GlobalSlot) : t.periods slot * t.vestingIncrement.toNat < 2 ^ 96 := by
  have hperiods : t.periods slot < 2 ^ 32 :=
    (Nat.div_le_self _ _).trans_lt (by have := slot.toNat_lt; omega)
  calc t.periods slot * t.vestingIncrement.toNat
      < 2 ^ 32 * 2 ^ 64 := Nat.mul_lt_mul'' hperiods t.vestingIncrement.toNat_lt
    _ = 2 ^ 96 := by norm_num

/-- **What the circuit returns:** the minimum balance with the whole product, where the product is
not too large. -/
theorem returns_checked {divMod : F → F → Circuit (F × F)} (hdivMod : DivModCorrect divMod)
    (hperiod : t.vestingPeriod ≠ 0) : (t.checked divMod slot).Returns z ↔
      t.periods slot * t.vestingIncrement.toNat ≤ t.pastCliff + 2 ^ 64
        ∧ z = if slot < t.cliffTime then word t.initialMinimumBalance
          else ((t.pastCliff - t.periods slot * t.vestingIncrement.toNat : Nat) : F) := by
  have hcliff : Currency.Checked.subOrZero (word t.initialMinimumBalance : F) (word t.cliffAmount)
      = pure (t.pastCliff : F) := by
    ext z
    have hinitial := t.initialMinimumBalance.toNat_lt
    have hamount := t.cliffAmount.toNat_lt
    rw [word, word, returns_subOrZero hinitial (by omega), Circuit.returns_pure]
    exact and_iff_right (by omega)
  -- the difference of the slots is a word
  have hdiff : ((slot.toNat - t.cliffTime.toNat : Nat) : F)
      = slotVar (UInt32.ofNat (slot.toNat - t.cliffTime.toNat)) := by
    have := slot.toNat_lt
    rw [slotVar, UInt32.toNat_ofNat_of_lt' (by simp only [UInt32.size]; omega)]
  have hperiods : slotVar (UInt32.ofNat (slot.toNat - t.cliffTime.toNat) / t.vestingPeriod)
      * (word t.vestingIncrement : F) = ((t.periods slot * t.vestingIncrement.toNat : Nat) : F) := by
    have := slot.toNat_lt
    rw [slotVar, UInt32.toNat_div, UInt32.toNat_ofNat_of_lt' (by simp only [UInt32.size]; omega), Nat.cast_mul]
    rfl
  have hpast : t.pastCliff < 2 ^ 64 := by
    have := t.initialMinimumBalance.toNat_lt
    unfold Schedule.pastCliff
    omega
  unfold Schedule.checked minBalanceAtSlotChecked
  dsimp only
  rw [hcliff]
  unfold slotVar
  rw [CheckedNumber.lt_eq slot.toNat_lt t.cliffTime.toNat_lt, pure_bind,
    CheckedNumber.subOrZero_eq slot.toNat_lt t.cliffTime.toNat_lt, pure_bind, pure_bind, hdiff]
  have hdivMod' := hdivMod (UInt32.ofNat (slot.toNat - t.cliffTime.toNat)) t.vestingPeriod hperiod
  unfold slotVar at hdivMod' ⊢
  rw [hdivMod', pure_bind]
  unfold slotVar at hperiods
  rw [hperiods]
  simp only [Circuit.returns_bind, Circuit.returns_pure, returns_subOrZero hpast (periods_mul_lt t slot),
    decide_eq_true_eq, ← UInt32.lt_iff_toNat_lt]
  constructor
  · intro h
    obtain ⟨_, ⟨hle, rfl⟩, rfl⟩ := h
    exact ⟨hle, rfl⟩
  · intro h
    obtain ⟨hle, rfl⟩ := h
    exact ⟨_, ⟨hle, rfl⟩, rfl⟩

omit [DecidableEq F] [WideField F] in
theorem minBalanceAtSlot_before {t : Schedule} {slot : GlobalSlot} (h : slot < t.cliffTime) :
    Account.minBalanceAtSlot slot t.toTimingInfo = t.initialMinimumBalance.toNat := by
  unfold Account.minBalanceAtSlot
  exact if_pos h

theorem minBalanceAtSlot_after (h : ¬ slot < t.cliffTime)
    (hperiod : t.vestingPeriod ≠ 0) : Account.minBalanceAtSlot slot t.toTimingInfo
      = t.pastCliff - t.periods slot * t.vestingIncrement.toNat := by
  have hle : t.cliffTime ≤ slot := UInt32.not_lt.1 h
  have hinitial := t.initialMinimumBalance.toNat_lt
  have hperiods : ((slot - t.cliffTime) / t.vestingPeriod).toNat = t.periods slot := by
    rw [UInt32.toNat_div, UInt32.toNat_sub_of_le _ _ hle]
    rfl
  have hafter := minBalanceAtSlot_of_cliff_le (t := t.toTimingInfo) h hperiod
  rw [hafter]
  show t.pastCliff - vested t.vestingIncrement.toNat ((slot - t.cliffTime) / t.vestingPeriod).toNat = _
  rw [hperiods]
  unfold vested Schedule.pastCliff
  omega

/-- **The circuit goes with the code outside it exactly where what has vested is not too large.** -/
theorem vestingAgrees_iff {divMod : F → F → Circuit (F × F)} (hdivMod : DivModCorrect divMod)
    {t : Schedule} (hperiod : t.vestingPeriod ≠ 0) (slot : GlobalSlot) : VestingAgrees divMod t slot ↔
      t.periods slot * t.vestingIncrement.toNat ≤ t.pastCliff + 2 ^ 64 := by
  have hvalue : (if slot < t.cliffTime then word t.initialMinimumBalance
      else ((t.pastCliff - t.periods slot * t.vestingIncrement.toNat : Nat) : F))
        = (Account.minBalanceAtSlot slot t.toTimingInfo : F) := by
    by_cases h : slot < t.cliffTime
    · rw [if_pos h, minBalanceAtSlot_before h]
      rfl
    · rw [if_neg h, minBalanceAtSlot_after h hperiod]
  constructor
  · intro h
    have hreturns : (t.checked divMod slot).Returns (Account.minBalanceAtSlot slot t.toTimingInfo : F) := by
      rw [h.checked]
      exact Circuit.returns_pure.2 rfl
    exact ((returns_checked hdivMod hperiod).1 hreturns).1
  · intro hle
    refine ⟨minBalanceAtSlot_before, fun h => ?_, fun slot' h => minBalanceAtSlot_antitone h _, ?_⟩
    · rw [minBalanceAtSlot_after h hperiod]
      unfold Schedule.pastCliff
      omega
    · ext z
      rw [returns_checked hdivMod hperiod, hvalue, Circuit.returns_pure]
      exact and_iff_right hle

theorem not_satisfiable_checked {divMod : F → F → Circuit (F × F)} (hdivMod : DivModCorrect divMod)
    (hperiod : t.vestingPeriod ≠ 0) (hlarge : t.pastCliff + 2 ^ 64 < t.periods slot * t.vestingIncrement.toNat) :
    ¬ (t.checked divMod slot).Satisfiable := by
  intro h
  obtain ⟨z, hz⟩ := h
  have hle := ((returns_checked hdivMod hperiod).1 hz).1
  omega

end Checked

/-! ### A division -/

/-- A `div_mod` of the sort that is assumed: it returns the one quotient with a remainder below the
divisor. -/
def euclideanDivMod {F : Type} [Field F] (x y : F) : Circuit (F × F) :=
  Circuit.choose fun qr => ∃ q r b : UInt32, y = slotVar b ∧ x = ((q.toNat * b.toNat + r.toNat : Nat) : F)
    ∧ r < b ∧ qr = (slotVar q, slotVar r)

theorem divModCorrect_euclideanDivMod {F : Type} [Field F] [DecidableEq F] [WideField F] :
    DivModCorrect (euclideanDivMod (F := F)) := by
  intro x y hy
  ext qr
  unfold euclideanDivMod
  rw [Circuit.returns_choose, Circuit.returns_pure]
  constructor
  · intro h
    obtain ⟨q, r, b, hb, hx, hr, rfl⟩ := h
    have hq := q.toNat_lt
    have hb' := b.toNat_lt
    have hprod : q.toNat * b.toNat < 2 ^ 32 * 2 ^ 32 := Nat.mul_lt_mul'' hq hb'
    have hbeq : y.toNat = b.toNat :=
      WideField.cast_inj _ _ (by have := y.toNat_lt; omega) (by omega) hb
    have hxeq : x.toNat = q.toNat * b.toNat + r.toNat :=
      WideField.cast_inj _ _ (by have := x.toNat_lt; omega) (by have := r.toNat_lt; omega) hx
    rw [UInt32.lt_iff_toNat_lt] at hr
    obtain rfl := UInt32.toNat_inj.1 hbeq
    have hdiv : x.toNat / y.toNat = q.toNat := by
      rw [hxeq, Nat.mul_comm, Nat.mul_add_div (by omega), Nat.div_eq_of_lt hr, Nat.add_zero]
    have hmod : x.toNat % y.toNat = r.toNat := by
      rw [hxeq, Nat.mul_comm, Nat.mul_add_mod, Nat.mod_eq_of_lt hr]
    rw [← UInt32.toNat_inj.1 ((UInt32.toNat_div x y).trans hdiv),
      ← UInt32.toNat_inj.1 ((UInt32.toNat_mod x y).trans hmod)]
  · intro h
    have hpos : 0 < y.toNat := by
      rw [Nat.pos_iff_ne_zero]
      exact fun h0 => hy (UInt32.toNat_inj.1 h0)
    refine ⟨x / y, x % y, y, rfl, ?_, ?_, h⟩
    · rw [UInt32.toNat_div, UInt32.toNat_mod, Nat.mul_comm, Nat.div_add_mod]
      rfl
    · rw [UInt32.lt_iff_toNat_lt, UInt32.toNat_mod]
      exact Nat.mod_lt _ hpos

open Currency.Checked (wideField)

/-- Ten periods of one after a cliff of five. -/
theorem vestingAgrees_small : VestingAgrees (euclideanDivMod (F := ZMod (mersenne 107))) ⟨100, 5, 10, 1, 1⟩ 15 :=
  (vestingAgrees_iff divModCorrect_euclideanDivMod (by decide) 15).2 (by decide)

/-- Two periods of the largest increment with nothing left: outside the circuit the minimum balance
is zero, and the circuit has no assignment. -/
theorem not_satisfiable_two_periods :
    ¬ VestingAgrees (euclideanDivMod (F := ZMod (mersenne 107))) ⟨0, 0, 0, 1, 0xFFFFFFFFFFFFFFFF⟩ 2
      ∧ Account.minBalanceAtSlot 2 (Schedule.toTimingInfo ⟨0, 0, 0, 1, 0xFFFFFFFFFFFFFFFF⟩) = 0
      ∧ ¬ (Schedule.checked (euclideanDivMod (F := ZMod (mersenne 107)))
        ⟨0, 0, 0, 1, 0xFFFFFFFFFFFFFFFF⟩ 2).Satisfiable := by
  have hunsat : ¬ (Schedule.checked (euclideanDivMod (F := ZMod (mersenne 107)))
      ⟨0, 0, 0, 1, 0xFFFFFFFFFFFFFFFF⟩ 2).Satisfiable :=
    not_satisfiable_checked divModCorrect_euclideanDivMod (by decide) (by decide)
  refine ⟨fun h => hunsat ?_, by decide, hunsat⟩
  rw [h.checked]
  exact ⟨_, Circuit.returns_pure.2 rfl⟩

end MinaProtocol.TransactionLogic
