import MinaProtocol.Consensus.Time
import MinaProtocol.Currency.Checked

/-!
# Consensus.CheckedConstants

The consensus constants in and out of the circuit: `create'` of `constants.ml` over words of 32
bits that wrap, and over checked numbers of 64 bits. Both are images of the mathematical products
and sums, so they agree where these have 32 bits. `div_mod` does not bound the remainder, so the
prover chooses the checkpoint windows (`returns_checkedCreate`).
-/

namespace MinaProtocol.Consensus

/-- `Genesis_constants.Protocol.Poly.t`. -/
structure ProtocolPoly (Length Delta Time : Type) where
  k : Length
  slotsPerEpoch : Length
  slotsPerSubWindow : Length
  gracePeriodSlots : Length
  delta : Delta
  genesisStateTimestamp : Time

/-- `Protocol_constants_checked.value`. -/
abbrev ProtocolValue := ProtocolPoly UInt32 UInt32 UInt64

/-- `Protocol_constants_checked.value_of_t`. -/
def valueOfT (t : ProtocolPoly Int Int Int64) : ProtocolValue where
  k := UInt32.ofInt t.k
  slotsPerEpoch := UInt32.ofInt t.slotsPerEpoch
  slotsPerSubWindow := UInt32.ofInt t.slotsPerSubWindow
  gracePeriodSlots := UInt32.ofInt t.gracePeriodSlots
  delta := UInt32.ofInt t.delta
  genesisStateTimestamp := t.genesisStateTimestamp.toUInt64

/-- The fields of `Genesis_constants.Constraint_constants.t` that are read. -/
structure ConstraintConstants where
  subWindowsPerWindow : Int
  blockWindowDurationMs : Int

/-- `M_intf`, as far as `create'` uses it. -/
structure MIntf (m : Type → Type) (T Length Slot Timespan : Type) where
  constant : Int → T
  ofLength : Length → T
  toLength : T → Length
  toGlobalSlotSinceHardFork : T → Slot
  toTimespan : T → Timespan
  zero : T
  one : T
  mul : T → T → m T
  add : T → T → m T

/-- `create'`. -/
def create' {m : Type → Type} [Monad m] {T Length Slot Time Timespan : Type}
    (M : MIntf m T Length Slot Timespan) (constraintConstants : ConstraintConstants)
    (protocolConstants : ProtocolPoly Length Length Time) : m (ConstantsPoly Length Slot Time Timespan) := do
  let blockWindowDurationMs := M.constant constraintConstants.blockWindowDurationMs
  let k := M.ofLength protocolConstants.k
  let delta := M.ofLength protocolConstants.delta
  let slotsPerSubWindow := M.ofLength protocolConstants.slotsPerSubWindow
  let subWindowsPerWindow := M.constant constraintConstants.subWindowsPerWindow
  let slotsPerWindow ← M.mul slotsPerSubWindow subWindowsPerWindow
  let slotsPerEpoch := M.ofLength protocolConstants.slotsPerEpoch
  let duration ← M.mul blockWindowDurationMs slotsPerEpoch
  let deltaSlots ← M.add delta M.one
  let deltaDuration ← M.mul blockWindowDurationMs deltaSlots
  let gracePeriodEnd ← M.add (M.ofLength protocolConstants.gracePeriodSlots) slotsPerWindow
  pure {
    k := M.toLength k
    delta := M.toLength delta
    blockWindowDurationMs := M.toTimespan blockWindowDurationMs
    slotsPerSubWindow := M.toLength slotsPerSubWindow
    slotsPerWindow := M.toLength slotsPerWindow
    subWindowsPerWindow := M.toLength subWindowsPerWindow
    slotsPerEpoch := M.toLength slotsPerEpoch
    gracePeriodSlots := protocolConstants.gracePeriodSlots
    gracePeriodEnd := M.toGlobalSlotSinceHardFork gracePeriodEnd
    slotDurationMs := M.toTimespan blockWindowDurationMs
    epochDuration := M.toTimespan duration
    checkpointWindowSlotsPerYear := M.toLength M.zero
    checkpointWindowSizeInSlots := M.toLength M.zero
    deltaDuration := M.toTimespan deltaDuration
    genesisStateTimestamp := protocolConstants.genesisStateTimestamp }

/-- `Constants_UInt32`. -/
def constantsUInt32 : MIntf Id UInt32 UInt32 UInt32 UInt64 where
  constant := UInt32.ofInt
  ofLength := id
  toLength := id
  toGlobalSlotSinceHardFork := id
  toTimespan := UInt32.toUInt64
  zero := 0
  one := 1
  mul x y := pure (x * y)
  add x y := pure (x + y)

/-- `Core.Time.Span.(to_ms (of_day 365.))`. -/
def oneYearMs : Nat := 31536000000

/-- `check_invariants`. -/
def checkInvariants (constants : ConstantsValue) : Bool :=
  constants.gracePeriodEnd - constants.slotsPerWindow < constants.slotsPerEpoch / 3

/-- `create`. -/
def create (constraintConstants : ConstraintConstants) (protocolConstants : ProtocolPoly Int Int Int64) :
    Option ConstantsValue := do
  let constants : ConstantsValue := create' constantsUInt32 constraintConstants (valueOfT protocolConstants)
  guard (constants.slotDurationMs ≠ 0)
  let slotsPerYear := oneYearMs / constants.slotDurationMs.toNat
  guard (slotsPerYear % 12 = 0)
  let constants := { constants with
    checkpointWindowSizeInSlots := UInt32.ofNat (slotsPerYear / 12)
    checkpointWindowSlotsPerYear := UInt32.ofNat slotsPerYear }
  guard (checkInvariants constants)
  some constants

/-! ### In the circuit -/

section Checked

variable {F : Type} [Field F]

namespace N

open CheckedNumber (InRange rangeCheck)

/-- `N.div_mod`. -/
def divMod (x y : F) : Circuit (F × F) := do
  let q ← Circuit.choose (InRange 64)
  let r ← Circuit.choose (InRange 64)
  Circuit.assert (q * y = x - r)
  pure (q, r)

/-- `N.add`. -/
def add (x y : F) : Circuit F := do
  rangeCheck 64 (x + y)
  pure (x + y)

/-- `N.mul`. -/
def mul (x y : F) : Circuit F := do
  rangeCheck 64 (x * y)
  pure (x * y)

end N

/-- The number that `Field.of_int` makes of an integer, by way of a word of 64 bits. -/
def fieldOfInt (c : Int) : Nat := (UInt64.ofInt c).toNat

/-- `Constants_checked`. -/
def constantsChecked : MIntf Circuit F F F F where
  constant c := (fieldOfInt c : F)
  ofLength := id
  toLength := id
  toGlobalSlotSinceHardFork := id
  toTimespan := id
  zero := ((0 : Nat) : F)
  one := ((1 : Nat) : F)
  mul := N.mul
  add := N.add

/-- `Checked.create`. -/
def Checked.create (constraintConstants : ConstraintConstants) (protocolConstants : ProtocolPoly F F F) :
    Circuit (ConstantsPoly F F F F) := do
  let constants ← create' constantsChecked constraintConstants protocolConstants
  let slotsPerYear ← N.divMod (oneYearMs : F) constants.slotDurationMs
  let sizeInSlots ← N.divMod slotsPerYear.1 ((12 : Nat) : F)
  Circuit.assert (sizeInSlots.2 = ((0 : Nat) : F))
  pure { constants with
    checkpointWindowSlotsPerYear := slotsPerYear.1
    checkpointWindowSizeInSlots := sizeInSlots.1 }

end Checked

/-! ### The constants as numbers -/

/-- A map of the lengths and times. -/
def ProtocolPoly.map {L L' T T' : Type} (f : L → L') (g : T → T') (c : ProtocolPoly L L T) : ProtocolPoly L' L' T' :=
  ⟨f c.k, f c.slotsPerEpoch, f c.slotsPerSubWindow, f c.gracePeriodSlots, f c.delta, g c.genesisStateTimestamp⟩

/-- A map of the lengths and slots, the times, and the spans. -/
def ConstantsPoly.map {L L' T T' S S' : Type} (f : L → L') (g : T → T') (h : S → S')
    (c : ConstantsPoly L L T S) : ConstantsPoly L' L' T' S' where
  k := f c.k
  delta := f c.delta
  slotsPerSubWindow := f c.slotsPerSubWindow
  slotsPerWindow := f c.slotsPerWindow
  subWindowsPerWindow := f c.subWindowsPerWindow
  slotsPerEpoch := f c.slotsPerEpoch
  gracePeriodSlots := f c.gracePeriodSlots
  gracePeriodEnd := f c.gracePeriodEnd
  checkpointWindowSlotsPerYear := f c.checkpointWindowSlotsPerYear
  checkpointWindowSizeInSlots := f c.checkpointWindowSizeInSlots
  blockWindowDurationMs := h c.blockWindowDurationMs
  slotDurationMs := h c.slotDurationMs
  epochDuration := h c.epochDuration
  deltaDuration := h c.deltaDuration
  genesisStateTimestamp := g c.genesisStateTimestamp

/-- The mathematical products and sums, with the given checkpoint windows. -/
def natConstants (constraintConstants : ConstraintConstants) (protocolConstants : ProtocolValue)
    (slotsPerYear sizeInSlots : Nat) : ConstantsPoly Nat Nat Nat Nat :=
  let duration := fieldOfInt constraintConstants.blockWindowDurationMs
  let subWindows := fieldOfInt constraintConstants.subWindowsPerWindow
  { k := protocolConstants.k.toNat
    delta := protocolConstants.delta.toNat
    slotsPerSubWindow := protocolConstants.slotsPerSubWindow.toNat
    slotsPerWindow := protocolConstants.slotsPerSubWindow.toNat * subWindows
    subWindowsPerWindow := subWindows
    slotsPerEpoch := protocolConstants.slotsPerEpoch.toNat
    gracePeriodSlots := protocolConstants.gracePeriodSlots.toNat
    gracePeriodEnd := protocolConstants.gracePeriodSlots.toNat
      + protocolConstants.slotsPerSubWindow.toNat * subWindows
    checkpointWindowSlotsPerYear := slotsPerYear
    checkpointWindowSizeInSlots := sizeInSlots
    blockWindowDurationMs := duration
    slotDurationMs := duration
    epochDuration := duration * protocolConstants.slotsPerEpoch.toNat
    deltaDuration := duration * (protocolConstants.delta.toNat + 1)
    genesisStateTimestamp := protocolConstants.genesisStateTimestamp.toNat }

theorem ofNat_fieldOfInt (c : Int) : UInt32.ofNat (fieldOfInt c) = UInt32.ofInt c := by
  rw [← UInt32.toNat_inj]
  unfold fieldOfInt UInt32.ofInt UInt64.ofInt
  rw [UInt32.toNat_ofNat', UInt32.toNat_ofNat', UInt64.toNat_ofNat']
  omega

/-- Outside the circuit the constants are the numbers modulo `2 ^ 32`. -/
theorem create'_uint32 (constraintConstants : ConstraintConstants) (protocolConstants : ProtocolValue) :
    create' (m := Id) constantsUInt32 constraintConstants protocolConstants
      = pure ((natConstants constraintConstants protocolConstants 0 0).map UInt32.ofNat UInt64.ofNat
        fun n => (UInt32.ofNat n).toUInt64) := by
  simp [create', natConstants, constantsUInt32, ConstantsPoly.map, ofNat_fieldOfInt]

theorem of_guard {p : Prop} [Decidable p] {u : Unit} (h : (guard p : Option Unit) = some u) : p := by
  by_contra hp
  rw [guard, if_neg hp] at h
  exact Option.some_ne_none u h.symm

/-- What `create` returns. -/
theorem create_eq_some {constraintConstants : ConstraintConstants}
    {protocolConstants : ProtocolPoly Int Int Int64} {v : ConstantsValue}
    (h : create constraintConstants protocolConstants = some v) : v.slotDurationMs ≠ 0
      ∧ oneYearMs / v.slotDurationMs.toNat % 12 = 0
      ∧ v = (natConstants constraintConstants (valueOfT protocolConstants)
          (oneYearMs / v.slotDurationMs.toNat) (oneYearMs / v.slotDurationMs.toNat / 12)).map
        UInt32.ofNat UInt64.ofNat fun n => (UInt32.ofNat n).toUInt64 := by
  unfold create at h
  rw [create'_uint32] at h
  simp only [pure, Option.bind_eq_bind, Option.bind_eq_some_iff] at h
  obtain ⟨_, hne, _, hmod, _, -, hv⟩ := h
  cases hv
  exact ⟨of_guard hne, of_guard hmod, rfl⟩

section Checked

variable {F : Type} [Field F] [Currency.WideField F]

namespace N

theorem inRange_natCast {n : Nat} (hn : n < 2 ^ 100) : CheckedNumber.InRange 64 (n : F) ↔ n < 2 ^ 64 := by
  constructor
  · rintro ⟨m, hm, heq⟩
    rwa [Currency.WideField.cast_inj n m hn (by omega) heq]
  · exact fun h => ⟨n, h, rfl⟩

variable {x y : Nat}

theorem returns_mul (h : x * y < 2 ^ 100) {z : F} :
    (N.mul (x : F) y).Returns z ↔ x * y < 2 ^ 64 ∧ z = ((x * y : Nat) : F) := by
  unfold N.mul
  rw [← Nat.cast_mul, CheckedNumber.rangeCheck_eq]
  simp only [Circuit.returns_bind, Circuit.returns_assert, Circuit.returns_pure, inRange_natCast h, exists_const]

theorem returns_add (h : x + y < 2 ^ 100) {z : F} :
    (N.add (x : F) y).Returns z ↔ x + y < 2 ^ 64 ∧ z = ((x + y : Nat) : F) := by
  unfold N.add
  rw [← Nat.cast_add, CheckedNumber.rangeCheck_eq]
  simp only [Circuit.returns_bind, Circuit.returns_assert, Circuit.returns_pure, inRange_natCast h, exists_const]

/-- Every quotient up to the real one goes with some remainder. -/
theorem returns_divMod {q r : F} (hx : x < 2 ^ 64) (hy : y < 2 ^ 32) (hpos : 0 < y) :
    (N.divMod (x : F) y).Returns (q, r) ↔ ∃ a b : Nat, a * y + b = x ∧ q = a ∧ r = b := by
  unfold N.divMod
  simp only [Circuit.returns_bind, Circuit.returns_choose, Circuit.returns_assert, Circuit.returns_pure]
  constructor
  · rintro ⟨q', ⟨a, ha, rfl⟩, r', ⟨b, hb, rfl⟩, -, heq, hout⟩
    obtain ⟨rfl, rfl⟩ := Prod.mk.inj hout
    refine ⟨a, b, ?_, rfl, rfl⟩
    have hprod : a * y < 2 ^ 64 * 2 ^ 32 := Nat.mul_lt_mul'' ha hy
    have hsum : ((a * y + b : Nat) : F) = x := by
      rw [Nat.cast_add, Nat.cast_mul, heq]
      ring
    exact Currency.WideField.cast_inj _ _ (by omega) (by omega) hsum
  · rintro ⟨a, b, heq, rfl, rfl⟩
    have ha : a ≤ a * y := Nat.le_mul_of_pos_right a hpos
    refine ⟨a, ⟨a, by omega, rfl⟩, b, ⟨b, by omega, rfl⟩, (), ?_, rfl⟩
    rw [← heq, Nat.cast_add, Nat.cast_mul]
    ring

end N

/-- The numbers that are computed, and those that are given as integers, have so many bits. -/
structure HaveBits (bits : Nat) (c : ConstantsPoly Nat Nat Nat Nat) : Prop where
  slotsPerWindow : c.slotsPerWindow < 2 ^ bits
  subWindowsPerWindow : c.subWindowsPerWindow < 2 ^ bits
  gracePeriodEnd : c.gracePeriodEnd < 2 ^ bits
  checkpointWindowSlotsPerYear : c.checkpointWindowSlotsPerYear < 2 ^ bits
  slotDurationMs : c.slotDurationMs < 2 ^ bits
  epochDuration : c.epochDuration < 2 ^ bits
  deltaDuration : c.deltaDuration < 2 ^ bits

/-- Numbers as elements of the field. -/
def natVar (c : ConstantsPoly Nat Nat Nat Nat) : ConstantsPoly F F F F := c.map Nat.cast Nat.cast Nat.cast

/-- Constants as numbers. -/
def toNatConstants (v : ConstantsValue) : ConstantsPoly Nat Nat Nat Nat :=
  v.map UInt32.toNat UInt64.toNat UInt64.toNat

/-- Constants as elements of the field. -/
def constantsVar (v : ConstantsValue) : ConstantsPoly F F F F := natVar (toNatConstants v)

/-- Protocol constants as elements of the field. -/
def protocolVar (c : ProtocolValue) : ProtocolPoly F F F :=
  c.map (fun x => (x.toNat : F)) fun x => (x.toNat : F)

variable {constraintConstants : ConstraintConstants} {protocolConstants : ProtocolValue} {r : ConstantsPoly F F F F}

theorem fieldOfInt_lt (c : Int) : fieldOfInt c < 2 ^ 64 := UInt64.toNat_lt _

theorem mul_lt_wide {x y : Nat} (hx : x < 2 ^ 64) (hy : y ≤ 2 ^ 32) : x * y < 2 ^ 100 := by
  calc x * y ≤ 2 ^ 64 * 2 ^ 32 := Nat.mul_le_mul hx.le hy
    _ < 2 ^ 100 := by norm_num

theorem returns_create' : (create' constantsChecked constraintConstants (protocolVar protocolConstants)).Returns r
      ↔ HaveBits 64 (natConstants constraintConstants protocolConstants 0 0)
        ∧ r = natVar (natConstants constraintConstants protocolConstants 0 0) := by
  unfold create'
  simp only [constantsChecked, protocolVar, ProtocolPoly.map, id, Circuit.returns_bind, Circuit.returns_pure]
  have hperWindow := mul_lt_wide (fieldOfInt_lt constraintConstants.subWindowsPerWindow)
    protocolConstants.slotsPerSubWindow.toNat_lt.le
  have hepoch := mul_lt_wide (fieldOfInt_lt constraintConstants.blockWindowDurationMs)
    protocolConstants.slotsPerEpoch.toNat_lt.le
  have hdelta := mul_lt_wide (fieldOfInt_lt constraintConstants.blockWindowDurationMs)
    protocolConstants.delta.toNat_lt
  have hdelta' := protocolConstants.delta.toNat_lt
  have hgrace := protocolConstants.gracePeriodSlots.toNat_lt
  rw [Nat.mul_comm] at hperWindow
  constructor
  · rintro ⟨_, hw, _, he, _, hd, _, hdd, _, hg, rfl⟩
    obtain ⟨hwindow64, rfl⟩ := (N.returns_mul hperWindow).1 hw
    obtain ⟨hepoch64, rfl⟩ := (N.returns_mul hepoch).1 he
    obtain ⟨-, rfl⟩ := (N.returns_add (by omega)).1 hd
    obtain ⟨hdelta64, rfl⟩ := (N.returns_mul hdelta).1 hdd
    obtain ⟨hgrace64, rfl⟩ := (N.returns_add (by omega)).1 hg
    exact ⟨⟨hwindow64, fieldOfInt_lt _, hgrace64, Nat.two_pow_pos 64, fieldOfInt_lt _, hepoch64, hdelta64⟩, rfl⟩
  · rintro ⟨hbits, rfl⟩
    exact ⟨_, (N.returns_mul hperWindow).2 ⟨hbits.slotsPerWindow, rfl⟩,
      _, (N.returns_mul hepoch).2 ⟨hbits.epochDuration, rfl⟩, _, (N.returns_add (by omega)).2 ⟨by omega, rfl⟩,
      _, (N.returns_mul hdelta).2 ⟨hbits.deltaDuration, rfl⟩,
      _, (N.returns_add (by have := hbits.slotsPerWindow; simp only [natConstants] at this; omega)).2
        ⟨hbits.gracePeriodEnd, rfl⟩, rfl⟩

theorem returns_checkedCreate (hpos : 0 < fieldOfInt constraintConstants.blockWindowDurationMs)
    (hlt : fieldOfInt constraintConstants.blockWindowDurationMs < 2 ^ 32) :
    (Checked.create constraintConstants (protocolVar protocolConstants)).Returns r
      ↔ HaveBits 64 (natConstants constraintConstants protocolConstants 0 0)
        ∧ ∃ size, size * 12 * fieldOfInt constraintConstants.blockWindowDurationMs ≤ oneYearMs
          ∧ r = natVar (natConstants constraintConstants protocolConstants (size * 12) size) := by
  unfold Checked.create
  simp only [Circuit.returns_bind, Circuit.returns_assert, Circuit.returns_pure, returns_create', Prod.exists]
  constructor
  · rintro ⟨_, ⟨hbits, rfl⟩, q, rem, hq, size, rem', hsize, -, hrem, rfl⟩
    obtain ⟨q, rem, heq, rfl, rfl⟩ := (N.returns_divMod (by decide) hlt hpos).1 hq
    have hqlt : q ≤ oneYearMs := by
      have := Nat.le_mul_of_pos_right q hpos
      omega
    obtain ⟨size, rem', heq', rfl, rfl⟩ :=
      (N.returns_divMod (hqlt.trans_lt (by decide)) (by decide) (by decide)).1 hsize
    have hzero : rem' = 0 := by
      refine Currency.WideField.cast_inj rem' 0 ?_ (by decide) hrem
      unfold oneYearMs at hqlt
      omega
    obtain rfl : q = size * 12 := by omega
    refine ⟨hbits, size, by omega, rfl⟩
  · rintro ⟨hbits, size, hle, rfl⟩
    have hsize : size * 12 ≤ oneYearMs := (Nat.le_mul_of_pos_right _ hpos).trans hle
    refine ⟨_, ⟨hbits, rfl⟩, _, _, (N.returns_divMod (by decide) hlt hpos).2 ⟨size * 12, _,
      Nat.add_sub_cancel' hle, rfl, rfl⟩, _, _,
      (N.returns_divMod (hsize.trans_lt (by decide)) (by decide) (by decide)).2 ⟨size, 0, by omega, rfl, rfl⟩,
      (), rfl, rfl⟩

theorem word_cast_eq {n : Nat} (hn : n < 2 ^ 100) : (n : F) = ((UInt32.ofNat n).toNat : F) ↔ n < 2 ^ 32 := by
  rw [UInt32.toNat_ofNat']
  constructor
  · intro h
    have := Currency.WideField.cast_inj n (n % 2 ^ 32) hn (by omega) h
    omega
  · intro h
    rw [Nat.mod_eq_of_lt h]

/-- The words of the constants. -/
def words (c : ConstantsPoly Nat Nat Nat Nat) : ConstantsValue :=
  c.map UInt32.ofNat UInt64.ofNat fun n => (UInt32.ofNat n).toUInt64

theorem toNatConstants_words {slotsPerYear sizeInSlots : Nat} (hsize : sizeInSlots < 2 ^ 32)
    (h : HaveBits 32 (natConstants constraintConstants protocolConstants slotsPerYear sizeInSlots)) :
    toNatConstants (words (natConstants constraintConstants protocolConstants slotsPerYear sizeInSlots))
      = natConstants constraintConstants protocolConstants slotsPerYear sizeInSlots := by
  obtain ⟨hwindow, hsub, hgrace, hyear, hslot, hepoch, hdelta⟩ := h
  simp only [natConstants] at hwindow hsub hgrace hyear hslot hepoch hdelta
  simp only [toNatConstants, words, ConstantsPoly.map, natConstants, UInt32.toNat_toUInt64, UInt32.toNat_ofNat',
    UInt64.toNat_ofNat', Nat.mod_eq_of_lt, UInt32.toNat_lt, UInt64.toNat_lt, hwindow, hsub, hgrace, hyear, hslot,
    hepoch, hdelta, hsize]

theorem slotDurationMs_of_returns (h : (Checked.create constraintConstants (protocolVar protocolConstants)).Returns r) :
    r.slotDurationMs = (fieldOfInt constraintConstants.blockWindowDurationMs : F) := by
  unfold Checked.create at h
  simp only [Circuit.returns_bind, Circuit.returns_pure, returns_create'] at h
  obtain ⟨_, ⟨-, rfl⟩, _, -, _, -, -, -, rfl⟩ := h
  rfl

/-- The numbers of `create`, with its checkpoint windows. -/
def createdNumbers (constraintConstants : ConstraintConstants) (protocolConstants : ProtocolPoly Int Int Int64) :
    ConstantsPoly Nat Nat Nat Nat :=
  let slotsPerYear := oneYearMs / fieldOfInt constraintConstants.blockWindowDurationMs
  natConstants constraintConstants (valueOfT protocolConstants) slotsPerYear (slotsPerYear / 12)

variable {protocolConstantsT : ProtocolPoly Int Int Int64} {v : ConstantsValue}

variable (h : create constraintConstants protocolConstantsT = some v)

include h

/-- What `create` returns if a slot lasts less than `2 ^ 32` milliseconds. -/
theorem create_eq_words (hlt : fieldOfInt constraintConstants.blockWindowDurationMs < 2 ^ 32) :
    0 < fieldOfInt constraintConstants.blockWindowDurationMs
      ∧ oneYearMs / fieldOfInt constraintConstants.blockWindowDurationMs % 12 = 0
      ∧ v = words (createdNumbers constraintConstants protocolConstantsT) := by
  obtain ⟨hne, hmod, hv⟩ := create_eq_some h
  have hslot : v.slotDurationMs.toNat = fieldOfInt constraintConstants.blockWindowDurationMs := by
    rw [hv]
    simp only [ConstantsPoly.map, natConstants, UInt32.toNat_toUInt64, UInt32.toNat_ofNat', Nat.mod_eq_of_lt hlt]
  rw [hslot] at hmod hv
  refine ⟨Nat.pos_of_ne_zero fun h0 => hne ?_, hmod, hv⟩
  rw [← UInt64.toNat_inj, hslot, h0]
  rfl

theorem slotDuration_lt (hr : (Checked.create constraintConstants (protocolVar (valueOfT protocolConstantsT))).Returns
      (constantsVar v : ConstantsPoly F F F F)) :
    fieldOfInt constraintConstants.blockWindowDurationMs < 2 ^ 32 := by
  have hslot := slotDurationMs_of_returns hr
  rw [(create_eq_some h).2.2] at hslot
  simp only [constantsVar, natVar, toNatConstants, ConstantsPoly.map, natConstants, UInt32.toNat_toUInt64] at hslot
  exact (word_cast_eq ((fieldOfInt_lt _).trans (by norm_num))).1 hslot.symm

theorem returns_constantsVar_iff :
    (Checked.create constraintConstants (protocolVar (valueOfT protocolConstantsT))).Returns
        (constantsVar v : ConstantsPoly F F F F)
      ↔ HaveBits 32 (createdNumbers constraintConstants protocolConstantsT) := by
  constructor
  · intro hr
    have hlt := slotDuration_lt h hr
    obtain ⟨hpos, hmod, hv⟩ := create_eq_words h hlt
    obtain ⟨hbits, size, hle, heq⟩ := (returns_checkedCreate hpos hlt).1 hr
    rw [hv] at heq
    simp only [constantsVar, natVar, toNatConstants, words, createdNumbers, ConstantsPoly.map, natConstants,
      UInt32.toNat_toUInt64, ConstantsPoly.mk.injEq] at heq
    obtain ⟨-, -, -, hwindow, hsub, -, -, hgrace, hyear, hsize, -, -, hepoch, hdelta, -⟩ := heq
    have hwide : ∀ {n : Nat}, n < 2 ^ 64 → n < 2 ^ 100 := fun hn => hn.trans (by norm_num)
    have hquot : oneYearMs / fieldOfInt constraintConstants.blockWindowDurationMs ≤ oneYearMs := Nat.div_le_self _ _
    have hsizele : size ≤ oneYearMs :=
      (Nat.le_mul_of_pos_right size (by decide)).trans ((Nat.le_mul_of_pos_right _ hpos).trans hle)
    unfold oneYearMs at hsizele hquot
    -- the size fixes the quotient
    rw [UInt32.toNat_ofNat', Nat.mod_eq_of_lt (by unfold oneYearMs; omega)] at hsize
    have hsize' := Currency.WideField.cast_inj _ _ (by unfold oneYearMs; omega) (by omega) hsize
    have hq : size * 12 = oneYearMs / fieldOfInt constraintConstants.blockWindowDurationMs := by omega
    rw [hq] at hyear
    have hyear' : oneYearMs / fieldOfInt constraintConstants.blockWindowDurationMs < 2 ^ 32 :=
      (word_cast_eq (by unfold oneYearMs; omega)).1 hyear.symm
    exact ⟨(word_cast_eq (hwide hbits.slotsPerWindow)).1 hwindow.symm,
      (word_cast_eq (hwide hbits.subWindowsPerWindow)).1 hsub.symm,
      (word_cast_eq (hwide hbits.gracePeriodEnd)).1 hgrace.symm, hyear', hlt,
      (word_cast_eq (hwide hbits.epochDuration)).1 hepoch.symm,
      (word_cast_eq (hwide hbits.deltaDuration)).1 hdelta.symm⟩
  · intro hbits
    have hlt : fieldOfInt constraintConstants.blockWindowDurationMs < 2 ^ 32 := hbits.slotDurationMs
    obtain ⟨hpos, hmod, rfl⟩ := create_eq_words h hlt
    have hyear : oneYearMs / fieldOfInt constraintConstants.blockWindowDurationMs / 12 < 2 ^ 32 := by
      have := hbits.checkpointWindowSlotsPerYear
      simp only [createdNumbers, natConstants] at this
      omega
    have hword : toNatConstants (words (createdNumbers constraintConstants protocolConstantsT))
        = createdNumbers constraintConstants protocolConstantsT := toNatConstants_words hyear hbits
    have hwide : ∀ {n : Nat}, n < 2 ^ 32 → n < 2 ^ 64 := fun hn => hn.trans (by norm_num)
    rw [constantsVar, hword, returns_checkedCreate hpos hlt]
    refine ⟨⟨hwide hbits.slotsPerWindow, hwide hbits.subWindowsPerWindow, hwide hbits.gracePeriodEnd,
      Nat.two_pow_pos 64, hwide hbits.slotDurationMs, hwide hbits.epochDuration, hwide hbits.deltaDuration⟩,
      oneYearMs / fieldOfInt constraintConstants.blockWindowDurationMs / 12, ?_, ?_⟩
    · rw [Nat.div_mul_cancel (Nat.dvd_of_mod_eq_zero hmod)]
      exact Nat.div_mul_le_self _ _
    · rw [Nat.div_mul_cancel (Nat.dvd_of_mod_eq_zero hmod)]
      rfl

omit h

/-- The constraints determine the constants of the code. -/
def Determines (F : Type) [Field F] (constraintConstants : ConstraintConstants)
    (protocolConstants : ProtocolPoly Int Int Int64) (v : ConstantsValue) : Prop :=
  let checked : Circuit (ConstantsPoly F F F F) :=
    Checked.create constraintConstants (protocolVar (valueOfT protocolConstants))
  checked.Satisfiable ∧ ∀ r, checked.Returns r → r = constantsVar v

include h in
/-- The checkpoint windows can be chosen to be empty. -/
theorem not_determines : ¬ Determines F constraintConstants protocolConstantsT v := by
  rintro ⟨⟨r, hr⟩, huniq⟩
  have hr' := huniq r hr ▸ hr
  have hlt := slotDuration_lt h hr'
  obtain ⟨hpos, hmod, hv⟩ := create_eq_words h hlt
  obtain ⟨hbits, -⟩ := (returns_checkedCreate hpos hlt).1 hr'
  have hempty := huniq _ ((returns_checkedCreate hpos hlt).2 ⟨hbits, 0, by omega, rfl⟩)
  have hsize := congrArg ConstantsPoly.checkpointWindowSizeInSlots hempty
  rw [hv] at hsize
  simp only [constantsVar, natVar, toNatConstants, words, createdNumbers, ConstantsPoly.map, natConstants] at hsize
  -- a year has more than twelve slots
  have hquot := Nat.div_le_self oneYearMs (fieldOfInt constraintConstants.blockWindowDurationMs)
  have hyear : 1 ≤ oneYearMs / fieldOfInt constraintConstants.blockWindowDurationMs :=
    (Nat.le_div_iff_mul_le hpos).2 (by unfold oneYearMs; omega)
  have hword : (UInt32.ofNat (oneYearMs / fieldOfInt constraintConstants.blockWindowDurationMs / 12)).toNat
      = oneYearMs / fieldOfInt constraintConstants.blockWindowDurationMs / 12 := by
    rw [UInt32.toNat_ofNat', Nat.mod_eq_of_lt (by unfold oneYearMs at hquot ⊢; omega)]
  rw [hword] at hsize
  have := Currency.WideField.cast_inj _ _ (by decide) (by unfold oneYearMs at hquot ⊢; omega) hsize
  omega

/-- **The checked constants.** The constraints never determine the constants of the code: the
prover can choose other checkpoint windows. The constants satisfy the constraints if and only if
all products and sums have 32 bits, and then the other fields are determined, and are these
products and sums. -/
theorem checked_create_not_determined (F : Type) [Field F] [Currency.WideField F]
    (constraintConstants : ConstraintConstants) (protocolConstants : ProtocolPoly Int Int Int64)
    (v : ConstantsValue) (h : create constraintConstants protocolConstants = some v) :
    ¬ Determines F constraintConstants protocolConstants v
      ∧ ((Checked.create constraintConstants (protocolVar (valueOfT protocolConstants))).Returns
          (constantsVar v : ConstantsPoly F F F F) ↔ HaveBits 32 (createdNumbers constraintConstants protocolConstants))
      ∧ (HaveBits 32 (createdNumbers constraintConstants protocolConstants) →
        toNatConstants v = createdNumbers constraintConstants protocolConstants ∧ ∀ r : ConstantsPoly F F F F,
            (Checked.create constraintConstants (protocolVar (valueOfT protocolConstants))).Returns r → { r with
              checkpointWindowSlotsPerYear := (constantsVar v).checkpointWindowSlotsPerYear
              checkpointWindowSizeInSlots := (constantsVar v).checkpointWindowSizeInSlots } = constantsVar v) := by
  refine ⟨not_determines h, returns_constantsVar_iff h, fun hbits => ?_⟩
  have hlt : fieldOfInt constraintConstants.blockWindowDurationMs < 2 ^ 32 := hbits.slotDurationMs
  obtain ⟨hpos, -, hv⟩ := create_eq_words h hlt
  have hyear := hbits.checkpointWindowSlotsPerYear
  have hword : toNatConstants v = createdNumbers constraintConstants protocolConstants := by
    rw [hv]
    exact toNatConstants_words ((Nat.div_le_self _ 12).trans_lt hyear) hbits
  refine ⟨hword, fun r hr => ?_⟩
  obtain ⟨-, size, -, rfl⟩ := (returns_checkedCreate hpos hlt).1 hr
  rw [constantsVar, hword]
  rfl

end Checked

/-- Windows of eleven sub-windows, slots of three minutes. -/
def threeMinutes : ConstraintConstants := ⟨11, 180000⟩

/-- Protocol constants with the length of an epoch. -/
def sampleProtocol (slotsPerEpoch : Int) : ProtocolPoly Int Int Int64 where
  k := 290
  slotsPerEpoch
  slotsPerSubWindow := 7
  gracePeriodSlots := 2160
  delta := 0
  genesisStateTimestamp := 1655755201000

theorem haveBits_sampleProtocol : HaveBits 32 (createdNumbers threeMinutes (sampleProtocol 7140)) :=
  ⟨by decide, by decide, by decide, by decide, by decide, by decide, by decide⟩

/-- Epochs of 7140 slots. -/
theorem checked_create_three_minute_slots : create threeMinutes (sampleProtocol 7140) = some threeMinuteSlots
      ∧ (Checked.create threeMinutes (protocolVar (valueOfT (sampleProtocol 7140)))).Returns
        (constantsVar threeMinuteSlots : ConstantsPoly (ZMod (mersenne 107)) _ _ _) := by
  have hcreate : create threeMinutes (sampleProtocol 7140) = some threeMinuteSlots := by decide
  exact ⟨hcreate, (checked_create_not_determined (ZMod (mersenne 107)) threeMinutes (sampleProtocol 7140)
    threeMinuteSlots hcreate).2.1.2 haveBits_sampleProtocol⟩

/-- With epochs of 24000 slots an epoch lasts 4320000000 milliseconds, which wraps to 25032704. No
assignment gives the constants of the code. -/
theorem checked_create_long_epochs :
    ∃ v, create threeMinutes (sampleProtocol 24000) = some v ∧ v.epochDuration = 25032704
      ∧ ¬ Determines (ZMod (mersenne 107)) threeMinutes (sampleProtocol 24000) v
      ∧ ¬ (Checked.create threeMinutes (protocolVar (valueOfT (sampleProtocol 24000)))).Returns
        (constantsVar v : ConstantsPoly (ZMod (mersenne 107)) _ _ _) := by
  have hcreate : create threeMinutes (sampleProtocol 24000)
      = some (sampleConstants 24000 180000 25032704 1655755201000) := by decide
  refine ⟨_, hcreate, rfl, not_determines hcreate, fun hr => ?_⟩
  have := ((returns_constantsVar_iff hcreate).1 hr).epochDuration
  exact absurd this (by decide)

end MinaProtocol.Consensus
