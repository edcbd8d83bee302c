import MinaProtocol.Consensus.State

/-!
# Consensus.Time

Slots and times: `epoch.ml`, `global_slot.ml`, `gc_parameters` of `constants.ml`, and the
window in which a block may be received. Times and spans are unsigned 64-bit milliseconds,
the arithmetic on them is done on signed 64-bit numbers, and epochs and slots have 32 bits.
What raises is `none`.

With exact durations and without overflow, a time is in slot `(t - genesis) / duration`
(`ofTimeExn_eq`): everything here is derived from this number.
-/

namespace MinaProtocol.Consensus

/-- `Constants.Poly.t`. -/
structure ConstantsPoly (Length Slot Time Timespan : Type) where
  k : Length
  delta : Length
  slotsPerSubWindow : Length
  slotsPerWindow : Length
  subWindowsPerWindow : Length
  slotsPerEpoch : Length
  gracePeriodSlots : Length
  gracePeriodEnd : Slot
  checkpointWindowSlotsPerYear : Length
  checkpointWindowSizeInSlots : Length
  blockWindowDurationMs : Timespan
  slotDurationMs : Timespan
  epochDuration : Timespan
  deltaDuration : Timespan
  genesisStateTimestamp : Time
deriving DecidableEq

/-- `Constants.t`. -/
abbrev ConstantsValue := ConstantsPoly UInt32 UInt32 UInt64 UInt64

/-- `uint32_of_int64`. -/
def uint32OfInt64 (x : Int64) : UInt32 := x.toUInt64.toUInt32

/-- `int64_of_uint32`. -/
def int64OfUInt32 (x : UInt32) : Int64 := x.toUInt64.toInt64

/-- `Int64.Infix.( / )`. -/
def int64Div (x y : Int64) : Option Int64 := if y = 0 then none else some (x / y)

namespace Epoch

/-- `Epoch.of_time_exn`. -/
def ofTimeExn (constants : ConstantsValue) (t : UInt64) : Option UInt32 :=
  if t < constants.genesisStateTimestamp then none
  else do
    let timeSinceGenesis := t - constants.genesisStateTimestamp
    let epoch ← int64Div timeSinceGenesis.toInt64 constants.epochDuration.toInt64
    some (uint32OfInt64 epoch)

/-- `Epoch.start_time`. -/
def startTime (constants : ConstantsValue) (epoch : UInt32) : UInt64 :=
  (constants.genesisStateTimestamp.toInt64 + int64OfUInt32 epoch * constants.epochDuration.toInt64).toUInt64

/-- `Epoch.end_time`. -/
def endTime (constants : ConstantsValue) (t : UInt32) : UInt64 :=
  startTime constants t + constants.epochDuration

/-- `Epoch.slot_start_time`. -/
def slotStartTime (constants : ConstantsValue) (epoch slot : UInt32) : UInt64 :=
  startTime constants epoch
    + (int64OfUInt32 slot * constants.slotDurationMs.toInt64).toUInt64

/-- `Epoch.slot_end_time`. -/
def slotEndTime (constants : ConstantsValue) (epoch slot : UInt32) : UInt64 :=
  slotStartTime constants epoch slot + constants.slotDurationMs

/-- `Epoch.epoch_and_slot_of_time_exn`, which is also `Epoch_and_slot.of_time_exn`. -/
def epochAndSlotOfTimeExn (constants : ConstantsValue) (tm : UInt64) : Option (UInt32 × UInt32) := do
  let epoch ← ofTimeExn constants tm
  let timeSinceEpoch := tm - startTime constants epoch
  let slot ← int64Div timeSinceEpoch.toInt64 constants.slotDurationMs.toInt64
  some (epoch, uint32OfInt64 slot)

/-- `Epoch.diff_in_slots`. -/
def diffInSlots (constants : ConstantsValue) (p p' : UInt32 × UInt32) : Int64 :=
  let epoch := int64OfUInt32 p.1
  let slot := int64OfUInt32 p.2
  let epoch' := int64OfUInt32 p'.1
  let slot' := int64OfUInt32 p'.2
  let epochSize := int64OfUInt32 constants.slotsPerEpoch
  let epochDiff := epoch - epoch'
  if epochDiff > 0 then (epochDiff - 1) * epochSize + slot + (epochSize - slot')
  else if epochDiff < 0 then (epochDiff + 1) * epochSize - (epochSize - slot) - slot'
  else slot - slot'

/-- `Epoch.incr`. -/
def incr (constants : ConstantsValue) (p : UInt32 × UInt32) : UInt32 × UInt32 :=
  if p.2 = constants.slotsPerEpoch - 1 then (p.1 + 1, 0) else (p.1, p.2 + 1)

end Epoch

namespace GlobalSlot

/-- `Global_slot.of_epoch_and_slot`. -/
def ofEpochAndSlot (constants : ConstantsValue) (p : UInt32 × UInt32) : GlobalSlot :=
  ⟨p.2 + constants.slotsPerEpoch * p.1, constants.slotsPerEpoch⟩

/-- `Global_slot.to_epoch_and_slot`. -/
def toEpochAndSlot (t : GlobalSlot) : UInt32 × UInt32 := (t.epoch, t.slot)

/-- `Global_slot.succ`. -/
def succ (t : GlobalSlot) : GlobalSlot := { t with slotNumber := t.slotNumber + 1 }

/-- `Global_slot.start_time`. -/
def startTime (constants : ConstantsValue) (t : GlobalSlot) : UInt64 :=
  Epoch.slotStartTime constants t.epoch t.slot

/-- `Global_slot.end_time`. -/
def endTime (constants : ConstantsValue) (t : GlobalSlot) : UInt64 :=
  Epoch.slotEndTime constants t.epoch t.slot

/-- `Global_slot.of_time_exn`. -/
def ofTimeExn (constants : ConstantsValue) (time : UInt64) : Option GlobalSlot :=
  (Epoch.epochAndSlotOfTimeExn constants time).map (ofEpochAndSlot constants)

/-- `Global_slot.diff`. -/
def diff (constants : ConstantsValue) (t : GlobalSlot) (other : UInt32 × UInt32) : GlobalSlot :=
  let oldEpoch := t.epoch - other.1 - (if other.2 > t.slot then 1 else 0)
  let oldSlot := (t.slot - other.2) % constants.slotsPerEpoch
  ofEpochAndSlot constants (oldEpoch, oldSlot)

end GlobalSlot

/-- What `gc_parameters` returns. -/
structure GcParameters where
  acceptableNetworkDelay : UInt32
  gcWidth : UInt32
  gcWidthEpoch : UInt32
  gcWidthSlot : UInt32
  gcInterval : UInt32

variable (constants : ConstantsValue) {x : UInt64} {n m : Nat}

/-- `gc_parameters`. -/
def gcParameters : GcParameters :=
  let delay := uint32OfInt64 constants.deltaDuration.toInt64
  let gcWidth := delay * 2
  ⟨delay, gcWidth, gcWidth / constants.slotsPerEpoch, gcWidth % constants.slotsPerEpoch, gcWidth⟩

/-- `Consensus_time.get_old`. -/
def getOld (t : GlobalSlot) : GlobalSlot :=
  let gc := gcParameters constants
  let gs := GlobalSlot.ofEpochAndSlot constants (gc.gcWidthEpoch, gc.gcWidthSlot)
  -- `t` is not beyond `gcWidth`
  if t.lt gs then ⟨0, constants.slotsPerEpoch⟩
  else GlobalSlot.diff constants t (gc.gcWidthEpoch, gc.gcWidthSlot)

/-- The errors of `received_within_window`. -/
inductive ReceivedError where
  | tooEarly
  | tooLate (slots : Int64)
deriving DecidableEq

/-- `received_within_window`. -/
def receivedWithinWindow (p : UInt32 × UInt32) (timeReceived : Int64) : Option (Except ReceivedError Unit) := do
  let received ← Epoch.epochAndSlotOfTimeExn constants timeReceived.toUInt64
  let slotDiff := Epoch.diffInSlots constants received p
  some <|
    if slotDiff < 0 then .error .tooEarly
    else if slotDiff ≥ int64OfUInt32 (constants.delta + 1) then
      .error (.tooLate (slotDiff - int64OfUInt32 constants.delta))
    else .ok ()

/-- `received_at_valid_time`. -/
def receivedAtValidTime (consensusState : ConsensusState) (timeReceived : Int64) : Option (Except ReceivedError Unit) :=
  receivedWithinWindow constants consensusState.currGlobalSlot.toEpochAndSlot timeReceived

/-! ### Words as numbers -/

theorem toInt64_toInt (h : x.toNat < 2 ^ 63) : x.toInt64.toInt = x.toNat := by
  rw [← Int64.toInt_toBitVec]
  show x.toBitVec.toInt = x.toNat
  rw [BitVec.toInt_eq_toNat_of_lt, UInt64.toNat_toBitVec]
  rw [UInt64.toNat_toBitVec]
  omega

theorem toInt64_toInt_neg (h : 2 ^ 63 ≤ x.toNat) : x.toInt64.toInt = x.toNat - 2 ^ 64 := by
  have hbits := BitVec.toInt_eq_toNat_cond x.toBitVec
  change x.toInt64.toInt = if 2 * x.toNat < 2 ^ 64 then (x.toNat : Int)
    else (x.toNat : Int) - (2 ^ 64 : Nat) at hbits
  rw [hbits, if_neg (by omega)]
  rfl

theorem int64OfUInt32_toInt (x : UInt32) : (int64OfUInt32 x).toInt = x.toNat := by
  unfold int64OfUInt32
  have hlt := x.toNat_lt
  rw [toInt64_toInt (by rw [UInt32.toNat_toUInt64]; omega), UInt32.toNat_toUInt64]

theorem int64OfUInt32_eq (x : UInt32) : int64OfUInt32 x = Int64.ofInt x.toNat := by
  have hlt := x.toNat_lt
  rw [← Int64.toInt_inj, int64OfUInt32_toInt, Int64.toInt_ofInt_of_le (by omega) (by omega)]

theorem toNat_uint32OfInt64 (x : Int64) : ((uint32OfInt64 x).toNat : Int) = x.toInt % 2 ^ 32 := by
  have hx : (x.toUInt64.toNat : Int) = x.toInt ∨ (x.toUInt64.toNat : Int) = x.toInt + 2 ^ 64 := by
    have hbits := BitVec.toInt_eq_toNat_cond x.toBitVec
    change x.toInt = if 2 * x.toUInt64.toNat < 2 ^ 64 then (x.toUInt64.toNat : Int)
      else (x.toUInt64.toNat : Int) - (2 ^ 64 : Nat) at hbits
    split at hbits <;> omega
  rw [uint32OfInt64, UInt64.toNat_toUInt32]
  omega

theorem uint32OfInt64_eq {x : Int64} (h : x.toInt = n) : uint32OfInt64 x = UInt32.ofNat n := by
  have hx := toNat_uint32OfInt64 x
  rw [← UInt32.toNat_inj, UInt32.toNat_ofNat']
  omega

/-- Between numbers that are not negative, the division is that of natural numbers. -/
theorem int64Div_eq {x y : Int64} (hx : x.toInt = m) (hy : y.toInt = n) (hn : 0 < n) :
    ∃ z, int64Div x y = some z ∧ uint32OfInt64 z = UInt32.ofNat (m / n) := by
  have hne : y ≠ 0 := by
    rintro rfl
    rw [Int64.toInt_zero] at hy
    omega
  have hm : (m : Int) < 2 ^ 63 := hx ▸ Int64.toInt_lt x
  have hle : m / n ≤ m := Nat.div_le_self m n
  refine ⟨x / y, if_neg hne, uint32OfInt64_eq ?_⟩
  rw [Int64.toInt_div, hx, hy, Int.tdiv_eq_ediv_of_nonneg (Int.natCast_nonneg m), ← Int.natCast_ediv]
  generalize m / n = q at hle
  exact Int.bmod_eq_of_le (by omega) (by omega)

theorem UInt32.ofNat_congr (h : m % 2 ^ 32 = n % 2 ^ 32) : UInt32.ofNat m = UInt32.ofNat n := by
  rw [← UInt32.toNat_inj, UInt32.toNat_ofNat', UInt32.toNat_ofNat', h]

theorem sub_mod_mul_mod (n m w : Nat) : (n - n / m % w * m) % w = n % m % w := by
  have hn := Nat.div_add_mod n m
  have hq := Nat.div_add_mod (n / m) w
  have hsub : n - n / m % w * m = n % m + w * (n / m / w * m) := by
    calc n - n / m % w * m = m * (w * (n / m / w) + n / m % w) + n % m - n / m % w * m := by rw [hq, hn]
      _ = n % m + w * (n / m / w * m) := by
        rw [Nat.mul_add, Nat.mul_comm m (n / m % w), Nat.mul_left_comm m w, Nat.mul_comm m (n / m / w)]
        omega
  rw [hsub, Nat.add_mul_mod_self_left]

/-! ### Slot numbers -/

/-- The durations as `create'` makes them, of 32 bits, if their product does not wrap. -/
structure ExactDurations : Prop where
  slotsPerEpoch_pos : 0 < constants.slotsPerEpoch.toNat
  slotDurationMs_pos : 0 < constants.slotDurationMs.toNat
  epochDuration_eq : constants.epochDuration.toNat
    = constants.slotsPerEpoch.toNat * constants.slotDurationMs.toNat
  epochDuration_lt : constants.epochDuration.toNat < 2 ^ 32

/-- The number of the slot that a time is in, from the genesis on. -/
def slotOfTime (t : UInt64) : Nat :=
  (t.toNat - constants.genesisStateTimestamp.toNat) / constants.slotDurationMs.toNat

/-- The time is not before the genesis, and the milliseconds since then are not negative
as a signed number. -/
def SinceGenesis (t : UInt64) : Prop :=
  constants.genesisStateTimestamp ≤ t
    ∧ t.toNat - constants.genesisStateTimestamp.toNat < 2 ^ 63

/-- The number of a slot of an epoch. -/
def slotNumberOf (p : UInt32 × UInt32) : Nat :=
  p.1.toNat * constants.slotsPerEpoch.toNat + p.2.toNat

theorem Epoch.startTime_eq (epoch : UInt32) : startTime constants epoch
      = constants.genesisStateTimestamp + epoch.toUInt64 * constants.epochDuration := rfl

theorem Epoch.toNat_startTime (epoch : UInt32) :
    (startTime constants epoch).toNat = (constants.genesisStateTimestamp.toNat
      + epoch.toNat * constants.epochDuration.toNat) % 2 ^ 64 := by
  rw [startTime_eq]
  simp

theorem Epoch.slotStartTime_eq (epoch slot : UInt32) :
    slotStartTime constants epoch slot = constants.genesisStateTimestamp
      + epoch.toUInt64 * constants.epochDuration + slot.toUInt64 * constants.slotDurationMs := rfl

section ExactDurations

variable {constants : ConstantsValue} {t : UInt64} {p : UInt32 × UInt32}

variable (h : ExactDurations constants)

include h

theorem ExactDurations.epochDuration_pos : 0 < constants.epochDuration.toNat :=
  h.epochDuration_eq ▸ Nat.mul_pos h.slotsPerEpoch_pos h.slotDurationMs_pos

theorem ExactDurations.slotDurationMs_lt : constants.slotDurationMs.toNat < 2 ^ 32 := by
  have hle := Nat.le_mul_of_pos_left constants.slotDurationMs.toNat h.slotsPerEpoch_pos
  have := h.epochDuration_eq
  have := h.epochDuration_lt
  omega

theorem Epoch.ofTimeExn_eq (ht : SinceGenesis constants t) : Epoch.ofTimeExn constants t
      = some (UInt32.ofNat (slotOfTime constants t / constants.slotsPerEpoch.toNat)) := by
  have hsub : (t - constants.genesisStateTimestamp).toNat
      = t.toNat - constants.genesisStateTimestamp.toNat := UInt64.toNat_sub_of_le _ _ ht.1
  have hlt := h.epochDuration_lt
  unfold Epoch.ofTimeExn
  rw [if_neg (UInt64.not_lt.2 ht.1)]
  obtain ⟨z, hz, hepoch⟩ :=
    int64Div_eq (toInt64_toInt (hsub ▸ ht.2)) (toInt64_toInt (by omega)) h.epochDuration_pos
  rw [hsub, h.epochDuration_eq, Nat.mul_comm, ← Nat.div_div_eq_div_mul] at hepoch
  simp only [hz, Option.bind_eq_bind, Option.bind_some, hepoch]
  rfl

variable (hge : constants.genesisStateTimestamp ≤ t)

include hge in
/-- The milliseconds since the start of the epoch give the slot, whichever epoch before the
time `of_time_exn` finds. -/
theorem Epoch.epochAndSlotOfTimeExn_of_epoch {epoch : UInt32}
    (hepoch : Epoch.ofTimeExn constants t = some epoch)
    (hle : epoch.toNat * constants.slotsPerEpoch.toNat ≤ slotOfTime constants t)
    (hlt : t.toNat - constants.genesisStateTimestamp.toNat < epoch.toNat * constants.epochDuration.toNat + 2 ^ 63) :
    Epoch.epochAndSlotOfTimeExn constants t
      = some (epoch, UInt32.ofNat (slotOfTime constants t - epoch.toNat * constants.slotsPerEpoch.toNat)) := by
  have hdur := h.slotDurationMs_lt
  have hexact : epoch.toNat * constants.epochDuration.toNat
      = epoch.toNat * constants.slotsPerEpoch.toNat * constants.slotDurationMs.toNat := by
    rw [h.epochDuration_eq, Nat.mul_assoc]
  have hstart : epoch.toNat * constants.epochDuration.toNat
      ≤ t.toNat - constants.genesisStateTimestamp.toNat := by
    rw [hexact]
    exact (Nat.mul_le_mul_right _ hle).trans (Nat.div_mul_le_self _ _)
  have hsince : (t - Epoch.startTime constants epoch).toNat
      = t.toNat - constants.genesisStateTimestamp.toNat - epoch.toNat * constants.epochDuration.toNat := by
    have ht := t.toNat_lt
    have hge' := UInt64.le_iff_toNat_le.1 hge
    have htoNat : (Epoch.startTime constants epoch).toNat
        = constants.genesisStateTimestamp.toNat + epoch.toNat * constants.epochDuration.toNat := by
      rw [Epoch.toNat_startTime, Nat.mod_eq_of_lt (by omega)]
    rw [UInt64.toNat_sub_of_le _ _ (UInt64.le_iff_toNat_le.2 (by omega)), htoNat, Nat.sub_sub]
  have hint := toInt64_toInt (x := t - Epoch.startTime constants epoch) (by rw [hsince]; omega)
  rw [hsince] at hint
  obtain ⟨z, hz, hs⟩ := int64Div_eq hint (toInt64_toInt (by omega)) h.slotDurationMs_pos
  rw [hexact, Nat.mul_comm _ constants.slotDurationMs.toNat, Nat.sub_mul_div] at hs
  unfold Epoch.epochAndSlotOfTimeExn
  rw [hepoch]
  simp only [Option.bind_eq_bind, Option.bind_some, hz, hs]
  rfl

/-- **The epoch and the slot of a time** are quotient and remainder of the slot's number. -/
theorem Epoch.epochAndSlotOfTimeExn_eq (ht : SinceGenesis constants t) : Epoch.epochAndSlotOfTimeExn constants t
      = some (UInt32.ofNat (slotOfTime constants t / constants.slotsPerEpoch.toNat),
        UInt32.ofNat (slotOfTime constants t % constants.slotsPerEpoch.toNat)) := by
  have hle : (UInt32.ofNat (slotOfTime constants t / constants.slotsPerEpoch.toNat)).toNat
      * constants.slotsPerEpoch.toNat ≤ slotOfTime constants t := by
    rw [UInt32.toNat_ofNat']
    exact (Nat.mul_le_mul_right _ (Nat.mod_le _ _)).trans (Nat.div_mul_le_self _ _)
  rw [Epoch.epochAndSlotOfTimeExn_of_epoch h ht.1 (Epoch.ofTimeExn_eq h ht) hle
    (ht.2.trans_le (Nat.le_add_left _ _)), UInt32.toNat_ofNat', UInt32.ofNat_congr (sub_mod_mul_mod _ _ _)]

include hge in
/-- The epoch of a time so far from the genesis that the milliseconds since then are negative
as a signed number. Its slot has 32 bits only if the epochs have one slot each. The quotient
then is `k` epochs before the wrap at 2^64, which is an epoch before the time. -/
theorem Epoch.ofTimeExn_far
    (hfar : 2 ^ 63 ≤ t.toNat - constants.genesisStateTimestamp.toNat)
    (hfits : slotOfTime constants t < 2 ^ 32) : ∃ epoch, Epoch.ofTimeExn constants t = some epoch
      ∧ epoch.toNat * constants.slotsPerEpoch.toNat ≤ slotOfTime constants t
      ∧ t.toNat - constants.genesisStateTimestamp.toNat
        < epoch.toNat * constants.epochDuration.toNat + 2 ^ 63 := by
  have hsub : (t - constants.genesisStateTimestamp).toNat
      = t.toNat - constants.genesisStateTimestamp.toNat := UInt64.toNat_sub_of_le _ _ hge
  have htlt := t.toNat_lt
  have hdur := h.slotDurationMs_lt
  have hpos := h.slotDurationMs_pos
  have hbound := (Nat.div_lt_iff_lt_mul hpos).1 hfits
  unfold slotOfTime
  generalize t.toNat - constants.genesisStateTimestamp.toNat = elapsed at *
  have hone : constants.slotsPerEpoch = 1 := by
    have hexact := h.epochDuration_eq
    have hlt := h.epochDuration_lt
    have hspos := h.slotsPerEpoch_pos
    have htwo : 2 ≤ constants.slotsPerEpoch.toNat → 2 * constants.slotDurationMs.toNat
        ≤ constants.slotsPerEpoch.toNat * constants.slotDurationMs.toNat := Nat.mul_le_mul_right _
    rw [← UInt32.toNat_inj, UInt32.toNat_one]
    omega
  have hepochDuration : constants.epochDuration.toNat = constants.slotDurationMs.toNat := by
    rw [h.epochDuration_eq, hone, UInt32.toNat_one, Nat.one_mul]
  obtain ⟨k, hk⟩ : ∃ k, k = (2 ^ 64 - elapsed) / constants.slotDurationMs.toNat := ⟨_, rfl⟩
  have hfloor := Nat.div_mul_le_self (2 ^ 64 - elapsed) constants.slotDurationMs.toNat
  have hceil := Nat.lt_div_mul_add (a := 2 ^ 64 - elapsed) hpos
  rw [← hk] at hfloor hceil
  have hkpos : 0 < k := hk ▸ Nat.div_pos (by omega) hpos
  have hklt : k < 2 ^ 32 := hk ▸ (Nat.div_lt_iff_lt_mul hpos).2 (by omega)
  have hx : (t - constants.genesisStateTimestamp).toInt64.toInt = -((2 ^ 64 - elapsed : Nat) : Int) := by
    rw [toInt64_toInt_neg (by omega), hsub]
    omega
  have hy : constants.epochDuration.toInt64.toInt = constants.slotDurationMs.toNat := by
    rw [toInt64_toInt (by omega), hepochDuration]
  have hdiv : ((t - constants.genesisStateTimestamp).toInt64 / constants.epochDuration.toInt64).toInt
      = -(k : Int) := by
    rw [Int64.toInt_div, hx, hy, Int.neg_tdiv, Int.tdiv_eq_ediv_of_nonneg (Int.natCast_nonneg _),
      ← Int.natCast_ediv, ← hk]
    exact Int.bmod_eq_of_le (by omega) (by omega)
  have hne : constants.epochDuration.toInt64 ≠ 0 := by
    intro he
    rw [he, Int64.toInt_zero] at hy
    omega
  have hepoch := toNat_uint32OfInt64 ((t - constants.genesisStateTimestamp).toInt64 / constants.epochDuration.toInt64)
  rw [hdiv] at hepoch
  have hnum : (uint32OfInt64 ((t - constants.genesisStateTimestamp).toInt64
      / constants.epochDuration.toInt64)).toNat = 2 ^ 32 - k := by omega
  have hmul := Nat.sub_mul (2 ^ 32) k constants.slotDurationMs.toNat
  refine ⟨uint32OfInt64 ((t - constants.genesisStateTimestamp).toInt64 / constants.epochDuration.toInt64), ?_, ?_, ?_⟩
  · unfold Epoch.ofTimeExn
    rw [if_neg (UInt64.not_lt.2 hge)]
    simp only [int64Div, if_neg hne, Option.bind_eq_bind, Option.bind_some]
  · rw [hnum, hone, UInt32.toNat_one, Nat.mul_one, Nat.le_div_iff_mul_le hpos]
    omega
  · rw [hnum, hepochDuration]
    omega

omit h

theorem UInt32.ofNat_sub_mul_add {n : Nat} {e m : UInt32} (h : e.toNat * m.toNat ≤ n) :
    UInt32.ofNat (n - e.toNat * m.toNat) + m * e = UInt32.ofNat n := by
  rw [← UInt32.toNat_inj]
  simp only [UInt32.toNat_add, UInt32.toNat_mul, UInt32.toNat_ofNat', Nat.mod_add_mod, Nat.add_mod_mod]
  rw [Nat.mul_comm m.toNat, Nat.sub_add_cancel h]

include h in
include hge in
/-- **The slot of a time**, if its number has 32 bits. -/
theorem GlobalSlot.ofTimeExn_eq (hfits : slotOfTime constants t < 2 ^ 32) :
    GlobalSlot.ofTimeExn constants t
      = some ⟨UInt32.ofNat (slotOfTime constants t), constants.slotsPerEpoch⟩ := by
  obtain ⟨epoch, hepoch, hle, hlt⟩ : ∃ epoch, Epoch.ofTimeExn constants t = some epoch
      ∧ epoch.toNat * constants.slotsPerEpoch.toNat ≤ slotOfTime constants t
      ∧ t.toNat - constants.genesisStateTimestamp.toNat
        < epoch.toNat * constants.epochDuration.toNat + 2 ^ 63 := by
    by_cases hfar : 2 ^ 63 ≤ t.toNat - constants.genesisStateTimestamp.toNat
    · exact Epoch.ofTimeExn_far h hge hfar hfits
    · refine ⟨_, Epoch.ofTimeExn_eq h ⟨hge, by omega⟩, ?_, by omega⟩
      rw [UInt32.toNat_ofNat']
      exact (Nat.mul_le_mul_right _ (Nat.mod_le _ _)).trans (Nat.div_mul_le_self _ _)
  unfold GlobalSlot.ofTimeExn GlobalSlot.ofEpochAndSlot
  rw [Epoch.epochAndSlotOfTimeExn_of_epoch h hge hepoch hle hlt, Option.map_some, UInt32.ofNat_sub_mul_add hle]

variable {g : GlobalSlot}

include h

variable (hg : g.slotsPerEpoch = constants.slotsPerEpoch)

include hg

theorem GlobalSlot.toNat_startTime : (GlobalSlot.startTime constants g).toNat = (constants.genesisStateTimestamp.toNat
      + g.slotNumber.toNat * constants.slotDurationMs.toNat) % 2 ^ 64 := by
  have hsum : g.epoch.toNat * constants.epochDuration.toNat + g.slot.toNat * constants.slotDurationMs.toNat
      = g.slotNumber.toNat * constants.slotDurationMs.toNat := by
    unfold GlobalSlot.epoch GlobalSlot.slot
    rw [h.epochDuration_eq, ← Nat.mul_assoc, ← Nat.add_mul, UInt32.toNat_div, UInt32.toNat_mod, hg, Nat.div_add_mod']
  unfold GlobalSlot.startTime
  rw [Epoch.slotStartTime_eq, ← hsum, ← Nat.add_assoc]
  simp

theorem GlobalSlot.toNat_endTime : (GlobalSlot.endTime constants g).toNat = (constants.genesisStateTimestamp.toNat
      + (g.slotNumber.toNat + 1) * constants.slotDurationMs.toNat) % 2 ^ 64 := by
  have hstart := GlobalSlot.toNat_startTime h hg
  unfold GlobalSlot.endTime Epoch.slotEndTime
  rw [UInt64.toNat_add]
  change (GlobalSlot.startTime constants g).toNat = _ at hstart
  rw [show Epoch.slotStartTime constants g.epoch g.slot = GlobalSlot.startTime constants g from rfl, hstart,
    Nat.mod_add_mod, Nat.add_mul, Nat.one_mul, Nat.add_assoc]

omit hg

theorem slotNumber_eq_slotOfTime
    (hle : constants.genesisStateTimestamp ≤ t) (hg : g.slotsPerEpoch = constants.slotsPerEpoch)
    (hstart : GlobalSlot.startTime constants g ≤ t) (hend : t < GlobalSlot.endTime constants g) :
    g.slotNumber.toNat = slotOfTime constants t := by
  rw [UInt64.le_iff_toNat_le] at hle hstart
  rw [UInt64.lt_iff_toNat_lt] at hend
  rw [GlobalSlot.toNat_startTime h hg] at hstart
  rw [GlobalSlot.toNat_endTime h hg] at hend
  have hdur := h.slotDurationMs_lt
  have ht := t.toNat_lt
  have hspan : (g.slotNumber.toNat + 1) * constants.slotDurationMs.toNat ≤ 2 ^ 32 * (2 ^ 32 - 1) :=
    Nat.mul_le_mul g.slotNumber.toNat_lt (by omega)
  unfold slotOfTime
  refine (Nat.div_eq_of_lt_le ?_ ?_).symm <;> rw [Nat.add_mul, Nat.one_mul] at * <;>
    generalize g.slotNumber.toNat * constants.slotDurationMs.toNat = offset at * <;> omega

omit h

include hg in
theorem GlobalSlot.ofEpochAndSlot_toEpochAndSlot : ofEpochAndSlot constants g.toEpochAndSlot = g := by
  obtain ⟨n, m⟩ := g
  obtain rfl : m = constants.slotsPerEpoch := hg
  unfold ofEpochAndSlot toEpochAndSlot GlobalSlot.epoch GlobalSlot.slot
  congr 1
  rw [← UInt32.toNat_inj]
  simp [Nat.mod_add_div, Nat.mod_eq_of_lt n.toNat_lt]

theorem GlobalSlot.toNat_ofEpochAndSlot (hp : slotNumberOf constants p < 2 ^ 32) :
    (ofEpochAndSlot constants p).slotNumber.toNat = slotNumberOf constants p := by
  unfold slotNumberOf at *
  rw [Nat.mul_comm] at *
  unfold ofEpochAndSlot
  rw [UInt32.toNat_add, UInt32.toNat_mul, Nat.add_mod_mod, Nat.add_comm, Nat.mod_eq_of_lt hp]

theorem GlobalSlot.toEpochAndSlot_ofEpochAndSlot
    (hslot : p.2 < constants.slotsPerEpoch) (hp : slotNumberOf constants p < 2 ^ 32) :
    (ofEpochAndSlot constants p).toEpochAndSlot = p := by
  have hnum := toNat_ofEpochAndSlot hp
  rw [UInt32.lt_iff_toNat_lt] at hslot
  unfold slotNumberOf at hnum
  unfold toEpochAndSlot GlobalSlot.epoch GlobalSlot.slot
  refine Prod.ext (UInt32.toNat_inj.1 ?_) (UInt32.toNat_inj.1 ?_)
  · rw [UInt32.toNat_div, hnum, Nat.add_comm]
    change (p.2.toNat + p.1.toNat * constants.slotsPerEpoch.toNat) / constants.slotsPerEpoch.toNat = _
    rw [Nat.add_mul_div_right _ _ (by omega), Nat.div_eq_of_lt hslot, Nat.zero_add]
  · rw [UInt32.toNat_mod, hnum, Nat.add_comm]
    change (p.2.toNat + p.1.toNat * constants.slotsPerEpoch.toNat) % constants.slotsPerEpoch.toNat = _
    rw [Nat.add_mul_mod_self_right, Nat.mod_eq_of_lt hslot]

theorem GlobalSlot.ofEpochAndSlot_incr (constants : ConstantsValue) (p : UInt32 × UInt32) :
    ofEpochAndSlot constants (Epoch.incr constants p) = (ofEpochAndSlot constants p).succ := by
  unfold Epoch.incr ofEpochAndSlot succ
  split
  · rename_i hlast
    simp only [hlast, GlobalSlot.mk.injEq, and_true]
    grind
  · simp only [GlobalSlot.mk.injEq, and_true]
    grind

/-- All cases of `diff_in_slots` are the difference of the slots' numbers. -/
theorem Epoch.diffInSlots_eq (constants : ConstantsValue) (p p' : UInt32 × UInt32) : diffInSlots constants p p'
      = Int64.ofInt (slotNumberOf constants p - slotNumberOf constants p') := by
  have hring : ∀ a b c d e : Int64, (a - b - 1) * e + c + (e - d) = (a - b) * e + c - d
      ∧ (a - b + 1) * e - (e - c) - d = (a - b) * e + c - d := by grind
  have hcases : diffInSlots constants p p'
      = (int64OfUInt32 p.1 - int64OfUInt32 p'.1) * int64OfUInt32 constants.slotsPerEpoch
        + int64OfUInt32 p.2 - int64OfUInt32 p'.2 := by
    unfold diffInSlots
    dsimp only
    split
    · exact (hring _ _ _ _ _).1
    · rename_i hpos
      split
      · exact (hring _ _ _ _ _).2
      · rename_i hneg
        have hzero := Int64.le_antisymm (Int64.not_lt.1 hpos) (Int64.not_lt.1 hneg)
        rw [hzero, Int64.zero_mul, Int64.zero_add]
  rw [hcases]
  simp only [int64OfUInt32_eq, ← Int64.ofInt_sub, ← Int64.ofInt_mul, ← Int64.ofInt_add]
  congr 1
  unfold slotNumberOf
  push_cast
  ring

theorem Epoch.toInt_diffInSlots {p' : UInt32 × UInt32} (hp : slotNumberOf constants p < 2 ^ 63)
    (hp' : slotNumberOf constants p' < 2 ^ 63) :
    (diffInSlots constants p p').toInt = slotNumberOf constants p - slotNumberOf constants p' := by
  rw [diffInSlots_eq, Int64.toInt_ofInt_of_le (by omega) (by omega)]

/-- **Slots tile time.** Unless the end of its slot is no 64-bit time any more, a time lies in
exactly one slot, that of `of_time_exn`; and a slot is that of its start. The conversions between
slots and pairs of an epoch and a slot are inverse to each other, and agree on the next slot and on
differences. -/
theorem slots_tile_time (constants : ConstantsValue) (h : ExactDurations constants) :
    (∀ t, constants.genesisStateTimestamp ≤ t → slotOfTime constants t < 2 ^ 32 → constants.genesisStateTimestamp.toNat
        + (slotOfTime constants t + 1) * constants.slotDurationMs.toNat < 2 ^ 64 →
      ∃ g, GlobalSlot.ofTimeExn constants t = some g
        ∧ GlobalSlot.startTime constants g ≤ t ∧ t < GlobalSlot.endTime constants g
        ∧ ∀ g', g'.slotsPerEpoch = constants.slotsPerEpoch → GlobalSlot.startTime constants g' ≤ t →
          t < GlobalSlot.endTime constants g' → g' = g)
      ∧ (∀ g, g.slotsPerEpoch = constants.slotsPerEpoch → constants.genesisStateTimestamp.toNat
          + g.slotNumber.toNat * constants.slotDurationMs.toNat < 2 ^ 64 →
        GlobalSlot.ofTimeExn constants (GlobalSlot.startTime constants g) = some g)
      ∧ (∀ g, g.slotsPerEpoch = constants.slotsPerEpoch → GlobalSlot.ofEpochAndSlot constants g.toEpochAndSlot = g)
      ∧ (∀ p, p.2 < constants.slotsPerEpoch → slotNumberOf constants p < 2 ^ 32 →
        (GlobalSlot.ofEpochAndSlot constants p).toEpochAndSlot = p)
      ∧ (∀ p, GlobalSlot.ofEpochAndSlot constants (Epoch.incr constants p)
        = (GlobalSlot.ofEpochAndSlot constants p).succ)
      ∧ ∀ p p', slotNumberOf constants p < 2 ^ 32 → slotNumberOf constants p' < 2 ^ 32 →
        (Epoch.diffInSlots constants p p').toInt
          = (GlobalSlot.ofEpochAndSlot constants p).slotNumber.toNat
            - (GlobalSlot.ofEpochAndSlot constants p').slotNumber.toNat := by
  refine ⟨fun t hle hfits hend => ?_, fun g hg hstart => ?_, fun g hg => GlobalSlot.ofEpochAndSlot_toEpochAndSlot hg,
    fun p hslot hp => GlobalSlot.toEpochAndSlot_ofEpochAndSlot hslot hp,
    GlobalSlot.ofEpochAndSlot_incr constants, fun p p' hp hp' => ?_⟩
  · have hnum : (UInt32.ofNat (slotOfTime constants t)).toNat = slotOfTime constants t := by
      rw [UInt32.toNat_ofNat', Nat.mod_eq_of_lt hfits]
    have hge := UInt64.le_iff_toNat_le.1 hle
    have hfloor := Nat.div_mul_le_self (t.toNat - constants.genesisStateTimestamp.toNat)
      constants.slotDurationMs.toNat
    have hceil := Nat.lt_div_mul_add (a := t.toNat - constants.genesisStateTimestamp.toNat)
      h.slotDurationMs_pos
    change slotOfTime constants t * _ ≤ _ at hfloor
    change _ < slotOfTime constants t * _ + _ at hceil
    rw [Nat.add_mul, Nat.one_mul] at hend
    refine ⟨_, GlobalSlot.ofTimeExn_eq h hle hfits, ?_, ?_, fun g' hg' hs he => ?_⟩
    · rw [UInt64.le_iff_toNat_le, GlobalSlot.toNat_startTime h rfl, hnum, Nat.mod_eq_of_lt (by omega)]
      omega
    · rw [UInt64.lt_iff_toNat_lt, GlobalSlot.toNat_endTime h rfl, hnum, Nat.add_mul, Nat.one_mul, Nat.mod_eq_of_lt hend]
      omega
    · obtain ⟨n, m⟩ := g'
      obtain rfl : m = constants.slotsPerEpoch := hg'
      rw [← slotNumber_eq_slotOfTime h hle rfl hs he, UInt32.ofNat_toNat]
  · have htime := GlobalSlot.toNat_startTime h hg
    rw [Nat.mod_eq_of_lt hstart] at htime
    have hge : constants.genesisStateTimestamp ≤ GlobalSlot.startTime constants g :=
      UInt64.le_iff_toNat_le.2 (by omega)
    have hslot : slotOfTime constants (GlobalSlot.startTime constants g) = g.slotNumber.toNat := by
      unfold slotOfTime
      rw [htime, Nat.add_sub_cancel_left, Nat.mul_div_cancel _ h.slotDurationMs_pos]
    rw [GlobalSlot.ofTimeExn_eq h hge (hslot ▸ g.slotNumber.toNat_lt), hslot, UInt32.ofNat_toNat, ← hg]
  · rw [GlobalSlot.toNat_ofEpochAndSlot hp, GlobalSlot.toNat_ofEpochAndSlot hp',
      Epoch.toInt_diffInSlots (by omega) (by omega)]

end ExactDurations

/-- Constants with the given durations and genesis. -/
def sampleConstants (slotsPerEpoch : UInt32) (slotDurationMs epochDuration genesis : UInt64) : ConstantsValue where
  k := 290
  delta := 0
  slotsPerSubWindow := 7
  slotsPerWindow := 77
  subWindowsPerWindow := 11
  slotsPerEpoch := slotsPerEpoch
  gracePeriodSlots := 2160
  gracePeriodEnd := 2237
  checkpointWindowSlotsPerYear := 175200
  checkpointWindowSizeInSlots := 14600
  blockWindowDurationMs := slotDurationMs
  slotDurationMs := slotDurationMs
  epochDuration := epochDuration
  deltaDuration := slotDurationMs
  genesisStateTimestamp := genesis

/-- Epochs of 7140 slots of three minutes. -/
def threeMinuteSlots : ConstantsValue := sampleConstants 7140 180000 1285200000 1655755201000

theorem threeMinuteSlots_exact : ExactDurations threeMinuteSlots :=
  ⟨by decide, by decide, by decide, by decide⟩

/-- A time in the second epoch, its slot, and the next one. -/
theorem slots_tile_time_second_epoch : GlobalSlot.ofTimeExn threeMinuteSlots 1657041121000 = some ⟨7144, 7140⟩
      ∧ GlobalSlot.ofTimeExn threeMinuteSlots (GlobalSlot.startTime threeMinuteSlots ⟨7144, 7140⟩)
        = some ⟨7144, 7140⟩
      ∧ (Epoch.diffInSlots threeMinuteSlots (0, 7139) (1, 4)).toInt = -5 := by
  obtain ⟨htime, hstart, -, -, -, hdiff⟩ := slots_tile_time threeMinuteSlots threeMinuteSlots_exact
  obtain ⟨g, hg, -⟩ := htime 1657041121000 (by decide) (by decide) (by decide)
  refine ⟨?_, hstart ⟨7144, 7140⟩ rfl (by decide), ?_⟩
  · rw [hg]
    exact hg.symm.trans (by decide)
  · rw [hdiff (0, 7139) (1, 4) (by decide) (by decide)]
    decide

/-- If the genesis is at the greatest time, the start of the next slot wraps to a time before
the genesis, and the first slot ends before it starts. If a slot lasts `2 ^ 33` milliseconds, the
slots do not fit the times, and the start of a slot in the middle is taken for a later slot. -/
theorem last_slots_do_not_tile_time : (∃ constants, ExactDurations constants
      ∧ (∃ g : GlobalSlot, g.slotsPerEpoch = constants.slotsPerEpoch
        ∧ GlobalSlot.ofTimeExn constants (GlobalSlot.startTime constants g) = none)
      ∧ ∃ t, constants.genesisStateTimestamp ≤ t ∧ slotOfTime constants t < 2 ^ 32
        ∧ ∃ g, GlobalSlot.ofTimeExn constants t = some g ∧ ¬ t < GlobalSlot.endTime constants g)
      ∧ ∃ constants : ConstantsValue, constants.epochDuration.toNat
          = constants.slotsPerEpoch.toNat * constants.slotDurationMs.toNat
        ∧ 0 < constants.slotsPerEpoch ∧ 0 < constants.slotDurationMs
        ∧ ∃ g : GlobalSlot, g.slotsPerEpoch = constants.slotsPerEpoch
          ∧ GlobalSlot.startTime constants g < GlobalSlot.endTime constants g
          ∧ GlobalSlot.ofTimeExn constants (GlobalSlot.startTime constants g) ≠ some g := by
  refine ⟨⟨sampleConstants 1 1 1 0xffffffffffffffff, ⟨by decide, by decide, by decide, by decide⟩,
    ⟨⟨1, 1⟩, rfl, by decide⟩, 0xffffffffffffffff, by decide, by decide, ⟨0, 1⟩, by decide, by decide⟩,
    sampleConstants 1 0x200000000 0x200000000 0, by decide, by decide, by decide,
    ⟨0x40000000, 1⟩, rfl, by decide, by decide⟩

/-! ### Subtraction of slots -/

section Subtraction

variable {constants : ConstantsValue} {t : GlobalSlot}

variable (ht : t.slotsPerEpoch = constants.slotsPerEpoch) {epoch slot : UInt32}

include ht

theorem slotNumberOf_toEpochAndSlot : slotNumberOf constants t.toEpochAndSlot = t.slotNumber.toNat := by
  unfold slotNumberOf GlobalSlot.toEpochAndSlot GlobalSlot.epoch GlobalSlot.slot
  rw [UInt32.toNat_div, UInt32.toNat_mod, ht, Nat.div_add_mod']

theorem GlobalSlot.slotNumber_eq : t.slotNumber.toNat = t.epoch.toNat * constants.slotsPerEpoch.toNat + t.slot.toNat :=
  (slotNumberOf_toEpochAndSlot ht).symm

omit ht

theorem GlobalSlot.slot_lt (hpos : 0 < constants.slotsPerEpoch.toNat)
    (ht : t.slotsPerEpoch = constants.slotsPerEpoch) : t.slot.toNat < constants.slotsPerEpoch.toNat := by
  unfold GlobalSlot.slot
  rw [ht, UInt32.toNat_mod]
  exact Nat.mod_lt _ hpos

include ht

theorem GlobalSlot.toNat_diff_of_le (hslot : slot < constants.slotsPerEpoch)
    (hle : slotNumberOf constants (epoch, slot) ≤ t.slotNumber.toNat) (hborrow : slot ≤ t.slot) :
    (GlobalSlot.diff constants t (epoch, slot)).slotNumber.toNat
      = t.slotNumber.toNat - slotNumberOf constants (epoch, slot) := by
  rw [UInt32.lt_iff_toNat_lt] at hslot
  rw [UInt32.le_iff_toNat_le] at hborrow
  have hlt := GlobalSlot.slot_lt (Nat.zero_lt_of_lt hslot) ht
  have hn := GlobalSlot.slotNumber_eq ht
  have hsize := t.slotNumber.toNat_lt
  simp only [slotNumberOf] at hle ⊢
  have hepoch : epoch.toNat ≤ t.epoch.toNat := by
    refine Nat.lt_succ_iff.1 (Nat.lt_of_mul_lt_mul_right (a := constants.slotsPerEpoch.toNat) ?_)
    rw [Nat.succ_mul]
    omega
  have hmul := Nat.mul_le_mul_right constants.slotsPerEpoch.toNat hepoch
  have hdiff : slotNumberOf constants (t.epoch - epoch - if slot > t.slot then 1 else 0,
      (t.slot - slot) % constants.slotsPerEpoch)
      = t.slotNumber.toNat - (epoch.toNat * constants.slotsPerEpoch.toNat + slot.toNat) := by
    simp only [slotNumberOf, gt_iff_lt, UInt32.lt_iff_toNat_lt, Nat.not_lt.2 hborrow, if_false, UInt32.sub_zero]
    rw [UInt32.toNat_sub_of_le _ _ (UInt32.le_iff_toNat_le.2 hepoch), UInt32.toNat_mod,
      UInt32.toNat_sub_of_le _ _ (UInt32.le_iff_toNat_le.2 hborrow), Nat.mod_eq_of_lt (by omega), Nat.sub_mul]
    omega
  unfold GlobalSlot.diff
  dsimp only
  rw [GlobalSlot.toNat_ofEpochAndSlot (by omega), hdiff]

/-- With a borrow the slot difference wraps at `2 ^ 32` before it is reduced. -/
theorem GlobalSlot.toNat_diff_of_lt (hslot : slot < constants.slotsPerEpoch)
    (hle : slotNumberOf constants (epoch, slot) ≤ t.slotNumber.toNat) (hborrow : t.slot < slot) :
    (GlobalSlot.diff constants t (epoch, slot)).slotNumber.toNat
        + (constants.slotsPerEpoch.toNat - (slot.toNat - t.slot.toNat))
      = t.slotNumber.toNat - slotNumberOf constants (epoch, slot)
        + (2 ^ 32 - (slot.toNat - t.slot.toNat)) % constants.slotsPerEpoch.toNat := by
  have hborrow' := UInt32.lt_iff_toNat_lt.1 hborrow
  rw [UInt32.lt_iff_toNat_lt] at hslot
  have hn := GlobalSlot.slotNumber_eq ht
  have hsize := t.slotNumber.toNat_lt
  simp only [slotNumberOf] at hle ⊢
  have hmod := Nat.mod_lt (2 ^ 32 - (slot.toNat - t.slot.toNat)) (Nat.zero_lt_of_lt hslot)
  have hepoch : epoch.toNat + 1 ≤ t.epoch.toNat := by
    refine Nat.lt_of_mul_lt_mul_right (a := constants.slotsPerEpoch.toNat) ?_
    omega
  have hmul := Nat.mul_le_mul_right constants.slotsPerEpoch.toNat hepoch
  rw [Nat.add_mul, Nat.one_mul] at hmul
  have hwrap : (t.slot - slot).toNat = 2 ^ 32 - (slot.toNat - t.slot.toNat) := by
    rw [UInt32.toNat_sub]
    have := slot.toNat_lt
    omega
  have hone : (t.epoch - epoch - 1).toNat = t.epoch.toNat - epoch.toNat - 1 := by
    have hsub := UInt32.toNat_sub_of_le t.epoch epoch (UInt32.le_iff_toNat_le.2 (by omega))
    rw [UInt32.toNat_sub_of_le _ _ (UInt32.le_iff_toNat_le.2 (by rw [hsub, UInt32.toNat_one]; omega)), hsub,
      UInt32.toNat_one]
  have hdiff : slotNumberOf constants (t.epoch - epoch - if slot > t.slot then 1 else 0,
      (t.slot - slot) % constants.slotsPerEpoch)
        + (constants.slotsPerEpoch.toNat - (slot.toNat - t.slot.toNat))
      = t.slotNumber.toNat - (epoch.toNat * constants.slotsPerEpoch.toNat + slot.toNat)
        + (2 ^ 32 - (slot.toNat - t.slot.toNat)) % constants.slotsPerEpoch.toNat := by
    simp only [slotNumberOf, gt_iff_lt, hborrow, if_true]
    rw [hone, UInt32.toNat_mod, hwrap, Nat.sub_mul, Nat.sub_mul, Nat.one_mul]
    omega
  unfold GlobalSlot.diff
  dsimp only
  rw [GlobalSlot.toNat_ofEpochAndSlot (by omega), hdiff]

omit ht

theorem dvd_iff_sub_mod {n m d : Nat} (hd : 0 < d) (hlt : d < m) (hle : d ≤ n) : (n - d) % m = m - d ↔ m ∣ n := by
  constructor
  · intro h
    refine ⟨(n - d) / m + 1, ?_⟩
    have := Nat.div_add_mod (n - d) m
    rw [Nat.mul_add, Nat.mul_one]
    omega
  · rintro ⟨k, rfl⟩
    obtain ⟨k, rfl⟩ : ∃ k', k = k' + 1 := ⟨k - 1, by cases k <;> omega⟩
    rw [Nat.mul_add, Nat.mul_one, Nat.add_sub_assoc hlt.le, Nat.mul_add_mod, Nat.mod_eq_of_lt (by omega)]

include ht in
/-- A difference of slots is right if and only if there is no borrow, or the length of an epoch is
a power of two. -/
theorem GlobalSlot.toNat_diff_iff {p : UInt32 × UInt32} (hslot : p.2 < constants.slotsPerEpoch)
    (hle : slotNumberOf constants p ≤ t.slotNumber.toNat) :
    (GlobalSlot.diff constants t p).slotNumber.toNat = t.slotNumber.toNat - slotNumberOf constants p
      ↔ p.2 ≤ t.slot ∨ constants.slotsPerEpoch.toNat ∣ 2 ^ 32 := by
  obtain ⟨epoch, slot⟩ := p
  dsimp only at hslot ⊢
  by_cases hborrow : slot ≤ t.slot
  · simp [GlobalSlot.toNat_diff_of_le ht hslot hle hborrow, hborrow]
  · have hlt := UInt32.not_le.1 hborrow
    have hnum := GlobalSlot.toNat_diff_of_lt ht hslot hle hlt
    have hlt' := UInt32.lt_iff_toNat_lt.1 hlt
    have hslot' := UInt32.lt_iff_toNat_lt.1 hslot
    have hp := slot.toNat_lt
    rw [← dvd_iff_sub_mod (n := 2 ^ 32) (d := slot.toNat - t.slot.toNat) (by omega) (by omega) (by omega)]
    simp only [hborrow, false_or]
    omega

theorem slotNumberOf_div_mod (n : UInt32) :
    slotNumberOf constants (n / constants.slotsPerEpoch, n % constants.slotsPerEpoch) = n.toNat := by
  unfold slotNumberOf
  rw [UInt32.toNat_div, UInt32.toNat_mod, Nat.div_add_mod']

theorem getOld_eq (t : GlobalSlot) : getOld constants t = if t.slotNumber < (gcParameters constants).gcWidth then
        ⟨0, constants.slotsPerEpoch⟩
      else
        GlobalSlot.diff constants t ((gcParameters constants).gcWidth / constants.slotsPerEpoch,
          (gcParameters constants).gcWidth % constants.slotsPerEpoch) := by
  have hnum : slotNumberOf constants ((gcParameters constants).gcWidth / constants.slotsPerEpoch,
      (gcParameters constants).gcWidth % constants.slotsPerEpoch) = _ := slotNumberOf_div_mod _
  have hgs : (GlobalSlot.ofEpochAndSlot constants ((gcParameters constants).gcWidthEpoch,
      (gcParameters constants).gcWidthSlot)).slotNumber = (gcParameters constants).gcWidth := by
    rw [← UInt32.toNat_inj, ← hnum]
    exact GlobalSlot.toNat_ofEpochAndSlot (hnum ▸ UInt32.toNat_lt _)
  unfold getOld GlobalSlot.lt
  simp only [decide_eq_true_eq, hgs]
  rfl

/-- **Subtraction of slots.** The difference with an earlier slot, and so the slot that is
`gcWidth` slots ago, are right if and only if there is no borrow, or the length of an epoch is
a power of two. -/
theorem slot_subtraction_iff (constants : ConstantsValue) (hpos : 0 < constants.slotsPerEpoch)
    (t : GlobalSlot) (ht : t.slotsPerEpoch = constants.slotsPerEpoch) :
    (∀ p, p.2 < constants.slotsPerEpoch → slotNumberOf constants p ≤ t.slotNumber.toNat →
      ((GlobalSlot.diff constants t p).slotNumber.toNat = t.slotNumber.toNat - slotNumberOf constants p
        ↔ p.2 ≤ t.slot ∨ constants.slotsPerEpoch.toNat ∣ 2 ^ 32))
      ∧ ((getOld constants t).slotNumber.toNat = t.slotNumber.toNat - (gcParameters constants).gcWidth.toNat
        ↔ t.slotNumber < (gcParameters constants).gcWidth
          ∨ (gcParameters constants).gcWidth % constants.slotsPerEpoch ≤ t.slot
          ∨ constants.slotsPerEpoch.toNat ∣ 2 ^ 32) := by
  refine ⟨fun p hslot hle => GlobalSlot.toNat_diff_iff ht hslot hle, ?_⟩
  rw [getOld_eq]
  obtain ⟨w, hw⟩ : ∃ w, w = (gcParameters constants).gcWidth := ⟨_, rfl⟩
  rw [← hw]
  by_cases hlt : t.slotNumber < w
  · have := UInt32.lt_iff_toNat_lt.1 hlt
    simp only [hlt, if_true, true_or, iff_true, UInt32.toNat_zero]
    omega
  · have hnum : slotNumberOf constants (w / constants.slotsPerEpoch, w % constants.slotsPerEpoch) = _ := slotNumberOf_div_mod w
    have hle := UInt32.le_iff_toNat_le.1 (UInt32.not_lt.1 hlt)
    have hdiff := GlobalSlot.toNat_diff_iff ht (UInt32.mod_lt w hpos) (hnum.trans_le hle)
    rw [hnum] at hdiff
    rw [if_neg hlt, hdiff]
    simp [hlt]

/-- Both ways: a slot less without a borrow, and with one where an epoch has eight slots. -/
theorem slot_subtraction_in_epoch : (GlobalSlot.diff threeMinuteSlots ⟨7145, 7140⟩ (1, 2)).slotNumber.toNat = 3
      ∧ (GlobalSlot.diff (sampleConstants 8 1 8 0) ⟨19, 8⟩ (1, 7)).slotNumber.toNat = 4 :=
  ⟨((slot_subtraction_iff threeMinuteSlots (by decide) ⟨7145, 7140⟩ rfl).1 (1, 2) (by decide)
      (by decide)).2 (.inl (by decide)),
    ((slot_subtraction_iff (sampleConstants 8 1 8 0) (by decide) ⟨19, 8⟩ rfl).1 (1, 7) (by decide)
      (by decide)).2 (.inr (by decide))⟩

/-- The first slot of the second epoch is one after the last slot of the first, but
the difference is 257 slots: `2 ^ 32 - 7139` is 257 modulo 7140. So the slot that is `gcWidth`
slots ago is wrong as well. -/
theorem slot_subtraction_borrows : slotNumberOf threeMinuteSlots (0, 7139) = 7139
      ∧ (GlobalSlot.diff threeMinuteSlots ⟨7140, 7140⟩ (0, 7139)).slotNumber = 257
      ∧ ∃ constants : ConstantsValue, 0 < constants.slotsPerEpoch
        ∧ ∃ t : GlobalSlot, t.slotsPerEpoch = constants.slotsPerEpoch
          ∧ (getOld constants t).slotNumber.toNat
            ≠ t.slotNumber.toNat - (gcParameters constants).gcWidth.toNat :=
  ⟨by decide, by decide, { threeMinuteSlots with deltaDuration := 1 }, by decide, ⟨7141, 7140⟩, rfl,
    by decide⟩

end Subtraction

/-! ### The reception window -/

/-- What a block of the slot `g` that is received at a time should get: it is too early
before the start of its slot, and too late `delta + 1` slots after that. -/
def receptionWindow (g : GlobalSlot) (time : Int) : Except ReceivedError Unit :=
  let start : Int := constants.genesisStateTimestamp.toNat
    + g.slotNumber.toNat * constants.slotDurationMs.toNat
  if time < start then .error .tooEarly
  else if time < start + (constants.delta.toNat + 1) * constants.slotDurationMs.toNat then .ok ()
  else
    .error (.tooLate (Int64.ofInt ((time - constants.genesisStateTimestamp.toNat)
      / constants.slotDurationMs.toNat - (g.slotNumber.toNat + constants.delta.toNat))))

/-- The window in slots: `d` is how many slots the received slot is after that of the block. -/
def slotWindow (width delta : Nat) (d : Int) : Except ReceivedError Unit :=
  if d < 0 then .error .tooEarly
  else if d ≥ width then .error (.tooLate (Int64.ofInt (d - delta)))
  else .ok ()

section Reception

variable {constants : ConstantsValue} {g : GlobalSlot} {timeReceived : Int64} {s : ConsensusState}

theorem receivedWithinWindow_eq {p received : UInt32 × UInt32} {time : Int64}
    (hreceived : Epoch.epochAndSlotOfTimeExn constants time.toUInt64 = some received)
    (hp : slotNumberOf constants p < 2 ^ 63) (hp' : slotNumberOf constants received < 2 ^ 63) :
    receivedWithinWindow constants p time = some (slotWindow (constants.delta + 1).toNat
      constants.delta.toNat (slotNumberOf constants received - slotNumberOf constants p)) := by
  have hint := Epoch.toInt_diffInSlots hp' hp
  unfold receivedWithinWindow slotWindow
  rw [hreceived]
  simp only [Option.bind_eq_bind, Option.bind_some, Int64.lt_iff_toInt_lt, ge_iff_le,
    Int64.le_iff_toInt_le, hint, int64OfUInt32_toInt, Int64.toInt_zero]
  rw [Epoch.diffInSlots_eq, int64OfUInt32_eq constants.delta, ← Int64.ofInt_sub]

theorem receptionWindow_eq (h : ExactDurations constants) {t : UInt64} (hle : constants.genesisStateTimestamp ≤ t) :
    receptionWindow constants g t.toNat = slotWindow (constants.delta.toNat + 1) constants.delta.toNat
      ((slotOfTime constants t : Int) - g.slotNumber.toNat) := by
  have hle' := UInt64.le_iff_toNat_le.1 hle
  have hbefore : ∀ n : Nat, t.toNat < constants.genesisStateTimestamp.toNat + n * constants.slotDurationMs.toNat
      ↔ slotOfTime constants t < n := by
    intro n
    unfold slotOfTime
    rw [Nat.div_lt_iff_lt_mul h.slotDurationMs_pos]
    omega
  have hstart := hbefore g.slotNumber.toNat
  have hend := hbefore (g.slotNumber.toNat + (constants.delta.toNat + 1))
  rw [Nat.add_mul] at hend
  have hslot : ((t.toNat : Int) - constants.genesisStateTimestamp.toNat) / constants.slotDurationMs.toNat
      = slotOfTime constants t := by
    rw [← Int.natCast_sub hle', ← Int.natCast_ediv]
    rfl
  unfold receptionWindow slotWindow
  rw [hslot]
  have hstart' : (t.toNat : Int) < constants.genesisStateTimestamp.toNat
      + g.slotNumber.toNat * constants.slotDurationMs.toNat
      ↔ (slotOfTime constants t : Int) - g.slotNumber.toNat < 0 := by
    rw [← Int.natCast_mul]
    omega
  have hend' : (t.toNat : Int) < constants.genesisStateTimestamp.toNat
      + g.slotNumber.toNat * constants.slotDurationMs.toNat
      + (constants.delta.toNat + 1) * constants.slotDurationMs.toNat
      ↔ ¬ (slotOfTime constants t : Int) - g.slotNumber.toNat ≥ (constants.delta.toNat + 1 : Nat) := by
    rw [← Int.natCast_mul, show ((constants.delta.toNat : Int) + 1) * constants.slotDurationMs.toNat
      = (((constants.delta.toNat + 1) * constants.slotDurationMs.toNat : Nat) : Int) by push_cast; rfl]
    omega
  simp only [hstart', hend', Int.sub_sub]
  by_cases hearly : (slotOfTime constants t : Int) - g.slotNumber.toNat < 0
  · rw [if_pos hearly, if_pos hearly]
  · rw [if_neg hearly, if_neg hearly, ite_not]

/-- The window that the code computes from the received slot `m` is that of the slot `n'` the
time is in, if these are the same and the width of the window does not wrap where it matters. -/
theorem slotWindow_eq_iff {m n' n delta : Nat} (hm : m = n' ∨ m + 2 ^ 32 ≤ n') (hn' : n' < 2 ^ 63)
    (hn : n < 2 ^ 32) (hdelta : delta < 2 ^ 32) :
    slotWindow ((delta + 1) % 2 ^ 32) delta ((m : Int) - n) = slotWindow (delta + 1) delta ((n' : Int) - n)
      ↔ m = n' ∧ (delta + 1 < 2 ^ 32 ∨ slotWindow (delta + 1) delta ((n' : Int) - n) ≠ .ok ()) := by
  have hlate : ∀ a b : Int, -2 ^ 63 ≤ a → a < 2 ^ 63 → -2 ^ 63 ≤ b → b < 2 ^ 63 →
      (Int64.ofInt a = Int64.ofInt b ↔ a = b) := by
    intro a b ha ha' hb hb'
    rw [← Int64.toInt_inj, Int64.toInt_ofInt_of_le ha ha', Int64.toInt_ofInt_of_le hb hb']
  have hinj := hlate ((m : Int) - n - delta) ((n' : Int) - n - delta) (by omega) (by omega)
    (by omega) (by omega)
  obtain ⟨hwidth, hfits⟩ | ⟨hwidth, hwrap⟩ : (delta + 1) % 2 ^ 32 = delta + 1 ∧ delta + 1 < 2 ^ 32
      ∨ (delta + 1) % 2 ^ 32 = 0 ∧ delta + 1 = 2 ^ 32 := by omega
  all_goals
    rw [hwidth]
    unfold slotWindow
    split_ifs <;>
      simp only [reduceCtorEq, Except.error.injEq, ReceivedError.tooLate.injEq, hinj, ne_eq,
        not_true_eq_false, not_false_eq_true, or_true, or_false, and_true, true_iff, false_iff] <;>
      omega

/-- A time that is not negative gets what the window says if and only if it is not before the
genesis, its epoch has 32 bits, and the width `delta + 1` of the window does not wrap where it
matters. -/
theorem receivedAtValidTime_eq_iff (h : ExactDurations constants)
    (hs : s.currGlobalSlot.slotsPerEpoch = constants.slotsPerEpoch) (hnonneg : 0 ≤ timeReceived) :
    receivedAtValidTime constants s timeReceived
        = some (receptionWindow constants s.currGlobalSlot timeReceived.toInt)
      ↔ constants.genesisStateTimestamp ≤ timeReceived.toUInt64
        ∧ slotOfTime constants timeReceived.toUInt64 / constants.slotsPerEpoch.toNat < 2 ^ 32
        ∧ (constants.delta.toNat + 1 < 2 ^ 32
          ∨ receptionWindow constants s.currGlobalSlot timeReceived.toInt ≠ .ok ()) := by
  have hint : timeReceived.toInt = timeReceived.toUInt64.toNat := by
    rw [Int64.le_iff_toInt_le, Int64.toInt_zero] at hnonneg
    have hbits := BitVec.toInt_eq_toNat_cond timeReceived.toBitVec
    change timeReceived.toInt = if 2 * timeReceived.toUInt64.toNat < 2 ^ 64 then
      (timeReceived.toUInt64.toNat : Int) else (timeReceived.toUInt64.toNat : Int) - (2 ^ 64 : Nat) at hbits
    have hlt := timeReceived.toUInt64.toNat_lt
    split at hbits <;> omega
  have hsmall := Int64.toInt_lt timeReceived
  rw [hint] at hsmall ⊢
  by_cases hle : constants.genesisStateTimestamp ≤ timeReceived.toUInt64
  · have hsince : SinceGenesis constants timeReceived.toUInt64 := ⟨hle, by omega⟩
    have hpos := h.slotsPerEpoch_pos
    have hS := constants.slotsPerEpoch.toNat_lt
    have hN : slotOfTime constants timeReceived.toUInt64 < 2 ^ 63 :=
      (Nat.div_le_self _ _).trans_lt hsince.2
    have hnum := slotNumberOf_toEpochAndSlot hs
    have hlt := s.currGlobalSlot.slotNumber.toNat_lt
    have hreceived := Epoch.epochAndSlotOfTimeExn_eq h hsince
    have hwindow := receptionWindow_eq (g := s.currGlobalSlot) h hle
    generalize slotOfTime constants timeReceived.toUInt64 = n at *
    have hmod : n % constants.slotsPerEpoch.toNat < 2 ^ 32 := (Nat.mod_lt _ hpos).trans hS
    have hm : slotNumberOf constants (UInt32.ofNat (n / constants.slotsPerEpoch.toNat),
        UInt32.ofNat (n % constants.slotsPerEpoch.toNat))
        = n / constants.slotsPerEpoch.toNat % 2 ^ 32 * constants.slotsPerEpoch.toNat
          + n % constants.slotsPerEpoch.toNat := by
      unfold slotNumberOf
      rw [UInt32.toNat_ofNat', UInt32.toNat_ofNat', Nat.mod_eq_of_lt hmod]
    have hdiv := Nat.div_add_mod' n constants.slotsPerEpoch.toNat
    have hcases : (n / constants.slotsPerEpoch.toNat < 2 ^ 32
          ∧ slotNumberOf constants (UInt32.ofNat (n / constants.slotsPerEpoch.toNat),
            UInt32.ofNat (n % constants.slotsPerEpoch.toNat)) = n)
        ∨ ¬ n / constants.slotsPerEpoch.toNat < 2 ^ 32
          ∧ slotNumberOf constants (UInt32.ofNat (n / constants.slotsPerEpoch.toNat),
            UInt32.ofNat (n % constants.slotsPerEpoch.toNat)) + 2 ^ 32 ≤ n := by
      rw [hm]
      by_cases hfits : n / constants.slotsPerEpoch.toNat < 2 ^ 32
      · rw [Nat.mod_eq_of_lt hfits]
        exact .inl ⟨hfits, hdiv⟩
      · refine .inr ⟨hfits, ?_⟩
        have hle : (n / constants.slotsPerEpoch.toNat % 2 ^ 32 + 2 ^ 32) * constants.slotsPerEpoch.toNat
            ≤ n / constants.slotsPerEpoch.toNat * constants.slotsPerEpoch.toNat :=
          Nat.mul_le_mul_right _ (by omega)
        rw [Nat.add_mul] at hle
        omega
    unfold receivedAtValidTime
    rw [receivedWithinWindow_eq hreceived (by omega) (by omega), hnum, hwindow, Option.some.injEq,
      UInt32.toNat_add, UInt32.toNat_one, slotWindow_eq_iff (by omega) hN hlt constants.delta.toNat_lt]
    constructor
    · rintro ⟨hm, hwidth⟩
      exact ⟨hle, by omega, hwidth⟩
    · rintro ⟨-, hfits, hwidth⟩
      exact ⟨by omega, hwidth⟩
  · have hraise : receivedAtValidTime constants s timeReceived = none := by
      unfold receivedAtValidTime receivedWithinWindow Epoch.epochAndSlotOfTimeExn Epoch.ofTimeExn
      rw [if_pos (UInt64.not_le.1 hle)]
      rfl
    simp [hraise, hle]

/-- A time before the epoch of the clock is too early, which the code finds if the unsigned
number it takes for the time is in an earlier slot. -/
theorem receivedAtValidTime_of_neg (hneg : timeReceived < 0) : receivedAtValidTime constants s timeReceived
        = some (receptionWindow constants s.currGlobalSlot timeReceived.toInt)
      ↔ ∃ received, Epoch.epochAndSlotOfTimeExn constants timeReceived.toUInt64 = some received
        ∧ Epoch.diffInSlots constants received s.currGlobalSlot.toEpochAndSlot < 0 := by
  have hwindow : receptionWindow constants s.currGlobalSlot timeReceived.toInt = .error .tooEarly := by
    rw [Int64.lt_iff_toInt_lt, Int64.toInt_zero] at hneg
    have := Int.mul_nonneg (Int.natCast_nonneg s.currGlobalSlot.slotNumber.toNat)
      (Int.natCast_nonneg constants.slotDurationMs.toNat)
    exact if_pos (by omega)
  rw [hwindow]
  unfold receivedAtValidTime receivedWithinWindow
  cases Epoch.epochAndSlotOfTimeExn constants timeReceived.toUInt64 with
  | none => simp
  | some received =>
    simp only [Option.bind_eq_bind, Option.bind_some, Option.some.injEq, exists_eq_left']
    split_ifs with hearly hlate <;> simp [hearly]

end Reception

/-- A state of a slot of `threeMinuteSlots`. -/
def stateInSlot (slotNumber : UInt32) : ConsensusState where
  blockchainLength := 1
  epochCount := 0
  minWindowDensity := 77
  subWindowDensities := List.replicate 11 7
  lastVrfOutput := 0
  totalCurrency := 0
  currGlobalSlot := ⟨slotNumber, 7140⟩
  globalSlotSinceGenesis := slotNumber
  stakingEpochData := EpochData.genesis (⟨0, 0⟩, 0)
  nextEpochData := EpochData.genesis (⟨0, 0⟩, 0)
  hasAncestorInSameCheckpointWindow := false
  blockStakeWinner := ⟨0, false⟩
  blockCreator := ⟨0, false⟩
  coinbaseReceiver := ⟨0, false⟩
  superchargeCoinbase := true

end MinaProtocol.Consensus
