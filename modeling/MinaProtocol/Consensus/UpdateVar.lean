import MinaProtocol.Base.CheckedNumber
import MinaProtocol.Consensus.Density
import MinaProtocol.Consensus.EpochHistory

/-!
# Consensus.UpdateVar

The circuit of the consensus state, `Consensus_state.update_var`, and the states that it
returns for the transition of `Consensus_state.update`. The check of the VRF and the
lookup of the winner's account are given, and so is what they return.

`div_mod` asserts that quotient, divisor and remainder give the number, and not that the
remainder is less than the divisor. So a prover chooses the epochs, the sub-windows and
the checkpoint window from those up to the real ones, and the state that the circuit
returns is that of `update` only where there is no choice (`update_var_agrees_iff`).
-/

namespace MinaProtocol.Consensus

open CheckedNumber

variable {F : Type} [Field F] [DecidableEq F]

/-- `Constants.var`. -/
structure ConstantsVar (F : Type) where
  slotsPerSubWindow : F
  subWindowsPerWindow : F
  slotsPerEpoch : F
  gracePeriodEnd : F
  checkpointWindowSizeInSlots : F

/-- `Epoch_data.var`. -/
@[ext] structure EpochDataVar (F : Type) where
  ledgerHash : Nat
  ledgerTotalCurrency : F
  seed : Nat
  startCheckpoint : Nat
  lockCheckpoint : Nat
  epochLength : F

/-- `Consensus_state.var`. -/
@[ext] structure StateVar (F : Type) where
  blockchainLength : F
  epochCount : F
  minWindowDensity : F
  subWindowDensities : List F
  lastVrfOutput : Nat
  totalCurrency : F
  slotNumber : F
  slotsPerEpoch : F
  globalSlotSinceGenesis : F
  stakingEpochData : EpochDataVar F
  nextEpochData : EpochDataVar F
  hasAncestorInSameCheckpointWindow : Bool
  blockStakeWinner : PublicKey
  blockCreator : PublicKey
  coinbaseReceiver : PublicKey
  superchargeCoinbase : Bool

/-- What the circuit is given of a block, with the results of the VRF check. -/
structure BlockVar (F : Type) where
  consensusTransition : F
  previousProtocolStateHash : Nat
  supplyIncrease : F
  previousBlockchainStateLedgerHash : Nat
  genesisLedgerHash : Nat
  vrfResult : Nat
  blockStakeWinner : PublicKey
  blockCreator : PublicKey
  coinbaseReceiver : PublicKey
  superchargeCoinbase : Bool

/-! ### The circuit -/

variable (constants : ConstantsVar F)

/-- `Consensus_state.same_checkpoint_window`. -/
def sameCheckpointWindowVar (prev next : F) : Circuit Bool := do
  let qr ← divMod prev constants.checkpointWindowSizeInSlots
  let nextWindowStart := prev - qr.2 + constants.checkpointWindowSizeInSlots
  lt next nextWindowStart

/-- `Slot.Checked.in_seed_update_range`. -/
def inSeedUpdateRangeVar (slot : F) : Circuit Bool := do
  let qr ← divMod constants.slotsPerEpoch ((3 : Nat) : F)
  Circuit.assert (qr.2 = 0)
  let ckTimes2 ← mul qr.1 ((2 : Nat) : F)
  lt slot ckTimes2

/-- `within_range` of the checked `update_min_window_density`. -/
def withinRangeVar (prevRelative nextRelative i : F) : Circuit Bool := do
  let gtPrevSubWindow ← gt i prevRelative
  let ltNextSubWindow ← lt i nextRelative
  let ordered ← lt prevRelative nextRelative
  pure (if ordered then gtPrevSubWindow && ltNextSubWindow else gtPrevSubWindow || ltNextSubWindow)

/-- A density of the current window. -/
def currentDensityVar (sameSubWindow overlappingWindow : Bool) (prevRelative nextRelative : F)
    (i : Nat) (density : F) : Circuit F := do
  let withinRange ← withinRangeVar prevRelative nextRelative (i : F)
  pure (if sameSubWindow then density else if overlappingWindow && !withinRange then density else 0)

/-- The densities of `update_min_window_density` for sub-windows. Both branches of a choice
are part of the circuit. -/
def densitiesVar (nextGlobalSlot : F) (sameSubWindow overlappingWindow : Bool)
    (prevRelative nextRelative : F) (prevSubWindowDensities : List F) (prevMinWindowDensity : F) :
    Circuit (F × List F) := do
  let current ← Circuit.mapi
    (currentDensityVar sameSubWindow overlappingWindow prevRelative nextRelative) 0
    prevSubWindowDensities
  let currentWindowDensity ← Circuit.fold add 0 current
  let inGracePeriod ← lt nextGlobalSlot constants.gracePeriodEnd
  let smaller ← min currentWindowDensity prevMinWindowDensity
  let minWindowDensity := if sameSubWindow || inGracePeriod then prevMinWindowDensity else smaller
  let nextSubWindowDensities := current.mapIdx fun i density =>
    if (i : F) = nextRelative then if sameSubWindow then succ density else succ 0 else density
  pure (minWindowDensity, nextSubWindowDensities)

/-- `Min_window_density.Checked.update_min_window_density`. -/
def updateMinWindowDensityVar (prevGlobalSlot nextGlobalSlot : F)
    (prevSubWindowDensities : List F) (prevMinWindowDensity : F) : Circuit (F × List F) := do
  let prevGlobalSubWindow ← divMod prevGlobalSlot constants.slotsPerSubWindow
  let nextGlobalSubWindow ← divMod nextGlobalSlot constants.slotsPerSubWindow
  let prevRelative ← divMod prevGlobalSubWindow.1 constants.subWindowsPerWindow
  let nextRelative ← divMod nextGlobalSubWindow.1 constants.subWindowsPerWindow
  let x ← add prevGlobalSubWindow.1 constants.subWindowsPerWindow
  let overlappingWindow ← gte x nextGlobalSubWindow.1
  densitiesVar constants nextGlobalSlot (prevGlobalSubWindow.1 = nextGlobalSubWindow.1)
    overlappingWindow prevRelative.2 nextRelative.2 prevSubWindowDensities prevMinWindowDensity

/-- `next_epoch_data` of `update_var`. -/
def nextEpochDataVar (hashes : Hashes) (nextData : EpochDataVar F) (block : BlockVar F)
    (epochIncreased inSeedUpdateRange : Bool) (newTotalCurrency : F) : EpochDataVar F :=
  let updateNextEpochLedger : Bool :=
    epochIncreased && !(block.genesisLedgerHash = block.previousBlockchainStateLedgerHash)
  { ledgerHash := if updateNextEpochLedger then block.previousBlockchainStateLedgerHash
      else nextData.ledgerHash
    ledgerTotalCurrency := if updateNextEpochLedger then newTotalCurrency
      else nextData.ledgerTotalCurrency
    seed := if inSeedUpdateRange then hashes.updateSeed nextData.seed block.vrfResult
      else nextData.seed
    startCheckpoint := if epochIncreased then block.previousProtocolStateHash
      else nextData.startCheckpoint
    lockCheckpoint := if inSeedUpdateRange then block.previousProtocolStateHash
      else if epochIncreased then 0 else nextData.lockCheckpoint
    epochLength := succ (if epochIncreased then 0 else nextData.epochLength) }

/-- `Consensus_state.update_var`. -/
def updateVar (hashes : Hashes) (constants : ConstantsVar F) (previous : StateVar F)
    (block : BlockVar F) : Circuit (StateVar F) := do
  let slotDiff ← sub block.consensusTransition previous.slotNumber
  let globalSlotIncreased ← lt previous.slotNumber block.consensusTransition
  Circuit.assert (globalSlotIncreased = true ∨ block.consensusTransition = 0)
  let nextEpochAndSlot ← divMod block.consensusTransition constants.slotsPerEpoch
  let prevEpochAndSlot ← divMod previous.slotNumber previous.slotsPerEpoch
  let globalSlotSinceGenesis ← add previous.globalSlotSinceGenesis slotDiff
  let epochIncreased ← lt prevEpochAndSlot.1 nextEpochAndSlot.1
  let newTotalCurrency ← addSignedFlagged previous.totalCurrency block.supplyIncrease
  Circuit.assert (newTotalCurrency.2 = false)
  let hasAncestorInSameCheckpointWindow ←
    sameCheckpointWindowVar constants previous.slotNumber block.consensusTransition
  let inSeedUpdateRange ← inSeedUpdateRangeVar constants nextEpochAndSlot.2
  let densities ← updateMinWindowDensityVar constants previous.slotNumber block.consensusTransition
    previous.subWindowDensities previous.minWindowDensity
  pure {
    blockchainLength := succ previous.blockchainLength
    epochCount := succIf previous.epochCount epochIncreased
    minWindowDensity := densities.1
    subWindowDensities := densities.2
    lastVrfOutput := hashes.truncate block.vrfResult
    totalCurrency := newTotalCurrency.1
    slotNumber := block.consensusTransition
    slotsPerEpoch := constants.slotsPerEpoch
    globalSlotSinceGenesis
    stakingEpochData := if epochIncreased then previous.nextEpochData else previous.stakingEpochData
    nextEpochData := nextEpochDataVar hashes previous.nextEpochData block epochIncreased
      inSeedUpdateRange newTotalCurrency.1
    hasAncestorInSameCheckpointWindow
    blockStakeWinner := block.blockStakeWinner
    blockCreator := block.blockCreator
    coinbaseReceiver := block.coinbaseReceiver
    superchargeCoinbase := block.superchargeCoinbase }

/-! ### The variables of values -/

/-- The element of a word. -/
def wordVar (x : UInt32) : F := (x.toNat : F)

/-- The variables of the constants. -/
def Constants.toVar (constants : Constants) : ConstantsVar F where
  slotsPerSubWindow := wordVar constants.slotsPerSubWindow
  subWindowsPerWindow := wordVar constants.subWindowsPerWindow
  slotsPerEpoch := wordVar constants.slotsPerEpoch
  gracePeriodEnd := wordVar constants.gracePeriodEnd
  checkpointWindowSizeInSlots := wordVar constants.checkpointWindowSizeInSlots

/-- The variables of epoch data. -/
def EpochData.toVar (data : EpochData) : EpochDataVar F where
  ledgerHash := data.ledger.hash
  ledgerTotalCurrency := data.ledger.totalCurrency
  seed := data.seed
  startCheckpoint := data.startCheckpoint
  lockCheckpoint := data.lockCheckpoint
  epochLength := wordVar data.epochLength

/-- The variables of a consensus state. -/
def ConsensusState.toVar (s : ConsensusState) : StateVar F where
  blockchainLength := wordVar s.blockchainLength
  epochCount := wordVar s.epochCount
  minWindowDensity := wordVar s.minWindowDensity
  subWindowDensities := s.subWindowDensities.map wordVar
  lastVrfOutput := s.lastVrfOutput
  totalCurrency := s.totalCurrency
  slotNumber := wordVar s.currGlobalSlot.slotNumber
  slotsPerEpoch := wordVar s.currGlobalSlot.slotsPerEpoch
  globalSlotSinceGenesis := wordVar s.globalSlotSinceGenesis
  stakingEpochData := s.stakingEpochData.toVar
  nextEpochData := s.nextEpochData.toVar
  hasAncestorInSameCheckpointWindow := s.hasAncestorInSameCheckpointWindow
  blockStakeWinner := s.blockStakeWinner
  blockCreator := s.blockCreator
  coinbaseReceiver := s.coinbaseReceiver
  superchargeCoinbase := s.superchargeCoinbase

/-- The variables of a block. -/
def Block.toVar (block : Block) : BlockVar F where
  consensusTransition := wordVar block.consensusTransition
  previousProtocolStateHash := block.previousProtocolStateHash
  supplyIncrease := signedValue block.supplyIncrease
  previousBlockchainStateLedgerHash := block.snarkedLedgerHash
  genesisLedgerHash := block.genesisLedgerHash
  vrfResult := block.producerVrfResult
  blockStakeWinner := block.blockStakeWinner
  blockCreator := block.blockCreator
  coinbaseReceiver := block.coinbaseReceiver
  superchargeCoinbase := block.superchargeCoinbase

/-! ### The parts of the circuit -/

section Parts

variable [LargeField F] {constants : Constants} {next prevMin : UInt32} {prev : Nat} {b : Bool}

theorem returns_sameCheckpointWindowVar {prev : UInt32}
    (hsum : (prev.toNat / constants.checkpointWindowSizeInSlots.toNat + 1)
      * constants.checkpointWindowSizeInSlots.toNat < 2 ^ 32) :
    (sameCheckpointWindowVar (F := F) constants.toVar (wordVar prev) (wordVar next)).Returns b
      ↔ ∃ q, q * constants.checkpointWindowSizeInSlots.toNat ≤ prev.toNat
        ∧ b = decide (next.toNat < (q + 1) * constants.checkpointWindowSizeInSlots.toNat) := by
  have hstart : ∀ q r, q * constants.checkpointWindowSizeInSlots.toNat + r = prev.toNat →
      lt (wordVar next : F) (wordVar prev - (r : F) + wordVar constants.checkpointWindowSizeInSlots)
        = pure (decide (next.toNat < (q + 1) * constants.checkpointWindowSizeInSlots.toNat)) := by
    intro q r heq
    have hle : q ≤ prev.toNat / constants.checkpointWindowSizeInSlots.toNat :=
      (Nat.le_div_iff_mul_le constants.checkpointWindowSize_pos).2 (by omega)
    have hmul := Nat.mul_le_mul_right constants.checkpointWindowSizeInSlots.toNat
      (Nat.add_le_add_right hle 1)
    have hcast : (wordVar prev - (r : F) + wordVar constants.checkpointWindowSizeInSlots : F)
        = (((q + 1) * constants.checkpointWindowSizeInSlots.toNat : Nat) : F) := by
      unfold wordVar
      rw [← heq]
      push_cast
      ring
    rw [hcast]
    exact lt_eq next.toNat_lt (by omega)
  unfold sameCheckpointWindowVar
  simp only [Circuit.returns_bind, Prod.exists]
  constructor
  · intro h
    obtain ⟨q, r, hdiv, hlt⟩ := h
    obtain ⟨a, b', heq, rfl, rfl⟩ := (returns_divMod prev.toNat_lt
      constants.checkpointWindowSizeInSlots.toNat_lt constants.checkpointWindowSize_pos).1 hdiv
    refine ⟨a, by omega, ?_⟩
    have hstart' := hstart a b' heq
    dsimp only [Constants.toVar] at hlt
    rw [hstart'] at hlt
    exact hlt
  · intro h
    obtain ⟨q, hle, rfl⟩ := h
    have heq : q * constants.checkpointWindowSizeInSlots.toNat
        + (prev.toNat - q * constants.checkpointWindowSizeInSlots.toNat) = prev.toNat := by omega
    refine ⟨q, _, (returns_divMod prev.toNat_lt constants.checkpointWindowSizeInSlots.toNat_lt
      constants.checkpointWindowSize_pos).2 ⟨q, _, heq, rfl, rfl⟩, ?_⟩
    dsimp only [Constants.toVar]
    rw [hstart q _ heq]
    rfl

theorem returns_inSeedUpdateRangeVar {slot : Nat} (hslot : slot < 2 ^ 32) :
    (inSeedUpdateRangeVar (F := F) constants.toVar (slot : F)).Returns b
      ↔ constants.slotsPerEpoch.toNat % 3 = 0
        ∧ b = decide (slot < constants.slotsPerEpoch.toNat / 3 * 2) := by
  have hepoch := constants.slotsPerEpoch.toNat_lt
  have hthird : constants.slotsPerEpoch.toNat / 3 * 2 < 2 ^ 32 := by omega
  have hlt : lt (slot : F) ((constants.slotsPerEpoch.toNat / 3 * 2 : Nat) : F)
      = pure (decide (slot < constants.slotsPerEpoch.toNat / 3 * 2)) := lt_eq hslot hthird
  have hmul : mul (((constants.slotsPerEpoch.toNat / 3 : Nat) : F)) ((2 : Nat) : F)
      = pure ((constants.slotsPerEpoch.toNat / 3 * 2 : Nat) : F) := mul_eq hthird
  have hdiv : ∀ q r : F, (divMod (wordVar constants.slotsPerEpoch : F) ((3 : Nat) : F)).Returns (q, r)
      ↔ ∃ a b : Nat, a * 3 + b = constants.slotsPerEpoch.toNat ∧ q = a ∧ r = b := by
    intro q r
    exact returns_divMod hepoch (by decide : 3 < 2 ^ 32) (by decide)
  unfold inSeedUpdateRangeVar
  simp only [Circuit.returns_bind, Circuit.returns_assert, Prod.exists]
  constructor
  · intro h
    obtain ⟨q, r, hqr, -, hzero, h⟩ := h
    obtain ⟨a, c, heq, rfl, rfl⟩ := (hdiv q r).1 hqr
    have hc : c = 0 := LargeField.cast_inj (F := F) c 0 (by omega) (by decide)
      (by rw [Nat.cast_zero]; exact hzero)
    have ha : a = constants.slotsPerEpoch.toNat / 3 := by omega
    subst hc ha
    rw [hmul] at h
    obtain ⟨x, rfl, hx⟩ := h
    rw [hlt] at hx
    exact ⟨by omega, hx⟩
  · intro h
    obtain ⟨hmod, rfl⟩ := h
    refine ⟨_, _, (hdiv _ _).2 ⟨constants.slotsPerEpoch.toNat / 3, 0, by omega, rfl, rfl⟩, (),
      Nat.cast_zero, ((constants.slotsPerEpoch.toNat / 3 * 2 : Nat) : F), ?_, ?_⟩
    · rw [hmul]
      exact rfl
    · rw [hlt]
      exact rfl

theorem withinRangeVar_eq {prevRelative nextRelative i : Nat} (hp : prevRelative < 2 ^ 32)
    (hn : nextRelative < 2 ^ 32) (hi : i < 2 ^ 32) : withinRangeVar (prevRelative : F) nextRelative i
      = pure (between prevRelative nextRelative i) := by
  unfold withinRangeVar gt between
  rw [lt_eq hp hi, pure_bind, lt_eq hi hn, pure_bind, lt_eq hp hn, pure_bind]
  simp only [decide_eq_true_eq]

omit [DecidableEq F] [LargeField F] in
theorem fold_add_eq (densities : List Nat) (init : Nat) (h : init + densities.sum < 2 ^ 32) :
    Circuit.fold add (init : F) (densities.map (Nat.cast (R := F)))
      = pure ((init + densities.sum : Nat) : F) := by
  induction densities generalizing init with
  | nil => simp [Circuit.fold]
  | cons x xs ih =>
    rw [List.sum_cons] at h
    rw [List.map_cons, Circuit.fold, add_eq (by omega), pure_bind, ih (init + x) (by omega),
      List.sum_cons, Nat.add_assoc]

/-- Sub-windows that a prover can choose for the slots of two blocks. -/
structure SubWindows (constants : Constants) (prev next : Nat) where
  prevSub : Nat
  nextSub : Nat
  prevRelative : Nat
  nextRelative : Nat
  overlapping : Bool
  prevSub_le : prevSub * constants.slotsPerSubWindow.toNat ≤ prev
  nextSub_le : nextSub * constants.slotsPerSubWindow.toNat ≤ next
  prevRelative_eq : ∃ q, q * constants.subWindowsPerWindow.toNat + prevRelative = prevSub
  nextRelative_eq : ∃ q, q * constants.subWindowsPerWindow.toNat + nextRelative = nextSub
  overlapping_le : overlapping = true → nextSub ≤ prevSub + constants.subWindowsPerWindow.toNat
  le_of_not_overlapping : overlapping = false →
    prevSub + constants.subWindowsPerWindow.toNat ≤ nextSub

namespace SubWindows

variable {prev next : Nat}

/-- The densities of the current window for the sub-windows. -/
def current (w : SubWindows constants prev next) (densities : List Nat) : List Nat :=
  densities.mapIdx fun i density =>
    if w.prevSub = w.nextSub then density
    else if w.overlapping && !between w.prevRelative w.nextRelative i then density
    else 0

/-- The minimum window density for the sub-windows. -/
def minimum (w : SubWindows constants prev next) (densities : List Nat) (prevMin : Nat) : Nat :=
  if w.prevSub = w.nextSub ∨ next < constants.gracePeriodEnd.toNat then prevMin
  else Min.min (w.current densities).sum prevMin

/-- The densities of the next window for the sub-windows. -/
def densities (w : SubWindows constants prev next) (densities : List Nat) : List Nat :=
  (w.current densities).mapIdx fun i density =>
    if i = w.nextRelative then if w.prevSub = w.nextSub then density + 1 else 1 else density

theorem nextRelative_le (w : SubWindows constants prev next) : w.nextRelative ≤ w.nextSub := by
  obtain ⟨q, hq⟩ := w.nextRelative_eq
  omega

theorem prevRelative_le (w : SubWindows constants prev next) : w.prevRelative ≤ w.prevSub := by
  obtain ⟨q, hq⟩ := w.prevRelative_eq
  omega

end SubWindows

theorem sum_mapIdx_le (f : Nat → Nat → Nat) (hf : ∀ i x, f i x ≤ x) (xs : List Nat) : (xs.mapIdx f).sum ≤ xs.sum := by
  induction xs generalizing f with
  | nil => exact le_rfl
  | cons x xs ih =>
    rw [List.mapIdx_cons, List.sum_cons, List.sum_cons]
    exact Nat.add_le_add (hf 0 x) (ih _ fun i y => hf (i + 1) y)

theorem SubWindows.sum_current_le {next : Nat} (w : SubWindows constants prev next)
    (densities : List Nat) : (w.current densities).sum ≤ densities.sum := by
  refine sum_mapIdx_le _ (fun i x => ?_) densities
  split
  · exact le_rfl
  · split
    · exact le_rfl
    · exact Nat.zero_le x

theorem SubWindows.bounds {next : Nat} (w : SubWindows constants prev next) : w.prevSub ≤ prev ∧ w.nextSub ≤ next := by
  have hpos : 0 < constants.slotsPerSubWindow.toNat := subWindowLength_pos constants
  exact ⟨(Nat.le_mul_of_pos_right _ hpos).trans w.prevSub_le, (Nat.le_mul_of_pos_right _ hpos).trans w.nextSub_le⟩

omit [DecidableEq F] [LargeField F] in
theorem mapIdx_map_natCast {f : Nat → F → F} {g : Nat → Nat → Nat} {xs : List Nat}
    (h : ∀ (i x : Nat), xs[i]? = some x → f i (x : F) = (g i x : Nat)) :
    (xs.map Nat.cast).mapIdx f = (xs.mapIdx g).map Nat.cast := by
  refine List.ext_getElem? fun i => ?_
  rw [List.getElem?_mapIdx, List.getElem?_map, List.getElem?_map, List.getElem?_mapIdx]
  cases hx : xs[i]? with
  | none => rfl
  | some x => exact congrArg some (h i x hx)

theorem mapi_currentDensityVar {next : Nat} {densities : List Nat} (w : SubWindows constants prev next)
    (hprev : prev < 2 ^ 32) (hnext : next < 2 ^ 32) (hlength : densities.length < 2 ^ 32) :
    Circuit.mapi (currentDensityVar (F := F) (w.prevSub = w.nextSub) w.overlapping w.prevRelative
        w.nextRelative) 0 (densities.map Nat.cast)
      = pure ((w.current densities).map Nat.cast) := by
  have hp := w.prevRelative_le
  have hn := w.nextRelative_le
  have hb := w.bounds
  rw [Circuit.mapi_eq_pure (g := fun i x => if w.prevSub = w.nextSub then x
    else if w.overlapping && !between w.prevRelative w.nextRelative i then x else 0)]
  · unfold SubWindows.current
    rw [mapIdx_map_natCast]
    intro i x _
    simp only [zero_add]
    split
    · rfl
    · split
      · rfl
      · exact Nat.cast_zero.symm
  · intro j x hj
    have hlt := (List.getElem?_eq_some_iff.1 hj).1
    rw [List.length_map] at hlt
    unfold currentDensityVar
    rw [withinRangeVar_eq (by omega) (by omega) (by omega), pure_bind]
    simp only [decide_eq_true_eq]

theorem densitiesVar_eq {densities : List Nat} (w : SubWindows constants prev next.toNat)
    (hprev : prev < 2 ^ 32) (hlength : densities.length < 2 ^ 32) (hsum : densities.sum < 2 ^ 32) :
    densitiesVar (F := F) constants.toVar (wordVar next) (w.prevSub = w.nextSub) w.overlapping
        w.prevRelative w.nextRelative (densities.map Nat.cast) (wordVar prevMin)
      = pure ((w.minimum densities prevMin.toNat : F), (w.densities densities).map Nat.cast) := by
  have hle := w.sum_current_le densities
  have hn := w.nextRelative_le
  have hb := w.bounds
  have hnext := next.toNat_lt
  have hfold : Circuit.fold add (0 : F) ((w.current densities).map Nat.cast)
      = pure ((w.current densities).sum : F) := by
    have := fold_add_eq (F := F) (w.current densities) 0 (by omega)
    rwa [Nat.cast_zero, zero_add] at this
  have hgrace : lt (wordVar next : F) (Constants.toVar (F := F) constants).gracePeriodEnd
      = pure (decide (next.toNat < constants.gracePeriodEnd.toNat)) :=
    lt_eq hnext constants.gracePeriodEnd.toNat_lt
  have hmin : min ((w.current densities).sum : F) (wordVar prevMin)
      = pure ((Min.min (w.current densities).sum prevMin.toNat : Nat) : F) :=
    min_eq (by omega) prevMin.toNat_lt
  have hdensities : ((w.current densities).map Nat.cast).mapIdx (fun i (density : F) =>
        if (i : F) = w.nextRelative then
          if decide (w.prevSub = w.nextSub) = true then succ density else succ 0
        else density)
      = (w.densities densities).map Nat.cast := by
    unfold SubWindows.densities
    refine mapIdx_map_natCast fun i x hi => ?_
    have hlt := (List.getElem?_eq_some_iff.1 hi).1
    unfold SubWindows.current at hlt
    rw [List.length_mapIdx] at hlt
    have hcast : (i : F) = w.nextRelative ↔ i = w.nextRelative := natCast_inj (by omega) (by omega)
    simp only [hcast, decide_eq_true_eq]
    unfold succ
    split
    · split
      · rw [Nat.cast_add, Nat.cast_one]
      · rw [zero_add, Nat.cast_one]
    · rfl
  unfold densitiesVar
  rw [mapi_currentDensityVar w hprev hnext hlength, pure_bind, hfold, pure_bind, hgrace, pure_bind,
    hmin, pure_bind, hdensities]
  unfold SubWindows.minimum
  simp only [Bool.or_eq_true, decide_eq_true_eq]
  split <;> rfl

theorem returns_updateMinWindowDensityVar {prev : UInt32} {densities : List Nat}
    {out : F × List F} (hlength : densities.length < 2 ^ 32) (hsum : densities.sum < 2 ^ 32)
    (hadd : prev.toNat / constants.slotsPerSubWindow.toNat + constants.subWindowsPerWindow.toNat < 2 ^ 32) :
    (updateMinWindowDensityVar constants.toVar (wordVar prev) (wordVar next) (densities.map Nat.cast)
        (wordVar prevMin)).Returns out
      ↔ ∃ w : SubWindows constants prev.toNat next.toNat,
        out = ((w.minimum densities prevMin.toNat : F), (w.densities densities).map Nat.cast) := by
  have hS : 0 < constants.slotsPerSubWindow.toNat := subWindowLength_pos constants
  have hW : 0 < constants.subWindowsPerWindow.toNat := windowLength_pos constants
  have hprev := prev.toNat_lt
  have hnext := next.toNat_lt
  have hSlt := constants.slotsPerSubWindow.toNat_lt
  have hWlt := constants.subWindowsPerWindow.toNat_lt
  have hcast : ∀ m n : Nat, m < 2 ^ 32 → n < 2 ^ 32 → decide ((m : F) = n) = decide (m = n) := by
    intro m n hm hn
    rw [decide_eq_decide]
    exact natCast_inj (by omega) (by omega)
  have hx : ∀ m : Nat, m * constants.slotsPerSubWindow.toNat ≤ prev.toNat →
      add (m : F) (wordVar constants.subWindowsPerWindow)
        = pure ((m + constants.subWindowsPerWindow.toNat : Nat) : F) := by
    intro m hm
    have hle : m ≤ prev.toNat / constants.slotsPerSubWindow.toNat := (Nat.le_div_iff_mul_le hS).2 hm
    exact add_eq (by omega)
  have hxlt : ∀ m : Nat, m * constants.slotsPerSubWindow.toNat ≤ prev.toNat →
      m + constants.subWindowsPerWindow.toNat < 2 ^ 32 := by
    intro m hm
    have hle : m ≤ prev.toNat / constants.slotsPerSubWindow.toNat := (Nat.le_div_iff_mul_le hS).2 hm
    omega
  unfold updateMinWindowDensityVar
  simp only [Circuit.returns_bind, Prod.exists]
  constructor
  · intro h
    obtain ⟨_, _, hp, _, _, hn, _, _, hpr, _, _, hnr, x, hsum', overlapping, hover, hout⟩ := h
    obtain ⟨p, pr, hp, rfl, rfl⟩ := (returns_divMod hprev hSlt hS).1 hp
    obtain ⟨n, nr, hn, rfl, rfl⟩ := (returns_divMod hnext hSlt hS).1 hn
    have hplt : p ≤ p * constants.slotsPerSubWindow.toNat := Nat.le_mul_of_pos_right p hS
    have hnlt : n ≤ n * constants.slotsPerSubWindow.toNat := Nat.le_mul_of_pos_right n hS
    obtain ⟨q, prevRelative, hq, rfl, rfl⟩ := (returns_divMod (by omega) hWlt hW).1 hpr
    obtain ⟨q', nextRelative, hq', rfl, rfl⟩ := (returns_divMod (by omega) hWlt hW).1 hnr
    dsimp only [Constants.toVar] at hsum'
    rw [hx p (by omega)] at hsum'
    obtain rfl := Circuit.returns_pure.1 hsum'
    obtain ⟨htrue, hfalse⟩ := (returns_gte (hxlt p (by omega)) (by omega)).1 hover
    refine ⟨⟨p, n, prevRelative, nextRelative, overlapping, by omega, by omega, ⟨q, hq⟩, ⟨q', hq'⟩,
      htrue, hfalse⟩, ?_⟩
    rw [hcast p n (by omega) (by omega)] at hout
    rw [densitiesVar_eq ⟨p, n, prevRelative, nextRelative, overlapping, by omega, by omega, ⟨q, hq⟩,
      ⟨q', hq'⟩, htrue, hfalse⟩ hprev hlength hsum] at hout
    exact Circuit.returns_pure.1 hout
  · intro h
    obtain ⟨w, rfl⟩ := h
    obtain ⟨q, hq⟩ := w.prevRelative_eq
    obtain ⟨q', hq'⟩ := w.nextRelative_eq
    have hb := w.bounds
    refine ⟨w.prevSub, _, (returns_divMod hprev hSlt hS).2 ⟨w.prevSub,
        prev.toNat - w.prevSub * constants.slotsPerSubWindow.toNat, ?_, rfl, rfl⟩,
      w.nextSub, _, (returns_divMod hnext hSlt hS).2 ⟨w.nextSub,
        next.toNat - w.nextSub * constants.slotsPerSubWindow.toNat, ?_, rfl, rfl⟩,
      q, w.prevRelative, (returns_divMod (by omega) hWlt hW).2 ⟨q, _, hq, rfl, rfl⟩,
      q', w.nextRelative, (returns_divMod (by omega) hWlt hW).2 ⟨q', _, hq', rfl, rfl⟩,
      ((w.prevSub + constants.subWindowsPerWindow.toNat : Nat) : F), ?_, w.overlapping, ?_, ?_⟩
    · have := w.prevSub_le
      omega
    · have := w.nextSub_le
      omega
    · dsimp only [Constants.toVar]
      rw [hx _ w.prevSub_le]
      exact rfl
    · exact (returns_gte (hxlt _ w.prevSub_le) (by omega)).2 ⟨w.overlapping_le, w.le_of_not_overlapping⟩
    · rw [hcast _ _ (by omega) (by omega), densitiesVar_eq w hprev hlength hsum]
      exact rfl

/-- What a prover can choose for the slots of two blocks. -/
structure Divisions (constants : Constants) (prev next : Nat) extends SubWindows constants prev next where
  nextEpoch : Nat
  nextSlot : Nat
  prevEpoch : Nat
  checkpoint : Nat
  next_eq : nextEpoch * constants.slotsPerEpoch.toNat + nextSlot = next
  prev_le : prevEpoch * constants.slotsPerEpoch.toNat ≤ prev
  checkpoint_le : checkpoint * constants.checkpointWindowSizeInSlots.toNat ≤ prev

/-- The epoch of the chosen quotients increases. -/
def Divisions.epochIncreased {prev next : Nat} (d : Divisions constants prev next) : Bool :=
  d.prevEpoch < d.nextEpoch

/-- The next state for the choices, with the total currency. -/
def Divisions.stateVar {prev next : Nat} (d : Divisions constants prev next) (hashes : Hashes)
    (previous : ConsensusState) (block : Block) (total : Nat) : StateVar F where
  blockchainLength := succ (wordVar previous.blockchainLength)
  epochCount := succIf (wordVar previous.epochCount) d.epochIncreased
  minWindowDensity :=
    (d.minimum (previous.subWindowDensities.map UInt32.toNat) previous.minWindowDensity.toNat : F)
  subWindowDensities :=
    (d.densities (previous.subWindowDensities.map UInt32.toNat)).map Nat.cast
  lastVrfOutput := hashes.truncate block.producerVrfResult
  totalCurrency := total
  slotNumber := wordVar block.consensusTransition
  slotsPerEpoch := wordVar constants.slotsPerEpoch
  globalSlotSinceGenesis := (previous.globalSlotSinceGenesis.toNat + (next - prev) : Nat)
  stakingEpochData := if d.epochIncreased then previous.nextEpochData.toVar
    else previous.stakingEpochData.toVar
  nextEpochData := nextEpochDataVar hashes previous.nextEpochData.toVar block.toVar
    d.epochIncreased (d.nextSlot < constants.slotsPerEpoch.toNat / 3 * 2) total
  hasAncestorInSameCheckpointWindow :=
    next < (d.checkpoint + 1) * constants.checkpointWindowSizeInSlots.toNat
  blockStakeWinner := block.blockStakeWinner
  blockCreator := block.blockCreator
  coinbaseReceiver := block.coinbaseReceiver
  superchargeCoinbase := block.superchargeCoinbase

/-- The values fit their types, and the state was made with the constants. -/
structure WellTyped (constants : Constants) (previous : ConsensusState) (block : Block) : Prop where
  madeFor : MadeFor constants previous
  length_eq : previous.subWindowDensities.length = constants.subWindowsPerWindow.toNat
  totalCurrency_lt : previous.totalCurrency < 2 ^ 64
  supplyIncrease_lt : block.supplyIncrease.magnitude < 2 ^ 64

/-- No sum of the update exceeds 32 bits. -/
structure SumsFit (constants : Constants) (previous : ConsensusState) (block : Block) : Prop where
  blockchainLength : previous.blockchainLength.toNat + 1 < 2 ^ 32
  epochCount : previous.epochCount.toNat + 1 < 2 ^ 32
  epochLength : previous.nextEpochData.epochLength.toNat + 1 < 2 ^ 32
  globalSlot : previous.globalSlotSinceGenesis.toNat
    + (block.consensusTransition.toNat - previous.currGlobalSlot.slotNumber.toNat) < 2 ^ 32
  subWindow : previous.currGlobalSlot.slotNumber.toNat / constants.slotsPerSubWindow.toNat
    + constants.subWindowsPerWindow.toNat < 2 ^ 32
  window : (previous.subWindowDensities.map UInt32.toNat).sum < 2 ^ 32
  density : ∀ density ∈ previous.subWindowDensities, density.toNat + 1 < 2 ^ 32
  checkpoint : (previous.currGlobalSlot.slotNumber.toNat / constants.checkpointWindowSizeInSlots.toNat
    + 1) * constants.checkpointWindowSizeInSlots.toNat < 2 ^ 32

/-- The transition is one that `update` accepts. -/
structure Accepted (constants : Constants) (previous : ConsensusState) (block : Block) (total : Nat) :
    Prop where
  slot_le : previous.currGlobalSlot.slotNumber.toNat ≤ block.consensusTransition.toNat
  increased : previous.currGlobalSlot.slotNumber.toNat < block.consensusTransition.toNat
    ∨ block.consensusTransition = 0
  totalCurrency : Amount.addSigned previous.totalCurrency block.supplyIncrease = some total
  thirds : constants.slotsPerEpoch.toNat % 3 = 0

omit [DecidableEq F] [LargeField F] in
theorem slotsPerEpoch_toVar {previous : ConsensusState} (h : MadeFor constants previous) :
    (previous.toVar (F := F)).slotsPerEpoch = wordVar constants.slotsPerEpoch := by
  unfold MadeFor at h
  rw [← h]
  rfl

omit [DecidableEq F] in
theorem wordVar_eq_zero {x : UInt32} : (wordVar x : F) = 0 ↔ x = 0 := by
  have hcast : ((x.toNat : Nat) : F) = (0 : Nat) ↔ x.toNat = 0 :=
    natCast_inj (by have := x.toNat_lt; omega) (by decide)
  unfold wordVar
  rw [← Nat.cast_zero, hcast, ← UInt32.toNat_inj]
  rfl

/-- **What the circuit returns**: the state for any choices, when the transition is accepted. -/
theorem returns_updateVar {hashes : Hashes} {previous : ConsensusState} {block : Block} {out : StateVar F}
    (ht : WellTyped constants previous block) (hsums : SumsFit constants previous block) :
    (updateVar hashes constants.toVar previous.toVar block.toVar).Returns out
      ↔ ∃ total, Accepted constants previous block total
        ∧ ∃ d : Divisions constants previous.currGlobalSlot.slotNumber.toNat
            block.consensusTransition.toNat,
          out = d.stateVar hashes previous block total := by
  have hE := slotsPerEpoch_pos constants
  have hElt := constants.slotsPerEpoch.toNat_lt
  have hprev := previous.currGlobalSlot.slotNumber.toNat_lt
  have hnext := block.consensusTransition.toNat_lt
  have hlength : (previous.subWindowDensities.map UInt32.toNat).length < 2 ^ 32 := by
    rw [List.length_map, ht.length_eq]
    exact constants.subWindowsPerWindow.toNat_lt
  have hincreased : lt (wordVar previous.currGlobalSlot.slotNumber : F) (wordVar block.consensusTransition)
      = pure (decide (previous.currGlobalSlot.slotNumber.toNat < block.consensusTransition.toNat)) :=
    lt_eq hprev hnext
  have hglobal : add (wordVar previous.globalSlotSinceGenesis)
        ((block.consensusTransition.toNat - previous.currGlobalSlot.slotNumber.toNat : Nat) : F)
      = pure ((previous.globalSlotSinceGenesis.toNat
        + (block.consensusTransition.toNat - previous.currGlobalSlot.slotNumber.toNat) : Nat) : F) :=
    add_eq hsums.globalSlot
  have hdensities : previous.subWindowDensities.map wordVar
      = (previous.subWindowDensities.map UInt32.toNat).map (Nat.cast (R := F)) := by
    rw [List.map_map]
    rfl
  unfold updateVar
  simp only [Circuit.returns_bind, Circuit.returns_assert, Circuit.returns_pure, Prod.exists]
  constructor
  · intro h
    obtain ⟨_, hdiff, inc, hinc, -, hany, _, _, hn, _, _, hp, _, hgs, inc', hinc', _, flag, htotal, -,
      hflag, ancestor, hancestor, range, hrange, m, ds, hds, rfl⟩ := h
    obtain ⟨hle, rfl⟩ := (returns_sub hnext hprev).1 hdiff
    dsimp only [ConsensusState.toVar, Block.toVar] at hinc hany hgs hds
    rw [hincreased] at hinc
    obtain rfl := Circuit.returns_pure.1 hinc
    rw [decide_eq_true_eq, wordVar_eq_zero] at hany
    rw [slotsPerEpoch_toVar ht.madeFor] at hp
    obtain ⟨nextEpoch, nextSlot, hneq, rfl, rfl⟩ := (returns_divMod hnext hElt hE).1 hn
    obtain ⟨prevEpoch, prevSlot, hpeq, rfl, rfl⟩ := (returns_divMod hprev hElt hE).1 hp
    have hnle : nextEpoch ≤ nextEpoch * constants.slotsPerEpoch.toNat := Nat.le_mul_of_pos_right _ hE
    have hple : prevEpoch ≤ prevEpoch * constants.slotsPerEpoch.toNat := Nat.le_mul_of_pos_right _ hE
    rw [hglobal] at hgs
    obtain rfl := Circuit.returns_pure.1 hgs
    rw [lt_eq (by omega) (by omega)] at hinc'
    obtain rfl := Circuit.returns_pure.1 hinc'
    subst hflag
    obtain ⟨total, hadd, rfl⟩ := (returns_addSignedFlagged ht.totalCurrency_lt ht.supplyIncrease_lt).1 htotal
    obtain ⟨q, hq, rfl⟩ := (returns_sameCheckpointWindowVar hsums.checkpoint).1 hancestor
    obtain ⟨hthirds, rfl⟩ := (returns_inSeedUpdateRangeVar (by omega)).1 hrange
    rw [hdensities] at hds
    obtain ⟨w, hw⟩ := (returns_updateMinWindowDensityVar hlength hsums.window hsums.subWindow).1 hds
    obtain ⟨rfl, rfl⟩ := Prod.mk.inj hw
    exact ⟨total, ⟨hle, hany, hadd, hthirds⟩, ⟨w, nextEpoch, nextSlot, prevEpoch, q, hneq, by omega, hq⟩, rfl⟩
  · intro h
    obtain ⟨total, hacc, d, rfl⟩ := h
    have hnle : d.nextEpoch ≤ d.nextEpoch * constants.slotsPerEpoch.toNat :=
      Nat.le_mul_of_pos_right _ hE
    have hple : d.prevEpoch ≤ d.prevEpoch * constants.slotsPerEpoch.toNat :=
      Nat.le_mul_of_pos_right _ hE
    have hneq := d.next_eq
    have hpeq : d.prevEpoch * constants.slotsPerEpoch.toNat
        + (previous.currGlobalSlot.slotNumber.toNat - d.prevEpoch * constants.slotsPerEpoch.toNat)
          = previous.currGlobalSlot.slotNumber.toNat := by
      have := d.prev_le
      omega
    have hprevEpoch : (divMod (previous.toVar (F := F)).slotNumber previous.toVar.slotsPerEpoch).Returns
        ((d.prevEpoch : F), ((previous.currGlobalSlot.slotNumber.toNat
          - d.prevEpoch * constants.slotsPerEpoch.toNat : Nat) : F)) := by
      rw [slotsPerEpoch_toVar ht.madeFor]
      exact (returns_divMod hprev hElt hE).2 ⟨d.prevEpoch, _, hpeq, rfl, rfl⟩
    refine ⟨_, (returns_sub hnext hprev).2 ⟨hacc.slot_le, rfl⟩,
      decide (previous.currGlobalSlot.slotNumber.toNat < block.consensusTransition.toNat), ?_, (), ?_,
      _, _, (returns_divMod hnext hElt hE).2 ⟨d.nextEpoch, d.nextSlot, hneq, rfl, rfl⟩,
      d.prevEpoch, _, hprevEpoch, ((previous.globalSlotSinceGenesis.toNat
        + (block.consensusTransition.toNat - previous.currGlobalSlot.slotNumber.toNat) : Nat) : F), ?_,
      d.epochIncreased, ?_, total, false, ?_, (), rfl,
      _, (returns_sameCheckpointWindowVar hsums.checkpoint).2 ⟨d.checkpoint, d.checkpoint_le, rfl⟩,
      _, (returns_inSeedUpdateRangeVar (by omega)).2 ⟨hacc.thirds, rfl⟩, _, _, ?_, rfl⟩
    · exact (congrArg (Circuit.Returns · _) hincreased).mpr rfl
    · rw [decide_eq_true_eq]
      exact hacc.increased.imp_right wordVar_eq_zero.2
    · exact (congrArg (Circuit.Returns · _) hglobal).mpr rfl
    · rw [lt_eq (by omega) (by omega)]
      exact rfl
    · exact (returns_addSignedFlagged ht.totalCurrency_lt ht.supplyIncrease_lt).2
        ⟨total, hacc.totalCurrency, rfl⟩
    · dsimp only [ConsensusState.toVar, Block.toVar]
      rw [hdensities]
      exact (returns_updateMinWindowDensityVar hlength hsums.window hsums.subWindow).2
        ⟨d.toSubWindows, rfl⟩

end Parts

/-! ### The choices of the code -/

/-- The sub-windows that the code computes. -/
def realSubWindows (constants : Constants) (prev next : Nat) : SubWindows constants prev next where
  prevSub := prev / constants.slotsPerSubWindow.toNat
  nextSub := next / constants.slotsPerSubWindow.toNat
  prevRelative := prev / constants.slotsPerSubWindow.toNat % constants.subWindowsPerWindow.toNat
  nextRelative := next / constants.slotsPerSubWindow.toNat % constants.subWindowsPerWindow.toNat
  overlapping := next / constants.slotsPerSubWindow.toNat
    ≤ prev / constants.slotsPerSubWindow.toNat + constants.subWindowsPerWindow.toNat
  prevSub_le := Nat.div_mul_le_self _ _
  nextSub_le := Nat.div_mul_le_self _ _
  prevRelative_eq := ⟨_, Nat.div_add_mod' _ _⟩
  nextRelative_eq := ⟨_, Nat.div_add_mod' _ _⟩
  overlapping_le := of_decide_eq_true
  le_of_not_overlapping h := (Nat.not_le.1 (of_decide_eq_false h)).le

/-- The divisions that the code computes. -/
def realDivisions (constants : Constants) (prev next : Nat) : Divisions constants prev next where
  toSubWindows := realSubWindows constants prev next
  nextEpoch := next / constants.slotsPerEpoch.toNat
  nextSlot := next % constants.slotsPerEpoch.toNat
  prevEpoch := prev / constants.slotsPerEpoch.toNat
  checkpoint := prev / constants.checkpointWindowSizeInSlots.toNat
  next_eq := Nat.div_add_mod' _ _
  prev_le := Nat.div_mul_le_self _ _
  checkpoint_le := Nat.div_mul_le_self _ _

variable {previous : ConsensusState} {block : Block} {hashes : Hashes}

section Update

variable {constants : Constants} {prev : GlobalSlot} {densities : List UInt32} {s : ConsensusState}
  {next : GlobalSlot} {total : Nat}

theorem currentSubWindowDensities_toNat (hlength : densities.length < 2 ^ 32)
    (hadd : prev.slotNumber.toNat / constants.slotsPerSubWindow.toNat + constants.subWindowsPerWindow.toNat < 2 ^ 32) :
    (currentSubWindowDensities constants (globalSubWindow constants prev)
        (globalSubWindow constants next) densities).map UInt32.toNat
      = (realSubWindows constants prev.slotNumber.toNat next.slotNumber.toNat).current
        (densities.map UInt32.toNat) := by
  have hsame : globalSubWindow constants prev = globalSubWindow constants next
      ↔ prev.slotNumber.toNat / constants.slotsPerSubWindow.toNat
        = next.slotNumber.toNat / constants.slotsPerSubWindow.toNat := by
    rw [← UInt32.toNat_inj, globalSubWindow_toNat, globalSubWindow_toNat]
    rfl
  have hover : globalSubWindow constants next ≤ globalSubWindow constants prev
        + constants.subWindowsPerWindow
      ↔ next.slotNumber.toNat / constants.slotsPerSubWindow.toNat
        ≤ prev.slotNumber.toNat / constants.slotsPerSubWindow.toNat
          + constants.subWindowsPerWindow.toNat := by
    have hmod : (prev.slotNumber.toNat / constants.slotsPerSubWindow.toNat
          + constants.subWindowsPerWindow.toNat) % 2 ^ 32
        = prev.slotNumber.toNat / constants.slotsPerSubWindow.toNat
          + constants.subWindowsPerWindow.toNat := Nat.mod_eq_of_lt hadd
    rw [UInt32.le_iff_toNat_le, UInt32.toNat_add, globalSubWindow_toNat, globalSubWindow_toNat]
    unfold subWindowOf subWindowLength
    rw [hmod]
  unfold currentSubWindowDensities SubWindows.current
  refine List.ext_getElem? fun i => ?_
  rw [List.getElem?_map, List.getElem?_mapIdx, List.getElem?_mapIdx, List.getElem?_map]
  cases hi : densities[i]? with
  | none => rfl
  | some x =>
    have hlt := (List.getElem?_eq_some_iff.1 hi).1
    refine congrArg some ?_
    rw [withinRange_eq (by omega), subWindow_toNat, subWindow_toNat, globalSubWindow_toNat, globalSubWindow_toNat]
    simp only [hsame, hover]
    unfold realSubWindows subWindowOf subWindowLength windowLength
    rw [apply_ite UInt32.toNat, apply_ite UInt32.toNat]
    rfl

/-- The densities of `update`, for numbers. -/
theorem updateMinWindowDensity_toNat (next : GlobalSlot) (prevMin : UInt32)
    (hlength : densities.length < 2 ^ 32) (hsum : (densities.map UInt32.toNat).sum < 2 ^ 32)
    (hdensity : ∀ density ∈ densities, density.toNat + 1 < 2 ^ 32)
    (hadd : prev.slotNumber.toNat / constants.slotsPerSubWindow.toNat + constants.subWindowsPerWindow.toNat < 2 ^ 32) :
    (updateMinWindowDensity true constants prev next densities prevMin).1.toNat
        = (realSubWindows constants prev.slotNumber.toNat next.slotNumber.toNat).minimum
          (densities.map UInt32.toNat) prevMin.toNat
      ∧ (updateMinWindowDensity true constants prev next densities prevMin).2.map UInt32.toNat
        = (realSubWindows constants prev.slotNumber.toNat next.slotNumber.toNat).densities
          (densities.map UInt32.toNat) := by
  have hW : 0 < constants.subWindowsPerWindow.toNat := windowLength_pos constants
  have hWlt := constants.subWindowsPerWindow.toNat_lt
  have hcurrent : (currentSubWindowDensities constants (globalSubWindow constants prev)
      (globalSubWindow constants next) densities).map UInt32.toNat = _ :=
    currentSubWindowDensities_toNat hlength hadd
  have hsame : globalSubWindow constants prev = globalSubWindow constants next
      ↔ (realSubWindows constants prev.slotNumber.toNat next.slotNumber.toNat).prevSub
        = (realSubWindows constants prev.slotNumber.toNat next.slotNumber.toNat).nextSub := by
    rw [← UInt32.toNat_inj, globalSubWindow_toNat, globalSubWindow_toNat]
    rfl
  have hle := (realSubWindows constants prev.slotNumber.toNat next.slotNumber.toNat).sum_current_le
    (densities.map UInt32.toNat)
  unfold updateMinWindowDensity SubWindows.minimum SubWindows.densities
  dsimp only
  refine ⟨?_, ?_⟩
  · rw [apply_ite UInt32.toNat, toNat_min, foldl_add_toNat, hcurrent]
    simp only [hsame, UInt32.lt_iff_toNat_lt]
    have hmod : ((0 : UInt32).toNat + ((realSubWindows constants prev.slotNumber.toNat
          next.slotNumber.toNat).current (densities.map UInt32.toNat)).sum) % 2 ^ 32
        = ((realSubWindows constants prev.slotNumber.toNat next.slotNumber.toNat).current
          (densities.map UInt32.toNat)).sum := by
      rw [UInt32.toNat_zero, Nat.zero_add]
      exact Nat.mod_eq_of_lt (by omega)
    rw [hmod]
  · rw [← hcurrent]
    refine List.ext_getElem? fun i => ?_
    rw [List.getElem?_map, List.getElem?_mapIdx, List.getElem?_mapIdx, List.getElem?_map]
    cases hi : (currentSubWindowDensities constants (globalSubWindow constants prev)
      (globalSubWindow constants next) densities)[i]? with
    | none => rfl
    | some x =>
      refine congrArg some ?_
      have hlt := (List.getElem?_eq_some_iff.1 hi).1
      unfold currentSubWindowDensities at hlt
      rw [List.length_mapIdx] at hlt
      have hindex : UInt32.ofNat i = subWindow constants (globalSubWindow constants next)
          ↔ i = (realSubWindows constants prev.slotNumber.toNat next.slotNumber.toNat).nextRelative := by
        have hi32 : i < 2 ^ 32 := by omega
        rw [← UInt32.toNat_inj, UInt32.toNat_ofNat_of_lt' hi32, subWindow_toNat, globalSubWindow_toNat]
        rfl
      have hsucc : globalSubWindow constants prev = globalSubWindow constants next →
          (x + 1).toNat = x.toNat + 1 := by
        intro hsub
        -- in one sub-window the densities are those of before
        unfold currentSubWindowDensities at hi
        rw [List.getElem?_mapIdx] at hi
        obtain ⟨y, hy, hxy⟩ := Option.map_eq_some_iff.1 hi
        rw [if_pos hsub] at hxy
        subst hxy
        have := hdensity y (List.mem_of_getElem? hy)
        rw [UInt32.toNat_add, UInt32.toNat_one]
        exact Nat.mod_eq_of_lt this
      simp only [hindex, if_true]
      split
      · by_cases hsub : globalSubWindow constants prev = globalSubWindow constants next
        · rw [if_pos hsub, if_pos (hsame.1 hsub), hsucc hsub]
        · rw [if_neg hsub, if_neg (mt hsame.2 hsub)]
          rfl
      · rfl

theorem accepted_of_update (h : update hashes constants previous block = .ok s) :
    Accepted constants previous block s.totalCurrency := by
  have hu := updated_of_update h
  have h3 := (updatePair_eq_some hu.epochData).1
  unfold update at h
  obtain ⟨diff, hdiff, h⟩ := Outcome.bind_eq_ok.1 h
  obtain ⟨total, htotal, h⟩ := Outcome.bind_eq_ok.1 h
  obtain ⟨_, hany, h⟩ := Outcome.bind_eq_ok.1 h
  obtain ⟨⟨staking, next, count⟩, -, h⟩ := Outcome.bind_eq_ok.1 h
  obtain rfl := Outcome.ok.inj h
  have hle := Outcome.okOr_eq_ok.1 hdiff
  have hany' := Outcome.okIfTrue_eq_ok.1 hany
  unfold GlobalSlot.diffSlots at hle
  unfold GlobalSlot.lt at hany'
  rw [Bool.or_eq_true, decide_eq_true_eq, decide_eq_true_eq, UInt32.lt_iff_toNat_lt] at hany'
  refine ⟨?_, hany'.symm, Outcome.okOr_eq_ok.1 htotal, ?_⟩
  · split at hle
    · cases hle
    · rename_i hlt
      rw [UInt32.lt_iff_toNat_lt] at hlt
      exact Nat.not_lt.1 hlt
  · have := h3.toNat.1
    unfold third at this
    omega

theorem Accepted.epochInThirds (h : Accepted constants previous block total) : EpochInThirds constants := by
  have hlt := constants.slotsPerEpoch.toNat_lt
  have h3 : (3 : UInt32).toNat = 3 := rfl
  have hthirds := h.thirds
  unfold EpochInThirds
  rw [← UInt32.toNat_inj, UInt32.toNat_mul, UInt32.toNat_div, h3]
  omega

theorem update_of_accepted (hashes : Hashes) (hm : MadeFor constants previous)
    (h : Accepted constants previous block total) : ∃ s, update hashes constants previous block = .ok s := by
  have hslot := h.slot_le
  have hnot : ¬ block.consensusTransition < previous.currGlobalSlot.slotNumber := by
    rw [UInt32.lt_iff_toNat_lt]
    exact Nat.not_lt.2 hslot
  have hdiff : (GlobalSlot.ofSlotNumber constants block.consensusTransition).diffSlots
      previous.currGlobalSlot = some (block.consensusTransition - previous.currGlobalSlot.slotNumber) :=
    if_neg hnot
  have hany : (block.consensusTransition = 0 || previous.currGlobalSlot.lt
      (GlobalSlot.ofSlotNumber constants block.consensusTransition)) = true := by
    have := h.increased
    unfold GlobalSlot.lt
    rw [Bool.or_eq_true, decide_eq_true_eq, decide_eq_true_eq, UInt32.lt_iff_toNat_lt]
    exact this.symm
  have hepoch : previous.currGlobalSlot.epoch.toNat
      ≤ (GlobalSlot.ofSlotNumber constants block.consensusTransition).epoch.toNat := by
    rw [hm.epoch]
    unfold GlobalSlot.epoch
    rw [UInt32.toNat_div]
    exact Nat.div_le_div_right hslot
  have hpair : ∃ data, updatePair hashes constants previous.stakingEpochData previous.nextEpochData
      previous.epochCount previous.currGlobalSlot.epoch
      (GlobalSlot.ofSlotNumber constants block.consensusTransition).epoch
      (GlobalSlot.ofSlotNumber constants block.consensusTransition).slot block total = some data := by
    unfold updatePair
    rw [inSeedUpdateRange_some h.epochInThirds]
    by_cases hlt : previous.currGlobalSlot.epoch
        < (GlobalSlot.ofSlotNumber constants block.consensusTransition).epoch
    · rw [if_pos hlt]
      exact ⟨_, rfl⟩
    · have heq : (GlobalSlot.ofSlotNumber constants block.consensusTransition).epoch
          = previous.currGlobalSlot.epoch := by
        rw [UInt32.lt_iff_toNat_lt] at hlt
        exact UInt32.toNat_inj.1 (by omega)
      rw [if_neg hlt, if_pos heq]
      exact ⟨_, rfl⟩
  obtain ⟨data, hdata⟩ := hpair
  unfold update
  dsimp only
  rw [hdiff, h.totalCurrency, hany]
  simp only [Outcome.okOr, Outcome.ok_bind, Outcome.okIfTrue_true, hdata, Outcome.ofOption_some]
  exact ⟨_, rfl⟩

theorem fields_of_update (h : update hashes constants previous block = .ok s) :
    s.lastVrfOutput = hashes.truncate block.producerVrfResult
      ∧ s.globalSlotSinceGenesis = previous.globalSlotSinceGenesis
        + (block.consensusTransition - previous.currGlobalSlot.slotNumber)
      ∧ s.hasAncestorInSameCheckpointWindow = decide (
        checkpointWindow constants (GlobalSlot.create constants previous.currGlobalSlot.epoch
            previous.currGlobalSlot.slot)
          = checkpointWindow constants (GlobalSlot.create constants s.currGlobalSlot.epoch s.currGlobalSlot.slot))
      ∧ s.blockStakeWinner = block.blockStakeWinner ∧ s.blockCreator = block.blockCreator
      ∧ s.coinbaseReceiver = block.coinbaseReceiver
      ∧ s.superchargeCoinbase = block.superchargeCoinbase := by
  unfold update at h
  obtain ⟨diff, hdiff, h⟩ := Outcome.bind_eq_ok.1 h
  obtain ⟨total, htotal, h⟩ := Outcome.bind_eq_ok.1 h
  obtain ⟨-, -, h⟩ := Outcome.bind_eq_ok.1 h
  obtain ⟨⟨staking, next, count⟩, -, h⟩ := Outcome.bind_eq_ok.1 h
  obtain rfl := Outcome.ok.inj h
  refine ⟨rfl, ?_, rfl, rfl, rfl, rfl, rfl⟩
  have hd := Outcome.okOr_eq_ok.1 hdiff
  unfold GlobalSlot.diffSlots at hd
  split at hd
  · cases hd
  · rw [← Option.some.inj hd]
    rfl

theorem GlobalSlot.create_epoch_slot {t : GlobalSlot} (h : t.slotsPerEpoch = constants.slotsPerEpoch) :
    GlobalSlot.create constants t.epoch t.slot = t := by
  obtain ⟨slotNumber, slotsPerEpoch⟩ := t
  dsimp only at h
  subst h
  unfold GlobalSlot.create GlobalSlot.epoch GlobalSlot.slot
  dsimp only
  congr 1
  rw [← UInt32.toNat_inj, UInt32.toNat_add, UInt32.toNat_mul, UInt32.toNat_mod, UInt32.toNat_div,
    Nat.add_mod_mod, Nat.mod_add_div]
  exact Nat.mod_eq_of_lt slotNumber.toNat_lt

theorem checkpointWindow_eq_iff (hle : prev.slotNumber.toNat ≤ next.slotNumber.toNat) :
    checkpointWindow constants prev = checkpointWindow constants next
      ↔ next.slotNumber.toNat
        < (prev.slotNumber.toNat / constants.checkpointWindowSizeInSlots.toNat + 1)
          * constants.checkpointWindowSizeInSlots.toNat := by
  have hdiv := Nat.div_le_div_right (c := constants.checkpointWindowSizeInSlots.toNat) hle
  unfold checkpointWindow
  rw [← UInt32.toNat_inj, UInt32.toNat_div, UInt32.toNat_div, ← Nat.div_lt_iff_lt_mul constants.checkpointWindowSize_pos]
  omega

section ToVar

variable {F : Type} [Field F] {s : ConsensusState} {hashes : Hashes} {x : UInt32}

theorem wordVar_add {y : UInt32} (h : x.toNat + y.toNat < 2 ^ 32) : (wordVar (x + y) : F) = wordVar x + wordVar y := by
  have hmod : (x.toNat + y.toNat) % 2 ^ 32 = x.toNat + y.toNat := Nat.mod_eq_of_lt h
  unfold wordVar
  rw [UInt32.toNat_add, hmod, Nat.cast_add]

theorem wordVar_one : (wordVar 1 : F) = 1 := Nat.cast_one

theorem wordVar_succ (h : x.toNat + 1 < 2 ^ 32) : (wordVar (x + 1) : F) = succ (wordVar x) := by
  unfold succ
  rw [wordVar_add h, wordVar_one]

theorem withSeed_toVar {slot : UInt32} {data : EpochData} :
    ((withSeed hashes constants slot block data).toVar : EpochDataVar F)
      = { data.toVar with
          seed := if slot < constants.slotsPerEpoch / 3 * 2 then
            hashes.updateSeed data.seed block.producerVrfResult else data.seed
          lockCheckpoint := if slot < constants.slotsPerEpoch / 3 * 2 then
            block.previousProtocolStateHash else data.lockCheckpoint } := by
  unfold withSeed
  split <;> rfl

theorem real_epochIncreased (hm : MadeFor constants previous)
    (hm' : MadeFor constants s) (hslot : s.currGlobalSlot.slotNumber = block.consensusTransition) :
    (realDivisions constants previous.currGlobalSlot.slotNumber.toNat block.consensusTransition.toNat).epochIncreased
      = decide (previous.currGlobalSlot.epoch < s.currGlobalSlot.epoch) := by
  unfold Divisions.epochIncreased
  rw [decide_eq_decide, UInt32.lt_iff_toNat_lt, hm.epoch, hm'.epoch, hslot]
  rfl

theorem real_inSeedRange (h3 : EpochInThirds constants) (hm' : MadeFor constants s)
    (hslot : s.currGlobalSlot.slotNumber = block.consensusTransition) :
    decide (block.consensusTransition.toNat % constants.slotsPerEpoch.toNat < constants.slotsPerEpoch.toNat / 3 * 2)
      = decide (s.currGlobalSlot.slot < constants.slotsPerEpoch / 3 * 2) := by
  rw [decide_eq_decide, UInt32.lt_iff_toNat_lt, hm'.slot, hslot, h3.toNat.2]
  unfold third
  omega

/-- The epoch data of the circuit for the real epochs is that of `update_pair`. -/
theorem epochData_toVar (h : Updated hashes constants previous block s)
    (hlength : previous.nextEpochData.epochLength.toNat + 1 < 2 ^ 32)
    (hcount : previous.epochCount.toNat + 1 < 2 ^ 32) :
    (wordVar s.epochCount : F) = succIf (wordVar previous.epochCount)
        (previous.currGlobalSlot.epoch < s.currGlobalSlot.epoch)
      ∧ (s.stakingEpochData.toVar : EpochDataVar F)
        = (if decide (previous.currGlobalSlot.epoch < s.currGlobalSlot.epoch) = true then
            previous.nextEpochData.toVar else previous.stakingEpochData.toVar)
      ∧ (s.nextEpochData.toVar : EpochDataVar F)
        = nextEpochDataVar hashes previous.nextEpochData.toVar block.toVar
          (previous.currGlobalSlot.epoch < s.currGlobalSlot.epoch)
          (s.currGlobalSlot.slot < constants.slotsPerEpoch / 3 * 2) (s.totalCurrency : F) := by
  rcases (updatePair_eq_some h.epochData).2 with ⟨hlt, hstaking, hcount', hnext⟩
    | ⟨heq, hstaking, hcount', hnext⟩
  · rw [decide_eq_true hlt, hstaking, hcount', hnext, withSeed_toVar]
    refine ⟨?_, rfl, ?_⟩
    · rw [wordVar_succ hcount]
      rfl
    · unfold nextEpochDataVar freshEpoch EpochData.toVar Block.toVar succ
      by_cases hg : block.snarkedLedgerHash = block.genesisLedgerHash
      · simp [hg, wordVar_one]
      · simp [hg, Ne.symm hg, wordVar_one]
  · have hnot : ¬ previous.currGlobalSlot.epoch < s.currGlobalSlot.epoch := by
      rw [heq]
      exact UInt32.lt_irrefl _
    rw [decide_eq_false hnot, hstaking, hcount', hnext, withSeed_toVar]
    refine ⟨?_, rfl, ?_⟩
    · unfold succIf
      rw [if_neg Bool.false_ne_true, add_zero]
    · unfold nextEpochDataVar continuedEpoch EpochData.toVar Block.toVar
      simp [wordVar_succ hlength]

/-- **The code is one of the choices**: the state of `update` is that of the real
divisions. -/
theorem toVar_of_update (ht : WellTyped constants previous block)
    (hsums : SumsFit constants previous block) (h : update hashes constants previous block = .ok s) :
    (s.toVar : StateVar F) = (realDivisions constants previous.currGlobalSlot.slotNumber.toNat
      block.consensusTransition.toNat).stateVar hashes previous block s.totalCurrency := by
  have hu := updated_of_update h
  have hacc := accepted_of_update h
  have hslot : s.currGlobalSlot.slotNumber = block.consensusTransition := by
    rw [hu.currGlobalSlot]
    rfl
  have hlength : previous.subWindowDensities.length < 2 ^ 32 := by
    rw [ht.length_eq]
    exact constants.subWindowsPerWindow.toNat_lt
  obtain ⟨hvrf, hglobal, hancestor, hwinner, hcreator, hreceiver, hsuper⟩ := fields_of_update h
  obtain ⟨hcount, hstaking, hnext⟩ := epochData_toVar (F := F) hu hsums.epochLength hsums.epochCount
  obtain ⟨hmin, hdensities⟩ := updateMinWindowDensity_toNat s.currGlobalSlot
    previous.minWindowDensity hlength hsums.window hsums.density hsums.subWindow
  rw [← hu.density] at hmin hdensities
  rw [hslot] at hmin hdensities
  rw [← real_epochIncreased ht.madeFor hu.madeFor hslot] at hcount hstaking hnext
  rw [← real_inSeedRange hacc.epochInThirds hu.madeFor hslot] at hnext
  ext1
  · change wordVar s.blockchainLength = _
    rw [hu.blockchainLength, wordVar_succ hsums.blockchainLength]
    rfl
  · exact hcount
  · exact congrArg (Nat.cast (R := F)) hmin
  · change s.subWindowDensities.map wordVar = _
    unfold Divisions.stateVar
    dsimp only at hdensities ⊢
    rw [show (realDivisions constants previous.currGlobalSlot.slotNumber.toNat
      block.consensusTransition.toNat).toSubWindows = realSubWindows constants _ _ from rfl, ← hdensities, List.map_map]
    rfl
  · exact hvrf
  · rfl
  · exact congrArg wordVar hslot
  · exact congrArg wordVar hu.madeFor
  · change wordVar s.globalSlotSinceGenesis = _
    have hsub : (block.consensusTransition - previous.currGlobalSlot.slotNumber).toNat
        = block.consensusTransition.toNat - previous.currGlobalSlot.slotNumber.toNat :=
      UInt32.toNat_sub_of_le _ _ (UInt32.le_iff_toNat_le.2 hacc.slot_le)
    have hsum := hsums.globalSlot
    rw [hglobal, wordVar_add (by omega)]
    unfold wordVar Divisions.stateVar
    rw [hsub, Nat.cast_add]
  · exact hstaking
  · exact hnext
  · change s.hasAncestorInSameCheckpointWindow = _
    rw [hancestor, GlobalSlot.create_epoch_slot ht.madeFor, GlobalSlot.create_epoch_slot hu.madeFor, ← hslot]
    exact decide_eq_decide.2 (checkpointWindow_eq_iff (by rw [hslot]; exact hacc.slot_le))
  · exact hwinner
  · exact hcreator
  · exact hreceiver
  · exact hsuper

end ToVar

end Update

/-! ### Where there is no choice -/

/-- The slots leave a prover no choice: they are in the first epoch and in the first
sub-window, and the slot before is in the first checkpoint window or in another one. -/
structure Forced (constants : Constants) (prev next : Nat) : Prop where
  epoch : next < constants.slotsPerEpoch.toNat
  subWindow : next < constants.slotsPerSubWindow.toNat
  checkpoint : constants.checkpointWindowSizeInSlots.toNat ≤ prev →
    prev / constants.checkpointWindowSizeInSlots.toNat
      ≠ next / constants.checkpointWindowSizeInSlots.toNat

section Choices

variable {constants : Constants} {prev next : Nat} {x : Nat}

theorem eq_zero_of_mul_le {q y : Nat} (h : q * y ≤ x) (hlt : x < y) : q = 0 := by
  by_contra hq
  have := Nat.le_mul_of_pos_left y (Nat.pos_of_ne_zero hq)
  omega

theorem SubWindows.current_of_eq (w : SubWindows constants prev next) (h : w.prevSub = w.nextSub)
    (densities : List Nat) : w.current densities = densities := by
  unfold SubWindows.current
  refine List.ext_getElem? fun i => ?_
  rw [List.getElem?_mapIdx]
  cases densities[i]? with
  | none => rfl
  | some x => exact congrArg some (if_pos h)

theorem SubWindows.forced (w w' : SubWindows constants prev next) (hle : prev ≤ next)
    (hlt : next < constants.slotsPerSubWindow.toNat) (densities : List Nat) (prevMin : Nat) :
    w.minimum densities prevMin = w'.minimum densities prevMin
      ∧ w.densities densities = w'.densities densities := by
  have hzero : ∀ v : SubWindows constants prev next, v.prevSub = 0 ∧ v.nextSub = 0 ∧ v.nextRelative = 0 := by
    intro v
    have hp := eq_zero_of_mul_le v.prevSub_le (by omega)
    have hn := eq_zero_of_mul_le v.nextSub_le hlt
    have hr := v.nextRelative_le
    exact ⟨hp, hn, by omega⟩
  obtain ⟨hp, hn, hr⟩ := hzero w
  obtain ⟨hp', hn', hr'⟩ := hzero w'
  have hsame : w.prevSub = w.nextSub := hp.trans hn.symm
  have hsame' : w'.prevSub = w'.nextSub := hp'.trans hn'.symm
  refine ⟨?_, ?_⟩
  · unfold SubWindows.minimum
    rw [if_pos (.inl hsame), if_pos (.inl hsame')]
  · unfold SubWindows.densities
    rw [w.current_of_eq hsame, w'.current_of_eq hsame', hr, hr']
    simp only [hsame, hsame', if_true]

theorem Forced.stateVar_eq {F : Type} [Field F] (h : Forced constants prev next) (hle : prev ≤ next)
    (d d' : Divisions constants prev next) (hashes : Hashes) (previous : ConsensusState) (block : Block) (total : Nat) :
    (d.stateVar hashes previous block total : StateVar F) = d'.stateVar hashes previous block total := by
  have hepoch : ∀ v : Divisions constants prev next,
      v.nextEpoch = 0 ∧ v.prevEpoch = 0 ∧ v.nextSlot = next := by
    intro v
    have hnext := v.next_eq
    have hn := eq_zero_of_mul_le (show v.nextEpoch * constants.slotsPerEpoch.toNat ≤ next by omega) h.epoch
    have hp := eq_zero_of_mul_le (v.prev_le.trans hle) h.epoch
    rw [hn, Nat.zero_mul, Nat.zero_add] at hnext
    exact ⟨hn, hp, hnext⟩
  have hancestor : ∀ v : Divisions constants prev next,
      decide (next < (v.checkpoint + 1) * constants.checkpointWindowSizeInSlots.toNat)
        = decide (prev < constants.checkpointWindowSizeInSlots.toNat
          ∧ next < constants.checkpointWindowSizeInSlots.toNat) := by
    intro v
    rw [decide_eq_decide]
    by_cases hlt : prev < constants.checkpointWindowSizeInSlots.toNat
    · rw [eq_zero_of_mul_le v.checkpoint_le hlt, Nat.zero_add, Nat.one_mul]
      exact (and_iff_right hlt).symm
    · have hne := h.checkpoint (by omega)
      have hdiv := Nat.div_le_div_right (c := constants.checkpointWindowSizeInSlots.toNat) hle
      have hq := (Nat.le_div_iff_mul_le constants.checkpointWindowSize_pos).2 v.checkpoint_le
      rw [← Nat.div_lt_iff_lt_mul constants.checkpointWindowSize_pos]
      omega
  obtain ⟨hn, hp, hs⟩ := hepoch d
  obtain ⟨hn', hp', hs'⟩ := hepoch d'
  obtain ⟨hmin, hdensities⟩ := d.toSubWindows.forced d'.toSubWindows hle h.subWindow
    (previous.subWindowDensities.map UInt32.toNat) previous.minWindowDensity.toNat
  unfold Divisions.stateVar Divisions.epochIncreased
  rw [hn, hp, hs, hn', hp', hs', hmin, hdensities, hancestor d, hancestor d']

/-! ### Where there is one -/

theorem exists_other_epoch (hle : prev ≤ next) (hE : constants.slotsPerEpoch.toNat ≤ next) :
    ∃ d : Divisions constants prev next,
      d.epochIncreased ≠ (realDivisions constants prev next).epochIncreased := by
  have hpos := slotsPerEpoch_pos constants
  have hprev := Nat.div_mul_le_self prev constants.slotsPerEpoch.toNat
  by_cases hlt : prev / constants.slotsPerEpoch.toNat < next / constants.slotsPerEpoch.toNat
  · refine ⟨{ realDivisions constants prev next with
      nextEpoch := prev / constants.slotsPerEpoch.toNat
      nextSlot := next - prev / constants.slotsPerEpoch.toNat * constants.slotsPerEpoch.toNat
      next_eq := by omega }, ?_⟩
    unfold Divisions.epochIncreased realDivisions
    simp [hlt]
  · have hone : 0 < next / constants.slotsPerEpoch.toNat := Nat.div_pos hE hpos
    refine ⟨{ realDivisions constants prev next with
      prevEpoch := 0
      prev_le := by omega }, ?_⟩
    unfold Divisions.epochIncreased realDivisions
    simp [hlt, hone]

/-- The first sub-window for both slots. -/
def zeroSubWindows (constants : Constants) (prev next : Nat) : SubWindows constants prev next where
  prevSub := 0
  nextSub := 0
  prevRelative := 0
  nextRelative := 0
  overlapping := true
  prevSub_le := by omega
  nextSub_le := by omega
  prevRelative_eq := ⟨0, by omega⟩
  nextRelative_eq := ⟨0, by omega⟩
  overlapping_le := by omega
  le_of_not_overlapping := by simp

theorem sub_one_mul_add (n : Nat) {W : Nat} (hW : 0 < W) (h : W ≤ n) : (n / W - 1) * W + (n % W + W) = n := by
  have hdiv : 1 ≤ n / W := Nat.div_pos h hW
  have hmod := Nat.div_add_mod' n W
  obtain ⟨q, hq⟩ := Nat.exists_eq_add_of_le hdiv
  rw [hq] at hmod ⊢
  rw [Nat.add_sub_cancel_left]
  rw [Nat.add_mul, Nat.one_mul] at hmod
  omega

/-- The real sub-windows, with a relative one beyond the window for the next slot. -/
def beyondSubWindows (constants : Constants) (prev next : Nat)
    (h : constants.subWindowsPerWindow.toNat ≤ next / constants.slotsPerSubWindow.toNat) :
    SubWindows constants prev next :=
  { realSubWindows constants prev next with
    nextRelative := next / constants.slotsPerSubWindow.toNat % constants.subWindowsPerWindow.toNat
      + constants.subWindowsPerWindow.toNat
    nextRelative_eq := ⟨_, sub_one_mul_add _ (windowLength_pos constants) h⟩ }

theorem SubWindows.getElem?_densities (w : SubWindows constants prev next) {densities : List Nat}
    {k : Nat} (hx : densities[k]? = some x) : ∃ c, (c = x ∨ c = 0 ∧ w.prevSub ≠ w.nextSub)
      ∧ (w.densities densities)[k]?
        = some (if k = w.nextRelative then if w.prevSub = w.nextSub then c + 1 else 1 else c) := by
  refine ⟨if w.prevSub = w.nextSub then x
    else if w.overlapping && !between w.prevRelative w.nextRelative k then x else 0, ?_, ?_⟩
  · split
    · exact .inl rfl
    · rename_i hne
      split
      · exact .inl rfl
      · exact .inr ⟨rfl, hne⟩
  · unfold SubWindows.densities SubWindows.current
    rw [List.getElem?_mapIdx, List.getElem?_mapIdx, hx]
    rfl

theorem exists_other_densities (prev : Nat) (hS : constants.slotsPerSubWindow.toNat ≤ next)
    (densities : List Nat) (hlength : densities.length = constants.subWindowsPerWindow.toNat) :
    ∃ (w : SubWindows constants prev next) (k a b : Nat),
      (w.densities densities)[k]? = some a
        ∧ ((realSubWindows constants prev next).densities densities)[k]? = some b ∧ a ≠ b
        ∧ ∃ x ∈ densities, a ≤ x + 1 ∧ b ≤ x + 1 := by
  have hpos : 0 < constants.slotsPerSubWindow.toNat := subWindowLength_pos constants
  have hW : 0 < constants.subWindowsPerWindow.toNat := windowLength_pos constants
  have hn : 1 ≤ next / constants.slotsPerSubWindow.toNat := Nat.div_pos hS hpos
  have hk : next / constants.slotsPerSubWindow.toNat % constants.subWindowsPerWindow.toNat
      < densities.length := by
    rw [hlength]
    exact Nat.mod_lt _ hW
  generalize hkdef : next / constants.slotsPerSubWindow.toNat
    % constants.subWindowsPerWindow.toNat = k at hk
  have hreal : (realSubWindows constants prev next).nextRelative = k := hkdef
  obtain ⟨x, hx⟩ : ∃ x, densities[k]? = some x := ⟨_, List.getElem?_eq_getElem hk⟩
  obtain ⟨y, hy⟩ : ∃ y, densities[0]? = some y := ⟨_, List.getElem?_eq_getElem (by omega)⟩
  have hxmem := List.mem_of_getElem? hx
  have hymem := List.mem_of_getElem? hy
  obtain ⟨c, hc, hck⟩ := (realSubWindows constants prev next).getElem?_densities hx
  rw [hreal, if_pos rfl] at hck
  by_cases hbeyond : k = 0
  · -- the relative sub-window is the first of a later window
    have hge : constants.subWindowsPerWindow.toNat ≤ next / constants.slotsPerSubWindow.toNat := by
      by_contra hlt
      rw [Nat.mod_eq_of_lt (by omega)] at hkdef
      omega
    subst hbeyond
    obtain ⟨c', hc', hck'⟩ := (beyondSubWindows constants prev next hge).getElem?_densities hx
    have hne : ¬ 0 = (beyondSubWindows constants prev next hge).nextRelative := by
      change ¬ 0 = _ % _ + _
      omega
    rw [if_neg hne] at hck'
    by_cases hsame : (realSubWindows constants prev next).prevSub
        = (realSubWindows constants prev next).nextSub
    · have hcx : c = x := hc.resolve_right fun h => h.2 hsame
      have hcx' : c' = x := hc'.resolve_right fun h => h.2 hsame
      rw [if_pos hsame] at hck
      exact ⟨_, 0, _, _, hck', hck, by omega, x, hxmem, by omega, by omega⟩
    · rw [if_neg hsame] at hck
      by_cases hzero : x = 0
      · exact ⟨_, 0, _, _, hck', hck, by omega, x, hxmem, by omega, by omega⟩
      · obtain ⟨z, hz, hzk⟩ := (zeroSubWindows constants prev next).getElem?_densities hx
        have hzx : z = x := hz.resolve_right fun h => h.2 rfl
        have hzk' : ((zeroSubWindows constants prev next).densities densities)[0]? = some (z + 1) := hzk
        exact ⟨_, 0, _, _, hzk', hck, by omega, x, hxmem, by omega, by omega⟩
  · obtain ⟨c0, hc0, hck0⟩ := (realSubWindows constants prev next).getElem?_densities hy
    rw [hreal, if_neg (Ne.symm hbeyond)] at hck0
    obtain ⟨z, hz, hzk⟩ := (zeroSubWindows constants prev next).getElem?_densities hy
    have hzy : z = y := hz.resolve_right fun h => h.2 rfl
    have hzk' : ((zeroSubWindows constants prev next).densities densities)[0]? = some (z + 1) := hzk
    exact ⟨_, 0, _, _, hzk', hck0, by omega, y, hymem, by omega, by omega⟩

theorem succIf_ne {F : Type} [Field F] (t : F) {c c' : Bool} (h : c ≠ c') : succIf t c ≠ succIf t c' := by
  unfold succIf
  intro heq
  have := add_left_cancel heq
  cases c <;> cases c' <;> simp_all

theorem exists_other_state {F : Type} [Field F] [LargeField F] {previous : ConsensusState}
    {block : Block} (hashes : Hashes) (total : Nat) (ht : WellTyped constants previous block)
    (hdensity : ∀ density ∈ previous.subWindowDensities, density.toNat + 1 < 2 ^ 32)
    (hle : prev ≤ next) (h : ¬ Forced constants prev next) :
    ∃ d : Divisions constants prev next, (d.stateVar hashes previous block total : StateVar F)
      ≠ (realDivisions constants prev next).stateVar hashes previous block total := by
  by_cases hE : constants.slotsPerEpoch.toNat ≤ next
  · obtain ⟨d, hd⟩ := exists_other_epoch hle hE
    exact ⟨d, fun heq => succIf_ne _ hd (congrArg StateVar.epochCount heq)⟩
  by_cases hS : constants.slotsPerSubWindow.toNat ≤ next
  · obtain ⟨w, k, a, b, ha, hb, hne, x, hx, hax, hbx⟩ := exists_other_densities prev hS
      (previous.subWindowDensities.map UInt32.toNat)
      (by rw [List.length_map, ht.length_eq])
    obtain ⟨density, hmem, rfl⟩ := List.mem_map.1 hx
    have hlt := hdensity density hmem
    refine ⟨{ realDivisions constants prev next with toSubWindows := w }, fun heq => hne ?_⟩
    have hlist := congrArg (fun v => v[k]?) (congrArg StateVar.subWindowDensities heq)
    change ((w.densities _).map Nat.cast)[k]?
      = (((realSubWindows constants prev next).densities _).map Nat.cast)[k]? at hlist
    rw [List.getElem?_map, List.getElem?_map, ha, hb] at hlist
    exact LargeField.cast_inj (F := F) a b (by omega) (by omega) (Option.some.inj hlist)
  by_cases hC : constants.checkpointWindowSizeInSlots.toNat ≤ prev
    ∧ prev / constants.checkpointWindowSizeInSlots.toNat = next / constants.checkpointWindowSizeInSlots.toNat
  · obtain ⟨hC, hsame⟩ := hC
    refine ⟨{ realDivisions constants prev next with
      checkpoint := 0
      checkpoint_le := by omega }, fun heq => ?_⟩
    have hancestor := congrArg StateVar.hasAncestorInSameCheckpointWindow heq
    change decide (next < (0 + 1) * constants.checkpointWindowSizeInSlots.toNat)
      = decide (next < (prev / constants.checkpointWindowSizeInSlots.toNat + 1)
        * constants.checkpointWindowSizeInSlots.toNat) at hancestor
    rw [decide_eq_decide, ← Nat.div_lt_iff_lt_mul constants.checkpointWindowSize_pos,
      ← Nat.div_lt_iff_lt_mul constants.checkpointWindowSize_pos, hsame] at hancestor
    have hone : 0 < next / constants.checkpointWindowSizeInSlots.toNat :=
      Nat.div_pos (hC.trans hle) constants.checkpointWindowSize_pos
    omega
  · refine absurd ⟨by omega, by omega, ?_⟩ h
    intro hCle heq
    exact hC ⟨hCle, heq⟩

end Choices

/-! ### The circuit and the code -/

/-- The circuit can be satisfied exactly when the code returns a state, and then every state
that it returns is that one. -/
structure CircuitAgrees (F : Type) [Field F] [DecidableEq F] (hashes : Hashes) (constants : Constants)
    (previous : ConsensusState) (block : Block) : Prop where
  satisfiable_iff : (updateVar (F := F) hashes constants.toVar previous.toVar block.toVar).Satisfiable
    ↔ ∃ s, update hashes constants previous block = .ok s
  unique : ∀ s out, update hashes constants previous block = .ok s →
    (updateVar (F := F) hashes constants.toVar previous.toVar block.toVar).Returns out → out = s.toVar

section Main

variable {F : Type} [Field F] [DecidableEq F] [LargeField F] {constants : Constants}

theorem satisfiable_updateVar (ht : WellTyped constants previous block) (hsums : SumsFit constants previous block) :
    (updateVar (F := F) hashes constants.toVar previous.toVar block.toVar).Satisfiable
      ↔ ∃ s, update hashes constants previous block = .ok s := by
  constructor
  · intro h
    obtain ⟨out, hout⟩ := h
    obtain ⟨total, hacc, -⟩ := (returns_updateVar ht hsums).1 hout
    exact update_of_accepted hashes ht.madeFor hacc
  · intro h
    obtain ⟨s, hs⟩ := h
    exact ⟨s.toVar, (returns_updateVar ht hsums).2
      ⟨s.totalCurrency, accepted_of_update hs, _, toVar_of_update ht hsums hs⟩⟩

theorem exists_returns_ne (F : Type) [Field F] [DecidableEq F] [LargeField F]
    (ht : WellTyped constants previous block) (hsums : SumsFit constants previous block)
    {s : ConsensusState} (hs : update hashes constants previous block = .ok s)
    (h : ¬ Forced constants previous.currGlobalSlot.slotNumber.toNat block.consensusTransition.toNat) :
    ∃ out, (updateVar (F := F) hashes constants.toVar previous.toVar block.toVar).Returns out
      ∧ out ≠ s.toVar := by
  have hacc := accepted_of_update hs
  obtain ⟨d, hd⟩ := exists_other_state (F := F) hashes s.totalCurrency ht hsums.density hacc.slot_le h
  refine ⟨_, (returns_updateVar ht hsums).2 ⟨s.totalCurrency, hacc, d, rfl⟩, ?_⟩
  rwa [toVar_of_update ht hsums hs]

/-- **The circuit agrees with the code only where the divisions leave no choice.** For
every other transition that is accepted, a prover can have the circuit return another
state. -/
theorem update_var_agrees_iff (F : Type) [Field F] [DecidableEq F] [LargeField F] (hashes : Hashes)
    (constants : Constants) (previous : ConsensusState) (block : Block)
    (ht : WellTyped constants previous block) (hsums : SumsFit constants previous block) :
    CircuitAgrees F hashes constants previous block
      ↔ ((∃ total, Accepted constants previous block total) →
        Forced constants previous.currGlobalSlot.slotNumber.toNat block.consensusTransition.toNat) := by
  constructor
  · intro h hacc
    obtain ⟨total, hacc⟩ := hacc
    obtain ⟨s, hs⟩ := update_of_accepted hashes ht.madeFor hacc
    by_contra hforced
    obtain ⟨out, hout, hne⟩ := exists_returns_ne F ht hsums hs hforced
    exact hne (h.unique s out hs hout)
  · intro h
    refine ⟨satisfiable_updateVar ht hsums, fun s out hs hout => ?_⟩
    have hacc := accepted_of_update hs
    obtain ⟨total, hacc', d, rfl⟩ := (returns_updateVar ht hsums).1 hout
    have htotal : total = s.totalCurrency :=
      Option.some.inj (hacc'.totalCurrency.symm.trans hacc.totalCurrency)
    rw [toVar_of_update ht hsums hs, htotal]
    exact (h ⟨_, hacc⟩).stateVar_eq hacc.slot_le _ _ _ _ _ _

end Main

/-! ### A block in the second epoch -/

theorem prime_mersenne : (mersenne 89).Prime := lucas_lehmer_sufficiency 89 (by decide) (by norm_num)

instance factPrime : Fact (mersenne 89).Prime := ⟨prime_mersenne⟩

instance largeField : LargeField (ZMod (mersenne 89)) where
  cast_inj m n hm hn h := by
    have hlarge : (2 : Nat) ^ 67 ≤ mersenne 89 := by norm_num [mersenne]
    rw [ZMod.natCast_eq_natCast_iff', Nat.mod_eq_of_lt (by omega), Nat.mod_eq_of_lt (by omega)] at h
    exact h

theorem density_lt_of_small {s : ConsensusState}
    (h : s.subWindowDensities.all (fun density => decide (density.toNat < 8)) = true) :
    ∀ density ∈ s.subWindowDensities, density.toNat + 1 < 2 ^ 32 := by
  intro density hd
  have := of_decide_eq_true (List.all_eq_true.1 h density hd)
  omega

/-- The genesis block is in the first sub-window. -/
theorem update_var_agrees_genesis :
    CircuitAgrees (ZMod (mersenne 89)) smallHashes smallConstants (negativeOne smallConstants smallGenesis)
      (genesisBlock smallGenesis 1 1) := by
  refine (update_var_agrees_iff (ZMod (mersenne 89)) smallHashes smallConstants _ _ ?_ ?_).2 fun _ => ?_
  · exact ⟨rfl, by decide, by decide, by decide⟩
  · exact ⟨by decide, by decide, by decide, by decide, by decide,
      by decide, density_lt_of_small (by decide), by decide⟩
  · exact ⟨by decide, by decide, by decide⟩

/-- A block at the first slot of epoch 1, after the genesis block. -/
theorem update_var_disagrees_next_epoch : WellTyped smallConstants smallGenesisState (blockAt 3 1)
      ∧ SumsFit smallConstants smallGenesisState (blockAt 3 1)
      ∧ ¬ CircuitAgrees (ZMod (mersenne 89)) smallHashes smallConstants smallGenesisState (blockAt 3 1) := by
  have ht : WellTyped smallConstants smallGenesisState (blockAt 3 1) :=
    ⟨by unfold MadeFor; decide, by decide, by decide, by decide⟩
  have hsums : SumsFit smallConstants smallGenesisState (blockAt 3 1) :=
    ⟨by decide, by decide, by decide, by decide, by decide,
      by decide, density_lt_of_small (by decide), by decide⟩
  have hs : update smallHashes smallConstants smallGenesisState (blockAt 3 1)
      = .ok (afterBlock smallConstants smallGenesisState 3) := by decide
  have hforced : ¬ Forced smallConstants smallGenesisState.currGlobalSlot.slotNumber.toNat
      (blockAt 3 1).consensusTransition.toNat := by
    intro hf
    have := hf.epoch
    revert this
    decide
  obtain ⟨out, hout, hne⟩ := exists_returns_ne (ZMod (mersenne 89)) ht hsums hs hforced
  refine ⟨ht, hsums, fun h => ?_⟩
  exact hne (h.unique _ out hs hout)

end MinaProtocol.Consensus
