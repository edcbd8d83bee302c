import MinaProtocol.Base.Precondition
import MinaProtocol.Base.Signed
import MinaProtocol.Lib.Outcome

/-!
# Consensus.State

The consensus state of `proof_of_stake.ml`: the state before the first block, the update
of the state by a block, and the choice between two states. Lengths, slots and epochs
have 32 bits and wrap. What is raised by an assertion is `none`, or `raise` in `update`.
-/

namespace MinaProtocol.Consensus

/-- `Consensus.Constants.t`. What it divides by is not zero, and `create'` computes the
slots of a window. -/
structure Constants where
  slotsPerSubWindow : UInt32
  subWindowsPerWindow : UInt32
  slotsPerWindow : UInt32
  slotsPerEpoch : UInt32
  gracePeriodEnd : UInt32
  checkpointWindowSizeInSlots : UInt32
  slotsPerSubWindow_ne : slotsPerSubWindow ≠ 0
  subWindowsPerWindow_ne : subWindowsPerWindow ≠ 0
  slotsPerEpoch_ne : slotsPerEpoch ≠ 0
  checkpointWindowSizeInSlots_ne : checkpointWindowSizeInSlots ≠ 0
  slotsPerWindow_eq : slotsPerWindow = slotsPerSubWindow * subWindowsPerWindow

theorem Constants.checkpointWindowSize_pos (constants : Constants) : 0 < constants.checkpointWindowSizeInSlots.toNat :=
  Nat.pos_of_ne_zero fun h => constants.checkpointWindowSizeInSlots_ne (UInt32.toNat_inj.1 h)

/-- The hash functions that the consensus uses. -/
structure Hashes where
  /-- `Epoch_seed.update`. -/
  updateSeed : Nat → Nat → Nat
  /-- `Vrf.Output.truncate`. -/
  truncate : Nat → Nat
  /-- `Blake2.(Fn.compose to_raw_string digest_string)`. -/
  blake2 : Nat → List UInt8

/-- `Global_slot.t`. -/
structure GlobalSlot where
  slotNumber : UInt32
  slotsPerEpoch : UInt32
deriving DecidableEq, Repr

namespace GlobalSlot

/-- `Global_slot.of_slot_number`. -/
def ofSlotNumber (constants : Constants) (slotNumber : UInt32) : GlobalSlot :=
  ⟨slotNumber, constants.slotsPerEpoch⟩

@[simp] theorem ofSlotNumber_slotNumber (constants : Constants) (slotNumber : UInt32) :
    (ofSlotNumber constants slotNumber).slotNumber = slotNumber := rfl

/-- `Global_slot.zero`. -/
def zero (constants : Constants) : GlobalSlot := ⟨0, constants.slotsPerEpoch⟩

/-- `Global_slot.create`. -/
def create (constants : Constants) (epoch slot : UInt32) : GlobalSlot :=
  ⟨slot + constants.slotsPerEpoch * epoch, constants.slotsPerEpoch⟩

/-- `Global_slot.epoch`. -/
def epoch (t : GlobalSlot) : UInt32 := t.slotNumber / t.slotsPerEpoch

/-- `Global_slot.slot`. -/
def slot (t : GlobalSlot) : UInt32 := t.slotNumber % t.slotsPerEpoch

/-- `Global_slot.( < )`. -/
def lt (t t' : GlobalSlot) : Bool := t.slotNumber < t'.slotNumber

/-- `Global_slot.max`. -/
def max (t1 t2 : GlobalSlot) : GlobalSlot := if t1.lt t2 then t2 else t1

/-- `Global_slot.diff_slots`. -/
def diffSlots (t1 t2 : GlobalSlot) : Option UInt32 :=
  if t1.slotNumber < t2.slotNumber then none else some (t1.slotNumber - t2.slotNumber)

end GlobalSlot

variable (constants : Constants)

/-- `Slot.in_seed_update_range`. -/
def inSeedUpdateRange (slot : UInt32) : Option Bool := do
  let thirdEpoch := constants.slotsPerEpoch / 3
  guard (constants.slotsPerEpoch = 3 * thirdEpoch)
  some (slot < thirdEpoch * 2)

/-! ### Window densities -/

/-- `Global_sub_window.of_global_slot`. -/
def globalSubWindow (slot : GlobalSlot) : UInt32 :=
  slot.slotNumber / constants.slotsPerSubWindow

/-- `Global_sub_window.sub_window`. -/
def subWindow (t : UInt32) : UInt32 := t % constants.subWindowsPerWindow

/-- The index is between the relative sub-windows, going round the ring. -/
def withinRange (prevRelative nextRelative i : UInt32) : Bool :=
  if prevRelative < nextRelative then prevRelative < i && i < nextRelative
  else prevRelative < i || i < nextRelative

/-- The current window of `update_min_window_density`. -/
def currentSubWindowDensities (prev next : UInt32) (densities : List UInt32) : List UInt32 :=
  let overlappingWindow : Bool := next ≤ prev + constants.subWindowsPerWindow
  densities.mapIdx fun i density =>
    if prev = next then density
    else if overlappingWindow
        && !withinRange (subWindow constants prev) (subWindow constants next) (UInt32.ofNat i) then
      density
    else 0

/-- `Min_window_density.update_min_window_density`. -/
def updateMinWindowDensity (incrWindow : Bool) (constants : Constants)
    (prevGlobalSlot nextGlobalSlot : GlobalSlot) (prevSubWindowDensities : List UInt32)
    (prevMinWindowDensity : UInt32) : UInt32 × List UInt32 :=
  let prev := globalSubWindow constants prevGlobalSlot
  let next := globalSubWindow constants nextGlobalSlot
  let current := currentSubWindowDensities constants prev next prevSubWindowDensities
  let currentWindowDensity := current.foldl (· + ·) 0
  let minWindowDensity :=
    if prev = next ∨ nextGlobalSlot.slotNumber < constants.gracePeriodEnd then prevMinWindowDensity
    else min currentWindowDensity prevMinWindowDensity
  let nextSubWindowDensities := current.mapIdx fun i density =>
    if UInt32.ofNat i = subWindow constants next then
      let f : UInt32 → UInt32 := if incrWindow then (· + 1) else id
      if prev = next then f density else f 0
    else density
  (minWindowDensity, nextSubWindowDensities)

/-! ### Epoch data -/

/-- What a block gives to the update of the consensus state. -/
structure Block where
  consensusTransition : UInt32
  previousProtocolStateHash : Nat
  supplyIncrease : Signed
  snarkedLedgerHash : Nat
  genesisLedgerHash : Nat
  producerVrfResult : Nat
  blockStakeWinner : PublicKey
  blockCreator : PublicKey
  coinbaseReceiver : PublicKey
  superchargeCoinbase : Bool

variable (hashes : Hashes)

/-- `Epoch_data.update_pair`. -/
def updatePair (constants : Constants) (stakingData nextData : EpochData)
    (epochCount prevEpoch nextEpoch nextSlot : UInt32) (block : Block) (totalCurrency : Nat) :
    Option (EpochData × EpochData × UInt32) := do
  -- at genesis the epoch ledgers can be different from the genesis ledger
  let nextStakingLedger :=
    if block.snarkedLedgerHash = block.genesisLedgerHash then nextData.ledger
    else ⟨block.snarkedLedgerHash, totalCurrency⟩
  let (stakingData', nextData', epochCount') ←
    if prevEpoch < nextEpoch then
      some (nextData, (⟨nextStakingLedger, nextData.seed, block.previousProtocolStateHash, 0, 1⟩ : EpochData),
        epochCount + 1)
    else if nextEpoch = prevEpoch then
      some (stakingData, { nextData with epochLength := nextData.epochLength + 1 }, epochCount)
    else none
  let inRange ← inSeedUpdateRange constants nextSlot
  let nextData'' :=
    if inRange then
      { nextData' with
        seed := hashes.updateSeed nextData'.seed block.producerVrfResult
        lockCheckpoint := block.previousProtocolStateHash }
    else nextData'
  some (stakingData', nextData'', epochCount')

/-! ### The consensus state -/

/-- `Consensus_state.Value.t`. -/
structure ConsensusState where
  blockchainLength : UInt32
  epochCount : UInt32
  minWindowDensity : UInt32
  subWindowDensities : List UInt32
  lastVrfOutput : Nat
  totalCurrency : Nat
  currGlobalSlot : GlobalSlot
  globalSlotSinceGenesis : UInt32
  stakingEpochData : EpochData
  nextEpochData : EpochData
  hasAncestorInSameCheckpointWindow : Bool
  blockStakeWinner : PublicKey
  blockCreator : PublicKey
  coinbaseReceiver : PublicKey
  superchargeCoinbase : Bool
deriving DecidableEq, Repr

/-- The errors of `Consensus_state.update`. -/
inductive UpdateError where
  | nextSlotSmaller (next current : GlobalSlot)
  | totalCurrency (supplyIncrease : Signed) (previous : Nat)
  | didNotIncrease (prevEpoch prevSlot nextEpoch nextSlot : UInt32)
deriving DecidableEq, Repr

/-- `Consensus_state.checkpoint_window`. -/
def checkpointWindow (slot : GlobalSlot) : UInt32 :=
  slot.slotNumber / constants.checkpointWindowSizeInSlots

/-- `Consensus_state.update`. -/
def update (hashes : Hashes) (constants : Constants) (previous : ConsensusState) (block : Block) :
    Outcome UpdateError ConsensusState := do
  let prevEpoch := previous.currGlobalSlot.epoch
  let prevSlot := previous.currGlobalSlot.slot
  let nextGlobalSlot := GlobalSlot.ofSlotNumber constants block.consensusTransition
  let slotDiff ← Outcome.okOr (nextGlobalSlot.diffSlots previous.currGlobalSlot)
    (.nextSlotSmaller nextGlobalSlot previous.currGlobalSlot)
  let totalCurrency ← Outcome.okOr (Amount.addSigned previous.totalCurrency block.supplyIncrease)
    (.totalCurrency block.supplyIncrease previous.totalCurrency)
  Outcome.okIfTrue (block.consensusTransition = 0 || previous.currGlobalSlot.lt nextGlobalSlot)
    (.didNotIncrease prevEpoch prevSlot nextGlobalSlot.epoch nextGlobalSlot.slot)
  let (stakingEpochData, nextEpochData, epochCount) ← Outcome.ofOption <|
    updatePair hashes constants previous.stakingEpochData previous.nextEpochData previous.epochCount
      prevEpoch nextGlobalSlot.epoch nextGlobalSlot.slot block totalCurrency
  let (minWindowDensity, subWindowDensities) :=
    updateMinWindowDensity true constants previous.currGlobalSlot nextGlobalSlot
      previous.subWindowDensities previous.minWindowDensity
  return {
    blockchainLength := previous.blockchainLength + 1
    epochCount
    minWindowDensity
    subWindowDensities
    lastVrfOutput := hashes.truncate block.producerVrfResult
    totalCurrency
    currGlobalSlot := nextGlobalSlot
    globalSlotSinceGenesis := previous.globalSlotSinceGenesis + slotDiff
    stakingEpochData
    nextEpochData
    hasAncestorInSameCheckpointWindow :=
      checkpointWindow constants (GlobalSlot.create constants prevEpoch prevSlot)
        = checkpointWindow constants (GlobalSlot.create constants nextGlobalSlot.epoch nextGlobalSlot.slot)
    blockStakeWinner := block.blockStakeWinner
    blockCreator := block.blockCreator
    coinbaseReceiver := block.coinbaseReceiver
    superchargeCoinbase := block.superchargeCoinbase }

/-- What `negative_one` is given: the fork, the genesis ledger and epoch data. -/
structure Genesis where
  fork : Option (UInt32 × UInt32)
  genesisLedger : EpochLedger
  genesisEpochData : Option ((EpochLedger × Nat) × Option (EpochLedger × Nat))
  genesisWinner : PublicKey
  dummyVrfOutput : Nat

/-- `Epoch_data.Staking.genesis` and `Epoch_data.Next.genesis`. -/
def EpochData.genesis (data : EpochLedger × Nat) : EpochData := ⟨data.1, data.2, 0, 0, 1⟩

/-- `Consensus_state.negative_one`. -/
def negativeOne (genesis : Genesis) : ConsensusState :=
  let (blockchainLength, globalSlotSinceGenesis) := genesis.fork.getD (0, 0)
  let (staking, next) :=
    match genesis.genesisEpochData with
    | none => ((genesis.genesisLedger, 0), (genesis.genesisLedger, 0))
    | some (staking, next) => (staking, next.getD staking)
  { blockchainLength
    epochCount := 0
    minWindowDensity := constants.slotsPerWindow
    subWindowDensities :=
      0 :: List.replicate (constants.subWindowsPerWindow.toNat - 1) constants.slotsPerSubWindow
    lastVrfOutput := genesis.dummyVrfOutput
    totalCurrency := genesis.genesisLedger.totalCurrency
    currGlobalSlot := GlobalSlot.zero constants
    globalSlotSinceGenesis
    stakingEpochData := EpochData.genesis staking
    nextEpochData := EpochData.genesis next
    hasAncestorInSameCheckpointWindow := false
    blockStakeWinner := genesis.genesisWinner
    blockCreator := genesis.genesisWinner
    coinbaseReceiver := genesis.genesisWinner
    superchargeCoinbase := true }

/-! ### The choice between two states -/

/-- `pred_case` of `is_short_range`. -/
def predCase (c1 c2 : ConsensusState) : Option Bool := do
  let inRange ← inSeedUpdateRange constants (c1.currGlobalSlot.slot + 1)
  some (c1.currGlobalSlot.epoch + 1 = c2.currGlobalSlot.epoch && !inRange
    && c1.nextEpochData.lockCheckpoint = c2.stakingEpochData.lockCheckpoint)

/-- `Hooks.is_short_range`. -/
def isShortRange (c1 c2 : ConsensusState) : Option Bool :=
  if c1.currGlobalSlot.epoch = c2.currGlobalSlot.epoch then
    some (c1.stakingEpochData.lockCheckpoint = c2.stakingEpochData.lockCheckpoint)
  else do
    if ← predCase constants c1 c2 then some true else predCase constants c2 c1

/-- `Hooks.select_status`. -/
inductive SelectStatus where
  | keep
  | take
deriving DecidableEq, Repr

/-- `With_hash.t` with the state hash. -/
structure WithHash where
  hash : Nat
  data : ConsensusState
deriving DecidableEq, Repr

/-- `less_than_or_equal_when`. -/
def lessThanOrEqualWhen (c : Ordering) (condition : Bool) : Bool :=
  c = .lt || c = .eq && condition

/-- `virtual_min_window_density`. -/
def virtualMinWindowDensity (maxSlot : GlobalSlot) (s : ConsensusState) : UInt32 :=
  if s.currGlobalSlot = maxSlot then s.minWindowDensity
  else
    (updateMinWindowDensity false constants s.currGlobalSlot maxSlot s.subWindowDensities s.minWindowDensity).1

/-- `candidate_vrf_is_bigger`. -/
def candidateVrfIsBigger (existing candidate : WithHash) : Bool :=
  lessThanOrEqualWhen
    (compare (hashes.blake2 existing.data.lastVrfOutput) (hashes.blake2 candidate.data.lastVrfOutput))
    (existing.hash < candidate.hash)

/-- `blockchain_length_is_longer`. -/
def blockchainLengthIsLonger (existing candidate : WithHash) : Bool :=
  lessThanOrEqualWhen (compare existing.data.blockchainLength candidate.data.blockchainLength)
    (candidateVrfIsBigger hashes existing candidate)

/-- `long_fork_chain_quality_is_better`. -/
def longForkChainQualityIsBetter (constants : Constants) (existing candidate : WithHash) : Bool :=
  let maxSlot := GlobalSlot.max candidate.data.currGlobalSlot existing.data.currGlobalSlot
  lessThanOrEqualWhen
    (compare (virtualMinWindowDensity constants maxSlot existing.data)
      (virtualMinWindowDensity constants maxSlot candidate.data))
    (blockchainLengthIsLonger hashes existing candidate)

/-- `Hooks.select`. -/
def select (constants : Constants) (existing candidate : WithHash) : Option SelectStatus := do
  let shortRange ← isShortRange constants existing.data candidate.data
  let shouldTake :=
    if shortRange then blockchainLengthIsLonger hashes existing candidate
    else longForkChainQualityIsBetter hashes constants existing candidate
  some (if shouldTake then .take else .keep)

end MinaProtocol.Consensus
