import MinaProtocol.Consensus.Chain

/-!
# Consensus.EpochHistory

What the consensus state records of the chain that it ends. A chain starts with the block
of `create_genesis` and goes on with blocks at increasing slots; an epoch can be skipped,
and it can be without a block in the range in which the seed is updated. `RecordsHistory`
gives each field of the last state as a function of the blocks before it.
-/

namespace MinaProtocol.Consensus

variable {hashes : Hashes} {constants : Constants} {s : ConsensusState} {chain older : List Link}
  {genesis : Genesis} {last b : Link} {e : UInt32} {block : Block} {hash vrf : Nat}

/-! ### Chains from the genesis block -/

/-- What `create_genesis_from_transition` gives to `update` at the slot zero. -/
def genesisBlock (genesis : Genesis) (negativeOneProtocolStateHash producerVrfResult : Nat) : Block where
  consensusTransition := 0
  previousProtocolStateHash := negativeOneProtocolStateHash
  supplyIncrease := Signed.zero
  snarkedLedgerHash := genesis.genesisLedger.hash
  genesisLedgerHash := genesis.genesisLedger.hash
  producerVrfResult
  blockStakeWinner := genesis.genesisWinner
  blockCreator := genesis.genesisWinner
  coinbaseReceiver := genesis.genesisWinner
  superchargeCoinbase := true

/-- `Consensus_state.create_genesis`. The result of the VRF of the genesis winner is given. -/
def createGenesis (hashes : Hashes) (constants : Constants) (genesis : Genesis)
    (negativeOneProtocolStateHash producerVrfResult : Nat) : Outcome UpdateError ConsensusState :=
  update hashes constants (negativeOne constants genesis)
    (genesisBlock genesis negativeOneProtocolStateHash producerVrfResult)

/-- A block of a chain, with the state that `update` computes for it. -/
structure Link where
  block : Block
  state : ConsensusState

namespace Link

/-- The epoch of the block. -/
def epoch (b : Link) : UInt32 := b.state.currGlobalSlot.epoch

/-- The hash of the state before the block. -/
def parentHash (b : Link) : Nat := b.block.previousProtocolStateHash

/-- The slot of the block is in the first two thirds of its epoch. -/
def InSeedRange (constants : Constants) (b : Link) : Prop :=
  3 * b.state.currGlobalSlot.slot.toNat < 2 * constants.slotsPerEpoch.toNat

instance (b : Link) : Decidable (b.InSeedRange constants) :=
  inferInstanceAs (Decidable (_ < _))

end Link

/-- The chains from the genesis block on, the newest block first. -/
inductive BlockChain (hashes : Hashes) (constants : Constants) (genesis : Genesis) :
    List Link → Prop where
  | genesis {negativeOneHash vrf : Nat} {s : ConsensusState} :
      createGenesis hashes constants genesis negativeOneHash vrf = .ok s →
      BlockChain hashes constants genesis [⟨genesisBlock genesis negativeOneHash vrf, s⟩]
  | step {parent : Link} {older : List Link} {block : Block} {s : ConsensusState} :
      BlockChain hashes constants genesis (parent :: older) →
      parent.state.currGlobalSlot.slotNumber < block.consensusTransition →
      update hashes constants parent.state block = .ok s →
      BlockChain hashes constants genesis (⟨block, s⟩ :: parent :: older)

/-! ### What a chain says of itself -/

/-- The blocks of an epoch. -/
def blocksIn (e : UInt32) (chain : List Link) : List Link := chain.filter fun b => b.epoch = e

/-- The last block before an epoch. -/
def lastBefore (e : UInt32) (chain : List Link) : Option Link := chain.find? fun b => b.epoch < e

/-- The blocks that start a later epoch than that of the block before. -/
def epochChanges (chain : List Link) : Nat :=
  (chain.zip chain.tail).countP fun (b, parent) => parent.epoch < b.epoch

/-- The blocks in the range in which the seed is updated. -/
def seedBlocks (constants : Constants) (chain : List Link) : List Link :=
  chain.filter fun b => b.InSeedRange constants

/-- A seed after the blocks of a chain, the oldest block first. -/
def foldSeed (hashes : Hashes) (seed : Nat) (blocks : List Link) : Nat :=
  blocks.foldr (fun b seed => hashes.updateSeed seed b.block.producerVrfResult) seed

/-- The supply increase of the blocks of a chain. -/
def totalIncrease (chain : List Link) : Int := (chain.map fun b => b.block.supplyIncrease.toInt).sum

/-- The number of blocks in an epoch, and in epoch 0 the length that the genesis data has. -/
def recordedLength (constants : Constants) (genesis : Genesis) (chain : List Link) (e : UInt32) : Nat :=
  (blocksIn e chain).length
    + if e = 0 then (negativeOne constants genesis).nextEpochData.epochLength.toNat else 0

/-- The state after the blocks of a chain records them. The data of epoch 0 is that of the
genesis, where `epoch_length` is one and the checkpoints are zero. -/
structure RecordsHistory (hashes : Hashes) (constants : Constants) (genesis : Genesis)
    (chain : List Link) (s : ConsensusState) : Prop where
  epochCount : s.epochCount.toNat = epochChanges chain
  epochLength : s.nextEpochData.epochLength
    = UInt32.ofNat (recordedLength constants genesis chain s.currGlobalSlot.epoch)
  epochLength_exact : s.currGlobalSlot.epoch ≠ 0 ∨ constants.slotsPerEpoch.toNat + 1 < 2 ^ 32 →
    s.nextEpochData.epochLength.toNat = recordedLength constants genesis chain s.currGlobalSlot.epoch
  seed : s.nextEpochData.seed
    = foldSeed hashes (negativeOne constants genesis).nextEpochData.seed (seedBlocks constants chain)
  lockCheckpoint : s.nextEpochData.lockCheckpoint
    = ((seedBlocks constants (blocksIn s.currGlobalSlot.epoch chain)).head?.map Link.parentHash).getD 0
  startCheckpoint : if s.currGlobalSlot.epoch = 0 then s.nextEpochData.startCheckpoint = 0
    else (blocksIn s.currGlobalSlot.epoch chain).getLast?.map Link.parentHash
      = some s.nextEpochData.startCheckpoint
  staking : s.stakingEpochData
    = ((lastBefore s.currGlobalSlot.epoch chain).map fun b => b.state.nextEpochData).getD
      (negativeOne constants genesis).stakingEpochData
  globalSlot : s.globalSlotSinceGenesis - s.currGlobalSlot.slotNumber
    = (negativeOne constants genesis).globalSlotSinceGenesis
  totalCurrency : (s.totalCurrency : Int)
    = (negativeOne constants genesis).totalCurrency + totalIncrease chain

/-! ### What a block does to the epoch data -/

/-- The update of the seed and the lock checkpoint by a block. -/
def withSeed (hashes : Hashes) (constants : Constants) (slot : UInt32) (block : Block) (data : EpochData) : EpochData :=
  if slot < constants.slotsPerEpoch / 3 * 2 then
    { data with
      seed := hashes.updateSeed data.seed block.producerVrfResult
      lockCheckpoint := block.previousProtocolStateHash }
  else data

/-- The data of an epoch that starts with the block. -/
def freshEpoch (nextData : EpochData) (block : Block) (totalCurrency : Nat) : EpochData where
  ledger := if block.snarkedLedgerHash = block.genesisLedgerHash then nextData.ledger
    else ⟨block.snarkedLedgerHash, totalCurrency⟩
  seed := nextData.seed
  startCheckpoint := block.previousProtocolStateHash
  lockCheckpoint := 0
  epochLength := 1

/-- The data of an epoch with the block counted. -/
def continuedEpoch (nextData : EpochData) : EpochData :=
  { nextData with epochLength := nextData.epochLength + 1 }

theorem updatePair_eq_some {staking next staking' next' : EpochData}
    {count prevEpoch nextEpoch slot count' : UInt32} {total : Nat}
    (h : updatePair hashes constants staking next count prevEpoch nextEpoch slot block total
      = some (staking', next', count')) :
    EpochInThirds constants ∧
      ((prevEpoch < nextEpoch ∧ staking' = next ∧ count' = count + 1
          ∧ next' = withSeed hashes constants slot block (freshEpoch next block total))
        ∨ (nextEpoch = prevEpoch ∧ staking' = staking ∧ count' = count
          ∧ next' = withSeed hashes constants slot block (continuedEpoch next))) := by
  by_cases h3 : EpochInThirds constants
  · refine ⟨h3, ?_⟩
    unfold updatePair at h
    rw [inSeedUpdateRange_some h3] at h
    unfold withSeed
    by_cases hlt : prevEpoch < nextEpoch
    · rw [if_pos hlt] at h
      simp only [Option.bind_eq_bind, Option.bind_some, Option.some.injEq, Prod.mk.injEq, decide_eq_true_eq] at h
      obtain ⟨hs, hn, hc⟩ := h
      exact .inl ⟨hlt, hs.symm, hc.symm, hn.symm⟩
    · by_cases heq : nextEpoch = prevEpoch
      · rw [if_neg hlt, if_pos heq] at h
        simp only [Option.bind_eq_bind, Option.bind_some, Option.some.injEq, Prod.mk.injEq, decide_eq_true_eq] at h
        obtain ⟨hs, hn, hc⟩ := h
        exact .inr ⟨heq, hs.symm, hc.symm, hn.symm⟩
      · simp only [hlt, heq, if_false, Option.bind_eq_bind, Option.bind_none, reduceCtorEq] at h
  · unfold updatePair at h
    simp only [inSeedUpdateRange_none h3, Option.bind_eq_bind, Option.bind_none,
      Option.bind_fun_none, ite_self, reduceCtorEq] at h

theorem totals_of_update {s' : ConsensusState} (h : update hashes constants s block = .ok s') :
    (s'.totalCurrency : Int) = s.totalCurrency + block.supplyIncrease.toInt
      ∧ s'.globalSlotSinceGenesis - s'.currGlobalSlot.slotNumber
        = s.globalSlotSinceGenesis - s.currGlobalSlot.slotNumber := by
  unfold update at h
  obtain ⟨diff, hdiff, h⟩ := Outcome.bind_eq_ok.1 h
  obtain ⟨total, htotal, h⟩ := Outcome.bind_eq_ok.1 h
  obtain ⟨-, -, h⟩ := Outcome.bind_eq_ok.1 h
  obtain ⟨⟨staking, next, count⟩, -, h⟩ := Outcome.bind_eq_ok.1 h
  obtain rfl := Outcome.ok.inj h
  refine ⟨Amount.addSigned_eq_some (Outcome.okOr_eq_ok.1 htotal), ?_⟩
  have hd := Outcome.okOr_eq_ok.1 hdiff
  unfold GlobalSlot.diffSlots at hd
  split at hd
  · cases hd
  · obtain rfl := Option.some.inj hd
    change s.globalSlotSinceGenesis + (block.consensusTransition - s.currGlobalSlot.slotNumber)
      - block.consensusTransition = _
    grind

/-! ### A block more -/

theorem epochChanges_cons (b parent : Link) (older : List Link) : epochChanges (b :: parent :: older)
      = epochChanges (parent :: older) + if parent.epoch < b.epoch then 1 else 0 := by
  unfold epochChanges
  rw [List.tail_cons, List.zip_cons_cons, List.countP_cons]
  simp only [decide_eq_true_eq, List.tail_cons]

theorem seedBlocks_cons (b : Link) (chain : List Link) : seedBlocks constants (b :: chain)
      = if b.InSeedRange constants then b :: seedBlocks constants chain
        else seedBlocks constants chain := by
  unfold seedBlocks
  rw [List.filter_cons]
  simp only [decide_eq_true_eq]

theorem blocksIn_cons_same (h : b.epoch = e) : blocksIn e (b :: chain) = b :: blocksIn e chain := by
  unfold blocksIn
  rw [List.filter_cons, if_pos (decide_eq_true h)]

theorem blocksIn_of_lt (h : ∀ b ∈ chain, b.epoch < e) : blocksIn e chain = [] := by
  refine List.filter_eq_nil_iff.2 fun b hb => ?_
  have hne : b.epoch ≠ e := UInt32.ne_of_lt (h b hb)
  simpa using hne

theorem lastBefore_cons_same (h : b.epoch = e) : lastBefore e (b :: chain) = lastBefore e chain := by
  have hnot : ¬ b.epoch < e := by
    rw [h]
    exact UInt32.lt_irrefl e
  unfold lastBefore
  rw [List.find?_cons_of_neg (by simpa using hnot)]

theorem lastBefore_cons_later {parent : Link} (h : parent.epoch < b.epoch) :
    lastBefore b.epoch (b :: parent :: older) = some parent := by
  rw [lastBefore_cons_same rfl]
  unfold lastBefore
  rw [List.find?_cons_of_pos (by simpa using h)]

variable (h3 : EpochInThirds constants)

include h3

theorem inSeedRange_iff (b : Link) :
    b.InSeedRange constants ↔ b.state.currGlobalSlot.slot < constants.slotsPerEpoch / 3 * 2 := by
  unfold Link.InSeedRange
  rw [UInt32.lt_iff_toNat_lt, h3.toNat.2, h3.toNat.1]
  omega

theorem foldSeed_cons (b : Link) (chain : List Link) (seed : Nat) :
    foldSeed hashes seed (seedBlocks constants (b :: chain))
      = if b.state.currGlobalSlot.slot < constants.slotsPerEpoch / 3 * 2 then
          hashes.updateSeed (foldSeed hashes seed (seedBlocks constants chain)) b.block.producerVrfResult
        else foldSeed hashes seed (seedBlocks constants chain) := by
  rw [seedBlocks_cons]
  by_cases h : b.InSeedRange constants
  · rw [if_pos h, if_pos ((inSeedRange_iff h3 b).1 h)]
    rfl
  · rw [if_neg h, if_neg (mt (inSeedRange_iff h3 b).2 h)]

theorem lockCheckpoint_cons (b : Link) (chain : List Link) :
    ((seedBlocks constants (b :: chain)).head?.map Link.parentHash).getD 0
      = if b.state.currGlobalSlot.slot < constants.slotsPerEpoch / 3 * 2 then b.parentHash
        else ((seedBlocks constants chain).head?.map Link.parentHash).getD 0 := by
  rw [seedBlocks_cons]
  by_cases h : b.InSeedRange constants
  · rw [if_pos h, if_pos ((inSeedRange_iff h3 b).1 h)]
    rfl
  · rw [if_neg h, if_neg (mt (inSeedRange_iff h3 b).2 h)]

omit h3

section WithSeed

variable (slot : UInt32) (block : Block) (data : EpochData)

theorem withSeed_seed : (withSeed hashes constants slot block data).seed
    = if slot < constants.slotsPerEpoch / 3 * 2 then
        hashes.updateSeed data.seed block.producerVrfResult
      else data.seed := by
  unfold withSeed
  split <;> rfl

theorem withSeed_lockCheckpoint : (withSeed hashes constants slot block data).lockCheckpoint
    = if slot < constants.slotsPerEpoch / 3 * 2 then block.previousProtocolStateHash
      else data.lockCheckpoint := by
  unfold withSeed
  split <;> rfl

@[simp] theorem withSeed_startCheckpoint :
    (withSeed hashes constants slot block data).startCheckpoint = data.startCheckpoint := by
  unfold withSeed
  split <;> rfl

@[simp] theorem withSeed_epochLength : (withSeed hashes constants slot block data).epochLength = data.epochLength := by
  unfold withSeed
  split <;> rfl

@[simp] theorem withSeed_ledger : (withSeed hashes constants slot block data).ledger = data.ledger := by
  unfold withSeed
  split <;> rfl

end WithSeed

/-! ### The slots of a chain -/

/-- What follows from the slots of the blocks. -/
structure Ordered (constants : Constants) (last : Link) (older : List Link) : Prop where
  madeFor : MadeFor constants last.state
  epoch_le : ∀ b ∈ last :: older, b.epoch.toNat ≤ last.epoch.toNat
  length_le : (blocksIn last.epoch (last :: older)).length ≤ last.state.currGlobalSlot.slot.toNat + 1
  epochChanges_le : epochChanges (last :: older) ≤ last.epoch.toNat

theorem Ordered.of_genesis
    (hu : Updated hashes constants (negativeOne constants genesis) (genesisBlock genesis hash vrf) s) :
    Ordered constants ⟨genesisBlock genesis hash vrf, s⟩ [] := by
  refine ⟨hu.madeFor, ?_, ?_, Nat.zero_le _⟩
  · intro b hb
    rw [List.mem_singleton.1 hb]
  · exact (List.length_filter_le _ _).trans (Nat.le_add_left 1 _)

theorem Ordered.step {parent : Link} {older : List Link} {block : Block} {s : ConsensusState}
    (h : Ordered constants parent older) (hlt : parent.state.currGlobalSlot.slotNumber < block.consensusTransition)
    (hu : Updated hashes constants parent.state block s) : Ordered constants ⟨block, s⟩ (parent :: older) := by
  have hlt' : parent.state.currGlobalSlot.slotNumber.toNat < s.currGlobalSlot.slotNumber.toNat := by
    rw [hu.currGlobalSlot]
    exact UInt32.lt_iff_toNat_lt.1 hlt
  have hle : parent.epoch.toNat ≤ s.currGlobalSlot.epoch.toNat :=
    epoch_le_of_slot_le h.madeFor hu.madeFor hlt'.le
  refine ⟨hu.madeFor, ?_, ?_, ?_⟩
  · intro b hb
    rcases List.mem_cons.1 hb with rfl | hb
    · exact le_rfl
    · exact (h.epoch_le b hb).trans hle
  · rw [blocksIn_cons_same rfl, List.length_cons]
    by_cases heq : s.currGlobalSlot.epoch = parent.epoch
    · have hslot := slot_lt_slot h.madeFor hu.madeFor hlt' heq
      have hlen := h.length_le
      change (blocksIn s.currGlobalSlot.epoch _).length + 1 ≤ s.currGlobalSlot.slot.toNat + 1
      rw [heq]
      omega
    · have hnew : ∀ b ∈ parent :: older, b.epoch < s.currGlobalSlot.epoch := by
        intro b hb
        have hb' := h.epoch_le b hb
        have hne : s.currGlobalSlot.epoch.toNat ≠ parent.epoch.toNat :=
          fun e => heq (UInt32.toNat_inj.1 e)
        rw [UInt32.lt_iff_toNat_lt]
        omega
      change (blocksIn s.currGlobalSlot.epoch _).length + 1 ≤ _
      rw [blocksIn_of_lt hnew]
      exact Nat.le_add_left 1 _
  · rw [epochChanges_cons]
    have hcount := h.epochChanges_le
    change _ ≤ s.currGlobalSlot.epoch.toNat
    split
    · rename_i hnew
      have := UInt32.lt_iff_toNat_lt.1 hnew
      change parent.epoch.toNat < s.currGlobalSlot.epoch.toNat at this
      omega
    · omega

theorem BlockChain.ordered
    (h : BlockChain hashes constants genesis (last :: older)) : Ordered constants last older := by
  generalize hc : last :: older = chain at h
  induction h generalizing last older with
  | genesis hu =>
    obtain ⟨rfl, rfl⟩ := List.cons.inj hc
    exact Ordered.of_genesis (updated_of_update hu)
  | step _ hlt hu ih =>
    obtain ⟨rfl, rfl⟩ := List.cons.inj hc
    exact (ih rfl).step hlt (updated_of_update hu)

theorem Ordered.recordedLength_lt (h : Ordered constants last older)
    (hexact : last.epoch ≠ 0 ∨ constants.slotsPerEpoch.toNat + 1 < 2 ^ 32) :
    recordedLength constants genesis (last :: older) last.epoch < 2 ^ 32 := by
  have hone : (negativeOne constants genesis).nextEpochData.epochLength.toNat = 1 := rfl
  have hlen := h.length_le
  have hmod := Nat.mod_lt last.state.currGlobalSlot.slotNumber.toNat (slotsPerEpoch_pos constants)
  rw [← h.madeFor.slot] at hmod
  have hlt := constants.slotsPerEpoch.toNat_lt
  unfold recordedLength
  rw [hone]
  split
  · rename_i hzero
    have := hexact.resolve_left (not_not.2 hzero)
    omega
  · omega

/-! ### The records of a chain -/

theorem recordsHistory_negativeOne (hashes : Hashes) (constants : Constants) (genesis : Genesis) :
    RecordsHistory hashes constants genesis [] (negativeOne constants genesis) := by
  have hzero : (negativeOne constants genesis).currGlobalSlot.epoch = 0 := UInt32.zero_div
  have hlength : recordedLength constants genesis [] 0 = 1 := rfl
  refine ⟨rfl, ?_, ?_, rfl, rfl, ?_, rfl, UInt32.sub_zero _, ?_⟩
  · rw [hzero, hlength]
    rfl
  · intro _
    rw [hzero, hlength]
    rfl
  · rw [if_pos hzero]
    rfl
  · exact (add_zero _).symm

section Step

variable {genesis : Genesis} {chain : List Link} {s s' : ConsensusState} {block : Block}

theorem RecordsHistory.sameEpoch (h : RecordsHistory hashes constants genesis chain s)
    (hhead : ∀ b ∈ chain.head?, b.state = s) (ho : Ordered constants ⟨block, s'⟩ chain)
    (hupdate : update hashes constants s block = .ok s') (h3 : EpochInThirds constants)
    (heq : s'.currGlobalSlot.epoch = s.currGlobalSlot.epoch)
    (hstaking : s'.stakingEpochData = s.stakingEpochData) (hcount : s'.epochCount = s.epochCount)
    (hnext : s'.nextEpochData = withSeed hashes constants s'.currGlobalSlot.slot block
      (continuedEpoch s.nextEpochData)) :
    RecordsHistory hashes constants genesis (⟨block, s'⟩ :: chain) s' := by
  obtain ⟨htotal, hglobal⟩ := totals_of_update hupdate
  have hlast : (⟨block, s'⟩ : Link).epoch = s'.currGlobalSlot.epoch := rfl
  have hblocks : blocksIn s'.currGlobalSlot.epoch (⟨block, s'⟩ :: chain)
      = ⟨block, s'⟩ :: blocksIn s.currGlobalSlot.epoch chain := by
    rw [blocksIn_cons_same hlast, heq]
  have hlength : s'.nextEpochData.epochLength
      = UInt32.ofNat (recordedLength constants genesis (⟨block, s'⟩ :: chain) s'.currGlobalSlot.epoch) := by
    rw [hnext, withSeed_epochLength]
    unfold recordedLength
    rw [hblocks, List.length_cons, Nat.add_right_comm, UInt32.ofNat_add, heq]
    exact congrArg (· + 1) h.epochLength
  refine ⟨?_, hlength, ?_, ?_, ?_, ?_, ?_, ?_, ?_⟩
  · rw [hcount, h.epochCount]
    cases chain with
    | nil => rfl
    | cons parent older =>
      have hparent : parent.epoch = s'.currGlobalSlot.epoch := by
        unfold Link.epoch
        rw [hhead parent rfl, heq]
      rw [epochChanges_cons, if_neg, add_zero]
      rw [hparent]
      exact UInt32.lt_irrefl _
  · intro hexact
    rw [hlength, UInt32.toNat_ofNat']
    exact Nat.mod_eq_of_lt (ho.recordedLength_lt hexact)
  · rw [hnext, withSeed_seed, foldSeed_cons h3, ← h.seed]
    rfl
  · rw [hblocks, lockCheckpoint_cons h3, hnext, withSeed_lockCheckpoint, ← h.lockCheckpoint]
    rfl
  · have hstart := h.startCheckpoint
    rw [hnext, withSeed_startCheckpoint, hblocks, heq]
    split
    · rename_i hzero
      rwa [if_pos hzero] at hstart
    · rename_i hne
      rw [if_neg hne] at hstart
      obtain ⟨first, hfirst, hhash⟩ := Option.map_eq_some_iff.1 hstart
      rw [List.getLast?_cons, hfirst]
      exact congrArg some hhash
  · rw [hstaking, lastBefore_cons_same hlast, heq]
    exact h.staking
  · rw [hglobal, h.globalSlot]
  · rw [htotal, h.totalCurrency]
    unfold totalIncrease
    rw [List.map_cons, List.sum_cons]
    ring

theorem RecordsHistory.laterEpoch {parent : Link} {older : List Link}
    (h : RecordsHistory hashes constants genesis (parent :: older) parent.state)
    (hparent : Ordered constants parent older) (ho : Ordered constants ⟨block, s'⟩ (parent :: older))
    (hupdate : update hashes constants parent.state block = .ok s') (h3 : EpochInThirds constants)
    (hlt : parent.epoch < s'.currGlobalSlot.epoch) (hstaking : s'.stakingEpochData = parent.state.nextEpochData)
    (hcount : s'.epochCount = parent.state.epochCount + 1)
    (hnext : s'.nextEpochData = withSeed hashes constants s'.currGlobalSlot.slot block
      (freshEpoch parent.state.nextEpochData block s'.totalCurrency)) :
    RecordsHistory hashes constants genesis (⟨block, s'⟩ :: parent :: older) s' := by
  obtain ⟨htotal, hglobal⟩ := totals_of_update hupdate
  have hltNat := UInt32.lt_iff_toNat_lt.1 hlt
  have hne : s'.currGlobalSlot.epoch ≠ 0 := by
    intro hzero
    rw [hzero] at hltNat
    exact Nat.not_lt_zero _ hltNat
  have hlast : (⟨block, s'⟩ : Link).epoch = s'.currGlobalSlot.epoch := rfl
  have hblocks : blocksIn s'.currGlobalSlot.epoch (⟨block, s'⟩ :: parent :: older) = [⟨block, s'⟩] := by
    rw [blocksIn_cons_same hlast, blocksIn_of_lt]
    intro b hb
    exact UInt32.lt_iff_toNat_lt.2 (lt_of_le_of_lt (hparent.epoch_le b hb) hltNat)
  have hlength : recordedLength constants genesis (⟨block, s'⟩ :: parent :: older)
      s'.currGlobalSlot.epoch = 1 := by
    unfold recordedLength
    rw [hblocks, if_neg hne]
    rfl
  have hone : s'.nextEpochData.epochLength = 1 := by
    rw [hnext, withSeed_epochLength]
    rfl
  refine ⟨?_, ?_, ?_, ?_, ?_, ?_, ?_, ?_, ?_⟩
  · have hchanges := ho.epochChanges_le
    rw [epochChanges_cons, hlast, if_pos hlt] at hchanges
    rw [epochChanges_cons, hlast, if_pos hlt]
    have hbound := s'.currGlobalSlot.epoch.toNat_lt
    rw [hcount, UInt32.toNat_add, h.epochCount, UInt32.toNat_one]
    omega
  · rw [hlength, hone]
    rfl
  · intro _
    rw [hlength, hone]
    rfl
  · rw [hnext, withSeed_seed, foldSeed_cons h3, ← h.seed]
    rfl
  · rw [hblocks, lockCheckpoint_cons h3, hnext, withSeed_lockCheckpoint]
    rfl
  · rw [if_neg hne, hblocks, hnext, withSeed_startCheckpoint]
    rfl
  · have hbefore : lastBefore s'.currGlobalSlot.epoch (⟨block, s'⟩ :: parent :: older) = some parent :=
      lastBefore_cons_later hlt
    rw [hstaking, hbefore]
    rfl
  · rw [hglobal, h.globalSlot]
  · rw [htotal, h.totalCurrency]
    unfold totalIncrease
    rw [List.map_cons (a := (⟨block, s'⟩ : Link)), List.sum_cons]
    ring

end Step

theorem RecordsHistory.of_genesis (h : createGenesis hashes constants genesis hash vrf = .ok s) :
    RecordsHistory hashes constants genesis [⟨genesisBlock genesis hash vrf, s⟩] s := by
  have hu := updated_of_update h
  obtain ⟨h3, hcase⟩ := updatePair_eq_some hu.epochData
  have hzero : s.currGlobalSlot.epoch = (negativeOne constants genesis).currGlobalSlot.epoch := by
    rw [hu.currGlobalSlot]
    rfl
  rcases hcase with ⟨hlt, -⟩ | ⟨heq, hstaking, hcount, hnext⟩
  · rw [hzero] at hlt
    exact absurd hlt (UInt32.lt_irrefl _)
  · exact (recordsHistory_negativeOne hashes constants genesis).sameEpoch (by simp)
      (Ordered.of_genesis hu) h h3 heq hstaking hcount hnext

theorem RecordsHistory.step {genesis : Genesis} {parent : Link} {older : List Link} {block : Block}
    {s : ConsensusState} (h : RecordsHistory hashes constants genesis (parent :: older) parent.state)
    (ho : Ordered constants parent older) (hlt : parent.state.currGlobalSlot.slotNumber < block.consensusTransition)
    (hupdate : update hashes constants parent.state block = .ok s) :
    RecordsHistory hashes constants genesis (⟨block, s⟩ :: parent :: older) s := by
  have hu := updated_of_update hupdate
  have ho' := ho.step hlt hu
  obtain ⟨h3, hcase⟩ := updatePair_eq_some hu.epochData
  rcases hcase with ⟨hepoch, hstaking, hcount, hnext⟩ | ⟨heq, hstaking, hcount, hnext⟩
  · exact h.laterEpoch ho ho' hupdate h3 hepoch hstaking hcount hnext
  · refine h.sameEpoch ?_ ho' hupdate h3 heq hstaking hcount hnext
    intro b hb
    rw [List.head?_cons, Option.mem_some_iff] at hb
    rw [hb]

theorem BlockChain.recordsHistory (h : BlockChain hashes constants genesis (last :: older)) :
    RecordsHistory hashes constants genesis (last :: older) last.state := by
  generalize hc : last :: older = chain at h
  induction h generalizing last older with
  | genesis hu =>
    obtain ⟨rfl, rfl⟩ := List.cons.inj hc
    exact RecordsHistory.of_genesis hu
  | step hchain hlt hu ih =>
    obtain ⟨rfl, rfl⟩ := List.cons.inj hc
    exact (ih rfl).step hchain.ordered hlt hu

/-- **The epoch data records the history of the chain.** Every state of a chain that
starts with the genesis block is determined by the blocks up to it. -/
theorem epoch_data_records_history (hashes : Hashes) (constants : Constants) (genesis : Genesis)
    (last : Link) (older : List Link) (hchain : BlockChain hashes constants genesis (last :: older)) :
    RecordsHistory hashes constants genesis (last :: older) last.state :=
  hchain.recordsHistory

/-- The state of the genesis block on a negative-one state with the hash 1. -/
def smallGenesisState : ConsensusState :=
  match createGenesis smallHashes smallConstants smallGenesis 1 1 with
  | .ok s => s
  | _ => negativeOne smallConstants smallGenesis

theorem createGenesis_small : createGenesis smallHashes smallConstants smallGenesis 1 1 = .ok smallGenesisState := by
  decide

theorem smallChain : BlockChain smallHashes smallConstants smallGenesis
    [⟨blockAt 7 1, afterBlock smallConstants (afterBlock smallConstants smallGenesisState 2) 7⟩,
      ⟨blockAt 2 1, afterBlock smallConstants smallGenesisState 2⟩, ⟨genesisBlock smallGenesis 1 1, smallGenesisState⟩] := by
  have h2 : update smallHashes smallConstants smallGenesisState (blockAt 2 1)
      = .ok (afterBlock smallConstants smallGenesisState 2) := by decide
  have h7 : update smallHashes smallConstants (afterBlock smallConstants smallGenesisState 2) (blockAt 7 1)
      = .ok (afterBlock smallConstants (afterBlock smallConstants smallGenesisState 2) 7) := by decide
  exact .step (.step (.genesis createGenesis_small) (by decide) h2) (by decide) h7

/-- The genesis block and a block in each of the epochs 0 and 2. -/
theorem epoch_data_records_history_skipped_epoch : RecordsHistory smallHashes smallConstants smallGenesis
      [⟨blockAt 7 1, afterBlock smallConstants (afterBlock smallConstants smallGenesisState 2) 7⟩,
        ⟨blockAt 2 1, afterBlock smallConstants smallGenesisState 2⟩,
        ⟨genesisBlock smallGenesis 1 1, smallGenesisState⟩]
      (afterBlock smallConstants (afterBlock smallConstants smallGenesisState 2) 7) :=
  epoch_data_records_history smallHashes smallConstants smallGenesis _ _ smallChain

/-- The start checkpoint of epoch 0 is not the hash of the state before the genesis block. -/
theorem start_checkpoint_of_genesis_epoch :
    BlockChain smallHashes smallConstants smallGenesis [⟨genesisBlock smallGenesis 1 1, smallGenesisState⟩]
      ∧ (blocksIn smallGenesisState.currGlobalSlot.epoch
          [⟨genesisBlock smallGenesis 1 1, smallGenesisState⟩]).getLast?.map Link.parentHash = some 1
      ∧ smallGenesisState.nextEpochData.startCheckpoint = 0 := by
  refine ⟨.genesis createGenesis_small, ?_, by decide⟩
  decide

end MinaProtocol.Consensus
