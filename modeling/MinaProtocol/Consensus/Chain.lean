import MinaProtocol.Consensus.Selection

/-!
# Consensus.Chain

Chains of consensus states. `Updated` says what a block does to the state. A state that
extends another one with the same epoch has the same staking epoch data; the lock
checkpoint of the next epoch is fixed as soon as the next slot is out of the range in
which the seed is updated, and becomes the staking lock checkpoint when the epoch ends.
So two chains that are in short range stay in short range until one of them is ahead by
a further epoch (`short_range_persists`).
-/

namespace MinaProtocol.Consensus

variable {hashes : Hashes} {constants : Constants} {s s' a : ConsensusState} {block : Block}

/-- What `update` does when it returns. -/
structure Updated (hashes : Hashes) (constants : Constants) (s : ConsensusState) (block : Block)
    (s' : ConsensusState) : Prop where
  currGlobalSlot : s'.currGlobalSlot = GlobalSlot.ofSlotNumber constants block.consensusTransition
  blockchainLength : s'.blockchainLength = s.blockchainLength + 1
  density : (s'.minWindowDensity, s'.subWindowDensities) = updateMinWindowDensity true constants
    s.currGlobalSlot s'.currGlobalSlot s.subWindowDensities s.minWindowDensity
  epochData : updatePair hashes constants s.stakingEpochData s.nextEpochData s.epochCount
    s.currGlobalSlot.epoch s'.currGlobalSlot.epoch s'.currGlobalSlot.slot block s'.totalCurrency
      = some (s'.stakingEpochData, s'.nextEpochData, s'.epochCount)

theorem updated_of_update (h : update hashes constants s block = .ok s') : Updated hashes constants s block s' := by
  unfold update at h
  obtain ⟨diff, -, h⟩ := Outcome.bind_eq_ok.1 h
  obtain ⟨total, -, h⟩ := Outcome.bind_eq_ok.1 h
  obtain ⟨-, -, h⟩ := Outcome.bind_eq_ok.1 h
  obtain ⟨⟨staking, next, count⟩, hpair, h⟩ := Outcome.bind_eq_ok.1 h
  obtain rfl := Outcome.ok.inj h
  exact ⟨rfl, rfl, rfl, Outcome.ofOption_eq_ok.1 hpair⟩

/-- The states that are reached from a state by blocks with increasing slots. -/
inductive Extends (hashes : Hashes) (constants : Constants) (a : ConsensusState) :
    ConsensusState → Prop where
  | refl : Extends hashes constants a a
  | step {s s' : ConsensusState} {block : Block} : Extends hashes constants a s →
      s.currGlobalSlot.slotNumber < block.consensusTransition →
      update hashes constants s block = .ok s' → Extends hashes constants a s'

theorem Updated.lockCheckpoint (h3 : EpochInThirds constants) (h : Updated hashes constants s block s') :
    (s.currGlobalSlot.epoch < s'.currGlobalSlot.epoch ∧ s'.stakingEpochData = s.nextEpochData)
      ∨ (s'.currGlobalSlot.epoch = s.currGlobalSlot.epoch ∧ s'.stakingEpochData = s.stakingEpochData
        ∧ (¬ s'.currGlobalSlot.slot < constants.slotsPerEpoch / 3 * 2 →
          s'.nextEpochData.lockCheckpoint = s.nextEpochData.lockCheckpoint)) := by
  have hp := h.epochData
  unfold updatePair at hp
  rw [inSeedUpdateRange_some h3] at hp
  by_cases hlt : s.currGlobalSlot.epoch < s'.currGlobalSlot.epoch
  · simp only [hlt, if_true, Option.bind_eq_bind, Option.bind_some, Option.some.injEq, Prod.mk.injEq] at hp
    exact .inl ⟨hlt, hp.1.symm⟩
  · by_cases heq : s'.currGlobalSlot.epoch = s.currGlobalSlot.epoch
    · rw [if_neg hlt, if_pos heq] at hp
      simp only [Option.bind_eq_bind, Option.bind_some, Option.some.injEq, Prod.mk.injEq] at hp
      refine .inr ⟨heq, hp.1.symm, fun hrange => ?_⟩
      rw [← hp.2.1]
      simp [hrange]
    · simp only [hlt, heq, if_false, Option.bind_eq_bind, Option.bind_none, reduceCtorEq] at hp

/-! ### Epochs and slots as numbers -/

/-- The global slot was made for the constants. -/
def MadeFor (constants : Constants) (s : ConsensusState) : Prop :=
  s.currGlobalSlot.slotsPerEpoch = constants.slotsPerEpoch

/-- The number of slots of a third of an epoch. -/
def third (constants : Constants) : Nat := constants.slotsPerEpoch.toNat / 3

theorem slotsPerEpoch_pos (constants : Constants) : 0 < constants.slotsPerEpoch.toNat := by
  refine Nat.pos_of_ne_zero fun h => constants.slotsPerEpoch_ne ?_
  exact UInt32.toNat_inj.1 h

theorem EpochInThirds.toNat (h : EpochInThirds constants) : constants.slotsPerEpoch.toNat = 3 * third constants
      ∧ (constants.slotsPerEpoch / 3 * 2).toNat = 2 * third constants := by
  have hlt := constants.slotsPerEpoch.toNat_lt
  have h3 : (3 : UInt32).toNat = 3 := rfl
  have h2 : (2 : UInt32).toNat = 2 := rfl
  have heq := congrArg UInt32.toNat h
  rw [UInt32.toNat_mul, UInt32.toNat_div, h3] at heq
  unfold third
  rw [UInt32.toNat_mul, UInt32.toNat_div, h2, h3]
  omega

variable (h : MadeFor constants s)

include h

theorem MadeFor.epoch : s.currGlobalSlot.epoch.toNat
      = s.currGlobalSlot.slotNumber.toNat / constants.slotsPerEpoch.toNat := by
  unfold GlobalSlot.epoch
  rw [UInt32.toNat_div, h]

theorem MadeFor.slot : s.currGlobalSlot.slot.toNat
      = s.currGlobalSlot.slotNumber.toNat % constants.slotsPerEpoch.toNat := by
  unfold GlobalSlot.slot
  rw [UInt32.toNat_mod, h]

theorem MadeFor.slot_succ : (s.currGlobalSlot.slot + 1).toNat = s.currGlobalSlot.slot.toNat + 1 := by
  have hmod := Nat.mod_lt s.currGlobalSlot.slotNumber.toNat (slotsPerEpoch_pos constants)
  rw [← h.slot] at hmod
  have hlt := constants.slotsPerEpoch.toNat_lt
  rw [UInt32.toNat_add, UInt32.toNat_one]
  omega

theorem MadeFor.epoch_succ (h3 : EpochInThirds constants) :
    (s.currGlobalSlot.epoch + 1).toNat = s.currGlobalSlot.epoch.toNat + 1 := by
  have hlt := s.currGlobalSlot.slotNumber.toNat_lt
  have hpos := slotsPerEpoch_pos constants
  have hthird := h3.toNat.1
  have hle : s.currGlobalSlot.slotNumber.toNat / constants.slotsPerEpoch.toNat
      ≤ s.currGlobalSlot.slotNumber.toNat / 3 := Nat.div_le_div_left (by omega) (by omega)
  rw [← h.epoch] at hle
  rw [UInt32.toNat_add, UInt32.toNat_one]
  omega

omit h

theorem slot_lt_slot (hs : MadeFor constants s) (hs' : MadeFor constants s')
    (hlt : s.currGlobalSlot.slotNumber.toNat < s'.currGlobalSlot.slotNumber.toNat)
    (he : s'.currGlobalSlot.epoch = s.currGlobalSlot.epoch) :
    s.currGlobalSlot.slot.toNat < s'.currGlobalSlot.slot.toNat := by
  have he' := congrArg UInt32.toNat he
  rw [hs.epoch, hs'.epoch] at he'
  rw [hs.slot, hs'.slot]
  have h1 := Nat.div_add_mod s.currGlobalSlot.slotNumber.toNat constants.slotsPerEpoch.toNat
  have h2 := Nat.div_add_mod s'.currGlobalSlot.slotNumber.toNat constants.slotsPerEpoch.toNat
  rw [he'] at h2
  omega

theorem Updated.madeFor (h : Updated hashes constants s block s') : MadeFor constants s' := by
  unfold MadeFor
  rw [h.currGlobalSlot]
  rfl

theorem epoch_le_of_slot_le (hs : MadeFor constants s) (hs' : MadeFor constants s')
    (hle : s.currGlobalSlot.slotNumber.toNat ≤ s'.currGlobalSlot.slotNumber.toNat) :
    s.currGlobalSlot.epoch.toNat ≤ s'.currGlobalSlot.epoch.toNat := by
  rw [hs.epoch, hs'.epoch]
  exact Nat.div_le_div_right hle

/-! ### Lock checkpoints along a chain -/

/-- The lock checkpoint of the next epoch does not change after this state. -/
def NextIsFinalized (constants : Constants) (s : ConsensusState) : Prop :=
  ¬ s.currGlobalSlot.slot + 1 < constants.slotsPerEpoch / 3 * 2

/-- What is fixed along the chains that extend `a`. -/
structure Follows (constants : Constants) (a s : ConsensusState) : Prop where
  madeFor : MadeFor constants s
  slot_le : a.currGlobalSlot.slotNumber.toNat ≤ s.currGlobalSlot.slotNumber.toNat
  staking : s.currGlobalSlot.epoch = a.currGlobalSlot.epoch → s.stakingEpochData = a.stakingEpochData
  lock : s.currGlobalSlot.epoch = a.currGlobalSlot.epoch → NextIsFinalized constants a →
    s.nextEpochData.lockCheckpoint = a.nextEpochData.lockCheckpoint
  nextStaking : s.currGlobalSlot.epoch.toNat = a.currGlobalSlot.epoch.toNat + 1 →
    NextIsFinalized constants a →
    s.stakingEpochData.lockCheckpoint = a.nextEpochData.lockCheckpoint

theorem Follows.refl (ha : MadeFor constants a) : Follows constants a a :=
  ⟨ha, le_rfl, fun _ => rfl, fun _ _ => rfl, fun h => absurd h (by omega)⟩

theorem Follows.step (h3 : EpochInThirds constants) {a s s' : ConsensusState} {block : Block}
    (ha : MadeFor constants a) (h : Follows constants a s)
    (hlt : s.currGlobalSlot.slotNumber < block.consensusTransition)
    (hu : Updated hashes constants s block s') : Follows constants a s' := by
  have hs' := hu.madeFor
  have hlt' : s.currGlobalSlot.slotNumber.toNat < s'.currGlobalSlot.slotNumber.toNat := by
    rw [hu.currGlobalSlot]
    exact UInt32.lt_iff_toNat_lt.1 hlt
  have has := epoch_le_of_slot_le ha h.madeFor h.slot_le
  have hss' := epoch_le_of_slot_le h.madeFor hs' hlt'.le
  refine ⟨hs', h.slot_le.trans hlt'.le, ?_, ?_, ?_⟩
  · intro he
    have he' := congrArg UInt32.toNat he
    have hsa : s.currGlobalSlot.epoch = a.currGlobalSlot.epoch := UInt32.toNat_inj.1 (by omega)
    rcases hu.lockCheckpoint h3 with ⟨hnew, -⟩ | ⟨-, hst, -⟩
    · rw [UInt32.lt_iff_toNat_lt] at hnew
      omega
    · rw [hst, h.staking hsa]
  · intro he hfin
    have he' := congrArg UInt32.toNat he
    have hsa : s.currGlobalSlot.epoch = a.currGlobalSlot.epoch := UInt32.toNat_inj.1 (by omega)
    rcases hu.lockCheckpoint h3 with ⟨hnew, -⟩ | ⟨-, -, hlock⟩
    · rw [UInt32.lt_iff_toNat_lt] at hnew
      omega
    · rw [hlock ?_, h.lock hsa hfin]
      -- the slot is after that of `a`, and so out of the range
      have hslot := slot_lt_slot ha hs' (lt_of_le_of_lt h.slot_le hlt') he
      unfold NextIsFinalized at hfin
      rw [UInt32.lt_iff_toNat_lt] at hfin ⊢
      rw [ha.slot_succ] at hfin
      omega
  · intro he hfin
    rcases hu.lockCheckpoint h3 with ⟨hnew, hst⟩ | ⟨hsame, hst, -⟩
    · rw [UInt32.lt_iff_toNat_lt] at hnew
      have hsa : s.currGlobalSlot.epoch = a.currGlobalSlot.epoch := UInt32.toNat_inj.1 (by omega)
      rw [hst, h.lock hsa hfin]
    · rw [hst]
      rw [hsame] at he
      exact h.nextStaking he hfin

theorem Extends.follows (h3 : EpochInThirds constants) (ha : MadeFor constants a)
    (h : Extends hashes constants a s) : Follows constants a s := by
  induction h with
  | refl => exact Follows.refl ha
  | step _ hlt hu ih => exact ih.step h3 ha hlt (updated_of_update hu)

theorem Follows.shortRange (h3 : EpochInThirds constants) {a' b : ConsensusState}
    (ha : MadeFor constants a) (hb : MadeFor constants b) (h : Follows constants a a')
    (hsr : ShortRange constants a b) (hepoch : a'.currGlobalSlot.epoch.toNat
      ≤ max a.currGlobalSlot.epoch.toNat b.currGlobalSlot.epoch.toNat) :
    ShortRange constants a' b := by
  have hle := epoch_le_of_slot_le ha h.madeFor h.slot_le
  unfold ShortRange at hsr
  split at hsr
  · rename_i heq
    have hab := congrArg UInt32.toNat heq
    have haa : a'.currGlobalSlot.epoch = a.currGlobalSlot.epoch := UInt32.toNat_inj.1 (by omega)
    unfold ShortRange
    rw [if_pos (haa.trans heq), h.staking haa, hsr]
  · rename_i hne
    rcases hsr with ⟨hpred, hfin, hlock⟩ | ⟨hpred, hfin, hlock⟩
    · have hpred' := congrArg UInt32.toNat hpred
      rw [ha.epoch_succ h3] at hpred'
      by_cases haa : a'.currGlobalSlot.epoch = a.currGlobalSlot.epoch
      · -- still in the epoch of `a`
        unfold ShortRange
        rw [if_neg (by rw [haa]; exact hne)]
        refine .inl ⟨by rw [haa, hpred], ?_, by rw [h.lock haa hfin, hlock]⟩
        rw [UInt32.lt_iff_toNat_lt, ha.slot_succ] at hfin
        rw [UInt32.lt_iff_toNat_lt, h.madeFor.slot_succ]
        rcases Nat.eq_or_lt_of_le h.slot_le with heq | hlt
        · rw [h.madeFor.slot, ← heq, ← ha.slot]
          omega
        · have := slot_lt_slot ha h.madeFor hlt haa
          omega
      · -- in the epoch of `b`
        have hne' : a'.currGlobalSlot.epoch.toNat ≠ a.currGlobalSlot.epoch.toNat :=
          fun e => haa (UInt32.toNat_inj.1 e)
        have hab : a'.currGlobalSlot.epoch = b.currGlobalSlot.epoch := UInt32.toNat_inj.1 (by omega)
        unfold ShortRange
        rw [if_pos hab, h.nextStaking (by omega) hfin, hlock]
    · have hpred' := congrArg UInt32.toNat hpred
      rw [hb.epoch_succ h3] at hpred'
      have haa : a'.currGlobalSlot.epoch = a.currGlobalSlot.epoch := UInt32.toNat_inj.1 (by omega)
      unfold ShortRange
      rw [if_neg (by rw [haa]; exact hne)]
      exact .inr ⟨by rw [haa, hpred], hfin, by rw [h.staking haa, hlock]⟩

/-- **Two chains in short range stay in short range** while one of them is extended up to
the later of their epochs. -/
theorem short_range_persists (hashes : Hashes) (constants : Constants)
    (h3 : EpochInThirds constants) (a b a' : ConsensusState) (ha : MadeFor constants a)
    (hb : MadeFor constants b) (hsr : isShortRange constants a b = some true)
    (hext : Extends hashes constants a a') (hepoch : a'.currGlobalSlot.epoch ≤ a.currGlobalSlot.epoch
      ∨ a'.currGlobalSlot.epoch ≤ b.currGlobalSlot.epoch) :
    isShortRange constants a' b = some true ∧ isShortRange constants b a' = some true := by
  rw [isShortRange_eq h3, Option.some.injEq, decide_eq_true_eq] at hsr
  rw [isShortRange_comm b a']
  refine and_self_iff.2 ?_
  rw [isShortRange_eq h3, Option.some.injEq, decide_eq_true_eq]
  refine (hext.follows h3 ha).shortRange h3 ha hb hsr ?_
  rw [UInt32.le_iff_toNat_le, UInt32.le_iff_toNat_le] at hepoch
  omega

/-! ### A pair of chains -/

/-- Constants with epochs of three slots and windows of two slots. -/
def smallConstants : Constants where
  slotsPerSubWindow := 1
  subWindowsPerWindow := 2
  slotsPerWindow := 2
  slotsPerEpoch := 3
  gracePeriodEnd := 2
  checkpointWindowSizeInSlots := 3
  slotsPerSubWindow_ne := by decide
  subWindowsPerWindow_ne := by decide
  slotsPerEpoch_ne := by decide
  checkpointWindowSizeInSlots_ne := by decide
  slotsPerWindow_eq := by decide

/-- Hashes that keep nothing but a number. -/
def smallHashes : Hashes := ⟨fun seed vrf => seed + vrf, fun vrf => vrf, fun vrf => [UInt8.ofNat vrf]⟩

/-- A genesis without a fork. -/
def smallGenesis : Genesis := ⟨none, ⟨0, 0⟩, none, ⟨0, false⟩, 0⟩

/-- A block at a slot on a state with the hash. -/
def blockAt (slot : UInt32) (hash : Nat) : Block where
  consensusTransition := slot
  previousProtocolStateHash := hash
  supplyIncrease := Signed.zero
  snarkedLedgerHash := 0
  genesisLedgerHash := 0
  producerVrfResult := hash
  blockStakeWinner := ⟨0, false⟩
  blockCreator := ⟨0, false⟩
  coinbaseReceiver := ⟨0, false⟩
  superchargeCoinbase := false

/-- The state after a block at the slot. -/
def afterBlock (constants : Constants) (s : ConsensusState) (slot : UInt32) : ConsensusState :=
  match update smallHashes constants s (blockAt slot 1) with
  | .ok s' => s'
  | _ => s

/-- The state after blocks at the slots. -/
def stateAfter (constants : Constants) (slots : List UInt32) : ConsensusState :=
  slots.foldl (afterBlock constants) (negativeOne constants smallGenesis)

/-- A chain at slot 1 of epoch 0 is extended into epoch 1, where the other chain is. -/
theorem short_range_persists_next_epoch :
    isShortRange smallConstants (stateAfter smallConstants [0, 1]) (stateAfter smallConstants [0, 1, 3])
        = some true
      ∧ isShortRange smallConstants (stateAfter smallConstants [0, 1, 4])
        (stateAfter smallConstants [0, 1, 3]) = some true := by
  have hsr : isShortRange smallConstants (stateAfter smallConstants [0, 1])
      (stateAfter smallConstants [0, 1, 3]) = some true := by decide
  have hext : Extends smallHashes smallConstants (stateAfter smallConstants [0, 1])
      (stateAfter smallConstants [0, 1, 4]) :=
    have hu : update smallHashes smallConstants (stateAfter smallConstants [0, 1]) (blockAt 4 1)
        = .ok (stateAfter smallConstants [0, 1, 4]) := by decide
    .step .refl (by decide) hu
  refine ⟨hsr, (short_range_persists smallHashes smallConstants ?_ _ _ _ ?_ ?_ hsr hext ?_).1⟩
  · unfold EpochInThirds
    decide
  · unfold MadeFor
    decide
  · unfold MadeFor
    decide
  · exact .inr (by decide)

end MinaProtocol.Consensus
