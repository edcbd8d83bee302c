import MinaProtocol.Consensus.Density

/-!
# Consensus.Descent

A chain is preferred to its own past. The blocks after a state only add to the counts,
and moving a window away from all blocks only lowers its count: so the virtual density
of the state at the slot of a descendant is at most the minimum of the descendant, and
the length of the chain decides when they are equal (`select_prefers_descendant`).
-/

namespace MinaProtocol.Consensus

variable {hashes : Hashes} {constants : Constants} {genesis : Genesis} {a b : ConsensusState}
  {newer slots : List UInt32}

/-- The states that descend from `a`, with the slots of the blocks after `a`, the newest
one first. -/
inductive Descends (hashes : Hashes) (constants : Constants) (a : ConsensusState) :
    List UInt32 → ConsensusState → Prop where
  | refl : Descends hashes constants a [] a
  | step {slots : List UInt32} {s s' : ConsensusState} {block : Block} :
      Descends hashes constants a slots s →
      s.currGlobalSlot.slotNumber < block.consensusTransition →
      update hashes constants s block = .ok s' →
      Descends hashes constants a (block.consensusTransition :: slots) s'

theorem Descends.chain (ha : Chain hashes constants genesis slots a) (h : Descends hashes constants a newer b) :
    Chain hashes constants genesis (newer ++ slots) b := by
  induction h with
  | refl => exact ha
  | step _ hlt hu ih => exact .step ih hlt hu

variable (h : Descends hashes constants a newer b)
  {next prev : UInt32} {s : ConsensusState} {pre : List UInt32} {w : Nat}

include h

theorem Descends.slotNumber_le : a.currGlobalSlot.slotNumber.toNat ≤ b.currGlobalSlot.slotNumber.toNat := by
  induction h with
  | refl => exact le_rfl
  | step _ hlt hu ih =>
    rw [(updated_of_update hu).currGlobalSlot]
    exact ih.trans (UInt32.lt_iff_toNat_lt.1 hlt).le

theorem Descends.slotNumber_lt (hne : newer ≠ []) :
    a.currGlobalSlot.slotNumber.toNat < b.currGlobalSlot.slotNumber.toNat := by
  cases h with
  | refl => exact absurd rfl hne
  | step hd hlt hu =>
    rw [(updated_of_update hu).currGlobalSlot]
    exact lt_of_le_of_lt hd.slotNumber_le (UInt32.lt_iff_toNat_lt.1 hlt)

theorem Descends.blockchainLength : b.blockchainLength = a.blockchainLength + UInt32.ofNat newer.length := by
  induction h with
  | refl => exact (UInt32.add_zero _).symm
  | step _ _ hu ih =>
    rw [(updated_of_update hu).blockchainLength, ih, List.length_cons, UInt32.ofNat_add, UInt32.add_assoc]
    rfl

theorem Descends.blockchainLength_lt (hne : newer ≠ [])
    (hlen : a.blockchainLength.toNat + newer.length < 2 ^ 32) : a.blockchainLength < b.blockchainLength := by
  have hpos := List.length_pos_iff.2 hne
  have hlt : newer.length < 2 ^ 32 := by omega
  rw [UInt32.lt_iff_toNat_lt, h.blockchainLength, UInt32.toNat_add, UInt32.toNat_ofNat_of_lt' hlt]
  omega

omit h

/-! ### The virtual density of the past -/

theorem count_append_le (newer slots : List UInt32) (j : Int) :
    count constants slots j ≤ count constants (newer ++ slots) j := by
  unfold count
  split
  · rw [List.countP_append]
    exact Nat.le_add_left _ _
  · exact le_rfl

theorem windowCount_append_le (newer slots : List UInt32) (w : Nat) :
    windowCount constants slots w ≤ windowCount constants (newer ++ slots) w :=
  Finset.sum_le_sum fun j _ => count_append_le newer slots j

theorem windowCount_le_of_le {w' : Nat} (hslots : ∀ slot ∈ slots, subWindowOf constants slot < w) (hle : w ≤ w') :
    windowCount constants slots w' ≤ windowCount constants slots w := by
  refine Finset.sum_le_sum_of_ne_zero fun j hj hne => ?_
  rw [Finset.mem_Ico] at hj ⊢
  refine ⟨by omega, ?_⟩
  by_contra hjw
  refine hne (count_eq_zero (by omega) fun slot hslot => ?_)
  have := hslots slot hslot
  omega

/-- The pairs of blocks of a chain are those of its past and those with a later block. -/
theorem append_eq_append_cons (newer : List UInt32) {post : List UInt32} (h : newer ++ slots = pre ++ next :: post) :
    (∃ pre', slots = pre' ++ next :: post) ∨ ∃ mid, newer = pre ++ next :: mid ∧ post = mid ++ slots := by
  rcases List.append_eq_append_iff.1 h with ⟨mid, hpre, hslots⟩ | ⟨mid, hnewer, hpost⟩
  · exact .inl ⟨mid, hslots⟩
  · cases mid with
    | nil => exact .inl ⟨[], by simpa using hpost.symm⟩
    | cons x mid =>
      rw [List.cons_append, List.cons.injEq] at hpost
      obtain ⟨rfl, hpost⟩ := hpost
      exact .inr ⟨mid, hnewer, hpost⟩

theorem subWindowOf_lt_of_pairwise {older : List UInt32} (h : (pre ++ next :: prev :: older).Pairwise (· > ·))
    (hne : subWindowOf constants next ≠ subWindowOf constants prev) :
    ∀ slot ∈ prev :: older, subWindowOf constants slot < subWindowOf constants next := by
  have hpair := (List.pairwise_append.1 h).2.1
  rw [List.pairwise_cons, List.pairwise_cons] at hpair
  have hnext : prev.toNat < next.toNat := UInt32.lt_iff_toNat_lt.1 (hpair.1 prev List.mem_cons_self)
  have hlt : subWindowOf constants prev < subWindowOf constants next :=
    lt_of_le_of_ne (subWindowOf_le constants hnext.le) (Ne.symm hne)
  intro slot hslot
  rcases List.mem_cons.1 hslot with rfl | hslot
  · exact hlt
  · have hprev : slot.toNat < prev.toNat := UInt32.lt_iff_toNat_lt.1 (hpair.2.1 slot hslot)
    exact lt_of_le_of_lt (subWindowOf_le constants hprev.le) hlt

/-- **The virtual density of the past** at the slot of a descendant is at most the
minimum of the descendant. -/
theorem Descends.virtualMinWindowDensity_le (hfull : windowLength constants * subWindowLength constants < 2 ^ 32)
    (ha : Chain hashes constants genesis slots a) (h : Descends hashes constants a newer b)
    (hne : newer ≠ []) (hover : NoOverflow constants (newer ++ slots).tail) :
    (virtualMinWindowDensity constants b.currGlobalSlot a).toNat ≤ b.minWindowDensity.toNat := by
  obtain ⟨last, newer, rfl⟩ := List.exists_cons_of_ne_nil hne
  obtain ⟨lastA, olderA, rfl⟩ : ∃ lastA olderA, slots = lastA :: olderA := by
    cases ha with
    | genesis => exact ⟨0, [], rfl⟩
    | step => exact ⟨_, _, rfl⟩
  have hb : Chain hashes constants genesis (last :: (newer ++ lastA :: olderA)) b := h.chain ha
  have hoverA : NoOverflow constants (lastA :: olderA) :=
    fun slot hslot => hover slot (List.mem_append_right _ hslot)
  have hcA := ha.counted hfull fun slot hslot => hoverA slot (List.mem_cons_of_mem _ hslot)
  have hcB := hb.counted hfull hover
  have hslotA := ha.slotNumber
  have hslotB : b.currGlobalSlot = GlobalSlot.ofSlotNumber constants last := by
    cases h with
    | step _ _ hu => exact (updated_of_update hu).currGlobalSlot
  have hltA : lastA.toNat < last.toNat :=
    UInt32.lt_iff_toNat_lt.1 ((List.pairwise_cons.1 hcB.pairwise).1 lastA (by simp))
  have hvirt : (virtualMinWindowDensity constants b.currGlobalSlot a).toNat =
      if subWindowOf constants lastA = subWindowOf constants last ∨ last < constants.gracePeriodEnd then
        a.minWindowDensity.toNat
      else min (windowCount constants (lastA :: olderA) (subWindowOf constants last))
        a.minWindowDensity.toNat := by
    have hneAB : a.currGlobalSlot ≠ GlobalSlot.ofSlotNumber constants last := by
      intro e
      rw [e, GlobalSlot.ofSlotNumber_slotNumber] at hslotA
      rw [hslotA] at hltA
      exact Nat.lt_irrefl _ hltA
    have hoverLast : subWindowOf constants a.currGlobalSlot.slotNumber + windowLength constants
        < 2 ^ 32 := by
      rw [hslotA]
      exact hoverA lastA List.mem_cons_self
    unfold virtualMinWindowDensity
    rw [hslotB, if_neg hneAB, hcA.minimum_update false last hfull hoverLast (by rw [hslotA]; exact hltA.le), hslotA]
  have hvirt_le : (virtualMinWindowDensity constants b.currGlobalSlot a).toNat
      ≤ a.minWindowDensity.toNat := by
    rw [hvirt]
    split
    · exact le_rfl
    · exact Nat.min_le_right _ _
  -- the minimum of the descendant is one of the counts that it was taken of
  rcases hcB.minimum.1 with hB | ⟨pre, next, prev, older, hsplit, hne', hgrace, hB⟩
  · rw [hB]
    exact hvirt_le.trans (hcA.minimum.2 (.inl rfl))
  · rw [hB]
    rcases append_eq_append_cons (last :: newer) hsplit with ⟨pre', hA⟩ | ⟨mid, hnewer, hpost⟩
    · exact hvirt_le.trans (hcA.minimum.2 (.inr ⟨pre', next, prev, older, hA, hne', hgrace, rfl⟩))
    · -- the count is of a window after `a`
      have hpair := hcB.pairwise
      rw [hsplit] at hpair
      have hnext : next.toNat ≤ last.toNat := by
        have hmem : next ∈ last :: (newer ++ lastA :: olderA) := by
          rw [hsplit]
          simp
        have := hcB.slots_le next hmem
        rwa [hslotB] at this
      have hpast := subWindowOf_lt_of_pairwise hpair hne'
      rw [hpost] at hpast ⊢
      have hpastA : ∀ slot ∈ lastA :: olderA, subWindowOf constants slot < subWindowOf constants next :=
        fun slot hslot => hpast slot (List.mem_append_right _ hslot)
      have hw := subWindowOf_le constants hnext
      have hc : ¬ (subWindowOf constants lastA = subWindowOf constants last ∨ last < constants.gracePeriodEnd) := by
        have := hpastA lastA List.mem_cons_self
        rw [UInt32.le_iff_toNat_le] at hgrace
        rw [UInt32.lt_iff_toNat_lt]
        omega
      rw [hvirt, if_neg hc]
      calc _ ≤ windowCount constants (lastA :: olderA) (subWindowOf constants last) := Nat.min_le_left _ _
        _ ≤ windowCount constants (lastA :: olderA) (subWindowOf constants next) :=
            windowCount_le_of_le hpastA hw
        _ ≤ _ := windowCount_append_le mid _ _

/-! ### The choice -/

theorem Updated.epochInThirds {s' : ConsensusState} {block : Block}
    (hu : Updated hashes constants s block s') : EpochInThirds constants := by
  by_contra h
  have hp := hu.epochData
  unfold updatePair at hp
  simp [inSeedUpdateRange_none h] at hp

theorem GlobalSlot.max_of_lt {s t : GlobalSlot} (h : s.slotNumber.toNat < t.slotNumber.toNat) :
    GlobalSlot.max t s = t := by
  unfold GlobalSlot.max GlobalSlot.lt
  rw [if_neg]
  rw [decide_eq_true_eq, UInt32.lt_iff_toNat_lt]
  omega

theorem rank_lt_of_blockchainLength_lt {a b : WithHash}
    (h : a.data.blockchainLength < b.data.blockchainLength) : rank hashes a b = .lt := by
  have hcmp : compare a.data.blockchainLength b.data.blockchainLength = .lt :=
    Std.compare_eq_lt.2 h
  unfold rank compareLex compareOn
  rw [hcmp]
  rfl

/-- **A chain always beats its own past.** -/
theorem select_prefers_descendant (hashes : Hashes) (constants : Constants) (genesis : Genesis)
    (slots newer : List UInt32) (a b : ConsensusState) (hashA hashB : Nat)
    (hfull : windowLength constants * subWindowLength constants < 2 ^ 32)
    (ha : Chain hashes constants genesis slots a) (h : Descends hashes constants a newer b)
    (hne : newer ≠ []) (hover : NoOverflow constants (newer ++ slots).tail)
    (hlen : a.blockchainLength.toNat + newer.length < 2 ^ 32) :
    select hashes constants ⟨hashA, a⟩ ⟨hashB, b⟩ = some .take
      ∧ select hashes constants ⟨hashB, b⟩ ⟨hashA, a⟩ = some .keep
      ∧ virtualMinWindowDensity constants b.currGlobalSlot a ≤ b.minWindowDensity := by
  have hvirt := h.virtualMinWindowDensity_le hfull ha hne hover
  have hrank : rank hashes ⟨hashA, a⟩ ⟨hashB, b⟩ = .lt :=
    rank_lt_of_blockchainLength_lt (h.blockchainLength_lt hne hlen)
  have hslot := h.slotNumber_lt hne
  have h3 : EpochInThirds constants := by
    cases h with
    | refl => exact absurd rfl hne
    | step _ _ hu => exact (updated_of_update hu).epochInThirds
  have hchoice : ∀ r, choiceRank hashes constants r ⟨hashA, a⟩ ⟨hashB, b⟩ = .lt := by
    intro r
    unfold choiceRank
    split
    · exact hrank
    · unfold longRank
      have hself : virtualMinWindowDensity constants b.currGlobalSlot b = b.minWindowDensity := by
        unfold virtualMinWindowDensity
        rw [if_pos rfl]
      simp only [GlobalSlot.max_of_lt hslot, hself]
      rw [hrank]
      rcases Nat.eq_or_lt_of_le hvirt with heq | hlt
      · have hcmp : compare b.minWindowDensity b.minWindowDensity = .eq := Std.ReflCmp.compare_self
        rw [UInt32.toNat_inj.1 heq, hcmp]
        rfl
      · rw [Std.compare_eq_lt.2 (UInt32.lt_iff_toNat_lt.2 hlt)]
        rfl
  have hsr := isShortRange_eq h3 a b
  refine ⟨?_, ?_, UInt32.le_iff_toNat_le.2 hvirt⟩
  · rw [select_eq hsr, hchoice, if_pos rfl]
  · rw [select_eq ((isShortRange_comm _ _).trans hsr), choiceRank_swap, hchoice]
    rfl

/-- The state after blocks at slots 0 and 1 and its descendant two epochs later. -/
theorem select_prefers_descendant_two_epochs_later :
    select smallHashes smallConstants ⟨1, stateAfter smallConstants [0, 1]⟩
        ⟨0, stateAfter smallConstants [0, 1, 7]⟩ = some .take
      ∧ isShortRange smallConstants (stateAfter smallConstants [0, 1])
        (stateAfter smallConstants [0, 1, 7]) = some false := by
  have h7 : update smallHashes smallConstants (stateAfter smallConstants [0, 1]) (blockAt 7 1)
      = .ok (stateAfter smallConstants [0, 1, 7]) := by decide
  have hdesc : Descends smallHashes smallConstants (stateAfter smallConstants [0, 1]) [7]
      (stateAfter smallConstants [0, 1, 7]) := .step .refl (by decide) h7
  exact ⟨(select_prefers_descendant smallHashes smallConstants smallGenesis _ _ _ _ 1 0 (by decide)
    chain_small hdesc (List.cons_ne_nil _ _) noOverflow_small (by decide)).1, by decide⟩

/-! ### Counts that wrap -/

theorem update_blockAt (h3 : EpochInThirds constants) (s : ConsensusState) (slot : UInt32)
    (hs : MadeFor constants s) (hcur : s.totalCurrency = 0)
    (hslot : slot = 0 ∧ s.currGlobalSlot.slotNumber = 0 ∨ s.currGlobalSlot.slotNumber < slot) :
    ∃ s', update smallHashes constants s (blockAt slot 1) = .ok s' ∧ s'.totalCurrency = 0 := by
  have hle : s.currGlobalSlot.slotNumber.toNat ≤ slot.toNat := by
    rcases hslot with ⟨rfl, h0⟩ | hlt
    · rw [h0]
    · exact (UInt32.lt_iff_toNat_lt.1 hlt).le
  have hdiff : (GlobalSlot.ofSlotNumber constants slot).diffSlots s.currGlobalSlot
      = some (slot - s.currGlobalSlot.slotNumber) := by
    unfold GlobalSlot.diffSlots
    rw [if_neg, GlobalSlot.ofSlotNumber_slotNumber]
    rw [GlobalSlot.ofSlotNumber_slotNumber, UInt32.lt_iff_toNat_lt]
    omega
  have hadd : Amount.addSigned s.totalCurrency Signed.zero = some 0 := by
    rw [hcur]
    rfl
  have hinc : (decide (slot = 0) || s.currGlobalSlot.lt (GlobalSlot.ofSlotNumber constants slot)) = true := by
    rw [Bool.or_eq_true, decide_eq_true_eq]
    exact hslot.imp And.left fun hlt => decide_eq_true hlt
  have hpair : ∃ p, updatePair smallHashes constants s.stakingEpochData s.nextEpochData s.epochCount
      s.currGlobalSlot.epoch (GlobalSlot.ofSlotNumber constants slot).epoch
      (GlobalSlot.ofSlotNumber constants slot).slot (blockAt slot 1) 0 = some p := by
    have hepoch : s.currGlobalSlot.epoch.toNat ≤ (GlobalSlot.ofSlotNumber constants slot).epoch.toNat := by
      rw [hs.epoch]
      unfold GlobalSlot.epoch GlobalSlot.ofSlotNumber
      rw [UInt32.toNat_div]
      exact Nat.div_le_div_right hle
    unfold updatePair
    rw [inSeedUpdateRange_some h3]
    rcases Nat.eq_or_lt_of_le hepoch with heq | hlt
    · have he := UInt32.toNat_inj.1 heq
      simp [he]
    · simp [UInt32.lt_iff_toNat_lt.2 hlt]
  obtain ⟨⟨staking, next, count⟩, hpair⟩ := hpair
  have htransition : (blockAt slot 1).consensusTransition = slot := rfl
  have hsupply : (blockAt slot 1).supplyIncrease = Signed.zero := rfl
  unfold update
  simp only [htransition, hsupply, hdiff, hadd, hinc, hpair, Outcome.okOr, Outcome.ok_bind,
    Outcome.okIfTrue_true, Outcome.ofOption_some]
  exact ⟨_, rfl, rfl⟩

/-- The state after genesis is kept and its second descendant is not taken. -/
def PastWins (constants : Constants) (slotX slotB : UInt32) : Prop :=
  ∃ a b : ConsensusState, Chain smallHashes constants smallGenesis [0] a
    ∧ Descends smallHashes constants a [slotB, slotX] b
    ∧ a.blockchainLength.toNat + 2 < 2 ^ 32
    ∧ select smallHashes constants ⟨0, a⟩ ⟨1, b⟩ = some .keep
    ∧ b.minWindowDensity < virtualMinWindowDensity constants b.currGlobalSlot a

theorem pastWins_of_zero (h3 : EpochInThirds constants) {slotX slotB : UInt32} (hX : 0 < slotX) (hB : slotX < slotB)
    (hfar : (GlobalSlot.ofSlotNumber constants 0).epoch ≠ (GlobalSlot.ofSlotNumber constants slotB).epoch
      ∧ (GlobalSlot.ofSlotNumber constants 0).epoch + 1 ≠ (GlobalSlot.ofSlotNumber constants slotB).epoch
      ∧ (GlobalSlot.ofSlotNumber constants slotB).epoch + 1 ≠ (GlobalSlot.ofSlotNumber constants 0).epoch)
    (hvirt : ∀ a, Updated smallHashes constants (negativeOne constants smallGenesis) (blockAt 0 1) a →
      0 < virtualMinWindowDensity constants (GlobalSlot.ofSlotNumber constants slotB) a)
    (hmin : ∀ a x b, Updated smallHashes constants (negativeOne constants smallGenesis) (blockAt 0 1) a →
      Updated smallHashes constants a (blockAt slotX 1) x →
      Updated smallHashes constants x (blockAt slotB 1) b → b.minWindowDensity = 0) :
    PastWins constants slotX slotB := by
  obtain ⟨a, hua, hca⟩ := update_blockAt h3 (negativeOne constants smallGenesis) 0 rfl rfl
    (.inl ⟨rfl, rfl⟩)
  have hupa := updated_of_update hua
  have hslota : a.currGlobalSlot = GlobalSlot.ofSlotNumber constants 0 := hupa.currGlobalSlot
  have hltX : a.currGlobalSlot.slotNumber < slotX := by
    rw [hslota]
    exact hX
  obtain ⟨x, hux, hcx⟩ := update_blockAt h3 a slotX hupa.madeFor hca (.inr hltX)
  have hupx := updated_of_update hux
  have hltB : x.currGlobalSlot.slotNumber < slotB := by
    rw [hupx.currGlobalSlot]
    exact hB
  obtain ⟨b, hub, hcb⟩ := update_blockAt h3 x slotB hupx.madeFor hcx (.inr hltB)
  have hupb := updated_of_update hub
  have hslotb : b.currGlobalSlot = GlobalSlot.ofSlotNumber constants slotB := hupb.currGlobalSlot
  have hminb := hmin a x b hupa hupx hupb
  have hvirta := hvirt a hupa
  have hdesc : Descends smallHashes constants a [slotB, slotX] b := .step (.step .refl hltX hux) hltB hub
  refine ⟨a, b, .genesis rfl hua, hdesc, ?_, ?_, ?_⟩
  · rw [hupa.blockchainLength]
    change (0 + 1 : UInt32).toNat + 2 < 2 ^ 32
    decide
  · have hsr : isShortRange constants a b = some false := by
      rw [isShortRange_eq h3, Option.some.injEq, decide_eq_false_iff_not]
      unfold ShortRange Precedes
      rw [hslota, hslotb, if_neg hfar.1]
      rintro (⟨h, -⟩ | ⟨h, -⟩)
      · exact hfar.2.1 h
      · exact hfar.2.2 h
    have hself : virtualMinWindowDensity constants b.currGlobalSlot b = 0 := by
      unfold virtualMinWindowDensity
      rw [if_pos rfl, hminb]
    have hmax : GlobalSlot.max b.currGlobalSlot a.currGlobalSlot = b.currGlobalSlot :=
      GlobalSlot.max_of_lt (hdesc.slotNumber_lt (List.cons_ne_nil _ _))
    have hlong : longRank smallHashes constants ⟨0, a⟩ ⟨1, b⟩ = .gt := by
      unfold longRank
      simp only [hmax, hself]
      rw [hslotb, Std.compare_eq_gt.2 hvirta]
      rfl
    rw [select_eq (a := ⟨0, a⟩) (b := ⟨1, b⟩) hsr]
    unfold choiceRank
    rw [hlong]
    rfl
  · rw [hminb, hslotb]
    exact hvirta

theorem Updated.genesis_densities
    (hu : Updated smallHashes constants (negativeOne constants smallGenesis) (blockAt 0 1) a) :
    Densities constants [0] 0 a.subWindowDensities ∧ a.minWindowDensity = constants.slotsPerWindow := by
  have hd := congrArg Prod.snd hu.density
  rw [hu.currGlobalSlot] at hd
  change a.subWindowDensities = _ at hd
  have hzero : subWindowOf constants 0 = 0 := Nat.zero_div _
  refine ⟨?_, ?_⟩
  · rw [hd, ← hzero]
    refine Densities.same ?_ rfl
    have hslot : (negativeOne constants smallGenesis).currGlobalSlot.slotNumber = 0 := rfl
    rw [hslot, hzero]
    exact densities_negativeOne constants smallGenesis
  · rw [hu.minWindowDensity_eq]
    unfold updateMinWindowDensity
    exact if_pos (.inl rfl)

theorem windowCount_genesis (hpos : 0 < w) (hle : w ≤ windowLength constants) : windowCount constants [0] w
      = (windowLength constants - w) * subWindowLength constants + 1 := by
  have hzero : subWindowOf constants 0 = 0 := Nat.zero_div _
  have hsplit : Finset.Ico ((w : Int) - windowLength constants) w
      = Finset.Ico ((w : Int) - windowLength constants) 0 ∪ Finset.Ico 0 (w : Int) :=
    (Finset.Ico_union_Ico_eq_Ico (by omega) (by omega)).symm
  unfold windowCount
  rw [hsplit, Finset.sum_union (Finset.Ico_disjoint_Ico_consecutive _ _ _)]
  congr 1
  · rw [Finset.sum_congr rfl fun j hj => ?_, Finset.sum_const, Int.card_Ico, smul_eq_mul]
    · congr 1
      omega
    · rw [Finset.mem_Ico] at hj
      unfold count
      rw [if_neg (by omega), if_pos (by omega)]
  · rw [Finset.sum_eq_single 0]
    · unfold count
      simp [hzero]
    · intro j hj hne
      rw [Finset.mem_Ico] at hj
      refine count_eq_zero hj.1 fun slot hslot => ?_
      rw [List.mem_singleton.1 hslot, hzero]
      omega
    · intro h
      exact absurd (Finset.mem_Ico.2 (by omega)) h

theorem Updated.minimum_genesis (incr : Bool) (slot : UInt32)
    (hu : Updated smallHashes constants (negativeOne constants smallGenesis) (blockAt 0 1) a)
    (hpos : 0 < subWindowOf constants slot) (hle : subWindowOf constants slot ≤ windowLength constants)
    (hgrace : constants.gracePeriodEnd ≤ slot) :
    (updateMinWindowDensity incr constants a.currGlobalSlot (GlobalSlot.ofSlotNumber constants slot)
        a.subWindowDensities a.minWindowDensity).1.toNat
      = min (((windowLength constants - subWindowOf constants slot) * subWindowLength constants + 1)
        % 2 ^ 32) constants.slotsPerWindow.toNat := by
  obtain ⟨hd, hmin⟩ := hu.genesis_densities
  have hslot : a.currGlobalSlot.slotNumber = 0 := by
    rw [hu.currGlobalSlot]
    rfl
  have hzero : subWindowOf constants 0 = 0 := Nat.zero_div _
  have hW : windowLength constants < 2 ^ 32 := constants.subWindowsPerWindow.toNat_lt
  have hsub : subWindowOf constants a.currGlobalSlot.slotNumber = 0 := by rw [hslot, hzero]
  rw [← hsub] at hd
  rw [UInt32.le_iff_toNat_le] at hgrace
  have hne : ¬ (subWindowOf constants a.currGlobalSlot.slotNumber = subWindowOf constants slot
      ∨ slot < constants.gracePeriodEnd) := by
    rw [hsub, UInt32.lt_iff_toNat_lt]
    omega
  rw [hd.minimum (List.pairwise_singleton _ _) incr (by simp [hsub, hzero]) (by rw [hslot]; exact Nat.zero_le _)
    (by rw [hsub]; omega), if_neg hne, hmin, windowCount_genesis hpos hle]

theorem virtualMinWindowDensity_of_ne {maxSlot : GlobalSlot} (h : s.currGlobalSlot ≠ maxSlot) :
    virtualMinWindowDensity constants maxSlot s = (updateMinWindowDensity false constants
      s.currGlobalSlot maxSlot s.subWindowDensities s.minWindowDensity).1 := by
  unfold virtualMinWindowDensity
  rw [if_neg h]

theorem foldl_currentSubWindowDensities (d : List UInt32) (hne : prev ≠ next)
    (h : ¬ next ≤ prev + constants.subWindowsPerWindow) :
    (currentSubWindowDensities constants prev next d).foldl (· + ·) 0 = 0 := by
  have hzero : currentSubWindowDensities constants prev next d = List.replicate d.length 0 := by
    unfold currentSubWindowDensities
    refine List.ext_getElem (by simp) fun i h1 h2 => ?_
    simp [hne, h]
  rw [← UInt32.toNat_inj, hzero, foldl_add_toNat]
  simp

theorem longConstants_ne : (1 : UInt32) ≠ 0 ∧ (3221225472 : UInt32) ≠ 0 ∧ (3 : UInt32) ≠ 0 ∧ (3 : UInt32) ≠ 0 := by
  decide

/-- Constants with windows of `3 * 2 ^ 30` sub-windows of one slot and no grace period
after the first window. -/
def longConstants : Constants := Constants.create 1 3221225472 3 0 3 longConstants_ne

/-- The sub-window of a block plus the length of a window wraps, so the window after it is
taken to be empty. -/
theorem pastWins_longConstants : PastWins longConstants 1073741824 3221225472 := by
  refine pastWins_of_zero (by unfold EpochInThirds; decide) (by decide) (by decide) (by decide) ?_ ?_
  · intro a hua
    have hmin := hua.minimum_genesis false 3221225472 (by decide) (by decide) (by decide)
    rw [UInt32.lt_iff_toNat_lt, virtualMinWindowDensity_of_ne (by rw [hua.currGlobalSlot]; decide), hmin]
    decide
  · intro a x b _ hux hub
    have hslotx : x.currGlobalSlot = GlobalSlot.ofSlotNumber longConstants 1073741824 := hux.currGlobalSlot
    have hslotb : (blockAt 3221225472 1).consensusTransition = 3221225472 := rfl
    rw [hub.minWindowDensity_eq, hslotx, hslotb, ← UInt32.toNat_inj]
    unfold updateMinWindowDensity
    dsimp only
    rw [if_neg (by decide), foldl_currentSubWindowDensities _ (by decide) (by decide), toNat_min,
      UInt32.toNat_zero, Nat.zero_min]

theorem fullConstants_ne : (65537 : UInt32) ≠ 0 ∧ (65536 : UInt32) ≠ 0 ∧ (3 : UInt32) ≠ 0 ∧ (3 : UInt32) ≠ 0 := by
  decide

/-- Constants with windows of a little more than `2 ^ 32` slots. -/
def fullConstants : Constants := Constants.create 65537 65536 3 0 3 fullConstants_ne

/-- The window before the second block has `2 ^ 32` blocks, which wraps to zero. -/
theorem pastWins_fullConstants : PastWins fullConstants 65537 131074 := by
  refine pastWins_of_zero (by unfold EpochInThirds; decide) (by decide) (by decide) (by decide) ?_ ?_
  · intro a hua
    have hmin := hua.minimum_genesis false 131074 (by decide) (by decide) (by decide)
    rw [UInt32.lt_iff_toNat_lt, virtualMinWindowDensity_of_ne (by rw [hua.currGlobalSlot]; decide), hmin]
    decide
  · intro a x b hua hux hub
    have hmin := hua.minimum_genesis true 65537 (by decide) (by decide) (by decide)
    have hx := hux.minWindowDensity_eq
    have hle := hub.minWindowDensity_le
    have hzero : x.minWindowDensity.toNat = 0 := by
      rw [hx]
      exact hmin.trans (by decide)
    rw [hzero] at hle
    exact UInt32.toNat_inj.1 (Nat.le_zero.1 hle)

/-- **When the counts wrap the past of a chain can win**: when the sub-window of a block
plus the length of a window has 33 bits, and when a window has more than `2 ^ 32` slots. -/
theorem past_wins_when_counts_wrap : PastWins longConstants 1073741824 3221225472
      ∧ (PastWins fullConstants 65537 131074 ∧ NoOverflow fullConstants [65537, 0]) := by
  refine ⟨pastWins_longConstants, pastWins_fullConstants, ?_⟩
  intro slot hslot
  simp only [List.mem_cons, List.not_mem_nil, or_false] at hslot
  rcases hslot with rfl | rfl
  · decide
  · decide

end MinaProtocol.Consensus
