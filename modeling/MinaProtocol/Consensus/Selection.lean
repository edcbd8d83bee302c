import MinaProtocol.Consensus.State

/-!
# Consensus.Selection

The choice between two consensus states is antisymmetric, and in the short range it does
not depend on the order in which the states arrive. In the short range a state is chosen
by its length, then by the digest of its VRF output, then by its hash: `rank` is this
lexicographic order. In the long range the virtual densities come first. They depend on
both states, but not on which of them exists already.
-/

namespace MinaProtocol.Consensus

open Std

variable {hashes : Hashes} {constants : Constants} {a b : WithHash} {candidate existing : WithHash} {r : Bool}

/-- The order by length, digest and hash. -/
def rank (hashes : Hashes) : WithHash → WithHash → Ordering :=
  compareLex (compareOn fun s => s.data.blockchainLength)
    (compareLex (compareOn fun s => hashes.blake2 s.data.lastVrfOutput) (compareOn fun s => s.hash))

instance : TransCmp (rank hashes) := by
  unfold rank
  infer_instance

theorem lessThanOrEqualWhen_eq (c : Ordering) (b : Bool) :
    lessThanOrEqualWhen c b = true ↔ c = .lt ∨ c = .eq ∧ b = true := by
  simp [lessThanOrEqualWhen]

theorem lessThanOrEqualWhen_then {c d : Ordering} {b : Bool} (h : b = true ↔ d = .lt) :
    lessThanOrEqualWhen c b = true ↔ c.then d = .lt := by
  rw [lessThanOrEqualWhen_eq, h]
  cases c <;> simp [Ordering.then]

theorem blockchainLengthIsLonger_iff :
    blockchainLengthIsLonger hashes existing candidate = true ↔ rank hashes existing candidate = .lt := by
  refine lessThanOrEqualWhen_then (lessThanOrEqualWhen_then ?_)
  show decide (existing.hash < candidate.hash) = true ↔ compare existing.hash candidate.hash = .lt
  rw [decide_eq_true_eq, Nat.compare_eq_lt]

theorem hash_eq_of_rank_eq (h : rank hashes a b = .eq) : a.hash = b.hash := by
  unfold rank compareLex at h
  rw [Ordering.then_eq_eq, Ordering.then_eq_eq] at h
  exact Nat.compare_eq_eq.1 h.2.2

theorem rank_swap (a b : WithHash) : rank hashes b a = (rank hashes a b).swap :=
  OrientedCmp.eq_swap

theorem rank_self (a : WithHash) : rank hashes a a = .eq := ReflCmp.compare_self

/-! ### Short range and long range -/

/-- `slots_per_epoch` is divisible by three, as `in_seed_update_range` asserts. -/
def EpochInThirds (constants : Constants) : Prop :=
  constants.slotsPerEpoch = 3 * (constants.slotsPerEpoch / 3)

theorem inSeedUpdateRange_some (h : EpochInThirds constants) (slot : UInt32) :
    inSeedUpdateRange constants slot = some (decide (slot < constants.slotsPerEpoch / 3 * 2)) := by
  have hg : guard (f := Option) (constants.slotsPerEpoch = 3 * (constants.slotsPerEpoch / 3)) = some () :=
    if_pos h
  unfold inSeedUpdateRange
  simp only [hg, Option.bind_eq_bind, Option.bind_some]

theorem inSeedUpdateRange_none (h : ¬ EpochInThirds constants) (slot : UInt32) :
    inSeedUpdateRange constants slot = none := by
  have hg : guard (f := Option) (constants.slotsPerEpoch = 3 * (constants.slotsPerEpoch / 3)) = none :=
    if_neg h
  unfold inSeedUpdateRange
  simp only [hg, Option.bind_eq_bind, Option.bind_none]

/-- The case of consecutive epochs, as a condition. -/
def Precedes (constants : Constants) (c1 c2 : ConsensusState) : Prop :=
  c1.currGlobalSlot.epoch + 1 = c2.currGlobalSlot.epoch
    ∧ ¬ c1.currGlobalSlot.slot + 1 < constants.slotsPerEpoch / 3 * 2
    ∧ c1.nextEpochData.lockCheckpoint = c2.stakingEpochData.lockCheckpoint

instance (c1 c2 : ConsensusState) : Decidable (Precedes constants c1 c2) := by
  unfold Precedes
  infer_instance

theorem predCase_eq (h : EpochInThirds constants) (c1 c2 : ConsensusState) :
    predCase constants c1 c2 = some (decide (Precedes constants c1 c2)) := by
  unfold predCase Precedes
  rw [inSeedUpdateRange_some h, Option.bind_eq_bind, Option.bind_some, Option.some.injEq]
  rw [Bool.eq_iff_iff]
  simp [and_assoc]

/-- `is_short_range`, as a condition. -/
def ShortRange (constants : Constants) (c1 c2 : ConsensusState) : Prop :=
  if c1.currGlobalSlot.epoch = c2.currGlobalSlot.epoch then
    c1.stakingEpochData.lockCheckpoint = c2.stakingEpochData.lockCheckpoint
  else Precedes constants c1 c2 ∨ Precedes constants c2 c1

instance (c1 c2 : ConsensusState) : Decidable (ShortRange constants c1 c2) := by
  unfold ShortRange
  infer_instance

theorem isShortRange_eq (h : EpochInThirds constants) (c1 c2 : ConsensusState) :
    isShortRange constants c1 c2 = some (decide (ShortRange constants c1 c2)) := by
  unfold isShortRange ShortRange
  split
  · rfl
  · rw [predCase_eq h, predCase_eq h, Option.bind_eq_bind, Option.bind_some]
    by_cases hp : Precedes constants c1 c2 <;> simp [hp]

theorem ShortRange.symm {c1 c2 : ConsensusState} (h : ShortRange constants c1 c2) : ShortRange constants c2 c1 := by
  unfold ShortRange at h ⊢
  split at h
  · rename_i he
    rw [if_pos he.symm]
    exact h.symm
  · rename_i he
    rw [if_neg (Ne.symm he)]
    exact h.symm

/-- `is_short_range` does not depend on the order of the states. -/
theorem isShortRange_comm (c1 c2 : ConsensusState) : isShortRange constants c1 c2 = isShortRange constants c2 c1 := by
  by_cases h : EpochInThirds constants
  · rw [isShortRange_eq h, isShortRange_eq h, Option.some.injEq, decide_eq_decide]
    exact ⟨ShortRange.symm, ShortRange.symm⟩
  · unfold isShortRange predCase
    by_cases he : c1.currGlobalSlot.epoch = c2.currGlobalSlot.epoch
    · rw [if_pos he, if_pos he.symm, Option.some.injEq, decide_eq_decide]
      exact eq_comm
    · rw [if_neg he, if_neg (Ne.symm he), inSeedUpdateRange_none h, inSeedUpdateRange_none h]
      rfl

theorem updateMinWindowDensity_same {incr : Bool} {prev next : GlobalSlot} {densities : List UInt32}
    {density : UInt32} (h : prev.slotNumber = next.slotNumber) :
    (updateMinWindowDensity incr constants prev next densities density).1 = density := by
  unfold updateMinWindowDensity globalSubWindow
  rw [h]
  exact if_pos (.inl rfl)

theorem virtualMinWindowDensity_congr {m m' : GlobalSlot} (h : m.slotNumber = m'.slotNumber)
    (s : ConsensusState) : virtualMinWindowDensity constants m s = virtualMinWindowDensity constants m' s := by
  have hself : ∀ m : GlobalSlot, s.currGlobalSlot.slotNumber = m.slotNumber →
      virtualMinWindowDensity constants m s = s.minWindowDensity := by
    intro m hm
    unfold virtualMinWindowDensity
    split
    · rfl
    · exact updateMinWindowDensity_same hm
  by_cases hs : s.currGlobalSlot.slotNumber = m.slotNumber
  · rw [hself m hs, hself m' (hs.trans h)]
  · have hm : s.currGlobalSlot ≠ m := fun e => hs (by rw [e])
    have hm' : s.currGlobalSlot ≠ m' := fun e => hs (by rw [e, h])
    unfold virtualMinWindowDensity
    rw [if_neg hm, if_neg hm']
    unfold updateMinWindowDensity globalSubWindow
    rw [h]

theorem GlobalSlot.max_slotNumber_comm (a b : GlobalSlot) :
    (GlobalSlot.max a b).slotNumber = (GlobalSlot.max b a).slotNumber := by
  unfold GlobalSlot.max GlobalSlot.lt
  by_cases hab : a.slotNumber < b.slotNumber
  · have hba : ¬ b.slotNumber < a.slotNumber := by
      rw [UInt32.lt_iff_toNat_lt] at hab ⊢
      omega
    simp [hab, hba]
  · by_cases hba : b.slotNumber < a.slotNumber
    · simp [hab, hba]
    · have : a.slotNumber = b.slotNumber := by
        rw [UInt32.lt_iff_toNat_lt] at hab hba
        exact UInt32.toNat_inj.1 (by omega)
      simp [this]

/-- The virtual densities of two states, then their rank. -/
def longRank (hashes : Hashes) (constants : Constants) (a b : WithHash) : Ordering :=
  (compare (virtualMinWindowDensity constants (GlobalSlot.max b.data.currGlobalSlot a.data.currGlobalSlot) a.data)
      (virtualMinWindowDensity constants (GlobalSlot.max b.data.currGlobalSlot a.data.currGlobalSlot) b.data)).then
    (rank hashes a b)

theorem longForkChainQualityIsBetter_iff : longForkChainQualityIsBetter hashes constants existing candidate = true
      ↔ longRank hashes constants existing candidate = .lt :=
  lessThanOrEqualWhen_then blockchainLengthIsLonger_iff

theorem longRank_swap (a b : WithHash) : longRank hashes constants b a = (longRank hashes constants a b).swap := by
  have hmax := GlobalSlot.max_slotNumber_comm a.data.currGlobalSlot b.data.currGlobalSlot
  unfold longRank
  rw [virtualMinWindowDensity_congr hmax, virtualMinWindowDensity_congr hmax, Ordering.swap_then,
    rank_swap, ← OrientedOrd.eq_swap]

/-! ### Antisymmetry -/

/-- The order that decides between two states. -/
def choiceRank (hashes : Hashes) (constants : Constants) (shortRange : Bool) (a b : WithHash) : Ordering :=
  if shortRange then rank hashes a b else longRank hashes constants a b

theorem choiceRank_swap (r : Bool) (a b : WithHash) :
    choiceRank hashes constants r b a = (choiceRank hashes constants r a b).swap := by
  unfold choiceRank
  split
  · exact rank_swap a b
  · exact longRank_swap a b

theorem hash_eq_of_choiceRank_eq (h : choiceRank hashes constants r a b = .eq) : a.hash = b.hash := by
  unfold choiceRank at h
  split at h
  · exact hash_eq_of_rank_eq h
  · unfold longRank at h
    rw [Ordering.then_eq_eq] at h
    exact hash_eq_of_rank_eq h.2

/-- **What `select` returns.** -/
theorem select_eq (h : isShortRange constants a.data b.data = some r) : select hashes constants a b
      = some (if choiceRank hashes constants r a b = .lt then .take else .keep) := by
  unfold select
  rw [h, Option.bind_eq_bind, Option.bind_some]
  unfold choiceRank
  cases r with
  | true => simp only [if_true, blockchainLengthIsLonger_iff]
  | false => simp only [Bool.false_eq_true, if_false, longForkChainQualityIsBetter_iff]

theorem select_antisymm (h : isShortRange constants a.data b.data = some r) (hne : a.hash ≠ b.hash) :
    (select hashes constants a b = some .take ∧ select hashes constants b a = some .keep)
      ∨ (select hashes constants a b = some .keep ∧ select hashes constants b a = some .take) := by
  rw [select_eq h, select_eq ((isShortRange_comm _ _).trans h), choiceRank_swap r a b]
  cases hr : choiceRank hashes constants r a b with
  | lt => exact .inl ⟨rfl, rfl⟩
  | eq => exact absurd (hash_eq_of_choiceRank_eq hr) hne
  | gt => exact .inr ⟨rfl, rfl⟩

theorem isShortRange_self (c : ConsensusState) : isShortRange constants c c = some true := by
  unfold isShortRange
  rw [if_pos rfl]
  simp

theorem select_self (a : WithHash) : select hashes constants a a = some .keep := by
  rw [select_eq (isShortRange_self a.data)]
  unfold choiceRank
  rw [if_pos rfl, rank_self]
  rfl

/-! ### Order of arrival -/

/-- The existing state after a candidate has arrived. -/
def choose (hashes : Hashes) (constants : Constants) (existing candidate : WithHash) : Option WithHash := do
  match ← select hashes constants existing candidate with
  | .take => some candidate
  | .keep => some existing

/-- The existing state after all candidates have arrived. -/
def chooseAll (hashes : Hashes) (constants : Constants) (existing : WithHash)
    (candidates : List WithHash) : Option WithHash :=
  candidates.foldlM (choose hashes constants) existing

theorem choose_eq (h : isShortRange constants a.data b.data = some true) :
    choose hashes constants a b = some (if rank hashes a b = .lt then b else a) := by
  unfold choose
  rw [select_eq h, Option.bind_eq_bind, Option.bind_some]
  unfold choiceRank
  rw [if_pos rfl]
  by_cases hr : rank hashes a b = .lt <;> simp [hr]

theorem chooseAll_max {S : Set WithHash} (hS : ∀ a ∈ S, ∀ b ∈ S, isShortRange constants a.data b.data = some true)
    {x : WithHash} {l : List WithHash} (hx : x ∈ S) (hl : ∀ a ∈ l, a ∈ S) :
    ∃ m, chooseAll hashes constants x l = some m ∧ m ∈ S
      ∧ ∀ a ∈ x :: l, (rank hashes a m).isLE = true := by
  unfold chooseAll
  induction l generalizing x with
  | nil => exact ⟨x, rfl, hx, by simp [rank_self]⟩
  | cons c l ih =>
    have hc := hl c List.mem_cons_self
    have hl' : ∀ a ∈ l, a ∈ S := fun a ha => hl a (List.mem_cons_of_mem c ha)
    rw [List.foldlM_cons, choose_eq (hS x hx c hc), Option.bind_eq_bind, Option.bind_some]
    by_cases hr : rank hashes x c = .lt
    · obtain ⟨m, hm, hmS, hmax⟩ := ih hc hl'
      rw [if_pos hr]
      refine ⟨m, hm, hmS, fun a ha => ?_⟩
      rcases List.mem_cons.1 ha with rfl | ha
      · exact TransCmp.isLE_trans (by rw [hr]; rfl) (hmax c List.mem_cons_self)
      · exact hmax a ha
    · obtain ⟨m, hm, hmS, hmax⟩ := ih hx hl'
      have hcx : (rank hashes c x).isLE = true := by
        rw [rank_swap x c]
        cases hxc : rank hashes x c <;> simp_all
      rw [if_neg hr]
      refine ⟨m, hm, hmS, fun a ha => ?_⟩
      rcases List.mem_cons.1 ha with rfl | ha
      · exact hmax _ List.mem_cons_self
      · rcases List.mem_cons.1 ha with rfl | ha
        · exact TransCmp.isLE_trans hcx (hmax x List.mem_cons_self)
        · exact hmax a (List.mem_cons_of_mem x ha)

/-- **The choice is antisymmetric, and independent of the order in the short range.** Of
two states with different hashes exactly one is taken over the other; a state is not
taken over itself. If states with different hashes are pairwise in short range, the
winner is the same whatever the order of arrival and the state to start with. -/
theorem select_antisymmetric_and_order_independent (hashes : Hashes) (constants : Constants) :
    (EpochInThirds constants → ∀ a b : WithHash, a.hash ≠ b.hash →
        (select hashes constants a b = some .take ∧ select hashes constants b a = some .keep)
          ∨ (select hashes constants a b = some .keep ∧ select hashes constants b a = some .take))
      ∧ (∀ a b : WithHash, a.hash = b.hash → a.data = b.data →
        select hashes constants a b = some .keep ∧ select hashes constants b a = some .keep)
      ∧ ∀ l : List WithHash, l ≠ [] → (l.map WithHash.hash).Nodup →
        l.Pairwise (fun a b => isShortRange constants a.data b.data = some true) →
        ∃ winner ∈ l, ∀ x l', (∀ a, a ∈ x :: l' ↔ a ∈ l) →
          chooseAll hashes constants x l' = some winner := by
  refine ⟨fun h a b hne => select_antisymm (isShortRange_eq h a.data b.data) hne, ?_, ?_⟩
  · rintro ⟨h, d⟩ ⟨h', d'⟩ rfl rfl
    exact ⟨select_self _, select_self _⟩
  · intro l hne hnd hshort
    have hpair : ∀ a ∈ l, ∀ b ∈ l, isShortRange constants a.data b.data = some true := by
      have : Std.Symm fun a b : WithHash => isShortRange constants a.data b.data = some true :=
        ⟨fun _ _ h => (isShortRange_comm _ _).trans h⟩
      exact hshort.forall_of_forall fun a _ => isShortRange_self a.data
    have hwin : ∀ x l', (∀ a, a ∈ x :: l' ↔ a ∈ l) → ∃ m, chooseAll hashes constants x l' = some m
        ∧ m ∈ l ∧ ∀ a ∈ l, (rank hashes a m).isLE = true := by
      intro x l' hl'
      obtain ⟨m, hm, hml, hmax⟩ := chooseAll_max (S := {a | a ∈ l}) hpair
        ((hl' x).1 List.mem_cons_self) fun a ha => (hl' a).1 (List.mem_cons_of_mem x ha)
      exact ⟨m, hm, hml, fun a ha => hmax a ((hl' a).2 ha)⟩
    obtain ⟨x₀, l₀, rfl⟩ := List.exists_cons_of_ne_nil hne
    obtain ⟨winner, -, hwl, hwmax⟩ := hwin x₀ l₀ fun _ => Iff.rfl
    refine ⟨winner, hwl, fun x l' hl' => ?_⟩
    obtain ⟨m, hm, hml, hmmax⟩ := hwin x l' hl'
    have heq : rank hashes m winner = .eq :=
      OrientedCmp.isLE_antisymm (hwmax m hml) (hmmax winner hwl)
    rw [hm, List.inj_on_of_nodup_map hnd hml hwl (hash_eq_of_rank_eq heq)]

end MinaProtocol.Consensus
