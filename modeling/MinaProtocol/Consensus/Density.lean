import MinaProtocol.Consensus.Chain
import MinaProtocol.Lib.RingWindow

/-!
# Consensus.Density

The window densities count blocks. `count` is the number of blocks of a chain in a
sub-window, with full sub-windows before genesis. The densities of a state are the
counts of the window that ends with the sub-window of its slot, kept as a ring; the
minimum is the least of the densities of a full window and of the windows that ended
before the first block of a new sub-window (`min_window_density_is_sliding_window`).
-/

namespace MinaProtocol.Consensus

variable {hashes : Hashes} {constants : Constants} {slots : List UInt32} {s : ConsensusState}
  {genesis : Genesis} {older : List UInt32} {s' : ConsensusState} {prev next : UInt32} {block : Block} {j : Int}

/-! ### The counts -/

/-- The sub-windows of a window. -/
def windowLength (constants : Constants) : Nat := constants.subWindowsPerWindow.toNat

/-- The slots of a sub-window. -/
def subWindowLength (constants : Constants) : Nat := constants.slotsPerSubWindow.toNat

/-- The sub-window of a slot. -/
def subWindowOf (constants : Constants) (slot : UInt32) : Nat := slot.toNat / subWindowLength constants

/-- The number of blocks in sub-window `j` for the slots of the blocks of a chain. -/
def count (constants : Constants) (slots : List UInt32) (j : Int) : Nat :=
  if 0 ≤ j then slots.countP fun slot => (subWindowOf constants slot : Int) = j
  else if -(windowLength constants : Int) < j then subWindowLength constants
  else 0

/-- The number of blocks in the window that ends before sub-window `w`. -/
noncomputable def windowCount (constants : Constants) (slots : List UInt32) (w : Nat) : Nat :=
  ∑ j ∈ Finset.Ico ((w : Int) - windowLength constants) w, count constants slots j

/-- The counts that the minimum is taken of: that of a full window and, for every block
that is the first one of its sub-window and not in the grace period, that of the window
before it. The slots are those of the chain, the newest one first. -/
def Compared (constants : Constants) (slots : List UInt32) (x : Nat) : Prop :=
  x = windowLength constants * subWindowLength constants
    ∨ ∃ newer next prev older, slots = newer ++ next :: prev :: older
      ∧ subWindowOf constants next ≠ subWindowOf constants prev
      ∧ constants.gracePeriodEnd ≤ next
      ∧ x = windowCount constants (prev :: older) (subWindowOf constants next)

/-- The chains of states from the genesis block on, with the slots of their blocks, the
newest one first. -/
inductive Chain (hashes : Hashes) (constants : Constants) (genesis : Genesis) :
    List UInt32 → ConsensusState → Prop where
  | genesis {s : ConsensusState} {block : Block} : block.consensusTransition = 0 →
      update hashes constants (negativeOne constants genesis) block = .ok s →
      Chain hashes constants genesis [0] s
  | step {slots : List UInt32} {s s' : ConsensusState} {block : Block} :
      Chain hashes constants genesis slots s →
      s.currGlobalSlot.slotNumber < block.consensusTransition →
      update hashes constants s block = .ok s' →
      Chain hashes constants genesis (block.consensusTransition :: slots) s'

/-- The sub-window that a window of these slots would end with has 32 bits. -/
def NoOverflow (constants : Constants) (slots : List UInt32) : Prop :=
  ∀ slot ∈ slots, subWindowOf constants slot + windowLength constants < 2 ^ 32

/-- The densities of the state count the blocks of the chain. -/
structure SlidingWindow (hashes : Hashes) (constants : Constants) (last : UInt32)
    (older : List UInt32) (s : ConsensusState) : Prop where
  length_eq : s.subWindowDensities.length = windowLength constants
  /-- Each place is that of one sub-window of the window, and has its count. -/
  density : ∀ i < windowLength constants,
    (∃! j : Int, (subWindowOf constants last : Int) - windowLength constants < j
      ∧ j ≤ subWindowOf constants last ∧ j % windowLength constants = i)
    ∧ ∀ j : Int, (subWindowOf constants last : Int) - windowLength constants < j →
      j ≤ subWindowOf constants last → j % windowLength constants = i →
      s.subWindowDensities[i]?.map UInt32.toNat = some (count constants (last :: older) j)
  minimum : IsLeast {x | Compared constants (last :: older) x} s.minWindowDensity.toNat
  density_le : ∀ density ∈ s.subWindowDensities, density ≤ constants.slotsPerSubWindow
  never_increases : ∀ s', Extends hashes constants s s' → s'.minWindowDensity ≤ s.minWindowDensity

theorem windowLength_pos (constants : Constants) : 0 < windowLength constants :=
  Nat.pos_of_ne_zero fun h => constants.subWindowsPerWindow_ne (UInt32.toNat_inj.1 h)

theorem subWindowLength_pos (constants : Constants) : 0 < subWindowLength constants :=
  Nat.pos_of_ne_zero fun h => constants.slotsPerSubWindow_ne (UInt32.toNat_inj.1 h)

theorem globalSubWindow_toNat (slot : GlobalSlot) :
    (globalSubWindow constants slot).toNat = subWindowOf constants slot.slotNumber :=
  UInt32.toNat_div _ _

theorem subWindow_toNat (t : UInt32) : (subWindow constants t).toNat = t.toNat % windowLength constants :=
  UInt32.toNat_mod _ _

theorem subWindowOf_le (constants : Constants) {slot slot' : UInt32} (h : slot.toNat ≤ slot'.toNat) :
    subWindowOf constants slot ≤ subWindowOf constants slot' :=
  Nat.div_le_div_right h

theorem count_le (constants : Constants) (h : slots.Pairwise (· > ·)) (j : Int) :
    count constants slots j ≤ subWindowLength constants := by
  unfold count
  split
  · rename_i hj
    have hnodup : (slots.filter fun slot => (subWindowOf constants slot : Int) = j).Nodup :=
      List.Nodup.filter _ (h.imp fun hgt => by
        rintro rfl
        exact UInt32.lt_irrefl _ hgt)
    rw [List.countP_eq_length_filter, ← List.length_map UInt32.toNat]
    have hnodup' := hnodup.map (f := UInt32.toNat) fun _ _ e => UInt32.toNat_inj.1 e
    rw [← List.toFinset_card_of_nodup hnodup']
    have hsub : ((slots.filter fun slot => (subWindowOf constants slot : Int) = j).map UInt32.toNat).toFinset
        ⊆ Finset.Ico (subWindowLength constants * j.toNat)
          (subWindowLength constants * j.toNat + subWindowLength constants) := by
      intro n hn
      obtain ⟨slot, hslot, rfl⟩ := List.mem_map.1 (List.mem_toFinset.1 hn)
      have hj' := of_decide_eq_true (List.mem_filter.1 hslot).2
      have hjn : subWindowOf constants slot = j.toNat := by omega
      have hdiv := Nat.div_add_mod slot.toNat (subWindowLength constants)
      have hmod := Nat.mod_lt slot.toNat (subWindowLength_pos constants)
      unfold subWindowOf at hjn
      rw [hjn] at hdiv
      rw [Finset.mem_Ico]
      omega
    calc _ ≤ _ := Finset.card_le_card hsub
      _ = subWindowLength constants := by rw [Nat.card_Ico, Nat.add_sub_cancel_left]
  · split
    · exact le_rfl
    · exact Nat.zero_le _

theorem count_cons (slot : UInt32) (slots : List UInt32) (j : Int) : count constants (slot :: slots) j
      = count constants slots j + if (subWindowOf constants slot : Int) = j then 1 else 0 := by
  unfold count
  by_cases hj : 0 ≤ j
  · rw [if_pos hj, if_pos hj, List.countP_cons]
    simp only [decide_eq_true_eq]
  · rw [if_neg hj, if_neg hj, if_neg (by omega : ¬ (subWindowOf constants slot : Int) = j), Nat.add_zero]

theorem count_eq_zero (hj : 0 ≤ j)
    (h : ∀ slot ∈ slots, (subWindowOf constants slot : Int) < j) : count constants slots j = 0 := by
  unfold count
  rw [if_pos hj, List.countP_eq_zero]
  intro slot hslot
  have := h slot hslot
  rw [decide_eq_true_eq]
  omega

theorem windowCount_le (constants : Constants) (h : slots.Pairwise (· > ·)) (w : Nat) :
    windowCount constants slots w ≤ windowLength constants * subWindowLength constants := by
  unfold windowCount
  calc _ ≤ (Finset.Ico ((w : Int) - windowLength constants) w).card • subWindowLength constants :=
        Finset.sum_le_card_nsmul _ _ _ fun j _ => count_le constants h j
    _ = windowLength constants * subWindowLength constants := by
        rw [Int.card_Ico, smul_eq_mul]
        congr 1
        omega

/-! ### One update -/

theorem withinRange_eq {p n : UInt32} {i : Nat} (hi : i < 2 ^ 32) :
    withinRange p n (UInt32.ofNat i) = between p.toNat n.toNat i := by
  unfold withinRange between
  simp only [UInt32.lt_iff_toNat_lt, UInt32.toNat_ofNat_of_lt' hi]

theorem currentSubWindowDensities_ring {f : Int → UInt32} {d : List UInt32}
    (h : Ring (windowLength constants) (prev.toNat - windowLength constants + 1) f d)
    (hlt : prev.toNat < next.toNat) (hover : prev.toNat + windowLength constants < 2 ^ 32)
    (hz : ∀ j : Int, prev.toNat < j → f j = 0) : Ring (windowLength constants) (next.toNat - windowLength constants) f
      (currentSubWindowDensities constants prev next d) := by
  have hadv := h.advance (windowLength_pos constants) hlt hz
  convert hadv using 1
  unfold currentSubWindowDensities
  refine List.mapIdx_eq_mapIdx_iff.2 fun i hi => ?_
  rw [h.length_eq] at hi
  have hne : prev ≠ next := by
    rintro rfl
    exact Nat.lt_irrefl _ hlt
  have hle : next ≤ prev + constants.subWindowsPerWindow
      ↔ next.toNat ≤ prev.toNat + windowLength constants := by
    unfold windowLength at hover ⊢
    rw [UInt32.le_iff_toNat_le, UInt32.toNat_add, Nat.mod_eq_of_lt hover]
  rw [if_neg hne, withinRange_eq (by omega), subWindow_toNat, subWindow_toNat]
  simp only [hle, Bool.and_eq_true, decide_eq_true_eq, Bool.not_eq_true']

/-- The places of the ring, as the code numbers them. -/
theorem ofNat_eq_subWindow_iff (constants : Constants) (w : UInt32)
    (hj : (w.toNat : Int) - windowLength constants < j) (hle : j ≤ w.toNat) :
    UInt32.ofNat (j % windowLength constants).toNat = subWindow constants w ↔ j = w.toNat := by
  have hW := windowLength_pos constants
  have hWlt : windowLength constants < 2 ^ 32 := constants.subWindowsPerWindow.toNat_lt
  have h0 := Int.emod_nonneg j (show (windowLength constants : Int) ≠ 0 by omega)
  have h1 := Int.emod_lt_of_pos j (show (0 : Int) < windowLength constants by omega)
  have hlt : (j % windowLength constants).toNat < 2 ^ 32 := by omega
  rw [← UInt32.toNat_inj, subWindow_toNat, UInt32.toNat_ofNat_of_lt' hlt]
  constructor
  · intro h
    have hmod : j % windowLength constants = (w.toNat : Int) % windowLength constants := by omega
    exact emod_injOn (a := (w.toNat : Int) - windowLength constants + 1) (by omega) (by omega)
      (by omega) (by omega) hmod
  · rintro rfl
    omega

/-- The counts as densities. -/
def density (constants : Constants) (slots : List UInt32) (j : Int) : UInt32 :=
  UInt32.ofNat (count constants slots j)

/-- The ring of the densities after the blocks at the slots, when the last sub-window is `w`. -/
def Densities (constants : Constants) (slots : List UInt32) (w : Nat) (d : List UInt32) : Prop :=
  Ring (windowLength constants) (w - windowLength constants + 1) (density constants slots) d

theorem density_toNat (h : slots.Pairwise (· > ·)) (j : Int) :
    (density constants slots j).toNat = count constants slots j := by
  have hle := count_le constants h j
  have hlt : subWindowLength constants < 2 ^ 32 := constants.slotsPerSubWindow.toNat_lt
  exact UInt32.toNat_ofNat_of_lt' (Nat.lt_of_le_of_lt hle hlt)

theorem density_eq_zero {w : Nat} (h : ∀ slot ∈ slots, subWindowOf constants slot ≤ w) (hj : (w : Int) < j) :
    density constants slots j = 0 := by
  unfold density
  rw [count_eq_zero (by omega) fun slot hslot => ?_]
  · rfl
  · have := h slot hslot
    omega

theorem density_cons (slot : UInt32) (slots : List UInt32) (j : Int) : density constants (slot :: slots) j
      = if j = subWindowOf constants slot then density constants slots j + 1
        else density constants slots j := by
  unfold density
  rw [count_cons]
  by_cases hj : j = subWindowOf constants slot
  · rw [if_pos hj, if_pos hj.symm, UInt32.ofNat_add]
    rfl
  · rw [if_neg hj, if_neg (Ne.symm hj), Nat.add_zero]

section Block

variable {slots d : List UInt32} {prevSlot : GlobalSlot} {slot m : UInt32}

variable (h : Densities constants slots (subWindowOf constants prevSlot.slotNumber) d)

include h

variable (hslots : ∀ s ∈ slots, subWindowOf constants s ≤ subWindowOf constants prevSlot.slotNumber)

include hslots

variable (hlt : subWindowOf constants prevSlot.slotNumber < subWindowOf constants slot)

include hlt

theorem Densities.current
    (hover : subWindowOf constants prevSlot.slotNumber + windowLength constants < 2 ^ 32) :
    Ring (windowLength constants) (subWindowOf constants slot - windowLength constants)
      (density constants slots)
      (currentSubWindowDensities constants (globalSubWindow constants prevSlot)
        (globalSubWindow constants (GlobalSlot.ofSlotNumber constants slot)) d) := by
  unfold Densities at h
  rw [← globalSubWindow_toNat] at h hslots hlt hover
  have hnext : (globalSubWindow constants (GlobalSlot.ofSlotNumber constants slot)).toNat
      = subWindowOf constants slot := globalSubWindow_toNat _
  rw [← hnext] at hlt ⊢
  exact currentSubWindowDensities_ring h hlt hover fun j hj => density_eq_zero hslots hj

theorem Densities.later
    (hover : subWindowOf constants prevSlot.slotNumber + windowLength constants < 2 ^ 32) :
    Densities constants (slot :: slots) (subWindowOf constants slot)
      (updateMinWindowDensity true constants prevSlot (GlobalSlot.ofSlotNumber constants slot) d m).2 := by
  have hcur := h.current hslots hlt hover
  have hW := windowLength_pos constants
  have hnext : (globalSubWindow constants (GlobalSlot.ofSlotNumber constants slot)).toNat
      = subWindowOf constants slot := globalSubWindow_toNat _
  have hne : ¬ globalSubWindow constants prevSlot
      = globalSubWindow constants (GlobalSlot.ofSlotNumber constants slot) := by
    intro e
    have := congrArg UInt32.toNat e
    rw [hnext, globalSubWindow_toNat] at this
    omega
  refine hcur.mapIdx _ fun j hj hjlt => ?_
  have hplace := ofNat_eq_subWindow_iff constants
    (globalSubWindow constants (GlobalSlot.ofSlotNumber constants slot)) (j := j)
    (by omega) (by omega)
  rw [hnext] at hplace
  by_cases hjw : j = subWindowOf constants slot
  · -- the place of the new sub-window was that of the one before the window
    refine ⟨j - windowLength constants, by omega, by omega, Int.sub_emod_right _ _, ?_⟩
    rw [if_pos (hplace.2 hjw), if_neg hne, density_cons, if_pos hjw, density_eq_zero hslots (by omega)]
    rfl
  · refine ⟨j, by omega, by omega, rfl, ?_⟩
    rw [if_neg (mt hplace.1 hjw), density_cons, if_neg hjw]

omit hlt

omit hslots

theorem Densities.same (heq : subWindowOf constants prevSlot.slotNumber = subWindowOf constants slot) :
    Densities constants (slot :: slots) (subWindowOf constants slot)
      (updateMinWindowDensity true constants prevSlot (GlobalSlot.ofSlotNumber constants slot) d m).2 := by
  have hnext : (globalSubWindow constants (GlobalSlot.ofSlotNumber constants slot)).toNat
      = subWindowOf constants slot := globalSubWindow_toNat _
  have he : globalSubWindow constants prevSlot
      = globalSubWindow constants (GlobalSlot.ofSlotNumber constants slot) :=
    UInt32.toNat_inj.1 (by rw [hnext, globalSubWindow_toNat, heq])
  have hcur : currentSubWindowDensities constants (globalSubWindow constants prevSlot)
      (globalSubWindow constants (GlobalSlot.ofSlotNumber constants slot)) d = d := by
    unfold currentSubWindowDensities
    simp only [he, if_true]
    exact List.ext_getElem (by simp) (by simp)
  rw [heq] at h
  unfold updateMinWindowDensity
  dsimp only
  rw [hcur]
  refine Ring.mapIdx h _ fun j hj hjlt => ⟨j, hj, hjlt, rfl, ?_⟩
  have hplace := ofNat_eq_subWindow_iff constants
    (globalSubWindow constants (GlobalSlot.ofSlotNumber constants slot)) (j := j)
    (by omega) (by omega)
  rw [hnext] at hplace
  by_cases hjw : j = subWindowOf constants slot
  · rw [if_pos (hplace.2 hjw), if_pos he, density_cons, if_pos hjw]
    rfl
  · rw [if_neg (mt hplace.1 hjw), density_cons, if_neg hjw]

omit h

theorem foldl_add_toNat (l : List UInt32) (a : UInt32) :
    (l.foldl (· + ·) a).toNat = (a.toNat + (l.map UInt32.toNat).sum) % 2 ^ 32 := by
  induction l generalizing a with
  | nil =>
    have := a.toNat_lt
    simp
  | cons x l ih =>
    rw [List.foldl_cons, ih, UInt32.toNat_add, Nat.mod_add_mod, List.map_cons, List.sum_cons, Nat.add_assoc]

theorem toNat_min (a b : UInt32) : (min a b).toNat = min a.toNat b.toNat := by
  change (if a ≤ b then a else b).toNat = _
  split
  · rename_i h
    rw [UInt32.le_iff_toNat_le] at h
    omega
  · rename_i h
    rw [UInt32.le_iff_toNat_le] at h
    omega

include h

theorem Densities.currentWindowDensity (hpair : slots.Pairwise (· > ·))
    (hslots : ∀ s ∈ slots, subWindowOf constants s ≤ subWindowOf constants prevSlot.slotNumber)
    (hlt : subWindowOf constants prevSlot.slotNumber < subWindowOf constants slot)
    (hover : subWindowOf constants prevSlot.slotNumber + windowLength constants < 2 ^ 32) :
    ((currentSubWindowDensities constants (globalSubWindow constants prevSlot)
        (globalSubWindow constants (GlobalSlot.ofSlotNumber constants slot)) d).foldl (· + ·) 0).toNat
      = windowCount constants slots (subWindowOf constants slot) % 2 ^ 32 := by
  have hsum := ((h.current hslots hlt hover).map UInt32.toNat).sum_eq
  simp only [density_toNat hpair, sub_add_cancel] at hsum
  rw [foldl_add_toNat, hsum, UInt32.toNat_zero, Nat.zero_add]
  rfl

theorem Densities.minimum (hpair : slots.Pairwise (· > ·)) (incr : Bool)
    (hslots : ∀ s ∈ slots, subWindowOf constants s ≤ subWindowOf constants prevSlot.slotNumber)
    (hle : prevSlot.slotNumber.toNat ≤ slot.toNat)
    (hover : subWindowOf constants prevSlot.slotNumber + windowLength constants < 2 ^ 32) :
    (updateMinWindowDensity incr constants prevSlot (GlobalSlot.ofSlotNumber constants slot) d m).1.toNat =
      if subWindowOf constants prevSlot.slotNumber = subWindowOf constants slot
          ∨ slot < constants.gracePeriodEnd then m.toNat
      else min (windowCount constants slots (subWindowOf constants slot) % 2 ^ 32) m.toNat := by
  have hsame : globalSubWindow constants prevSlot
        = globalSubWindow constants (GlobalSlot.ofSlotNumber constants slot)
      ↔ subWindowOf constants prevSlot.slotNumber = subWindowOf constants slot := by
    rw [← UInt32.toNat_inj, globalSubWindow_toNat, globalSubWindow_toNat]
    rfl
  unfold updateMinWindowDensity
  simp only [hsame, GlobalSlot.ofSlotNumber_slotNumber]
  split
  · rfl
  · rename_i hc
    have hlt := lt_of_le_of_ne (subWindowOf_le constants hle) (not_or.1 hc).1
    rw [toNat_min, h.currentWindowDensity hpair hslots hlt hover]

omit h

end Block

/-! ### Chains -/

/-- What holds along a chain, and before its first block. -/
structure Counted (constants : Constants) (slots : List UInt32) (s : ConsensusState) : Prop where
  pairwise : slots.Pairwise (· > ·)
  slots_le : ∀ slot ∈ slots, slot.toNat ≤ s.currGlobalSlot.slotNumber.toNat
  densities : Densities constants slots (subWindowOf constants s.currGlobalSlot.slotNumber)
    s.subWindowDensities
  minimum : IsLeast {x | Compared constants slots x} s.minWindowDensity.toNat

section Step

variable {slots : List UInt32} {s s' : ConsensusState} {block : Block}

theorem Counted.subWindowOf_le (h : Counted constants slots s) :
    ∀ slot ∈ slots, subWindowOf constants slot ≤ subWindowOf constants s.currGlobalSlot.slotNumber :=
  fun slot hslot => Consensus.subWindowOf_le constants (h.slots_le slot hslot)

/-- The minimum after a block at the slot, or at the slot without a block, when the
counts have 32 bits. -/
theorem Counted.minimum_update (h : Counted constants slots s) (incr : Bool) (slot : UInt32)
    (hfull : windowLength constants * subWindowLength constants < 2 ^ 32)
    (hover : subWindowOf constants s.currGlobalSlot.slotNumber + windowLength constants < 2 ^ 32)
    (hle : s.currGlobalSlot.slotNumber.toNat ≤ slot.toNat) :
    (updateMinWindowDensity incr constants s.currGlobalSlot (GlobalSlot.ofSlotNumber constants slot)
        s.subWindowDensities s.minWindowDensity).1.toNat =
      if subWindowOf constants s.currGlobalSlot.slotNumber = subWindowOf constants slot
          ∨ slot < constants.gracePeriodEnd then s.minWindowDensity.toNat
      else min (windowCount constants slots (subWindowOf constants slot))
        s.minWindowDensity.toNat := by
  have hlt := Nat.lt_of_le_of_lt (windowCount_le constants h.pairwise (subWindowOf constants slot)) hfull
  rw [h.densities.minimum h.pairwise incr h.subWindowOf_le hle hover, Nat.mod_eq_of_lt hlt]

theorem Updated.minWindowDensity_eq (hu : Updated hashes constants s block s') :
    s'.minWindowDensity = (updateMinWindowDensity true constants s.currGlobalSlot
      (GlobalSlot.ofSlotNumber constants block.consensusTransition) s.subWindowDensities s.minWindowDensity).1 := by
  rw [← hu.currGlobalSlot, ← hu.density]

theorem Counted.densities_update (h : Counted constants slots s)
    (hover : subWindowOf constants s.currGlobalSlot.slotNumber + windowLength constants < 2 ^ 32)
    (hle : s.currGlobalSlot.slotNumber.toNat ≤ block.consensusTransition.toNat)
    (hu : Updated hashes constants s block s') : Densities constants (block.consensusTransition :: slots)
      (subWindowOf constants s'.currGlobalSlot.slotNumber) s'.subWindowDensities := by
  have hd := congrArg Prod.snd hu.density
  rw [hu.currGlobalSlot] at hd ⊢
  change s'.subWindowDensities = _ at hd
  rw [hd]
  rcases Nat.eq_or_lt_of_le (Consensus.subWindowOf_le constants hle) with heq | hlt
  · exact h.densities.same heq
  · exact h.densities.later h.subWindowOf_le hlt hover

end Step

theorem compared_of_length_le_one (slots : List UInt32) (h : slots.length ≤ 1) :
    {x | Compared constants slots x} = {windowLength constants * subWindowLength constants} := by
  ext x
  refine ⟨?_, .inl⟩
  rintro (h' | ⟨newer, next, prev, older, rfl, -⟩)
  · exact h'
  · simp only [List.length_append, List.length_cons] at h
    omega

theorem compared_cons {x : Nat} : Compared constants (next :: prev :: older) x ↔ Compared constants (prev :: older) x
      ∨ (subWindowOf constants next ≠ subWindowOf constants prev ∧ constants.gracePeriodEnd ≤ next
        ∧ x = windowCount constants (prev :: older) (subWindowOf constants next)) := by
  unfold Compared
  constructor
  · rintro (h | ⟨newer, n, p, o, heq, hne, hgrace, hx⟩)
    · exact .inl (.inl h)
    · cases newer with
      | nil =>
        rw [List.nil_append, List.cons.injEq, List.cons.injEq] at heq
        obtain ⟨rfl, rfl, rfl⟩ := heq
        exact .inr ⟨hne, hgrace, hx⟩
      | cons y newer =>
        rw [List.cons_append, List.cons.injEq] at heq
        exact .inl (.inr ⟨newer, n, p, o, heq.2, hne, hgrace, hx⟩)
  · rintro ((h | ⟨newer, n, p, o, heq, hrest⟩) | h)
    · exact .inl h
    · exact .inr ⟨next :: newer, n, p, o, by rw [heq, List.cons_append], hrest⟩
    · exact .inr ⟨[], next, prev, older, rfl, h⟩

theorem densities_negativeOne (constants : Constants) (genesis : Genesis) :
    Densities constants [] 0 (negativeOne constants genesis).subWindowDensities := by
  have hW := windowLength_pos constants
  refine ⟨?_, fun j hj hlt => ?_⟩
  · change (List.replicate (windowLength constants - 1) constants.slotsPerSubWindow).length + 1 = _
    rw [List.length_replicate]
    omega
  · unfold density count
    rcases eq_or_ne j 0 with rfl | hne
    · rw [Int.zero_emod]
      rfl
    · have hmod : (j % windowLength constants).toNat = windowLength constants - 1 - (-j - 1).toNat := by
        rw [← Int.add_emod_right, Int.emod_eq_of_lt (by omega) (by omega)]
        omega
      rw [if_neg (by omega), if_pos (by omega), hmod]
      change (0 :: List.replicate (windowLength constants - 1) constants.slotsPerSubWindow)[_]? = _
      rw [List.getElem?_cons, if_neg (by omega), List.getElem?_replicate, if_pos (by omega)]
      exact congrArg some (UInt32.ofNat_toNat).symm

theorem counted_negativeOne (constants : Constants) (genesis : Genesis)
    (hfull : windowLength constants * subWindowLength constants < 2 ^ 32) :
    Counted constants [] (negativeOne constants genesis) := by
  have hzero : subWindowOf constants (negativeOne constants genesis).currGlobalSlot.slotNumber = 0 :=
    Nat.zero_div _
  have hmin : (negativeOne constants genesis).minWindowDensity.toNat
      = windowLength constants * subWindowLength constants := by
    change constants.slotsPerWindow.toNat = _
    rw [constants.slotsPerWindow_eq, UInt32.toNat_mul, Nat.mul_comm]
    exact Nat.mod_eq_of_lt hfull
  refine ⟨.nil, by simp, ?_, ?_⟩
  · rw [hzero]
    exact densities_negativeOne constants genesis
  · rw [hmin, compared_of_length_le_one [] (Nat.zero_le 1)]
    exact isLeast_singleton

theorem Counted.of_genesis (hfull : windowLength constants * subWindowLength constants < 2 ^ 32)
    (hzero : block.consensusTransition = 0)
    (hu : Updated hashes constants (negativeOne constants genesis) block s) : Counted constants [0] s := by
  have h := counted_negativeOne constants genesis hfull
  have hslot : (negativeOne constants genesis).currGlobalSlot.slotNumber = 0 := rfl
  have hover : subWindowOf constants (negativeOne constants genesis).currGlobalSlot.slotNumber
      + windowLength constants < 2 ^ 32 := by
    have hlt : windowLength constants < 2 ^ 32 := constants.subWindowsPerWindow.toNat_lt
    have hsub : subWindowOf constants 0 = 0 := Nat.zero_div _
    rw [hslot, hsub]
    omega
  have hle : (negativeOne constants genesis).currGlobalSlot.slotNumber.toNat
      ≤ block.consensusTransition.toNat := Nat.zero_le _
  have hd := h.densities_update hover hle hu
  have hmin := h.minimum_update true block.consensusTransition hfull hover hle
  rw [← hu.minWindowDensity_eq, hslot, hzero, if_pos (.inl rfl)] at hmin
  rw [hzero] at hd
  refine ⟨List.pairwise_singleton _ _, by simp, hd, ?_⟩
  rw [compared_of_length_le_one [0] (Nat.le_refl 1), hmin, ← compared_of_length_le_one [] (Nat.zero_le 1)]
  exact h.minimum

theorem Counted.step {prev : UInt32} {older : List UInt32} {s s' : ConsensusState} {block : Block}
    (h : Counted constants (prev :: older) s) (hprev : s.currGlobalSlot.slotNumber = prev)
    (hfull : windowLength constants * subWindowLength constants < 2 ^ 32)
    (hover : subWindowOf constants prev + windowLength constants < 2 ^ 32)
    (hlt : s.currGlobalSlot.slotNumber < block.consensusTransition) (hu : Updated hashes constants s block s') :
    Counted constants (block.consensusTransition :: prev :: older) s' := by
  subst hprev
  rw [UInt32.lt_iff_toNat_lt] at hlt
  have hcur : s'.currGlobalSlot.slotNumber = block.consensusTransition := by
    rw [hu.currGlobalSlot, GlobalSlot.ofSlotNumber_slotNumber]
  refine ⟨List.pairwise_cons.2 ⟨?_, h.pairwise⟩, ?_, h.densities_update hover hlt.le hu, ?_⟩
  · intro slot hslot
    have := h.slots_le slot hslot
    rw [gt_iff_lt, UInt32.lt_iff_toNat_lt]
    omega
  · intro slot hslot
    rw [hcur]
    rcases List.mem_cons.1 hslot with rfl | hslot
    · exact le_rfl
    · exact (h.slots_le slot hslot).trans hlt.le
  · rw [hu.minWindowDensity_eq, h.minimum_update true block.consensusTransition hfull hover hlt.le]
    simp only [compared_cons]
    split
    · rename_i hc
      convert h.minimum using 2
      ext x
      refine ⟨fun hx => hx.resolve_right ?_, .inl⟩
      intro ⟨hne, hgrace, _⟩
      rcases hc with hc | hc
      · exact hne hc.symm
      · rw [UInt32.lt_iff_toNat_lt] at hc
        rw [UInt32.le_iff_toNat_le] at hgrace
        omega
    · rename_i hc
      rw [not_or, UInt32.lt_iff_toNat_lt] at hc
      have hgrace : constants.gracePeriodEnd ≤ block.consensusTransition := by
        rw [UInt32.le_iff_toNat_le]
        omega
      have hset : {x | Compared constants (s.currGlobalSlot.slotNumber :: older) x
            ∨ (subWindowOf constants block.consensusTransition ≠ subWindowOf constants s.currGlobalSlot.slotNumber
            ∧ constants.gracePeriodEnd ≤ block.consensusTransition
            ∧ x = windowCount constants (s.currGlobalSlot.slotNumber :: older)
              (subWindowOf constants block.consensusTransition))}
          = insert (windowCount constants (s.currGlobalSlot.slotNumber :: older)
              (subWindowOf constants block.consensusTransition))
            {x | Compared constants (s.currGlobalSlot.slotNumber :: older) x} := by
        ext x
        constructor
        · rintro (hx | ⟨-, -, hx⟩)
          · exact .inr hx
          · exact .inl hx
        · rintro (hx | hx)
          · exact .inr ⟨Ne.symm hc.1, hgrace, hx⟩
          · exact .inl hx
      rw [hset]
      exact h.minimum.insert _

theorem Chain.slotNumber {last : UInt32}
    (h : Chain hashes constants genesis (last :: older) s) : s.currGlobalSlot.slotNumber = last := by
  cases h with
  | genesis hzero hu => rw [(updated_of_update hu).currGlobalSlot, GlobalSlot.ofSlotNumber_slotNumber, hzero]
  | step _ _ hu => rw [(updated_of_update hu).currGlobalSlot, GlobalSlot.ofSlotNumber_slotNumber]

theorem Chain.counted (hfull : windowLength constants * subWindowLength constants < 2 ^ 32)
    (h : Chain hashes constants genesis slots s) (hover : NoOverflow constants slots.tail) :
    Counted constants slots s := by
  induction h with
  | genesis hzero hu => exact Counted.of_genesis hfull hzero (updated_of_update hu)
  | @step slots s s' block hc hlt hu ih =>
    cases slots with
    | nil => cases hc
    | cons prev older =>
      have hprev := hover prev List.mem_cons_self
      have hih := ih fun slot hslot => hover slot (List.mem_cons_of_mem _ hslot)
      exact hih.step hc.slotNumber hfull hprev hlt (updated_of_update hu)

theorem Updated.minWindowDensity_le (hu : Updated hashes constants s block s') :
    s'.minWindowDensity.toNat ≤ s.minWindowDensity.toNat := by
  have hmin := congrArg Prod.fst hu.density
  unfold updateMinWindowDensity at hmin
  dsimp only at hmin
  rw [hmin]
  split
  · exact le_rfl
  · rw [toNat_min]
    exact Nat.min_le_right _ _

theorem Extends.minWindowDensity_le (h : Extends hashes constants s s') :
    s'.minWindowDensity.toNat ≤ s.minWindowDensity.toNat := by
  induction h with
  | refl => exact le_rfl
  | step _ _ hu ih => exact (updated_of_update hu).minWindowDensity_le.trans ih

/-- **The minimum window density is that of a sliding window.** The densities of every
state of a chain are the counts of its blocks, and the minimum is the least count of the
windows that ended before the first block of a sub-window. -/
theorem min_window_density_is_sliding_window (hashes : Hashes) (constants : Constants)
    (genesis : Genesis) (last : UInt32) (older : List UInt32) (s : ConsensusState)
    (hfull : windowLength constants * subWindowLength constants < 2 ^ 32)
    (hchain : Chain hashes constants genesis (last :: older) s) (hover : NoOverflow constants older) :
    SlidingWindow hashes constants last older s := by
  have hW := windowLength_pos constants
  have h := hchain.counted hfull hover
  have hring : Ring (windowLength constants) (subWindowOf constants last - windowLength constants + 1)
      (density constants (last :: older)) s.subWindowDensities := by
    have hd := h.densities
    rwa [hchain.slotNumber] at hd
  refine ⟨hring.length_eq, fun i hi => ⟨?_, fun j hj hle hmod => ?_⟩, h.minimum, ?_, ?_⟩
  · obtain ⟨j, hj, hlt, hmod⟩ :=
      exists_emod_eq hW (subWindowOf constants last - windowLength constants + 1) i
    have hi' : (i : Int) % windowLength constants = i := Int.emod_eq_of_lt (by omega) (by omega)
    rw [hi'] at hmod
    refine ⟨j, ⟨by omega, by omega, hmod⟩, fun j' ⟨hj', hle', hmod'⟩ => ?_⟩
    exact emod_injOn (a := subWindowOf constants last - windowLength constants + 1) (by omega) hj
      (by omega) hlt (hmod'.trans hmod.symm)
  · have hget := hring.getElem? j (by omega) (by omega)
    rw [hmod, Int.toNat_natCast] at hget
    rw [hget, Option.map_some, density_toNat h.pairwise]
  · intro x hx
    obtain ⟨j, -, -, rfl⟩ := hring.mem hx
    rw [UInt32.le_iff_toNat_le, density_toNat h.pairwise]
    exact count_le constants h.pairwise j
  · intro s' hext
    exact UInt32.le_iff_toNat_le.2 hext.minWindowDensity_le

theorem chain_small : Chain smallHashes smallConstants smallGenesis [1, 0] (stateAfter smallConstants [0, 1]) := by
  have h0 : update smallHashes smallConstants (negativeOne smallConstants smallGenesis) (blockAt 0 1)
      = .ok (stateAfter smallConstants [0]) := by decide
  have h1 : update smallHashes smallConstants (stateAfter smallConstants [0]) (blockAt 1 1)
      = .ok (stateAfter smallConstants [0, 1]) := by decide
  exact .step (.genesis rfl h0) (by decide) h1

theorem noOverflow_small : NoOverflow smallConstants [1, 0] := by
  intro slot hslot
  simp only [List.mem_cons, List.not_mem_nil, or_false] at hslot
  rcases hslot with rfl | rfl
  · decide
  · decide

/-- Three blocks, in windows of two sub-windows of one slot. -/
theorem min_window_density_is_sliding_window_three_blocks :
    SlidingWindow smallHashes smallConstants 3 [1, 0] (stateAfter smallConstants [0, 1, 3]) := by
  have h3 : update smallHashes smallConstants (stateAfter smallConstants [0, 1]) (blockAt 3 1)
      = .ok (stateAfter smallConstants [0, 1, 3]) := by decide
  exact min_window_density_is_sliding_window smallHashes smallConstants smallGenesis 3 [1, 0] _
    (by decide) (.step chain_small (by decide) h3) noOverflow_small

/-- The constants that `create'` computes. -/
def Constants.create (slotsPerSubWindow subWindowsPerWindow slotsPerEpoch gracePeriodSlots
    checkpointWindowSizeInSlots : UInt32) (h : slotsPerSubWindow ≠ 0 ∧ subWindowsPerWindow ≠ 0 ∧ slotsPerEpoch ≠ 0
      ∧ checkpointWindowSizeInSlots ≠ 0) : Constants where
  slotsPerSubWindow
  subWindowsPerWindow
  slotsPerWindow := slotsPerSubWindow * subWindowsPerWindow
  slotsPerEpoch
  gracePeriodEnd := gracePeriodSlots + slotsPerSubWindow * subWindowsPerWindow
  checkpointWindowSizeInSlots
  slotsPerSubWindow_ne := h.1
  subWindowsPerWindow_ne := h.2.1
  slotsPerEpoch_ne := h.2.2.1
  checkpointWindowSizeInSlots_ne := h.2.2.2
  slotsPerWindow_eq := rfl

theorem wideConstants_ne : (2147483648 : UInt32) ≠ 0 ∧ (2 : UInt32) ≠ 0 ∧ (3 : UInt32) ≠ 0 ∧ (3 : UInt32) ≠ 0 := by
  decide

/-- Constants whose windows have `2 ^ 32` slots. -/
def wideConstants : Constants := Constants.create 2147483648 2 3 0 3 wideConstants_ne

/-- The number of slots of a window has 32 bits too: with `2 ^ 32` slots the minimum is
zero from the start. -/
theorem full_window_wraps : Chain smallHashes wideConstants smallGenesis [0] (stateAfter wideConstants [0])
      ∧ NoOverflow wideConstants []
      ∧ ¬ SlidingWindow smallHashes wideConstants 0 [] (stateAfter wideConstants [0]) := by
  have h0 : update smallHashes wideConstants (negativeOne wideConstants smallGenesis) (blockAt 0 1)
      = .ok (stateAfter wideConstants [0]) := by decide
  refine ⟨.genesis rfl h0, by simp [NoOverflow], fun h => ?_⟩
  have hmin := h.minimum.1
  rw [compared_of_length_le_one [0] (Nat.le_refl 1), Set.mem_singleton_iff] at hmin
  have hzero : (stateAfter wideConstants [0]).minWindowDensity.toNat = 0 := by decide
  rw [hzero] at hmin
  revert hmin
  decide

end MinaProtocol.Consensus
