import Mathlib

/-!
# Lib.RingWindow

Windows over the integers that are kept in a list as a ring: the value for `j` is at the
residue of `j` modulo the length of the list. When the window moves forward, the places
between the residues of its old and its new end are those of the integers it passes.
-/

namespace MinaProtocol

/-- The list has the values of `f` from `a` up to `a + W`, each at its residue. -/
structure Ring {α : Type} (W : Nat) (a : Int) (f : Int → α) (d : List α) : Prop where
  length_eq : d.length = W
  getElem? : ∀ j, a ≤ j → j < a + W → d[(j % W).toNat]? = some (f j)

/-- `i` is strictly between `p` and `n`, going round. -/
def between (p n i : Nat) : Bool := if p < n then p < i && i < n else p < i || i < n

variable {W : Nat} {a : Int} {w' w : Nat}

/-- Different integers of a window have different residues. -/
theorem emod_injOn {j j' : Int} (hj : a ≤ j) (hj' : a ≤ j') (hlt : j < a + W)
    (hlt' : j' < a + W) (h : j % W = j' % W) : j = j' := by
  have hdvd : (W : Int) ∣ j - j' := Int.dvd_of_emod_eq_zero (Int.emod_eq_emod_iff_emod_sub_eq_zero.1 h)
  have habs : |j - j'| < W := by
    rw [abs_lt]
    omega
  have := Int.eq_zero_of_abs_lt_dvd hdvd habs
  omega

/-- **The places that a window passes.** If it moves from `w` to `w'`, by at most its
length, these are the residues between those of `w` and `w'`. -/
theorem between_iff {i : Nat} (hlt : w < w') (hle : w' ≤ w + W) (hi : i < W) :
    between (w % W) (w' % W) i = true ↔ ∃ j, w < j ∧ j < w' ∧ j % W = i := by
  have hW : 0 < W := by omega
  have hw := Nat.div_add_mod w W
  have hw' := Nat.div_add_mod w' W
  have hp := Nat.mod_lt w hW
  have hn := Nat.mod_lt w' hW
  -- the quotient stays or goes up by one
  have hq : w' / W = w / W ∨ w' / W = w / W + 1 := by
    have h1 : w / W ≤ w' / W := Nat.div_le_div_right hlt.le
    have h2 : w' / W ≤ (w + W) / W := Nat.div_le_div_right hle
    rw [Nat.add_div_right w hW] at h2
    omega
  have hmod : ∀ q r : Nat, r < W → (W * q + r) % W = r := fun q r hr => by
    rw [Nat.mul_add_mod, Nat.mod_eq_of_lt hr]
  unfold between
  rcases hq with hq | hq
  · rw [hq] at hw'
    have hpn : w % W < w' % W := by omega
    rw [if_pos hpn, Bool.and_eq_true, decide_eq_true_eq, decide_eq_true_eq]
    constructor
    · rintro ⟨h1, h2⟩
      exact ⟨W * (w / W) + i, by omega, by omega, hmod _ _ hi⟩
    · rintro ⟨j, h1, h2, rfl⟩
      have hj := Nat.div_add_mod j W
      have hjq : j / W = w / W := by
        have h3 : w / W ≤ j / W := Nat.div_le_div_right h1.le
        have h4 : j / W ≤ w' / W := Nat.div_le_div_right h2.le
        omega
      rw [hjq] at hj
      omega
  · rw [hq, Nat.mul_add, Nat.mul_one] at hw'
    have hpn : ¬ w % W < w' % W := by omega
    rw [if_neg hpn, Bool.or_eq_true, decide_eq_true_eq, decide_eq_true_eq]
    constructor
    · rintro (h1 | h1)
      · exact ⟨W * (w / W) + i, by omega, by omega, hmod _ _ hi⟩
      · refine ⟨W * (w / W + 1) + i, ?_, ?_, hmod _ _ hi⟩
        · rw [Nat.mul_add, Nat.mul_one]
          omega
        · rw [Nat.mul_add, Nat.mul_one]
          omega
    · rintro ⟨j, h1, h2, rfl⟩
      have hj := Nat.div_add_mod j W
      have hjq : j / W = w / W ∨ j / W = w / W + 1 := by
        have h3 : w / W ≤ j / W := Nat.div_le_div_right h1.le
        have h4 : j / W ≤ w' / W := Nat.div_le_div_right h2.le
        omega
      rcases hjq with hjq | hjq
      · rw [hjq] at hj
        omega
      · rw [hjq, Nat.mul_add, Nat.mul_one] at hj
        omega

variable {α : Type} {f : Int → α} {d : List α} {β : Type}

/-- A window that is read place by place from another one. -/
theorem Ring.mapIdx {b : Int} {g : Int → β} (h : Ring W a f d) (F : Nat → α → β) (hF : ∀ j, b ≤ j → j < b + W →
      ∃ i, a ≤ i ∧ i < a + W ∧ i % W = j % W ∧ F (j % W).toNat (f i) = g j) :
    Ring W b g (d.mapIdx F) := by
  refine ⟨by rw [List.length_mapIdx, h.length_eq], fun j hj hlt => ?_⟩
  obtain ⟨i, hi, hilt, hmod, hval⟩ := hF j hj hlt
  have hget := h.getElem? i hi hilt
  rw [hmod] at hget
  rw [List.getElem?_mapIdx, hget, Option.map_some, hval]

/-- Every integer has a representative in a window. -/
theorem exists_emod_eq (hW : 0 < W) (a j : Int) : ∃ i, a ≤ i ∧ i < a + W ∧ i % W = j % W := by
  have h0 := Int.emod_nonneg (j - a) (show (W : Int) ≠ 0 by omega)
  have h1 := Int.emod_lt_of_pos (j - a) (show (0 : Int) < W by omega)
  refine ⟨a + (j - a) % W, by omega, by omega, ?_⟩
  rw [Int.add_emod_emod, add_sub_cancel]

/-- **A window moves forward.** The places that it passes get the value of what is after
the old end; when it moves by more than its length, these are all places. -/
theorem Ring.advance {z : α}
    (h : Ring W (w - W + 1) f d) (hW : 0 < W) (hlt : w < w') (hz : ∀ j : Int, w < j → f j = z) :
    Ring W (w' - W) f (d.mapIdx fun i x =>
      if w' ≤ w + W ∧ between (w % W) (w' % W) i = false then x else z) := by
  refine h.mapIdx _ fun j hj hjlt => ?_
  obtain ⟨i, hi, hilt, hmod⟩ := exists_emod_eq hW (w - W + 1) j
  refine ⟨i, hi, hilt, hmod, ?_⟩
  by_cases hle : w' ≤ w + W
  · have hjW := Int.emod_nonneg j (show (W : Int) ≠ 0 by omega)
    have hjW' := Int.emod_lt_of_pos j (show (0 : Int) < W by omega)
    have hbetween := between_iff hlt hle (show (j % W).toNat < W by omega)
    by_cases hjw : j ≤ w
    · -- the place is not passed, and `j` was in the window before
      obtain rfl := emod_injOn hi (show (w - W + 1 : Int) ≤ j by omega) hilt (by omega) hmod
      have hnot : between (w % W) (w' % W) (i % W).toNat = false := by
        rw [Bool.eq_false_iff, ne_eq, hbetween]
        intro ⟨l, hl, hl', hlmod⟩
        have hlmod' : (l : Int) % W = i % W := by omega
        have := emod_injOn (show (w' - W : Int) ≤ l by omega) hj (by omega) hjlt hlmod'
        omega
      rw [if_pos ⟨hle, hnot⟩]
    · have hyes : between (w % W) (w' % W) (j % W).toNat = true := by
        refine hbetween.2 ⟨j.toNat, by omega, by omega, ?_⟩
        have hjn : ((j.toNat : Nat) : Int) = j := Int.toNat_of_nonneg (by omega)
        have : ((j.toNat % W : Nat) : Int) = j % W := by rw [Int.natCast_mod, hjn]
        omega
      rw [if_neg fun hc => by simp [hyes] at hc, hz j (by omega)]
  · rw [if_neg fun hc => hle hc.1, hz j (by omega)]

theorem Ring.map (h : Ring W a f d) (g : α → β) : Ring W a (fun j => g (f j)) (d.map g) := by
  refine ⟨by rw [List.length_map, h.length_eq], fun j hj hlt => ?_⟩
  rw [List.getElem?_map, h.getElem? j hj hlt, Option.map_some]

/-- **The sum of a window.** -/
theorem Ring.sum_eq {f : Int → Nat} {d : List Nat} (h : Ring W a f d) : d.sum = ∑ j ∈ Finset.Ico a (a + W), f j := by
  have hsum : d.sum = ∑ i ∈ Finset.range W, d.getD i 0 := by
    rw [← h.length_eq, ← Fin.sum_univ_eq_sum_range (fun i => d.getD i 0), ← List.sum_ofFn]
    congr 1
    refine List.ext_getElem (by simp) fun i h1 h2 => ?_
    simp
  rw [hsum]
  have hinj : Set.InjOn (fun j : Int => j % W) (Finset.Ico a (a + W)) := by
    intro j hj j' hj' he
    simp only [Finset.coe_Ico, Set.mem_Ico] at hj hj'
    exact emod_injOn hj.1 hj'.1 hj.2 hj'.2 he
  calc ∑ i ∈ Finset.range W, d.getD i 0
      = ∑ i ∈ Finset.Ico (0 : Int) W, d.getD i.toNat 0 := by
        refine Finset.sum_nbij' (fun i => (i : Int)) Int.toNat ?_ ?_ ?_ ?_ ?_
        · intro i hi
          simp only [Finset.mem_range] at hi
          simp [hi]
        · intro i hi
          simp only [Finset.mem_Ico] at hi
          simp only [Finset.mem_range]
          omega
        · simp
        · intro i hi
          simp only [Finset.mem_Ico] at hi
          exact Int.toNat_of_nonneg hi.1
        · simp
    _ = ∑ i ∈ (Finset.Ico a (a + W)).image (fun j : Int => j % (W : Int)), d.getD i.toNat 0 := by
        rw [Int.image_Ico_emod a W (by omega)]
    _ = ∑ j ∈ Finset.Ico a (a + W), d.getD (j % W).toNat 0 := Finset.sum_image hinj
    _ = ∑ j ∈ Finset.Ico a (a + W), f j := by
        refine Finset.sum_congr rfl fun j hj => ?_
        rw [Finset.mem_Ico] at hj
        rw [List.getD_eq_getElem?_getD, h.getElem? j hj.1 hj.2, Option.getD_some]

/-- The entries of a window are its values. -/
theorem Ring.mem (h : Ring W a f d) {x : α} (hx : x ∈ d) : ∃ j, a ≤ j ∧ j < a + W ∧ x = f j := by
  obtain ⟨i, hi, rfl⟩ := List.mem_iff_getElem.1 hx
  rw [h.length_eq] at hi
  have hmem : (i : Int) ∈ (Finset.Ico a (a + W)).image (fun j : Int => j % (W : Int)) := by
    rw [Int.image_Ico_emod a W (by omega), Finset.mem_Ico]
    omega
  obtain ⟨j, hj, hji⟩ := Finset.mem_image.1 hmem
  rw [Finset.mem_Ico] at hj
  have := h.getElem? j hj.1 hj.2
  rw [hji, Int.toNat_natCast, List.getElem?_eq_getElem (h.length_eq ▸ hi), Option.some.injEq] at this
  exact ⟨j, hj.1, hj.2, this⟩

end MinaProtocol
