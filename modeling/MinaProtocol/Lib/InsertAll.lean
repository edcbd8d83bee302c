import Mathlib.Tactic
import Std.Data.ExtTreeMap

/-!
# Lib.InsertAll

Many entries put into a map, one after another. What is found afterwards is the last entry of the key, if there
is one: so to put the same entries twice is to put them once, and the order does not matter when keys are distinct.
And many keys taken out of a map.
-/

namespace MinaProtocol

open Std

section InsertAll

variable {K V : Type} [Ord K] [TransOrd K]

/-- The entries are put into the map. -/
def insertAll (m : ExtTreeMap K V) (ps : List (K × V)) : ExtTreeMap K V := ps.foldl (fun m p => m.insert p.1 p.2) m

@[simp] theorem insertAll_nil (m : ExtTreeMap K V) : insertAll m [] = m := rfl

@[simp] theorem insertAll_cons (m : ExtTreeMap K V) (p : K × V) (ps : List (K × V)) :
    insertAll m (p :: ps) = insertAll (m.insert p.1 p.2) ps := rfl

theorem insertAll_append (m : ExtTreeMap K V) (ps qs : List (K × V)) : insertAll m (ps ++ qs) = insertAll (insertAll m ps) qs := by
  simp [insertAll]

variable [LawfulEqOrd K] {m : ExtTreeMap K V} {ps qs : List (K × V)} {k : K}

/-- **What is found** is what was there, or an entry that was put. -/
theorem insertAll_cases (ps : List (K × V)) (k : K) :
    (k ∉ ps.map Prod.fst ∧ ∀ m : ExtTreeMap K V, (insertAll m ps)[k]? = m[k]?) ∨
      ∃ v, (k, v) ∈ ps ∧ ∀ m : ExtTreeMap K V, (insertAll m ps)[k]? = some v := by
  induction ps using List.reverseRecOn with
  | nil => exact .inl ⟨List.not_mem_nil, fun _ => rfl⟩
  | append_singleton ps p ih =>
    have hlast : ∀ m : ExtTreeMap K V, insertAll m (ps ++ [p]) = (insertAll m ps).insert p.1 p.2 := fun m => insertAll_append m ps [p]
    by_cases hp : p.1 = k
    · refine .inr ⟨p.2, by simp [← hp], fun m => ?_⟩
      rw [hlast, hp, ExtTreeMap.getElem?_insert_self]
    · have hother : ∀ m : ExtTreeMap K V, (insertAll m (ps ++ [p]))[k]? = (insertAll m ps)[k]? := by
        intro m
        rw [hlast, ExtTreeMap.getElem?_insert, if_neg fun h => hp (LawfulEqOrd.eq_of_compare h)]
      rcases ih with ⟨hnot, heq⟩ | ⟨v, hmem, heq⟩
      · exact .inl ⟨by simp [Ne.symm hp, hnot], fun m => (hother m).trans (heq m)⟩
      · exact .inr ⟨v, List.mem_append_left _ hmem, fun m => (hother m).trans (heq m)⟩

/-- **The same entries once more** change nothing. -/
theorem insertAll_insertAll : (insertAll (insertAll m ps) ps)[k]? = (insertAll m ps)[k]? := by
  rcases insertAll_cases ps k with ⟨-, heq⟩ | ⟨v, -, heq⟩
  · exact heq _
  · rw [heq, heq]

/-- **Distinct keys** may be put in any order. -/
theorem insertAll_perm (hnodup : (ps.map Prod.fst).Nodup) (hperm : ps.Perm qs) : (insertAll m ps)[k]? = (insertAll m qs)[k]? := by
  rcases insertAll_cases ps k with ⟨hnot, heq⟩ | ⟨v, hv, heq⟩
  · rcases insertAll_cases qs k with ⟨-, heq'⟩ | ⟨v', hv', -⟩
    · rw [heq, heq']
    · exact absurd (List.mem_map_of_mem (hperm.mem_iff.2 hv')) hnot
  · rcases insertAll_cases qs k with ⟨hnot, -⟩ | ⟨v', hv', heq'⟩
    · exact absurd (List.mem_map_of_mem (hperm.mem_iff.1 hv)) hnot
    · have hsame := List.inj_on_of_nodup_map hnodup hv (hperm.mem_iff.2 hv') rfl
      rw [heq, heq', (Prod.mk.inj hsame).2]

theorem insertAll_congr {m' : ExtTreeMap K V} (h : m[k]? = m'[k]?) : (insertAll m ps)[k]? = (insertAll m' ps)[k]? := by
  rcases insertAll_cases ps k with ⟨-, heq⟩ | ⟨v, -, heq⟩
  · rw [heq, heq, h]
  · rw [heq, heq]

end InsertAll

section EraseAll

variable {K V : Type} [Ord K] [TransOrd K]

/-- The keys are taken out of the map. -/
def eraseAll (m : ExtTreeMap K V) (ks : List K) : ExtTreeMap K V := ks.foldl (fun m k => m.erase k) m

@[simp] theorem eraseAll_nil (m : ExtTreeMap K V) : eraseAll m [] = m := rfl

@[simp] theorem eraseAll_cons (m : ExtTreeMap K V) (k : K) (ks : List K) : eraseAll m (k :: ks) = eraseAll (m.erase k) ks := rfl

variable {m : ExtTreeMap K V} {ks : List K} {k : K}

theorem eraseAll_of_none (hnone : m[k]? = none) : (eraseAll m ks)[k]? = none := by
  induction ks generalizing m with
  | nil => exact hnone
  | cons k' ks ih =>
    refine ih ?_
    rw [ExtTreeMap.getElem?_erase, hnone, ite_self]

/-- **What is taken out** is not found. -/
theorem eraseAll_of_mem (hmem : k ∈ ks) : (eraseAll m ks)[k]? = none := by
  induction ks generalizing m with
  | nil => exact absurd hmem List.not_mem_nil
  | cons k' ks ih =>
    rcases List.mem_cons.1 hmem with rfl | hmem
    · exact eraseAll_of_none (m := m.erase k) ExtTreeMap.getElem?_erase_self
    · exact ih hmem

/-- **Other keys** are found as before. -/
theorem eraseAll_of_notMem [LawfulEqOrd K] (hnot : k ∉ ks) : (eraseAll m ks)[k]? = m[k]? := by
  induction ks generalizing m with
  | nil => rfl
  | cons k' ks ih =>
    obtain ⟨hne, hnot⟩ := not_or.1 (List.mem_cons.not.1 hnot)
    rw [eraseAll_cons, ih hnot, ExtTreeMap.getElem?_erase, if_neg fun h => hne (LawfulEqOrd.eq_of_compare h).symm]

end EraseAll

end MinaProtocol
