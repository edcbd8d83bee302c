import Mathlib

/-!
# Lib.EntrySum

A quantity summed over the entries of a finite map. Writing an entry changes the sum by what is
written less what was there, so a program that only writes entries is followed by adding up its
writes. The number of entries is such a sum; `Grew` says which keys are new.
-/

namespace MinaProtocol

open Std

set_option linter.unusedSectionVars false

variable {K V M : Type} [Ord K] [TransOrd K] [LawfulEqOrd K]

/-- The sum of a quantity over the entries of a map. -/
def entrySum [AddCommGroup M] (f : K → V → M) (m : ExtTreeMap K V) : M :=
  (m.toList.map fun e => f e.1 e.2).sum

namespace EntrySum

variable (m : ExtTreeMap K V)

/-- The entry of a key, as a list. -/
def entry (k : K) : List (K × V) := (m[k]?.map fun v => (k, v)).toList

theorem mem_entry {m : ExtTreeMap K V} {k : K} {e : K × V} : e ∈ entry m k ↔ e.1 = k ∧ m[k]? = some e.2 := by
  obtain ⟨i, v⟩ := e
  unfold entry
  simp only [Option.mem_toList, Option.map_eq_some_iff, Prod.mk.injEq]
  constructor
  · intro h
    obtain ⟨w, hw, rfl, rfl⟩ := h
    exact ⟨rfl, hw⟩
  · intro h
    obtain ⟨rfl, hv⟩ := h
    exact ⟨v, hv, rfl, rfl⟩

theorem nodup_toList : m.toList.Nodup := by
  refine (ExtTreeMap.distinct_keys_toList (t := m)).imp fun hne heq => hne ?_
  rw [heq, LawfulEqOrd.compare_eq_iff_eq]

theorem nodup_entry (k : K) : (entry m k).Nodup := by
  unfold entry
  cases m[k]? with
  | none => exact List.nodup_nil
  | some v => exact List.nodup_singleton _

/-- The entries are that of one key and those of the others. -/
theorem toList_perm (k : K) : m.toList.Perm (entry m k ++ (m.erase k).toList) := by
  refine (List.perm_ext_iff_of_nodup (nodup_toList m) ?_).2 fun e => ?_
  · refine List.nodup_append.2 ⟨nodup_entry m k, nodup_toList _, fun e he e' he' heq => ?_⟩
    subst heq
    obtain ⟨i, v⟩ := e
    obtain ⟨rfl, -⟩ := mem_entry.1 he
    rw [ExtTreeMap.mem_toList_iff_getElem?_eq_some, ExtTreeMap.getElem?_erase_self] at he'
    cases he'
  · obtain ⟨i, v⟩ := e
    rw [List.mem_append, mem_entry, ExtTreeMap.mem_toList_iff_getElem?_eq_some,
      ExtTreeMap.mem_toList_iff_getElem?_eq_some, ExtTreeMap.getElem?_erase]
    by_cases hi : i = k
    · subst hi
      simp
    · rw [if_neg fun h => hi (LawfulEqOrd.compare_eq_iff_eq.1 h).symm]
      simp [hi]

theorem erase_insert (k : K) (v : V) : (m.insert k v).erase k = m.erase k := by
  refine ExtTreeMap.ext_getElem? fun i => ?_
  rw [ExtTreeMap.getElem?_erase, ExtTreeMap.getElem?_erase, ExtTreeMap.getElem?_insert]
  split
  · rfl
  · rfl

section Sum

variable [AddCommGroup M] (f : K → V → M) (m : ExtTreeMap K V) (k : K) {v : V}

theorem eq_add_erase : entrySum f m = (m[k]?.elim 0 (f k)) + entrySum f (m.erase k) := by
  unfold entrySum
  rw [((toList_perm m k).map _).sum_eq, List.map_append, List.sum_append]
  unfold entry
  cases m[k]? with
  | none => simp
  | some v => simp

/-- **Writing an entry** changes the sum by the new value less the one it replaces. -/
theorem insert (v : V) : entrySum f (m.insert k v) = entrySum f m + f k v - m[k]?.elim 0 (f k) := by
  rw [eq_add_erase f m k, eq_add_erase f (m.insert k v) k, erase_insert, ExtTreeMap.getElem?_insert_self,
    Option.elim_some]
  abel

theorem insert_of_some {v' : V} (h : m[k]? = some v') : entrySum f (m.insert k v) = entrySum f m + f k v - f k v' := by
  rw [insert, h, Option.elim_some]

theorem insert_of_none (h : m[k]? = none) : entrySum f (m.insert k v) = entrySum f m + f k v := by
  rw [insert, h, Option.elim_none, sub_zero]

end Sum

end EntrySum

/-! ### New keys -/

/-- The keys of the first map are those of the second, and the new ones. -/
structure Grew (m m' : ExtTreeMap K V) (new : List K) : Prop where
  kept : ∀ k, k ∈ m → k ∈ m'
  nodup : new.Nodup
  mem_new : ∀ k, k ∈ new ↔ k ∈ m' ∧ k ∉ m

/-- **The size grows by the number of new keys.** -/
theorem Grew.size {m m' : ExtTreeMap K V} {new : List K} (h : Grew m m' new) : m'.size = m.size + new.length := by
  rw [← ExtTreeMap.length_keys, ← ExtTreeMap.length_keys, ← List.length_append]
  refine List.Perm.length_eq ((List.perm_ext_iff_of_nodup ExtTreeMap.nodup_keys ?_).2 fun k => ?_)
  · refine List.nodup_append.2 ⟨ExtTreeMap.nodup_keys, h.nodup, fun k hk k' hk' heq => ?_⟩
    subst heq
    exact ((h.mem_new k).1 hk').2 (ExtTreeMap.mem_keys.1 hk)
  · rw [List.mem_append, ExtTreeMap.mem_keys, ExtTreeMap.mem_keys, h.mem_new]
    constructor
    · intro hk
      by_cases hm : k ∈ m
      · exact .inl hm
      · exact .inr ⟨hk, hm⟩
    · intro hk
      rcases hk with hk | hk
      · exact h.kept k hk
      · exact hk.1

end MinaProtocol
