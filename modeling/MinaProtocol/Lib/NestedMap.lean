import Mathlib
import MinaProtocol.Lib.EntrySum

/-!
# Lib.NestedMap

Maps of maps to lists, without empty inner maps: what is filed under a pair of keys. `total` adds up
the lengths of all lists of one inner key, and every operation says how it changes the totals.
-/

namespace MinaProtocol

open Std

set_option linter.unusedSectionVars false

variable {K L V : Type} [Ord K] [TransOrd K] [LawfulEqOrd K] [Ord L] [TransOrd L] [LawfulEqOrd L]

/-- A map from pairs of keys to lists, the outer key first. -/
abbrev NestedMap (K L V : Type) [Ord K] [Ord L] := ExtTreeMap K (ExtTreeMap L (List V))

namespace NestedMap

/-- The list filed under two keys. -/
def lookup (m : NestedMap K L V) (k : K) (l : L) : Option (List V) := m[k]?.bind (·[l]?)

/-- Add to the list filed under two keys. -/
def append (m : NestedMap K L V) (k : K) (l : L) (vs : List V) : NestedMap K L V :=
  let inner := m[k]?.getD ∅
  m.insert k (inner.insert l (inner[l]?.getD [] ++ vs))

/-- Remove what is filed under two keys, and the outer key with the last inner one. -/
def clear (m : NestedMap K L V) (k : K) (l : L) : NestedMap K L V :=
  match m[k]? with
  | none => m
  | some inner => if (inner.erase l).isEmpty then m.erase k else m.insert k (inner.erase l)

/-- The number of values filed under an inner key. -/
def total (m : NestedMap K L V) (l : L) : Int := entrySum (fun _ inner => ((inner[l]?.getD []).length : Int)) m

/-- No inner map is empty. -/
def NoEmpty (m : NestedMap K L V) : Prop := ∀ (k : K) (inner : ExtTreeMap L (List V)), m[k]? = some inner → ∃ l, l ∈ inner

variable {m : NestedMap K L V} {k k' : K} {l l' : L} {vs : List V} {inner : ExtTreeMap L (List V)} {A : Type} {v : V}
  {f : NestedMap K L V → A → NestedMap K L V}

theorem lookup_eq_some_of_getElem? (h : m[k]? = some inner) : lookup m k l = inner[l]? := by
  unfold lookup
  rw [h, Option.bind_some]

theorem lookup_empty : lookup (∅ : NestedMap K L V) k l = none := by
  unfold lookup
  rw [ExtTreeMap.getElem?_empty]
  rfl

theorem getElem?_of_lookup {vs : List V} (h : lookup m k l = some vs) : ∃ inner, m[k]? = some inner ∧ inner[l]? = some vs :=
  Option.bind_eq_some_iff.1 h

theorem eq_of_compare_eq {α : Type} [Ord α] [LawfulEqOrd α] {a b : α} : compare a b = .eq ↔ a = b :=
  LawfulEqOrd.compare_eq_iff_eq

theorem getD_lookup : (lookup m k l).getD [] = ((m[k]?.getD ∅)[l]?).getD [] := by
  unfold lookup
  cases m[k]? with
  | none => simp
  | some inner => rfl

theorem lookup_append_self : lookup (append m k l vs) k l = some ((lookup m k l).getD [] ++ vs) := by
  rw [getD_lookup]
  unfold lookup append
  dsimp only
  rw [ExtTreeMap.getElem?_insert_self, Option.bind_some, ExtTreeMap.getElem?_insert_self]

theorem lookup_append_of_ne (h : ¬ (k' = k ∧ l' = l)) : lookup (append m k l vs) k' l' = lookup m k' l' := by
  unfold lookup append
  dsimp only
  rw [ExtTreeMap.getElem?_insert]
  by_cases hk : k = k'
  · subst hk
    have hl : ¬ l = l' := fun hl => h ⟨rfl, hl.symm⟩
    rw [if_pos (eq_of_compare_eq.2 rfl), Option.bind_some, ExtTreeMap.getElem?_insert,
      if_neg (fun heq => hl (eq_of_compare_eq.1 heq))]
    cases m[k]? with
    | none => simp
    | some inner => rfl
  · rw [if_neg (fun heq => hk (eq_of_compare_eq.1 heq))]

theorem noEmpty_append (h : m.NoEmpty) : NoEmpty (append m k l vs) := by
  intro k' inner hinner
  unfold append at hinner
  dsimp only at hinner
  rw [ExtTreeMap.getElem?_insert] at hinner
  split at hinner
  · obtain rfl := Option.some.inj hinner
    exact ⟨l, by simp⟩
  · exact h k' inner hinner

theorem lookup_erase_self : lookup (m.erase k) k l = none := by
  unfold lookup
  rw [ExtTreeMap.getElem?_erase_self]
  rfl

theorem lookup_erase_of_ne (h : k' ≠ k) : lookup (m.erase k) k' l = lookup m k' l := by
  unfold lookup
  rw [ExtTreeMap.getElem?_erase, if_neg fun heq => h (eq_of_compare_eq.1 heq).symm]

theorem noEmpty_erase (h : m.NoEmpty) : NoEmpty (m.erase k) := by
  intro k' inner hinner
  rw [ExtTreeMap.getElem?_erase] at hinner
  split at hinner
  · cases hinner
  · exact h k' inner hinner

theorem lookup_clear_self : lookup (clear m k l) k l = none := by
  unfold clear
  cases hm : m[k]? with
  | none =>
    unfold lookup
    dsimp only
    rw [hm]
    rfl
  | some inner =>
    dsimp only
    split
    · exact lookup_erase_self
    · unfold lookup
      rw [ExtTreeMap.getElem?_insert_self, Option.bind_some, ExtTreeMap.getElem?_erase_self]

theorem lookup_clear_of_ne (h : ¬ (k' = k ∧ l' = l)) : lookup (clear m k l) k' l' = lookup m k' l' := by
  unfold clear
  cases hm : m[k]? with
  | none => rfl
  | some inner =>
    dsimp only
    split
    · rename_i hempty
      by_cases hk : k' = k
      · subst hk
        -- the inner map has no other key
        have hnone : (inner.erase l)[l']? = none := by
          rw [ExtTreeMap.isEmpty_iff.1 hempty, ExtTreeMap.getElem?_empty]
        rw [ExtTreeMap.getElem?_erase, if_neg fun heq => h ⟨rfl, (eq_of_compare_eq.1 heq).symm⟩] at hnone
        rw [lookup_erase_self, lookup_eq_some_of_getElem? hm, hnone]
      · rw [lookup_erase_of_ne hk]
    · unfold lookup
      by_cases hk : k' = k
      · subst hk
        rw [ExtTreeMap.getElem?_insert_self, Option.bind_some, ExtTreeMap.getElem?_erase,
          if_neg fun heq => h ⟨rfl, (eq_of_compare_eq.1 heq).symm⟩, hm]
        rfl
      · rw [ExtTreeMap.getElem?_insert, if_neg fun heq => hk (eq_of_compare_eq.1 heq).symm]

theorem noEmpty_clear (h : m.NoEmpty) : NoEmpty (clear m k l) := by
  unfold clear
  cases hm : m[k]? with
  | none => exact h
  | some inner =>
    dsimp only
    split
    · exact noEmpty_erase h
    · rename_i hne
      intro k' inner' hinner
      rw [ExtTreeMap.getElem?_insert] at hinner
      split at hinner
      · obtain rfl := Option.some.inj hinner
        by_contra hnone
        rw [ExtTreeMap.isEmpty_iff, ExtTreeMap.eq_empty_iff_forall_not_mem] at hne
        exact hne fun a ha => hnone ⟨a, ha⟩
      · exact h k' inner' hinner

/-- An outer key is there exactly if something is filed under it. -/
theorem mem_iff_lookup (h : m.NoEmpty) : k ∈ m ↔ ∃ l vs, lookup m k l = some vs := by
  constructor
  · intro hk
    obtain ⟨inner, hinner⟩ := ExtTreeMap.mem_iff_isSome_getElem?.1 hk |> Option.isSome_iff_exists.1
    obtain ⟨l, hl⟩ := h k inner hinner
    obtain ⟨vs, hvs⟩ := ExtTreeMap.mem_iff_isSome_getElem?.1 hl |> Option.isSome_iff_exists.1
    exact ⟨l, vs, by rw [lookup_eq_some_of_getElem? hinner, hvs]⟩
  · intro hl
    obtain ⟨l, vs, hl⟩ := hl
    obtain ⟨inner, hinner, -⟩ := getElem?_of_lookup hl
    rw [ExtTreeMap.mem_iff_isSome_getElem?, hinner]
    rfl

/-! ### What is filed -/

/-- The value is filed under the keys. -/
def Has (m : NestedMap K L V) (k : K) (l : L) (v : V) : Prop := ∃ vs, lookup m k l = some vs ∧ v ∈ vs

/-- No list that is filed is empty. -/
def NoNil (m : NestedMap K L V) : Prop := ∀ k l vs, lookup m k l = some vs → vs ≠ []

theorem not_has_empty : ¬ Has (∅ : NestedMap K L V) k l v := by
  intro h
  obtain ⟨vs, hvs, -⟩ := h
  rw [lookup_empty] at hvs
  cases hvs

theorem has_append : Has (append m k l vs) k' l' v ↔ Has m k' l' v ∨ k' = k ∧ l' = l ∧ v ∈ vs := by
  unfold Has
  by_cases h : k' = k ∧ l' = l
  · obtain ⟨rfl, rfl⟩ := h
    rw [lookup_append_self]
    cases lookup m k' l' with
    | none => simp
    | some old => simp
  · rw [lookup_append_of_ne h]
    constructor
    · exact .inl
    · intro hor
      rcases hor with hold | hnew
      · exact hold
      · exact absurd ⟨hnew.1, hnew.2.1⟩ h

theorem noNil_append (h : NoNil m) (hvs : vs ≠ []) : NoNil (append m k l vs) := by
  intro k' l' vs' hl
  by_cases hkl : k' = k ∧ l' = l
  · obtain ⟨rfl, rfl⟩ := hkl
    rw [lookup_append_self] at hl
    obtain rfl := Option.some.inj hl
    simp [hvs]
  · rw [lookup_append_of_ne hkl] at hl
    exact h k' l' vs' hl

/-- Where nothing but non-empty lists is filed, something is filed under keys with a list. -/
theorem NoNil.exists_has (h : NoNil m) (hl : lookup m k l = some vs) : ∃ v, Has m k l v := by
  obtain ⟨v, hv⟩ := List.exists_mem_of_ne_nil vs (h k l vs hl)
  exact ⟨v, vs, hl, hv⟩

/-- What a fold files, from what its steps file. -/
theorem has_foldl {P : A → Prop}
    (hf : ∀ m a, Has (f m a) k l v ↔ Has m k l v ∨ P a) (as : List A) (m : NestedMap K L V) :
    Has (as.foldl f m) k l v ↔ Has m k l v ∨ ∃ a ∈ as, P a := by
  induction as generalizing m with
  | nil => simp
  | cons a as ih =>
    rw [List.foldl_cons, ih, hf, or_assoc]
    simp

theorem noNil_foldl (hf : ∀ m a, NoNil m → NoNil (f m a))
    (as : List A) (m : NestedMap K L V) (h : NoNil m) : NoNil (as.foldl f m) := by
  induction as generalizing m with
  | nil => exact h
  | cons a as ih =>
    rw [List.foldl_cons]
    exact ih _ (hf m a h)

theorem noEmpty_foldl (hf : ∀ m a, NoEmpty m → NoEmpty (f m a))
    (as : List A) (m : NestedMap K L V) (h : NoEmpty m) : NoEmpty (as.foldl f m) := by
  induction as generalizing m with
  | nil => exact h
  | cons a as ih =>
    rw [List.foldl_cons]
    exact ih _ (hf m a h)

/-! ### Totals -/

theorem total_erase : total (m.erase k) l = total m l - ((lookup m k l).getD []).length := by
  have hsum := EntrySum.eq_add_erase (fun _ inner => ((inner[l]?.getD []).length : Int)) m k
  unfold total
  rw [hsum]
  unfold lookup
  cases m[k]? with
  | none => simp
  | some inner => simp

theorem total_insert :
    total (m.insert k inner) l = total m l + ((inner[l]?.getD []).length : Int) - ((lookup m k l).getD []).length := by
  have hsum := EntrySum.insert (fun _ inner => ((inner[l]?.getD []).length : Int)) m k inner
  unfold total
  rw [hsum]
  unfold lookup
  cases m[k]? with
  | none => simp
  | some inner' => simp

theorem total_append_self : total (append m k l vs) l = total m l + vs.length := by
  unfold append
  dsimp only
  rw [total_insert, ExtTreeMap.getElem?_insert_self, getD_lookup, Option.getD_some, List.length_append]
  push_cast
  ring

theorem total_append_of_ne (h : l' ≠ l) : total (append m k l vs) l' = total m l' := by
  unfold append
  dsimp only
  rw [total_insert, ExtTreeMap.getElem?_insert, if_neg fun heq => h (eq_of_compare_eq.1 heq).symm, getD_lookup]
  ring

theorem total_clear_of_ne (h : l' ≠ l) : total (clear m k l) l' = total m l' := by
  unfold clear
  cases hm : m[k]? with
  | none => rfl
  | some inner =>
    dsimp only
    split
    · rename_i hempty
      have hnone : (inner.erase l)[l']? = none := by
        rw [ExtTreeMap.isEmpty_iff.1 hempty, ExtTreeMap.getElem?_empty]
      rw [ExtTreeMap.getElem?_erase, if_neg fun heq => h (eq_of_compare_eq.1 heq).symm] at hnone
      rw [total_erase, lookup_eq_some_of_getElem? hm, hnone]
      simp
    · rw [total_insert, ExtTreeMap.getElem?_erase, if_neg fun heq => h (eq_of_compare_eq.1 heq).symm,
        lookup_eq_some_of_getElem? hm]
      ring

theorem total_eq_zero (h : ∀ k, lookup m k l = none) : total m l = 0 := by
  unfold total entrySum
  have hzero : ∀ e ∈ m.toList, ((e.2[l]?.getD []).length : Int) = 0 := by
    intro e he
    obtain ⟨k, inner⟩ := e
    rw [ExtTreeMap.mem_toList_iff_getElem?_eq_some] at he
    have hk := h k
    rw [lookup_eq_some_of_getElem? he] at hk
    dsimp only
    rw [hk]
    rfl
  rw [List.map_congr_left hzero]
  simp

theorem total_nonneg : 0 ≤ total m l := by
  unfold total entrySum
  refine List.sum_nonneg fun x hx => ?_
  obtain ⟨e, -, rfl⟩ := List.mem_map.1 hx
  exact Int.natCast_nonneg _

theorem length_le_total (h : lookup m k l = some vs) : (vs.length : Int) ≤ total m l := by
  have hsum := total_erase (m := m) (k := k) (l := l)
  have hnonneg : 0 ≤ total (m.erase k) l := total_nonneg
  rw [h, Option.getD_some] at hsum
  omega

end NestedMap

end MinaProtocol
