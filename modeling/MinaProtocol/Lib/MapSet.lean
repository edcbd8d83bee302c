import Mathlib

/-!
# Lib.MapSet

Maps from keys to sets of values, without empty sets: the indexes of a collection.
`Indexes key m S` says that `m` files exactly the elements of `S`, each under its
own key. Inserting and removing an element keep this, whatever `S` is, so a program
that keeps several such indexes can be followed by the sets they stand for.
-/

namespace MinaProtocol

open Std

set_option linter.unusedSectionVars false

variable {K V : Type} [Ord K] [TransOrd K] [LawfulEqOrd K] [Ord V] [TransOrd V] [LawfulEqOrd V]

/-- A map from keys to sets. -/
abbrev MapSet (K V : Type) [Ord K] [Ord V] := ExtTreeMap K (ExtTreeSet V)

variable {m' : MapSet K V} {v : V}

namespace MapSet

variable (m : MapSet K V) {w : V} {k : K} {k' : K}

/-- Remove an element from the set of a key, and the key with its last element.
`none` where the key has no set. -/
def removeExn (k : K) (v : V) : Option (MapSet K V) :=
  match m[k]? with
  | none => none
  | some s => if (s.erase v).isEmpty then some (m.erase k) else some (m.insert k (s.erase v))

/-- The set of a key after an element is added. -/
def addTo (v : V) : Option (ExtTreeSet V) → ExtTreeSet V
  | none => ExtTreeSet.empty.insert v
  | some s => s.insert v

/-- Add an element to the set of a key. -/
def insert (k : K) (v : V) : MapSet K V :=
  m.alter k (fun s => some (addTo v s))

/-- The value is filed under the key. -/
def At (k : K) (v : V) : Prop := ∃ s, m[k]? = some s ∧ v ∈ s

theorem mem_addTo {s : Option (ExtTreeSet V)} : w ∈ addTo v s ↔ w = v ∨ ∃ t, s = some t ∧ w ∈ t := by
  cases s with
  | none => simp [addTo, eq_comm (a := v)]
  | some s => simp [addTo, eq_comm (a := v)]

theorem at_insert {m : MapSet K V} : (m.insert k v).At k' w ↔ (k' = k ∧ w = v) ∨ m.At k' w := by
  unfold insert At
  rw [ExtTreeMap.getElem?_alter]
  by_cases hk : k = k'
  · subst hk
    simp [mem_addTo]
  · simp [hk, Ne.symm hk]

/-- All values of the map. -/
def toSet : ExtTreeSet V := (m.toList.map Prod.snd).foldl (· ∪ ·) ∅

theorem mem_foldl_union {l : List (ExtTreeSet V)} {s : ExtTreeSet V} :
    v ∈ l.foldl (· ∪ ·) s ↔ v ∈ s ∨ ∃ t ∈ l, v ∈ t := by
  induction l generalizing s with
  | nil => simp
  | cons t l ih =>
    rw [List.foldl_cons, ih, ExtTreeSet.mem_union_iff]
    simp [or_assoc]

theorem mem_toSet {m : MapSet K V} : v ∈ m.toSet ↔ ∃ k, m.At k v := by
  unfold toSet At
  rw [mem_foldl_union]
  simp only [ExtTreeSet.not_mem_empty, false_or, List.mem_map, Prod.exists]
  constructor
  · rintro ⟨t, ⟨k, t', hmem, rfl⟩, hv⟩
    exact ⟨k, t', ExtTreeMap.mem_toList_iff_getElem?_eq_some.1 hmem, hv⟩
  · rintro ⟨k, t, hk, hv⟩
    exact ⟨t, ⟨k, t, ExtTreeMap.mem_toList_iff_getElem?_eq_some.2 hk, rfl⟩, hv⟩

/-- No key has an empty set. -/
def NoEmpty : Prop := ∀ (k : K) (s : ExtTreeSet V), m[k]? = some s → ∃ v, v ∈ s

theorem NoEmpty.insert {m : MapSet K V} (h : m.NoEmpty) (k : K) (v : V) : (m.insert k v).NoEmpty := by
  intro k' s hs
  unfold MapSet.insert at hs
  rw [ExtTreeMap.getElem?_alter] at hs
  split at hs
  · obtain rfl := Option.some.inj hs
    exact ⟨v, mem_addTo.2 (.inl rfl)⟩
  · exact h k' s hs

theorem getElem?_removeExn {m : MapSet K V} (h : m.removeExn k v = some m') (k' : K) :
    m'[k']? = if compare k k' = .eq then (m[k]?.map (·.erase v)).filter (! ·.isEmpty)
      else m[k']? := by
  unfold removeExn at h
  cases hs : m[k]? with
  | none => simp [hs] at h
  | some s =>
    simp only [hs] at h
    by_cases he : (s.erase v).isEmpty
    · rw [if_pos he] at h
      obtain rfl := Option.some.inj h
      simp [ExtTreeMap.getElem?_erase, Option.filter, he]
    · rw [if_neg he] at h
      obtain rfl := Option.some.inj h
      simp [ExtTreeMap.getElem?_insert, Option.filter, he]

theorem at_removeExn {m : MapSet K V} (h : m.removeExn k v = some m') :
    m'.At k' w ↔ m.At k' w ∧ ¬ (k' = k ∧ w = v) := by
  unfold At
  rw [getElem?_removeExn h k']
  by_cases hk : k = k'
  · subst hk
    rw [if_pos compare_self]
    constructor
    · rintro ⟨t, ht, hw⟩
      obtain ⟨s, hs, rfl⟩ := Option.map_eq_some_iff.1 (Option.eq_some_of_filter_eq_some ht)
      rw [ExtTreeSet.mem_erase] at hw
      exact ⟨⟨s, hs, hw.2⟩, fun hwv => hw.1 (by simp [hwv.2])⟩
    · rintro ⟨⟨s, hs, hw⟩, hne⟩
      have hmem : w ∈ s.erase v :=
        ExtTreeSet.mem_erase.2 ⟨fun heq => hne ⟨rfl, (LawfulEqOrd.eq_of_compare heq).symm⟩, hw⟩
      refine ⟨s.erase v, ?_, hmem⟩
      have hne' : (s.erase v).isEmpty = false := by
        rw [Bool.eq_false_iff]
        intro he
        rw [ExtTreeSet.isEmpty_iff.1 he] at hmem
        simp at hmem
      simp [hs, hne', Option.filter]
  · rw [if_neg (by simpa using hk)]
    simp [Ne.symm hk]

theorem NoEmpty.removeExn {m : MapSet K V} (h : m.NoEmpty) (hr : m.removeExn k v = some m') : m'.NoEmpty := by
  intro k' t ht
  rw [getElem?_removeExn hr k'] at ht
  split at ht
  · have hne := Option.filter_eq_some_iff.1 ht
    by_contra hnone
    have : t = ∅ := ExtTreeSet.ext_mem fun w => ⟨fun hw => absurd ⟨w, hw⟩ hnone, by simp⟩
    simp [this] at hne
  · exact h k' t ht

end MapSet

/-- `m` files exactly the elements of `S`, each under its key, and no set is empty. -/
structure Indexes (key : V → K) (m : MapSet K V) (S : Set V) : Prop where
  at_iff : ∀ (k : K) (v : V), m.At k v ↔ v ∈ S ∧ key v = k
  noEmpty : m.NoEmpty

namespace Indexes

variable {key : V → K} {m : MapSet K V} {S : Set V}

theorem empty (key : V → K) : Indexes key (∅ : MapSet K V) ∅ where
  at_iff := by simp [MapSet.At]
  noEmpty := by simp [MapSet.NoEmpty]

variable (h : Indexes key m S)

include h

protected theorem insert (v : V) :
    Indexes key (m.insert (key v) v) (Insert.insert v S) where
  at_iff := by
    intro k w
    rw [MapSet.at_insert, h.at_iff, Set.mem_insert_iff]
    constructor
    · rintro (⟨rfl, rfl⟩ | ⟨hw, hk⟩)
      · exact ⟨.inl rfl, rfl⟩
      · exact ⟨.inr hw, hk⟩
    · rintro ⟨rfl | hw, hk⟩
      · exact .inl ⟨hk.symm, rfl⟩
      · exact .inr ⟨hw, hk⟩
  noEmpty := h.noEmpty.insert (key v) v

theorem mem_toSet : v ∈ m.toSet ↔ v ∈ S := by
  rw [MapSet.mem_toSet]
  constructor
  · rintro ⟨k, hk⟩
    exact ((h.at_iff k v).1 hk).1
  · intro hv
    exact ⟨key v, (h.at_iff (key v) v).2 ⟨hv, rfl⟩⟩

theorem find_isSome {k : K} : (m[k]?).isSome ↔ ∃ w ∈ S, key w = k := by
  constructor
  · intro hk
    obtain ⟨s, hs⟩ := Option.isSome_iff_exists.1 hk
    obtain ⟨w, hw⟩ := h.noEmpty k s hs
    exact ⟨w, (h.at_iff k w).1 ⟨s, hs, hw⟩⟩
  · rintro ⟨w, hw, hk⟩
    obtain ⟨s, hs, -⟩ := (h.at_iff k w).2 ⟨hw, hk⟩
    simp [hs]

theorem removeExn_isSome : (m.removeExn (key v) v).isSome ↔ ∃ w ∈ S, key w = key v := by
  rw [← h.find_isSome]
  unfold MapSet.removeExn
  cases m[key v]? with
  | none => simp
  | some s => by_cases he : (s.erase v).isEmpty <;> simp [he]

/-- What is left is the index of the set without the element, which need not have
been in it. -/
theorem of_removeExn (hr : m.removeExn (key v) v = some m') : Indexes key m' (S \ {v}) where
  at_iff := by
    intro k w
    rw [MapSet.at_removeExn hr, h.at_iff, Set.mem_sdiff, Set.mem_singleton_iff]
    constructor
    · rintro ⟨⟨hw, rfl⟩, hne⟩
      exact ⟨⟨hw, fun hwv => hne ⟨by rw [hwv], hwv⟩⟩, rfl⟩
    · rintro ⟨⟨hw, hne⟩, hk⟩
      exact ⟨⟨hw, hk⟩, fun hwv => hne hwv.2⟩
  noEmpty := h.noEmpty.removeExn hr

theorem removeExn_of_mem (hv : v ∈ S) : ∃ m', m.removeExn (key v) v = some m' ∧ Indexes key m' (S \ {v}) := by
  obtain ⟨m', hm'⟩ := Option.isSome_iff_exists.1 (h.removeExn_isSome.2 ⟨v, hv, rfl⟩)
  exact ⟨m', hm', h.of_removeExn hm'⟩

omit h

end Indexes

end MinaProtocol
