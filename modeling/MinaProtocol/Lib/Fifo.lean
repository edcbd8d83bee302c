import Mathlib.Data.List.GetD
import Mathlib.Tactic

/-!
# Lib.Fifo

First in, first out, in a ring of slots. Everything that was ever pushed is numbered; what is live is what comes
after the elements that were popped, and the slot of an element is its number modulo the size of the ring. A
window of consecutive numbers that is no longer than the ring has each slot once, so that a slot can be used
again as soon as its element was popped.
-/

namespace MinaProtocol

/-- What went through a queue: all that was pushed, the oldest first, and how many of them were popped. -/
structure Fifo (A : Type) where
  pushed : List A
  popped : Nat
deriving DecidableEq, Repr

namespace Fifo

variable {A : Type}

def empty : Fifo A := ⟨[], 0⟩

/-- What is live, the oldest first. -/
def live (q : Fifo A) : List A := q.pushed.drop q.popped

def newest? (q : Fifo A) : Option A := q.live.getLast?

def oldest? (q : Fifo A) : Option A := q.live.head?

def push (q : Fifo A) (a : A) : Fifo A := { q with pushed := q.pushed ++ [a] }

def modifyNewest (q : Fifo A) (f : A → A) : Fifo A := { q with pushed := q.pushed.modify (q.pushed.length - 1) f }

def pop (q : Fifo A) : Fifo A := { q with popped := q.popped + 1 }

/-- The slot of the next element. -/
def nextSlot (size : Nat) (q : Fifo A) : Nat := q.pushed.length % size

/-- The slots of what is live, that of the newest first. -/
def slots (size : Nat) (q : Fifo A) : List Nat := ((List.range' q.popped q.live.length).map (· % size)).reverse

/-- The number of the element that is in a slot, or that gets there next. -/
def numberAt (size : Nat) (q : Fifo A) (slot : Nat) : Nat := q.popped + (slot + (size - q.popped % size)) % size

/-- What is in a slot, of a ring with `none` where nothing is live. -/
def atSlot (size : Nat) (none : A) (q : Fifo A) (slot : Nat) : A := q.pushed.getD (q.numberAt size slot) none

/-- No more was popped than pushed, and what is live fits. -/
structure Fits (size : Nat) (q : Fifo A) : Prop where
  popped_le : q.popped ≤ q.pushed.length
  length_le : q.live.length ≤ size

variable {q : Fifo A} {size slot : Nat} {none a : A} {f : A → A} {number : Nat}

theorem length_live : q.live.length = q.pushed.length - q.popped := List.length_drop

/-! ### Numbers and slots -/

/-- **The number of a slot** is the one of the window that has it. -/
theorem numberAt_eq_iff (hslot : slot < size) :
    q.numberAt size slot = number ↔ q.popped ≤ number ∧ number < q.popped + size ∧ number % size = slot := by
  have hsize : 0 < size := by omega
  have hpopped := Nat.mod_add_div q.popped size
  have hmod := Nat.mod_lt q.popped hsize
  have hoffset := Nat.mod_lt (slot + (size - q.popped % size)) hsize
  constructor
  · rintro rfl
    have hsum : q.popped + (slot + (size - q.popped % size)) = slot + size * (q.popped / size + 1) := by
      rw [Nat.mul_add, Nat.mul_one]
      omega
    refine ⟨Nat.le_add_right _ _, Nat.add_lt_add_left hoffset _, ?_⟩
    rw [numberAt, Nat.add_mod_mod, hsum, Nat.add_mul_mod_self_left, Nat.mod_eq_of_lt hslot]
  · rintro ⟨hle, hlt, rfl⟩
    obtain ⟨offset, rfl⟩ := Nat.exists_eq_add_of_le hle
    have hsum : (q.popped + offset) % size + (size - q.popped % size) + size * ((q.popped + offset) / size) =
        offset + size * (q.popped / size + 1) := by
      have hnumber := Nat.mod_add_div (q.popped + offset) size
      rw [Nat.mul_add, Nat.mul_one]
      omega
    rw [numberAt, ← Nat.add_mul_mod_self_left _ size ((q.popped + offset) / size), hsum, Nat.add_mul_mod_self_left,
      Nat.mod_eq_of_lt (by omega)]

/-- An element of the window is found at its slot. -/
theorem numberAt_mod (hsize : 0 < size) (hle : q.popped ≤ number) (hlt : number < q.popped + size) :
    q.numberAt size (number % size) = number :=
  (numberAt_eq_iff (Nat.mod_lt _ hsize)).2 ⟨hle, hlt, rfl⟩

theorem slot_eq_iff (hslot : slot < size) (hle : q.popped ≤ number)
    (hlt : number < q.popped + size) : slot = number % size ↔ q.numberAt size slot = number := by
  rw [numberAt_eq_iff hslot]
  exact ⟨fun heq => ⟨hle, hlt, heq.symm⟩, fun h => h.2.2.symm⟩

/-! ### What is live -/

theorem live_push (hle : q.popped ≤ q.pushed.length) : (q.push a).live = q.live ++ [a] :=
  List.drop_append_of_le_length hle

theorem live_pop : q.pop.live = q.live.tail := by rw [live, live, pop, ← List.drop_drop, List.drop_one]

theorem newest?_eq (hlive : q.live ≠ []) : q.newest? = q.pushed[q.pushed.length - 1]? := by
  rw [newest?, live, List.getLast?_drop, List.getLast?_eq_getElem?, if_neg]
  intro hle
  exact hlive (List.drop_eq_nil_of_le hle)

theorem oldest?_eq : q.oldest? = q.pushed[q.popped]? := List.head?_drop

theorem popped_lt (hlive : q.live ≠ []) : q.popped < q.pushed.length := by
  by_contra hnot
  exact hlive (List.drop_eq_nil_of_le (Nat.le_of_not_lt hnot))

theorem Fits.push (hfits : q.Fits size) (hlength : q.live.length < size) : (q.push a).Fits size where
  popped_le := by
    rw [Fifo.push, List.length_append]
    exact hfits.popped_le.trans (Nat.le_add_right _ _)
  length_le := by
    rw [live_push hfits.popped_le, List.length_append, List.length_singleton]
    exact hlength

theorem Fits.modifyNewest (hfits : q.Fits size) : (q.modifyNewest f).Fits size where
  popped_le := by
    rw [Fifo.modifyNewest, List.length_modify]
    exact hfits.popped_le
  length_le := by
    rw [length_live, Fifo.modifyNewest, List.length_modify, ← length_live]
    exact hfits.length_le

theorem Fits.pop (hfits : q.Fits size) (hlive : q.live ≠ []) : q.pop.Fits size where
  popped_le := popped_lt hlive
  length_le := by
    rw [live_pop, List.length_tail]
    exact (Nat.sub_le _ _).trans hfits.length_le

theorem fits_empty : (empty : Fifo A).Fits size := ⟨Nat.le_refl _, Nat.zero_le _⟩

/-! ### The slots of what is live -/

theorem slots_push (hle : q.popped ≤ q.pushed.length) : (q.push a).slots size = q.nextSlot size :: q.slots size := by
  have hlast : q.popped + 1 * (q.pushed.length - q.popped) = q.pushed.length := by omega
  rw [slots, live_push hle, List.length_append, List.length_singleton, List.range'_concat, List.map_append, List.reverse_append,
    length_live, push, hlast, slots, length_live]
  rfl

theorem slots_eq_concat (hlive : q.live ≠ []) : q.slots size = q.pop.slots size ++ [q.popped % size] := by
  have hlength := List.length_pos_of_ne_nil hlive
  obtain ⟨length, hlength⟩ : ∃ length, q.live.length = length + 1 := ⟨q.live.length - 1, by omega⟩
  rw [slots, slots, live_pop, List.length_tail, hlength, List.range'_succ, List.map_cons, List.reverse_cons]
  rfl

theorem slots_modifyNewest : (q.modifyNewest f).slots size = q.slots size := by
  rw [slots, slots, length_live, length_live, modifyNewest, List.length_modify]

theorem slots_eq_nil_iff : q.slots size = [] ↔ q.live = [] := by
  rw [slots, List.reverse_eq_nil_iff, List.map_eq_nil_iff, List.range'_eq_nil_iff, List.length_eq_zero_iff]

theorem slots_head? (hlive : q.live ≠ []) : (q.slots size).head? = some ((q.pushed.length - 1) % size) := by
  have hlength := popped_lt hlive
  obtain ⟨length, hlength⟩ : ∃ length, q.live.length = length + 1 := ⟨q.live.length - 1, by rw [length_live]; omega⟩
  have hlast : q.popped + 1 * length = q.pushed.length - 1 := by
    rw [length_live] at hlength
    omega
  rw [slots, hlength, List.range'_concat, List.map_append, List.reverse_append, hlast]
  rfl

theorem slots_getLast? (hlive : q.live ≠ []) : (q.slots size).getLast? = some (q.popped % size) := by
  rw [slots_eq_concat hlive, List.getLast?_append, List.getLast?_singleton]
  rfl

variable (hsize : 0 < size)

include hsize

theorem nextSlot_lt : q.nextSlot size < size := Nat.mod_lt _ hsize

theorem nextSlot_push :
    (q.push a).nextSlot size = if q.nextSlot size = size - 1 then 0 else q.nextSlot size + 1 := by
  rw [nextSlot, push, List.length_append, List.length_singleton, Nat.add_mod_eq_ite, nextSlot]
  have hlt := Nat.mod_lt q.pushed.length hsize
  by_cases hone : size = 1
  · subst hone
    simp [Nat.mod_one]
  · rw [Nat.mod_eq_of_lt (show 1 < size by omega)]
    split_ifs <;> omega

/-! ### What is in the slots -/

theorem atSlot_nextSlot (hle : q.popped ≤ q.pushed.length) (hlength : q.live.length < size) :
    q.atSlot size none (q.nextSlot size) = none := by
  rw [length_live] at hlength
  rw [atSlot, nextSlot, numberAt_mod hsize hle (by omega), List.getD_eq_default _ _ (Nat.le_refl _)]

theorem atSlot_newest (hfits : q.Fits size) (hlive : q.live ≠ []) :
    q.atSlot size none ((q.pushed.length - 1) % size) = q.newest?.getD none := by
  have hlength := hfits.length_le
  rw [length_live] at hlength
  have hlt := popped_lt hlive
  rw [atSlot, numberAt_mod hsize (by omega) (by omega), List.getD_eq_getElem?_getD, newest?_eq hlive]

theorem atSlot_oldest : q.atSlot size none (q.popped % size) = q.oldest?.getD none := by
  rw [atSlot, numberAt_mod hsize (Nat.le_refl _) (by omega), List.getD_eq_getElem?_getD, oldest?_eq]

omit hsize

theorem atSlot_of_live_nil (hlive : q.live = []) : q.atSlot size none slot = none := by
  have hle : q.pushed.length ≤ q.popped := List.drop_eq_nil_iff.1 hlive
  exact List.getD_eq_default _ _ (hle.trans (Nat.le_add_right _ _))

theorem atSlot_push (hle : q.popped ≤ q.pushed.length) (hlength : q.live.length < size) (hslot : slot < size) :
    (q.push a).atSlot size none slot = if slot = q.nextSlot size then a else q.atSlot size none slot := by
  rw [length_live] at hlength
  have hiff : slot = q.nextSlot size ↔ q.numberAt size slot = q.pushed.length := slot_eq_iff hslot hle (by omega)
  have hnumber : (q.push a).numberAt size slot = q.numberAt size slot := rfl
  rw [atSlot, hnumber, push, atSlot, List.getD_eq_getElem?_getD, List.getD_eq_getElem?_getD]
  by_cases heq : slot = q.nextSlot size
  · rw [if_pos heq, hiff.1 heq, List.getElem?_concat_length, Option.getD_some]
  · rw [if_neg heq]
    rcases Nat.lt_or_gt_of_ne fun hnumber => heq (hiff.2 hnumber) with hlt | hgt
    · rw [List.getElem?_append_left hlt]
    · rw [List.getElem?_eq_none hgt.le, List.getElem?_eq_none (by simpa using hgt)]

theorem atSlot_modifyNewest (hfits : q.Fits size) (hlive : q.live ≠ []) (hslot : slot < size) :
    (q.modifyNewest f).atSlot size none slot =
      if slot = (q.pushed.length - 1) % size then f (q.newest?.getD none) else q.atSlot size none slot := by
  have hlength := hfits.length_le
  rw [length_live] at hlength
  have hlt := popped_lt hlive
  have hiff := slot_eq_iff (q := q) hslot (show q.popped ≤ q.pushed.length - 1 by omega) (by omega)
  have hnumber : (q.modifyNewest f).numberAt size slot = q.numberAt size slot := rfl
  rw [atSlot, hnumber, modifyNewest, atSlot, List.getD_eq_getElem?_getD, List.getD_eq_getElem?_getD, List.getElem?_modify]
  by_cases heq : slot = (q.pushed.length - 1) % size
  · rw [if_pos heq, hiff.1 heq, newest?_eq hlive, List.getElem?_eq_getElem (by omega)]
    simp
  · rw [if_neg heq]
    simp [Ne.symm fun hnumber => heq (hiff.2 hnumber)]

theorem atSlot_pop (hfits : q.Fits size) (hslot : slot < size) :
    q.pop.atSlot size none slot = if slot = q.popped % size then none else q.atSlot size none slot := by
  have hlength := hfits.length_le
  rw [length_live] at hlength
  have hpopped : q.pop.popped = q.popped + 1 := rfl
  have hiff := slot_eq_iff (q := q) hslot (Nat.le_refl q.popped) (by omega)
  obtain ⟨hle, hlt, hmod⟩ := (numberAt_eq_iff (q := q) hslot).1 rfl
  rw [atSlot]
  by_cases heq : slot = q.popped % size
  · have hnext : q.pop.numberAt size slot = q.popped + size := by
      rw [numberAt_eq_iff hslot, Nat.add_mod_right, hpopped]
      exact ⟨by omega, by omega, heq.symm⟩
    rw [if_pos heq, hnext]
    exact List.getD_eq_default _ _ (show q.pushed.length ≤ q.popped + size by omega)
  · have hne : q.numberAt size slot ≠ q.popped := fun hnumber => heq (hiff.2 hnumber)
    have hsame : q.pop.numberAt size slot = q.numberAt size slot := by
      rw [numberAt_eq_iff hslot, hpopped]
      exact ⟨by omega, by omega, hmod⟩
    rw [if_neg heq, hsame]
    rfl

end Fifo

end MinaProtocol
