import Mathlib.Data.ZMod.Basic
import Mathlib.Tactic

/-!
# RandomOracleInput.Packing

Inputs of the random oracle (`random_oracle_input.ml`) and how they become field elements. Chunks, each with the
number of its bits, are shifted together as long as they stay below the size of the field, and none is cut; the
bits of a legacy input are cut into groups of one less than the size, wherever a bitstring ends.

What the packing does depends on the lengths alone, and for given lengths it is injective: no shift and no sum
reaches the modulus.
-/

namespace MinaProtocol.RandomOracleInput

/-! ### Chunked inputs -/

/-- `Chunked.t`: whole field elements, and chunks with their lengths. -/
structure Chunked (F : Type) where
  fieldElements : List F
  packeds : List (F × Nat)
deriving DecidableEq

/-- `pow2` of the random oracle. -/
def pow2From {F : Type} [Add F] (acc : F) : Nat → F
  | 0 => acc
  | n + 1 => pow2From (acc + acc) n

def pow2 {F : Type} [Add F] [One F] (n : Nat) : F := pow2From 1 n

namespace Chunked

variable {F : Type}

section Pack

variable [Add F] [Mul F]

/-- A step of the fold over the chunks: what is packed, the last element first, and what is being packed with the
number of its bits. -/
def packStep (sizeInBits : Nat) (pow2 : Nat → F) : List F × F × Nat → F × Nat → List F × F × Nat
  | (xs, acc, accN), (x, n) =>
    let n' := n + accN
    if n' < sizeInBits then (xs, acc * pow2 n + x, n') else (acc :: xs, x, n)

/-- The packed chunks. -/
def packedBits [Zero F] (sizeInBits : Nat) (pow2 : Nat → F) (packeds : List (F × Nat)) : List F :=
  let (xs, acc, accN) := packeds.foldl (packStep sizeInBits pow2) ([], 0, 0)
  -- with no bits there is nothing to pack, and no element to add for it
  let xs := if 0 < accN then acc :: xs else xs
  xs.reverse

/-- `Chunked.pack_to_fields`. -/
def packToFields [Zero F] (sizeInBits : Nat) (pow2 : Nat → F) (t : Chunked F) : List F :=
  t.fieldElements ++ packedBits sizeInBits pow2 t.packeds

/-- The elements from here on, the first one first. -/
def packFrom (sizeInBits : Nat) (pow2 : Nat → F) (acc : F) (accN : Nat) : List (F × Nat) → List F
  | [] => if 0 < accN then [acc] else []
  | (x, n) :: packeds =>
    if n + accN < sizeInBits then packFrom sizeInBits pow2 (acc * pow2 n + x) (n + accN) packeds
    else acc :: packFrom sizeInBits pow2 x n packeds

variable {sizeInBits : Nat} {pow2 : Nat → F} {packeds : List (F × Nat)}

theorem reverse_foldl_packStep {xs : List F} {acc : F} {accN : Nat} :
    (if 0 < (packeds.foldl (packStep sizeInBits pow2) (xs, acc, accN)).2.2 then
        (packeds.foldl (packStep sizeInBits pow2) (xs, acc, accN)).2.1 :: (packeds.foldl (packStep sizeInBits pow2) (xs, acc, accN)).1
      else (packeds.foldl (packStep sizeInBits pow2) (xs, acc, accN)).1).reverse =
      xs.reverse ++ packFrom sizeInBits pow2 acc accN packeds := by
  induction packeds generalizing xs acc accN with
  | nil =>
    rw [packFrom, List.foldl_nil]
    split_ifs <;> simp
  | cons packed packeds ih =>
    obtain ⟨x, n⟩ := packed
    rw [List.foldl_cons, packFrom]
    by_cases hfits : n + accN < sizeInBits
    · have hstep : packStep sizeInBits pow2 (xs, acc, accN) (x, n) = (xs, acc * pow2 n + x, n + accN) := if_pos hfits
      rw [hstep, if_pos hfits]
      exact ih
    · have hstep : packStep sizeInBits pow2 (xs, acc, accN) (x, n) = (acc :: xs, x, n) := if_neg hfits
      rw [hstep, if_neg hfits, ih, List.reverse_cons, List.append_assoc, List.singleton_append]

theorem packedBits_eq [Zero F] : packedBits sizeInBits pow2 packeds = packFrom sizeInBits pow2 0 0 packeds :=
  reverse_foldl_packStep.trans (List.nil_append _)

end Pack

/-! ### Packing in a prime field -/

section Field

variable {p sizeInBits n : Nat}

theorem pow2From_eq {acc : ZMod p} : pow2From acc n = acc * ((2 ^ n : Nat) : ZMod p) := by
  induction n generalizing acc with
  | zero => simp [pow2From]
  | succ n ih =>
    rw [pow2From, ih, pow_succ]
    push_cast
    ring

theorem pow2_eq : (pow2 n : ZMod p) = ((2 ^ n : Nat) : ZMod p) := by
  rw [pow2, pow2From_eq, one_mul]

/-- A chunk is below the power of its length, which is below the size of the field. -/
def Fits (sizeInBits : Nat) (packed : ZMod p × Nat) : Prop := packed.2 < sizeInBits ∧ packed.1.val < 2 ^ packed.2

instance instDecidableFits (sizeInBits : Nat) (packed : ZMod p × Nat) : Decidable (Fits sizeInBits packed) :=
  inferInstanceAs (Decidable (_ ∧ _))

variable {acc acc' x x' : ZMod p} {accN : Nat} {packeds packeds' : List (ZMod p × Nat)}

variable (hp : 2 ^ (sizeInBits - 1) < p)

include hp

/-- **A shift and a sum** stay below the modulus. -/
theorem val_shift (hsize : n + accN < sizeInBits) (hacc : acc.val < 2 ^ accN) (hx : x.val < 2 ^ n) :
    (acc * pow2 n + x).val = acc.val * 2 ^ n + x.val ∧ (acc * pow2 n + x).val < 2 ^ (n + accN) := by
  have : NeZero p := NeZero.of_gt hp
  have hbound : acc.val * 2 ^ n + x.val < 2 ^ (n + accN) := by
    have hle : (acc.val + 1) * 2 ^ n ≤ 2 ^ accN * 2 ^ n := Nat.mul_le_mul_right _ hacc
    rw [Nat.succ_mul, ← pow_add, Nat.add_comm accN] at hle
    omega
  have hmono : 2 ^ (n + accN) ≤ 2 ^ (sizeInBits - 1) := Nat.pow_le_pow_right (by decide) (by omega)
  have hcast : acc * pow2 n + x = ((acc.val * 2 ^ n + x.val : Nat) : ZMod p) := by
    rw [pow2_eq, Nat.cast_add, Nat.cast_mul, ZMod.natCast_zmod_val, ZMod.natCast_zmod_val]
  have hval : (acc * pow2 n + x).val = acc.val * 2 ^ n + x.val := by
    rw [hcast, ZMod.val_natCast, Nat.mod_eq_of_lt (by omega)]
  exact ⟨hval, hval ▸ hbound⟩

theorem shift_inj (hsize : n + accN < sizeInBits) (hacc : acc.val < 2 ^ accN) (hacc' : acc'.val < 2 ^ accN)
    (hx : x.val < 2 ^ n) (hx' : x'.val < 2 ^ n) (heq : acc * pow2 n + x = acc' * pow2 n + x') : acc = acc' ∧ x = x' := by
  have : NeZero p := NeZero.of_gt hp
  have hval := congrArg ZMod.val heq
  rw [(val_shift hp hsize hacc hx).1, (val_shift hp hsize hacc' hx').1] at hval
  have hlow : x.val = x'.val := by
    have hmod := congrArg (· % 2 ^ n) hval
    simpa [Nat.mul_add_mod_self_right, Nat.mod_eq_of_lt hx, Nat.mod_eq_of_lt hx'] using hmod
  rw [hlow] at hval
  have hhigh := Nat.eq_of_mul_eq_mul_right (Nat.two_pow_pos n) (Nat.add_right_cancel hval)
  exact ⟨ZMod.val_injective p hhigh, ZMod.val_injective p hlow⟩

theorem packFrom_lt (hsize : accN < sizeInBits) (hacc : acc.val < 2 ^ accN)
    (hpackeds : ∀ packed ∈ packeds, Fits sizeInBits packed) :
    ∀ y ∈ packFrom sizeInBits pow2 acc accN packeds, y.val < 2 ^ (sizeInBits - 1) := by
  have hbelow : ∀ {n}, n < sizeInBits → 2 ^ n ≤ 2 ^ (sizeInBits - 1) := fun h => Nat.pow_le_pow_right (by decide) (by omega)
  induction packeds generalizing acc accN with
  | nil =>
    intro y hy
    rw [packFrom] at hy
    split_ifs at hy
    · rw [List.mem_singleton.1 hy]
      exact hacc.trans_le (hbelow hsize)
    · exact absurd hy List.not_mem_nil
  | cons packed packeds ih =>
    obtain ⟨hpacked, hpackeds⟩ := List.forall_mem_cons.1 hpackeds
    rw [packFrom]
    split_ifs with hfits
    · exact ih hfits (val_shift hp hfits hacc hpacked.2).2 hpackeds
    · exact List.forall_mem_cons.2 ⟨hacc.trans_le (hbelow hsize), ih hpacked.1 hpacked.2 hpackeds⟩

/-- **Packing loses nothing**: chunks of the same lengths with the same elements are the same. -/
theorem packFrom_inj (hacc : acc.val < 2 ^ accN) (hacc' : acc'.val < 2 ^ accN)
    (hlengths : packeds.map Prod.snd = packeds'.map Prod.snd) (hpackeds : ∀ packed ∈ packeds, Fits sizeInBits packed)
    (hpackeds' : ∀ packed ∈ packeds', Fits sizeInBits packed)
    (heq : packFrom sizeInBits pow2 acc accN packeds = packFrom sizeInBits pow2 acc' accN packeds') :
    acc = acc' ∧ packeds = packeds' := by
  have : NeZero p := NeZero.of_gt hp
  induction packeds generalizing packeds' acc acc' accN with
  | nil =>
    obtain rfl : packeds' = [] := List.map_eq_nil_iff.1 hlengths.symm
    rw [packFrom, packFrom] at heq
    split_ifs at heq with hpos
    · exact ⟨List.head_eq_of_cons_eq heq, rfl⟩
    · -- an accumulator of no bits is zero
      rw [Nat.eq_zero_of_not_pos hpos, pow_zero, Nat.lt_one_iff] at hacc hacc'
      exact ⟨ZMod.val_injective p (hacc.trans hacc'.symm), rfl⟩
  | cons packed packeds ih =>
    cases packeds' with
    | nil => exact absurd hlengths (by simp)
    | cons packed' packeds' =>
      obtain ⟨x, n⟩ := packed
      obtain ⟨x', n'⟩ := packed'
      obtain ⟨hn, htail⟩ := List.cons_eq_cons.1 hlengths
      obtain rfl : n = n' := hn
      obtain ⟨hpacked, hpackeds⟩ := List.forall_mem_cons.1 hpackeds
      obtain ⟨hpacked', hpackeds'⟩ := List.forall_mem_cons.1 hpackeds'
      rw [packFrom, packFrom] at heq
      split_ifs at heq with hfits
      · obtain ⟨hshift, rfl⟩ := ih (val_shift hp hfits hacc hpacked.2).2 (val_shift hp hfits hacc' hpacked'.2).2
          htail hpackeds hpackeds' heq
        obtain ⟨rfl, rfl⟩ := shift_inj hp hfits hacc hacc' hpacked.2 hpacked'.2 hshift
        exact ⟨rfl, rfl⟩
      · obtain ⟨rfl, hrest⟩ := List.cons_eq_cons.1 heq
        obtain ⟨rfl, rfl⟩ := ih hpacked.2 hpacked'.2 htail hpackeds hpackeds' hrest
        exact ⟨rfl, rfl⟩

omit hp

end Field

end Chunked

/-! ### Legacy inputs -/

/-- `Legacy.t`. -/
structure Legacy (F B : Type) where
  fieldElements : List F
  bitstrings : List (List B)
deriving DecidableEq

namespace Legacy

section Pack

variable {F G B : Type}

def append (t₁ t₂ : Legacy F B) : Legacy F B := ⟨t₁.fieldElements ++ t₂.fieldElements, t₁.bitstrings ++ t₂.bitstrings⟩

def ofFieldElements (x : List F) : Legacy F B := ⟨x, []⟩

/-- `pack_full_fields`, which does not end for groups of no bits; here it stops. -/
def packFullFields (maxSize : Nat) (pack : List B → F) (revFields : List F) (bits : List B) (length : Nat) : List F × List B × Nat :=
  if 0 < maxSize ∧ maxSize ≤ length then
    packFullFields maxSize pack (pack (bits.take maxSize) :: revFields) (bits.drop maxSize) (length - maxSize)
  else (revFields, bits, length)
termination_by length

/-- A step of the fold over the bitstrings. -/
def packBitstring (maxSize : Nat) (pack : List B → F) : List F × List B × Nat → List B → List F × List B × Nat
  | (acc, bits, n), bitstring => packFullFields maxSize pack acc (bits ++ bitstring) (n + bitstring.length)

/-- `pack_bits`, with the last element first; what the field elements of the input are does not matter. -/
def packBits (maxSize : Nat) (pack : List B → F) (t : Legacy G B) : List F :=
  let (packedFieldElements, remainingBits, remainingLength) := t.bitstrings.foldl (packBitstring maxSize pack) ([], [], 0)
  if remainingLength = 0 then packedFieldElements else pack remainingBits :: packedFieldElements

/-- `Legacy.pack_to_fields`. -/
def packToFields (sizeInBits : Nat) (pack : List B → F) (t : Legacy F B) : List F :=
  let maxSize := sizeInBits - 1
  t.fieldElements ++ (packBits maxSize pack t).reverse

/-- Groups of this size, except for the last one, which is not empty and no longer. -/
def IsCut (size : Nat) : List (List B) → Prop
  | [] => True
  | [group] => group ≠ [] ∧ group.length ≤ size
  | group :: next :: groups => group.length = size ∧ IsCut size (next :: groups)

variable {maxSize : Nat} {pack : List B → F} {groups : List (List B)}

/-- **The loop** packs groups of the size, and fewer bits are left than a group has. -/
theorem packFullFields_spec (pack : List B → F) (hsize : 0 < maxSize) (revFields : List F) {bits : List B} {length : Nat} (hlength : bits.length = length) :
    ∃ (groups : List (List B)) (rest : List B), packFullFields maxSize pack revFields bits length = ((groups.map pack).reverse ++ revFields, rest, rest.length) ∧
      bits = groups.flatten ++ rest ∧ (∀ group ∈ groups, group.length = maxSize) ∧ rest.length < maxSize := by
  fun_induction packFullFields maxSize pack revFields bits length with
  | case1 revFields bits length hle ih =>
    obtain ⟨groups, rest, heq, hbits, hgroups, hrest⟩ := ih (by rw [List.length_drop, hlength])
    refine ⟨bits.take maxSize :: groups, rest, ?_, ?_, ?_, hrest⟩
    · rw [heq, List.map_cons, List.reverse_cons, List.append_assoc, List.singleton_append]
    · rw [List.flatten_cons, List.append_assoc, ← hbits, List.take_append_drop]
    · exact List.forall_mem_cons.2 ⟨List.length_take_of_le (hlength ▸ hle.2), hgroups⟩
  | case2 revFields bits length hnot =>
    refine ⟨[], bits, by rw [hlength]; rfl, rfl, fun _ h => absurd h List.not_mem_nil, ?_⟩
    omega

/-- **Every bitstring** goes to the groups or to the bits that are left. -/
theorem foldl_packBitstring_spec (pack : List B → F) (hsize : 0 < maxSize) (bitstrings : List (List B)) (groups : List (List B)) (rest : List B)
    (hgroups : ∀ group ∈ groups, group.length = maxSize) (hrest : rest.length < maxSize) :
    ∃ (groups' : List (List B)) (rest' : List B), bitstrings.foldl (packBitstring maxSize pack) ((groups.map pack).reverse, rest, rest.length) =
        ((groups'.map pack).reverse, rest', rest'.length) ∧
      groups'.flatten ++ rest' = groups.flatten ++ rest ++ bitstrings.flatten ∧ (∀ group ∈ groups', group.length = maxSize) ∧
      rest'.length < maxSize := by
  induction bitstrings generalizing groups rest with
  | nil => exact ⟨groups, rest, rfl, (List.append_nil _).symm, hgroups, hrest⟩
  | cons bitstring bitstrings ih =>
    obtain ⟨more, rest', heq, hbits, hmore, hrest'⟩ :=
      packFullFields_spec pack hsize (groups.map pack).reverse (List.length_append : (rest ++ bitstring).length = _)
    have hboth : ∀ group ∈ groups ++ more, group.length = maxSize := fun group hgroup =>
      (List.mem_append.1 hgroup).elim (hgroups group) (hmore group)
    obtain ⟨groups', rest'', heq', hbits', hgroups', hrest''⟩ := ih _ _ hboth hrest'
    refine ⟨groups', rest'', ?_, ?_, hgroups', hrest''⟩
    · rw [List.foldl_cons, packBitstring, heq, ← List.reverse_append, ← List.map_append, heq']
    · rw [hbits', List.flatten_append, List.append_assoc groups.flatten, ← hbits, List.flatten_cons]
      simp only [List.append_assoc]

theorem isCut_append {rest : List B} (hgroups : ∀ group ∈ groups, group.length = maxSize) (hrest : rest.length ≤ maxSize)
    (hne : rest ≠ []) : IsCut maxSize (groups ++ [rest]) := by
  induction groups with
  | nil => exact ⟨hne, hrest⟩
  | cons group groups ih =>
    obtain ⟨hgroup, hgroups⟩ := List.forall_mem_cons.1 hgroups
    have hcut := ih hgroups
    cases groups with
    | nil => exact ⟨hgroup, hcut⟩
    | cons next groups => exact ⟨hgroup, hcut⟩

theorem isCut_of_forall (hsize : 0 < maxSize) (hgroups : ∀ group ∈ groups, group.length = maxSize) : IsCut maxSize groups := by
  induction groups with
  | nil => trivial
  | cons group groups ih =>
    obtain ⟨hgroup, hgroups⟩ := List.forall_mem_cons.1 hgroups
    cases groups with
    | nil => exact ⟨List.ne_nil_of_length_pos (hgroup ▸ hsize), hgroup.le⟩
    | cons next groups => exact ⟨hgroup, ih hgroups⟩

/-- **The bits are cut into groups**, across the ends of bitstrings. -/
theorem packBits_spec (pack : List B → F) (hsize : 0 < maxSize) (t : Legacy G B) :
    ∃ groups : List (List B), (packBits maxSize pack t).reverse = groups.map pack ∧ groups.flatten = t.bitstrings.flatten ∧ IsCut maxSize groups := by
  obtain ⟨groups, rest, heq, hbits, hgroups, hrest⟩ :=
    foldl_packBitstring_spec pack hsize t.bitstrings [] [] (by simp) hsize
  rw [List.flatten_nil, List.nil_append, List.nil_append] at hbits
  have hfold : t.bitstrings.foldl (packBitstring maxSize pack) ([], [], 0) = _ := heq
  rw [packBits, hfold]
  dsimp only
  split_ifs with hzero
  · rw [List.length_eq_zero_iff.1 hzero, List.append_nil] at hbits
    exact ⟨groups, List.reverse_reverse _, hbits, isCut_of_forall hsize hgroups⟩
  · refine ⟨groups ++ [rest], ?_, ?_, isCut_append hgroups hrest.le fun hnil => hzero (by rw [hnil]; rfl)⟩
    · rw [List.reverse_cons, List.reverse_reverse, List.map_append]
      rfl
    · rw [List.flatten_append, List.flatten_singleton, hbits]

/-- Packing keeps bits of the same number, if they fit, apart. -/
def PacksApart (maxSize : Nat) (pack : List B → F) : Prop :=
  ∀ bits bits' : List B, bits.length = bits'.length → bits.length ≤ maxSize → pack bits = pack bits' → bits = bits'

theorem isCut_inj (hpack : PacksApart maxSize pack) {groups' : List (List B)} (hcut : IsCut maxSize groups) (hcut' : IsCut maxSize groups')
    (hlength : groups.flatten.length = groups'.flatten.length) (heq : groups.map pack = groups'.map pack) : groups = groups' := by
  induction groups generalizing groups' with
  | nil => exact (List.map_eq_nil_iff.1 heq.symm).symm
  | cons group groups ih =>
    cases groups' with
    | nil => exact absurd heq (by simp)
    | cons group' groups' =>
      obtain ⟨hhead, htail⟩ := List.cons_eq_cons.1 heq
      cases groups with
      | nil =>
        obtain rfl : groups' = [] := List.map_eq_nil_iff.1 htail.symm
        rw [List.flatten_singleton, List.flatten_singleton] at hlength
        rw [hpack group group' hlength hcut.2 hhead]
      | cons next groups =>
        cases groups' with
        | nil => exact absurd htail (by simp)
        | cons next' groups' =>
          have hsame := hcut.1.trans hcut'.1.symm
          rw [List.flatten_cons, List.length_append, hsame, List.flatten_cons (l := group'), List.length_append] at hlength
          rw [hpack group group' hsame hcut.1.le hhead, ih hcut.2 hcut'.2 (Nat.add_left_cancel hlength) htail]

end Pack

/-- `Field.project`: the first bit is the lowest. -/
def project {p : Nat} (bits : List Bool) : ZMod p := (Nat.ofDigits 2 (bits.map Bool.toNat) : Nat)

theorem packsApart_project {p maxSize : Nat} (hp : 2 ^ maxSize < p) : PacksApart maxSize (project : List Bool → ZMod p) := by
  intro bits bits' hlength hle heq
  have hdigits : ∀ bits : List Bool, ∀ d ∈ bits.map Bool.toNat, d < 2 := by
    intro bits d hd
    obtain ⟨b, -, rfl⟩ := List.mem_map.1 hd
    exact Nat.lt_succ_of_le b.toNat_le
  have hbelow : ∀ bits : List Bool, bits.length ≤ maxSize → Nat.ofDigits 2 (bits.map Bool.toNat) < p := by
    intro bits hbits
    have hlt := Nat.ofDigits_lt_base_pow_length (by decide) (hdigits bits)
    rw [List.length_map] at hlt
    exact (hlt.trans_le (Nat.pow_le_pow_right (by decide) hbits)).trans hp
  have hval := congrArg ZMod.val heq
  rw [project, project, ZMod.val_cast_of_lt (hbelow bits hle), ZMod.val_cast_of_lt (hbelow bits' (hlength ▸ hle))] at hval
  have hmap := Nat.ofDigits_inj_of_len_eq (by decide) (by simpa using hlength) (hdigits bits) (hdigits bits') hval
  have hinj : ∀ b b' : Bool, b.toNat = b'.toNat → b = b' := by decide
  exact List.map_injective_iff.2 hinj hmap

end Legacy

/-! ### Nothing is lost -/

open Chunked (Fits) in
/-- **Packing keeps inputs apart.** Chunked inputs of the same shape that are packed to the same elements are the
same; a legacy input gives its field elements and the groups of its bits, so that those of the same shape with
the same elements have the same field elements and the same bits. -/
theorem packing_keeps_apart (p sizeInBits : Nat) (hp : 2 ^ (sizeInBits - 1) < p) (hsize : 1 < sizeInBits) :
    (∀ a b : Chunked (ZMod p), a.fieldElements.length = b.fieldElements.length → a.packeds.map Prod.snd = b.packeds.map Prod.snd →
      (∀ packed ∈ a.packeds, Fits sizeInBits packed) → (∀ packed ∈ b.packeds, Fits sizeInBits packed) →
      (∀ x ∈ Chunked.packedBits sizeInBits pow2 a.packeds, x.val < 2 ^ (sizeInBits - 1)) ∧
        (a.packToFields sizeInBits pow2 = b.packToFields sizeInBits pow2 → a = b)) ∧
    ∀ (F B : Type) (pack : List B → F) (a : Legacy F B),
      (∃ groups, a.packToFields sizeInBits pack = a.fieldElements ++ groups.map pack ∧ groups.flatten = a.bitstrings.flatten ∧
        Legacy.IsCut (sizeInBits - 1) groups) ∧
      (Legacy.PacksApart (sizeInBits - 1) pack → ∀ b : Legacy F B, a.fieldElements.length = b.fieldElements.length →
        a.bitstrings.flatten.length = b.bitstrings.flatten.length → a.packToFields sizeInBits pack = b.packToFields sizeInBits pack →
        a.fieldElements = b.fieldElements ∧ a.bitstrings.flatten = b.bitstrings.flatten) := by
  have hmax : 0 < sizeInBits - 1 := by omega
  refine ⟨fun a b hlength hlengths ha hb => ⟨?_, fun heq => ?_⟩, fun F B pack a => ⟨?_, fun hpack b hlength hbits heq => ?_⟩⟩
  · rw [Chunked.packedBits_eq]
    exact Chunked.packFrom_lt hp (by omega) (by simp) ha
  · obtain ⟨hfields, hpacked⟩ := List.append_inj heq hlength
    rw [Chunked.packedBits_eq, Chunked.packedBits_eq] at hpacked
    obtain ⟨-, hpackeds⟩ := Chunked.packFrom_inj hp (by simp) (by simp) hlengths ha hb hpacked
    obtain ⟨fieldElements, packeds⟩ := a
    obtain ⟨fieldElements', packeds'⟩ := b
    rw [Chunked.mk.injEq]
    exact ⟨hfields, hpackeds⟩
  · obtain ⟨groups, heq, hbits, hcut⟩ := Legacy.packBits_spec pack hmax a
    exact ⟨groups, congrArg (a.fieldElements ++ ·) heq, hbits, hcut⟩
  · obtain ⟨groups, hgroups, hflatten, hcut⟩ := Legacy.packBits_spec pack hmax a
    obtain ⟨groups', hgroups', hflatten', hcut'⟩ := Legacy.packBits_spec pack hmax b
    obtain ⟨hfields, hpacked⟩ := List.append_inj heq hlength
    rw [hgroups, hgroups'] at hpacked
    rw [← hflatten, ← hflatten'] at hbits
    have hsame := Legacy.isCut_inj hpack hcut hcut' hbits hpacked
    exact ⟨hfields, by rw [← hflatten, hsame, hflatten']⟩

/-- Three chunks over a field of three bits and more: the last does not fit with the others. -/
theorem packing_keeps_apart_small :
    (∀ b : Chunked (ZMod 5), b.fieldElements.length = 1 → b.packeds.map Prod.snd = [1, 1, 2] →
      (∀ packed ∈ b.packeds, Chunked.Fits 3 packed) → [4, 3, 2] = b.packToFields 3 pow2 → b = ⟨[4], [(1, 1), (1, 1), (2, 2)]⟩) ∧
    ∀ b : Legacy (ZMod 5) Bool, b.fieldElements.length = 1 → b.bitstrings.flatten.length = 3 →
      Legacy.packToFields 3 Legacy.project ⟨[4], [[true], [true, true]]⟩ = b.packToFields 3 Legacy.project → b.bitstrings.flatten = [true, true, true] := by
  obtain ⟨hchunked, hlegacy⟩ := packing_keeps_apart 5 3 (by decide) (by decide)
  refine ⟨fun b hlength hlengths hb heq => ?_, fun b hlength hbits heq => ?_⟩
  · exact ((hchunked ⟨[4], [(1, 1), (1, 1), (2, 2)]⟩ b hlength.symm hlengths.symm (by decide) hb).2 heq).symm
  · exact ((hlegacy (ZMod 5) Bool Legacy.project ⟨[4], [[true], [true, true]]⟩).2 (Legacy.packsApart_project (by decide)) b
      hlength.symm hbits.symm heq).2.symm

end MinaProtocol.RandomOracleInput
