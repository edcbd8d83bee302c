import MinaProtocol.Lib.AddressTree

/-!
# MerkleLedger.Location

Addresses of nodes of a ledger's tree (`merkle_address.ml`), and locations in its key-value store
(`location.ml`): an account, an inner hash, or anything else. A location is written as a byte for its kind,
or for the height of the hash, and the bits of the address from the root on.

An address is a list of directions with the last one first. `none` is an exception.
-/

namespace MinaProtocol.MerkleLedger

open AddressTree

abbrev Bytes := List UInt8

/-! ### Bits -/

/-- The byte with these bits, the highest one first. -/
def byteOfBits (bits : List Bool) : UInt8 := UInt8.ofNat (bits.foldl (fun n b => 2 * n + b.toNat) 0)

def bitsOfByte (byte : UInt8) : List Bool := (List.range 8).map fun i => byte.toNat.testBit (7 - i)

/-- `Bitstring.string_of_bitstring`, on whole bytes. -/
def stringOfBitstring : List Bool → Bytes
  | b0 :: b1 :: b2 :: b3 :: b4 :: b5 :: b6 :: b7 :: bits =>
    byteOfBits [b0, b1, b2, b3, b4, b5, b6, b7] :: stringOfBitstring bits
  | _ => []

/-- `Bitstring.bitstring_of_string`. -/
def bitstringOfString (string : Bytes) : List Bool := string.flatMap bitsOfByte

/-- `byte_count_of_bits`. -/
def byteCountOfBits (n : Nat) : Nat := n / 8 + min 1 (n % 8)

/-- `add_padding`. -/
def addPadding (bits : List Bool) : List Bool :=
  if bits.length % 8 = 0 then bits else bits ++ List.replicate (8 - bits.length % 8) false

theorem bitsOfByte_byteOfBits : ∀ b0 b1 b2 b3 b4 b5 b6 b7 : Bool,
    bitsOfByte (byteOfBits [b0, b1, b2, b3, b4, b5, b6, b7]) = [b0, b1, b2, b3, b4, b5, b6, b7] := by
  decide

theorem bitstringOfString_stringOfBitstring {bits : List Bool} (h : bits.length % 8 = 0) :
    bitstringOfString (stringOfBitstring bits) = bits := by
  induction bits using stringOfBitstring.induct with
  | case1 b0 b1 b2 b3 b4 b5 b6 b7 bits ih =>
    simp only [List.length_cons] at h
    unfold bitstringOfString at ih ⊢
    rw [stringOfBitstring, List.flatMap_cons, bitsOfByte_byteOfBits, ih (by omega)]
    rfl
  | case2 bits hshort =>
    rcases bits with _ | ⟨b0, _ | ⟨b1, _ | ⟨b2, _ | ⟨b3, _ | ⟨b4, _ | ⟨b5, _ | ⟨b6, _ | ⟨b7, bits⟩⟩⟩⟩⟩⟩⟩⟩
    · rfl
    all_goals first
      | exact absurd rfl (hshort b0 b1 b2 b3 b4 b5 b6 b7 bits)
      | simp at h

/-! ### Addresses -/

namespace Addr

/-- `height`. -/
def height (ledgerDepth : Nat) (path : Addr) : Nat := ledgerDepth - path.length

/-- `parent_exn`. -/
def parent : Addr → Option Addr
  | [] => none
  | _ :: path => some path

/-- `sibling`. -/
def sibling : Addr → Option Addr
  | [] => none
  | b :: path => some ((!b) :: path)

/-- An integer as one of 63 bits. -/
def wrap63 (n : Int) : Int := (n + 2 ^ 62) % 2 ^ 63 - 2 ^ 62

variable (lslBeyond : Int → Nat → Int)

/-- `lsl` on integers of 63 bits; a shift by more is not specified, and given. -/
def lsl (n : Int) (k : Nat) : Int :=
  if k < 63 then wrap63 (n * 2 ^ k) else lslBeyond n k

/-- The fold of `to_int`, from bit `i` on. -/
def toIntFrom (lslBeyond : Int → Nat → Int) : Nat → Int → Addr → Int
  | _, acc, [] => acc
  | i, acc, b :: path => toIntFrom lslBeyond (i + 1) (wrap63 (acc + lsl lslBeyond b.toNat i)) path

/-- `to_int`. -/
def toInt (path : Addr) : Int := toIntFrom lslBeyond 0 0 path

/-- The bits that `of_int_exn` puts, from the last one on. -/
def bitsOfInt : Nat → Int → Addr
  | 0, _ => []
  | n + 1, i => decide (i % 2 = 1) :: bitsOfInt n (i.tdiv 2)

/-- `of_int_exn`. -/
def ofIntExn (ledgerDepth : Nat) (i : Int) : Option Addr :=
  if i ≥ lsl lslBeyond 1 ledgerDepth then none else some (bitsOfInt ledgerDepth i)

/-- `serialize`. -/
def serialize (ledgerDepth : Nat) (path : Addr) : Option Bytes :=
  let path := addPadding path.reverse
  let requiredBits := 8 * byteCountOfBits ledgerDepth
  if path.length ≤ requiredBits then
    some (stringOfBitstring (path ++ List.replicate (requiredBits - path.length) false))
  else none

/-- `slice`, of the first bits of a bitstring. -/
def slice (bits : List Bool) (length : Nat) : Option Addr :=
  if length ≤ bits.length then some (bits.take length).reverse else none

section Numbers

variable {lslBeyond : Int → Nat → Int} {n i : Nat} {path : Addr} {k : Nat}

theorem bitsOfInt_natCast : bitsOfInt n (i : Int) = ofIndex n i := by
  induction n generalizing i with
  | zero => rfl
  | succ n ih =>
    have hhalf : (i : Int).tdiv 2 = ((i / 2 : Nat) : Int) := by
      rw [Int.tdiv_eq_ediv_of_nonneg (by omega)]
      rfl
    have hodd : ((i : Int) % 2 = 1) ↔ (i % 2 = 1) := by omega
    rw [bitsOfInt, ofIndex, hhalf, ih]
    simp [hodd]

theorem wrap63_natCast {m : Nat} (h : m < 2 ^ 62) : wrap63 (m : Int) = m := by
  unfold wrap63
  omega

theorem lsl_of_lt (lslBeyond : Int → Nat → Int) {b : Nat} (hb : b ≤ 1) (hk : k < 62) : lsl lslBeyond b k = ((b * 2 ^ k : Nat) : Int) := by
  have hpow : 2 ^ k < 2 ^ 62 := Nat.pow_lt_pow_right (by omega) hk
  have hle : b * 2 ^ k ≤ 1 * 2 ^ k := Nat.mul_le_mul_right _ hb
  have hcast : ((b : Int) * 2 ^ k) = ((b * 2 ^ k : Nat) : Int) := by push_cast; rfl
  unfold lsl
  rw [if_pos (by omega), hcast, wrap63_natCast (by omega)]

/-- **An index of at most 61 bits** is not cut off. -/
theorem ofIntExn_natCast (hn : n ≤ 61) : ofIntExn lslBeyond n (i : Int) = if i < 2 ^ n then some (ofIndex n i) else none := by
  have hone := lsl_of_lt lslBeyond (b := 1) (k := n) le_rfl (by omega)
  unfold ofIntExn
  rw [Nat.one_mul, Nat.cast_one] at hone
  rw [hone, bitsOfInt_natCast]
  by_cases h : i < 2 ^ n
  · rw [if_neg (by omega), if_pos h]
  · rw [if_pos (by omega), if_neg h]

theorem toIntFrom_eq (lslBeyond : Int → Nat → Int) {acc : Nat} (hlen : k + path.length ≤ 61) (hacc : acc < 2 ^ k) :
    toIntFrom lslBeyond k (acc : Int) path = ((acc + 2 ^ k * index path : Nat) : Int) := by
  induction path generalizing k acc with
  | nil => simp [toIntFrom, index]
  | cons b path ih =>
    rw [List.length_cons] at hlen
    have hb := b.toNat_le
    have hshift := lsl_of_lt lslBeyond hb (show k < 62 by omega)
    have hpow : 2 ^ (k + 1) ≤ 2 ^ 61 := Nat.pow_le_pow_right (by omega) (by omega)
    have hle : b.toNat * 2 ^ k ≤ 1 * 2 ^ k := Nat.mul_le_mul_right _ hb
    have hsucc : 2 ^ (k + 1) = 2 ^ k * 2 := pow_succ 2 k
    rw [toIntFrom, hshift, ← Nat.cast_add, wrap63_natCast (by omega), ih (by omega) (by omega), index, hsucc]
    congr 1
    ring

/-- **The index of an address of at most 61 bits.** -/
theorem toInt_eq (lslBeyond : Int → Nat → Int) (hlen : path.length ≤ 61) : toInt lslBeyond path = (index path : Int) := by
  have h : toIntFrom lslBeyond 0 ((0 : Nat) : Int) path = ((0 + 2 ^ 0 * index path : Nat) : Int) :=
    toIntFrom_eq lslBeyond (by omega) (by omega)
  unfold toInt
  rw [Nat.cast_zero] at h
  rw [h]
  simp

/-- **No index fits 62 bits**: `1 lsl 62` is the least integer. -/
theorem ofIntExn_62 {i : Int} (hi : -2 ^ 62 ≤ i) : ofIntExn lslBeyond 62 i = none := by
  have hone : lsl lslBeyond 1 62 = -2 ^ 62 := by
    unfold lsl wrap63
    rw [if_pos (by norm_num)]
    norm_num
  unfold ofIntExn
  rw [hone, if_pos hi]

end Numbers

/-! ### Addresses as bytes -/

section Bytes

variable {ledgerDepth : Nat} {path path' : Addr}

/-- The bits of an address, filled up with zeros to whole bytes. -/
def paddedBits (ledgerDepth : Nat) (path : Addr) : List Bool :=
  path.reverse ++ List.replicate (8 * byteCountOfBits ledgerDepth - path.length) false

theorem le_byteCountOfBits (n : Nat) : n ≤ 8 * byteCountOfBits n := by
  unfold byteCountOfBits
  omega

variable (h : path.length ≤ ledgerDepth)

include h

theorem length_paddedBits : (paddedBits ledgerDepth path).length = 8 * byteCountOfBits ledgerDepth := by
  have hle := le_byteCountOfBits ledgerDepth
  simp [paddedBits]
  omega

/-- **An address within the depth** is written as its padded bits. -/
theorem serialize_eq : serialize ledgerDepth path = some (stringOfBitstring (paddedBits ledgerDepth path)) := by
  unfold serialize addPadding paddedBits
  have hle := le_byteCountOfBits ledgerDepth
  by_cases hmod : path.reverse.length % 8 = 0
  · rw [if_pos hmod]
    dsimp only
    rw [List.length_reverse, if_pos (h.trans hle)]
  · rw [if_neg hmod]
    rw [List.length_reverse] at hmod ⊢
    have hfits : path.length + (8 - path.length % 8) ≤ 8 * byteCountOfBits ledgerDepth := by
      unfold byteCountOfBits
      omega
    dsimp only
    rw [List.length_append, List.length_reverse, List.length_replicate, if_pos hfits, List.append_assoc,
      List.replicate_append_replicate]
    congr 4
    omega

/-- What is written is read back. -/
theorem slice_serialize :
    slice (bitstringOfString (stringOfBitstring (paddedBits ledgerDepth path))) path.length = some path := by
  have hle := le_byteCountOfBits ledgerDepth
  rw [bitstringOfString_stringOfBitstring (by rw [length_paddedBits h, Nat.mul_mod_right])]
  unfold slice
  rw [length_paddedBits h, if_pos (h.trans hle)]
  unfold paddedBits
  have htake : (path.reverse ++ List.replicate (8 * byteCountOfBits ledgerDepth - path.length) false).take
      path.reverse.length = path.reverse := List.take_left
  rw [List.length_reverse] at htake
  rw [htake, List.reverse_reverse]

theorem stringOfBitstring_inj (hlen : path'.length = path.length)
    (heq : stringOfBitstring (paddedBits ledgerDepth path) = stringOfBitstring (paddedBits ledgerDepth path')) :
    path = path' := by
  have hpath := slice_serialize h
  have hpath' := slice_serialize (hlen.trans_le h)
  rw [heq, ← hlen, hpath'] at hpath
  exact (Option.some.inj hpath).symm

omit h

end Bytes

end Addr

/-! ### Locations -/

/-- `Location.t`. -/
inductive Location where
  | generic (data : Bytes)
  | account (path : Addr)
  | hash (path : Addr)
deriving DecidableEq

namespace Location

/-- `Prefix.generic`. -/
def genericPrefix : UInt8 := 0xff

/-- `Prefix.account`. -/
def accountPrefix : UInt8 := 0xfe

/-- `Prefix.hash`. -/
def hashPrefix (ledgerDepth depth : Nat) : UInt8 := UInt8.ofNat (ledgerDepth - depth)

/-- `to_path_exn`. -/
def toPath : Location → Option Addr
  | .account path => some path
  | .hash path => some path
  | .generic _ => none

/-- `height`. -/
def height (ledgerDepth : Nat) : Location → Option Nat
  | .generic _ => none
  | .account _ => some 0
  | .hash path => some (Addr.height ledgerDepth path)

/-- `next`, where the inner `none` is that there is none. -/
def next : Location → Option (Option Location)
  | .generic _ => none
  | .account path => some ((AddressTree.next path).map .account)
  | .hash path => some ((AddressTree.next path).map .hash)

/-- `serialize`. -/
def serialize (ledgerDepth : Nat) : Location → Option Bytes
  | .generic data => some (genericPrefix :: data)
  | .account path =>
    if path.length = ledgerDepth then (Addr.serialize ledgerDepth path).map (accountPrefix :: ·) else none
  | .hash path =>
    if path.length ≤ ledgerDepth then
      (Addr.serialize ledgerDepth path).map (hashPrefix ledgerDepth path.length :: ·)
    else none

/-- `parse`. -/
def parse (ledgerDepth : Nat) (str : Bytes) : Option (Except Unit Location) :=
  match str with
  | [] => none
  | pre :: data =>
    if pre = genericPrefix then some (.ok (.generic data))
    else if pre = accountPrefix then
      (Addr.slice (bitstringOfString data) ledgerDepth).map fun path => .ok (.account path)
    else if pre.toNat ≤ ledgerDepth then
      (Addr.slice (bitstringOfString data) (ledgerDepth - pre.toNat)).map fun path => .ok (.hash path)
    else some (.error ())

/-- `merkle_path_dependencies_exn`, of the hash at an address. -/
def merklePathDependencies (path : Addr) : List (Location × Bool) :=
  (siblings path).map fun s => (.hash s.1, s.2)

section Keys

variable {ledgerDepth : Nat} {l : Location} {d : Nat}

/-- The address of a location is within the depth of the ledger. -/
def Fits (ledgerDepth : Nat) : Location → Prop
  | .generic _ => True
  | .account path => path.length = ledgerDepth
  | .hash path => path.length ≤ ledgerDepth

/-- The key of a location. -/
def key (ledgerDepth : Nat) : Location → Bytes
  | .generic data => genericPrefix :: data
  | .account path => accountPrefix :: stringOfBitstring (Addr.paddedBits ledgerDepth path)
  | .hash path => hashPrefix ledgerDepth path.length :: stringOfBitstring (Addr.paddedBits ledgerDepth path)

theorem serialize_of_fits (h : l.Fits ledgerDepth) : serialize ledgerDepth l = some (l.key ledgerDepth) := by
  cases l with
  | generic data => rfl
  | account path =>
    have hlen : path.length = ledgerDepth := h
    rw [serialize, if_pos hlen, Addr.serialize_eq hlen.le]
    rfl
  | hash path =>
    have hlen : path.length ≤ ledgerDepth := h
    rw [serialize, if_pos hlen, Addr.serialize_eq hlen]
    rfl

/-- **The location of an account is read back.** -/
theorem parse_account {path : Addr} (h : path.length = ledgerDepth) :
    parse ledgerDepth (key ledgerDepth (.account path)) = some (.ok (.account path)) := by
  have hslice := Addr.slice_serialize h.le
  rw [h] at hslice
  unfold parse key
  dsimp only
  rw [if_neg (by decide), if_pos rfl, hslice]
  rfl

theorem toNat_hashPrefix (hdepth : ledgerDepth < 254) : (hashPrefix ledgerDepth d).toNat = ledgerDepth - d := by
  unfold hashPrefix
  rw [UInt8.toNat_ofNat']
  omega

theorem hashPrefix_ne (hdepth : ledgerDepth < 254) :
    hashPrefix ledgerDepth d ≠ genericPrefix ∧ hashPrefix ledgerDepth d ≠ accountPrefix := by
  have hnat := toNat_hashPrefix (d := d) hdepth
  constructor
  · intro h
    rw [h] at hnat
    have hgeneric : genericPrefix.toNat = 255 := rfl
    omega
  · intro h
    rw [h] at hnat
    have haccount : accountPrefix.toNat = 254 := rfl
    omega

/-- **Locations have different keys**, in a ledger of a depth below 254. -/
theorem key_inj (hdepth : ledgerDepth < 254) {l' : Location} (h : l.Fits ledgerDepth) (h' : l'.Fits ledgerDepth)
    (heq : l.key ledgerDepth = l'.key ledgerDepth) : l = l' := by
  cases l with
  | generic data =>
    cases l' with
    | generic data' => rw [(List.cons.inj heq).2]
    | account path' => exact absurd (List.cons.inj heq).1 (by decide)
    | hash path' => exact absurd (List.cons.inj heq).1.symm (hashPrefix_ne hdepth).1
  | account path =>
    cases l' with
    | generic data' => exact absurd (List.cons.inj heq).1 (by decide)
    | account path' =>
      have hlen : path.length = ledgerDepth := h
      have hlen' : path'.length = ledgerDepth := h'
      rw [Addr.stringOfBitstring_inj hlen.le (hlen'.trans hlen.symm) (List.cons.inj heq).2]
    | hash path' => exact absurd (List.cons.inj heq).1.symm (hashPrefix_ne hdepth).2
  | hash path =>
    cases l' with
    | generic data' => exact absurd (List.cons.inj heq).1 (hashPrefix_ne hdepth).1
    | account path' => exact absurd (List.cons.inj heq).1 (hashPrefix_ne hdepth).2
    | hash path' =>
      have hlen : path.length ≤ ledgerDepth := h
      have hlen' : path'.length ≤ ledgerDepth := h'
      have hheight := congrArg UInt8.toNat (List.cons.inj heq).1
      rw [toNat_hashPrefix hdepth, toNat_hashPrefix hdepth] at hheight
      rw [Addr.stringOfBitstring_inj hlen (by omega) (List.cons.inj heq).2]

end Keys

end Location

end MinaProtocol.MerkleLedger
