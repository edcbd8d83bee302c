import MinaProtocol.MerkleLedger.Location

/-!
# MerkleLedger.Encodings

The encodings of addresses, and what they give back. In binary an address is its length and its bits in whole
bytes; as text it is a string of the characters `0` and `1`. The text is read by taking the code of each
character for a direction, which neither code is.

Reading gives a value that is written with the same bits as far as the value goes, also where what is read
was not written from a value.
-/

namespace MinaProtocol.MerkleLedger

open AddressTree

/-! ### Strings -/

inductive Sexp where
  | atom (string : List Char)
  | list (sexps : List Sexp)

def sexpOfString (string : List Char) : Sexp := .atom string

def stringOfSexp : Sexp → Option (List Char)
  | .atom string => some string
  | .list _ => none

/-- `Bounded_types.String.max_string_len`. -/
def maxStringLen : Nat := 100000000

/-- The check of a bounded string, made when it is written and when it is read. -/
def boundedString (string : Bytes) : Option Bytes := if string.length > maxStringLen then none else some string

/-- `Direction.of_int_exn`. -/
def directionOfIntExn : Nat → Option Bool
  | 0 => some false
  | 1 => some true
  | _ => none

/-! ### Addresses -/

namespace Addr

/-- `to_string`. -/
def toString (path : Addr) : List Char := path.reverse.map fun b => if b then '1' else '0'

/-- `of_directions`. -/
def ofDirections (dirs : List Bool) : Addr := dirs.reverse

/-- `to_tuple`. -/
def toTuple (path : Addr) : Int × Bytes := (path.length, stringOfBitstring (addPadding path.reverse))

/-- `of_tuple`. -/
def ofTuple (t : Int × Bytes) : Option Addr := if t.1 < 0 then none else slice (bitstringOfString t.2) t.1.toNat

/-- What is written in binary. -/
def binWrite (path : Addr) : Option (Int × Bytes) := (boundedString (toTuple path).2).map fun string => ((toTuple path).1, string)

def binRead (t : Int × Bytes) : Option Addr := (boundedString t.2).bind fun string => ofTuple (t.1, string)

/-- `sexp_of_t`. -/
def sexpOf (path : Addr) : Sexp := sexpOfString (toString path)

/-- `t_of_sexp`. -/
def ofSexp (sexp : Sexp) : Option Addr :=
  (stringOfSexp sexp).bind fun buf => (buf.mapM fun c => directionOfIntExn c.toNat).map ofDirections

section Addresses

variable {bits : List Bool} {path : Addr} {n : Nat}

theorem length_addPadding (bits : List Bool) : (addPadding bits).length = 8 * byteCountOfBits bits.length := by
  unfold addPadding byteCountOfBits
  split
  · omega
  · simp
    omega

theorem take_addPadding (bits : List Bool) : (addPadding bits).take bits.length = bits := by
  unfold addPadding
  split <;> simp

theorem bitstringOfString_addPadding (bits : List Bool) :
    bitstringOfString (stringOfBitstring (addPadding bits)) = addPadding bits :=
  bitstringOfString_stringOfBitstring (by simp [length_addPadding])

theorem slice_eq_some_iff : slice bits n = some path ↔ n ≤ bits.length ∧ path.reverse = bits.take n := by
  unfold slice
  split
  · rename_i h
    simp [h, List.reverse_eq_iff, eq_comm]
  · rename_i h
    simp [h]

theorem length_of_slice (h : slice bits n = some path) : path.length = n := by
  obtain ⟨hn, hpath⟩ := slice_eq_some_iff.1 h
  have hlen := congrArg List.length hpath
  simp only [List.length_reverse, List.length_take] at hlen
  omega

/-- **The binary tuple of an address is read back.** -/
theorem ofTuple_toTuple (path : Addr) : ofTuple (toTuple path) = some path := by
  have hslice : slice (addPadding path.reverse) path.length = some path := by
    refine slice_eq_some_iff.2 ⟨?_, ?_⟩
    · have hle := le_byteCountOfBits path.length
      simpa [length_addPadding] using hle
    · simpa using (take_addPadding path.reverse).symm
  simpa [ofTuple, toTuple, bitstringOfString_addPadding] using hslice

theorem length_stringOfBitstring (h : bits.length % 8 = 0) : 8 * (stringOfBitstring bits).length = bits.length := by
  have hbits := congrArg List.length (bitstringOfString_stringOfBitstring h)
  have hbyte : ∀ byte, (bitsOfByte byte).length = 8 := fun byte => by simp [bitsOfByte]
  simp [bitstringOfString, List.length_flatMap, hbyte] at hbits
  omega

/-- **An address is read back from binary** where a bounded string holds its bits. -/
theorem binRead_of_binWrite (hlen : path.length ≤ 8 * maxStringLen) : (binWrite path).bind binRead = some path := by
  have hstring : (toTuple path).2.length ≤ maxStringLen := by
    have hpadded := length_addPadding path.reverse
    have hbytes : 8 * (stringOfBitstring (addPadding path.reverse)).length = (addPadding path.reverse).length :=
      length_stringOfBitstring (by omega)
    rw [List.length_reverse] at hpadded
    unfold byteCountOfBits at hpadded
    change (stringOfBitstring (addPadding path.reverse)).length ≤ maxStringLen
    omega
  have hbounded : boundedString (toTuple path).2 = some (toTuple path).2 := if_neg hstring.not_gt
  simp [binWrite, binRead, hbounded, ofTuple_toTuple]

/-- **The text of an address is read back only where it is empty**: the codes of `0` and `1` are 48 and 49. -/
theorem ofSexp_sexpOf (path : Addr) : ofSexp (sexpOf path) = some path ↔ path = [] := by
  constructor
  · intro h
    have hcode : ∀ b : Bool, directionOfIntExn (if b then '1' else '0').toNat = none := by decide
    cases hpath : path.reverse with
    | nil => simpa using hpath
    | cons b bits => simp [ofSexp, sexpOf, sexpOfString, stringOfSexp, toString, hpath, hcode] at h
  · rintro rfl
    rfl

/-- **What is read from any tuple** is written with its length and the same bits. -/
theorem toTuple_of_ofTuple {t : Int × Bytes} (h : ofTuple t = some path) : (toTuple path).1 = t.1 ∧
      (bitstringOfString (toTuple path).2).take path.length = (bitstringOfString t.2).take path.length := by
  unfold ofTuple at h
  split at h
  · exact absurd h (by simp)
  · rename_i hneg
    have hlen := length_of_slice h
    refine ⟨?_, ?_⟩
    · change (path.length : Int) = t.1
      omega
    · have hpath := (slice_eq_some_iff.1 h).2
      have htake := take_addPadding path.reverse
      rw [List.length_reverse] at htake
      rw [← hlen] at hpath
      have hread : bitstringOfString (toTuple path).2 = addPadding path.reverse := bitstringOfString_addPadding _
      rw [hread, htake, hpath]

end Addresses

end Addr

/-! ### Locations -/

variable {ledgerDepth : Nat} {l l' : Location}

namespace Location

variable {bytes : Bytes}

/-- **Every valid location is read back.** -/
theorem parse_key (hdepth : ledgerDepth < 254) (h : l.Fits ledgerDepth) :
    parse ledgerDepth (l.key ledgerDepth) = some (.ok l) := by
  cases l with
  | generic data => rfl
  | account path => exact parse_account h
  | hash path =>
    have hlen : path.length ≤ ledgerDepth := h
    obtain ⟨hgeneric, haccount⟩ := hashPrefix_ne (d := path.length) hdepth
    have hnat := toNat_hashPrefix (d := path.length) hdepth
    have hslice := Addr.slice_serialize hlen
    simp [parse, key, hgeneric, haccount, hnat, Nat.sub_sub_self hlen, hslice]

/-- Only valid locations are written. -/
theorem fits_of_serialize (h : serialize ledgerDepth l = some bytes) : l.Fits ledgerDepth ∧ bytes = l.key ledgerDepth := by
  have hfits : l.Fits ledgerDepth := by
    cases l with
    | generic data => trivial
    | account path =>
      by_contra hlen
      simp [serialize, show ¬ path.length = ledgerDepth from hlen] at h
    | hash path =>
      by_contra hlen
      simp [serialize, show ¬ path.length ≤ ledgerDepth from hlen] at h
  rw [serialize_of_fits hfits] at h
  exact ⟨hfits, (Option.some.inj h).symm⟩

/-- Two strings start with the same byte and go on with the same bits, as far as the value of the location goes. -/
structure SameWritten (l : Location) (bytes bytes' : Bytes) : Prop where
  first : bytes.head? = bytes'.head?
  data : l.toPath = none → bytes = bytes'
  bits : ∀ path, l.toPath = some path →
    (bitstringOfString bytes.tail).take path.length = (bitstringOfString bytes'.tail).take path.length

theorem sameWritten_path {path : Addr} {pre : UInt8} {data : Bytes} (hl : l.toPath = some path) (hlen : path.length ≤ ledgerDepth)
    (hslice : Addr.slice (bitstringOfString data) path.length = some path) :
    SameWritten l (pre :: stringOfBitstring (Addr.paddedBits ledgerDepth path)) (pre :: data) where
  first := rfl
  data := fun hnone => by simp [hl] at hnone
  bits := fun path' hpath' => by
    obtain rfl : path = path' := Option.some.inj (hl.symm.trans hpath')
    exact (Addr.slice_eq_some_iff.1 (Addr.slice_serialize hlen)).2.symm.trans (Addr.slice_eq_some_iff.1 hslice).2

/-- **What is parsed from any bytes** is a valid location that is written with the same first byte and bits. -/
theorem serialize_of_parse (h : parse ledgerDepth bytes = some (.ok l)) :
    ∃ bytes', serialize ledgerDepth l = some bytes' ∧ SameWritten l bytes' bytes := by
  cases bytes with
  | nil => simp [parse] at h
  | cons pre data =>
    unfold parse at h
    dsimp only at h
    split_ifs at h with hgeneric haccount hhash
    · obtain rfl : Location.generic data = l := by simpa using h
      exact ⟨_, rfl, by simp [hgeneric], fun _ => by rw [hgeneric], fun path hpath => by simp [toPath] at hpath⟩
    · obtain ⟨path, hslice, hl⟩ := Option.map_eq_some_iff.1 h
      obtain rfl : Location.account path = l := by simpa using hl
      have hlen := Addr.length_of_slice hslice
      rw [← hlen] at hslice
      subst haccount
      exact ⟨_, serialize_of_fits (l := .account path) hlen, sameWritten_path rfl hlen.le hslice⟩
    · obtain ⟨path, hslice, hl⟩ := Option.map_eq_some_iff.1 h
      obtain rfl : Location.hash path = l := by simpa using hl
      have hlen := Addr.length_of_slice hslice
      have hle : path.length ≤ ledgerDepth := by omega
      have hpre : hashPrefix ledgerDepth path.length = pre := by
        rw [hashPrefix, hlen, Nat.sub_sub_self hhash, UInt8.ofNat_toNat]
      rw [← hlen] at hslice
      refine ⟨_, serialize_of_fits (l := .hash path) hle, ?_⟩
      rw [key, hpre]
      exact sameWritten_path rfl hle hslice
    · simp at h

end Location

/-! ### All encodings -/

section Encodings

/-- What locations and arbitrary input give back. -/
structure BytesSurvive (ledgerDepth : Nat) (l l' : Location) (t : Int × Bytes) (bytes : Bytes) : Prop where
  parse : ∃ str, l.serialize ledgerDepth = some str ∧ Location.parse ledgerDepth str = some (.ok l)
  injective : ∀ str, l.serialize ledgerDepth = some str → l'.serialize ledgerDepth = some str → l = l'
  ofTuple : ∀ path, Addr.ofTuple t = some path → (Addr.toTuple path).1 = t.1 ∧
    (bitstringOfString (Addr.toTuple path).2).take path.length = (bitstringOfString t.2).take path.length
  ofParse : ∀ loc, Location.parse ledgerDepth bytes = some (.ok loc) →
    ∃ str, loc.serialize ledgerDepth = some str ∧ Location.SameWritten loc str bytes

/-- Every encoding gives back what was encoded. -/
structure EncodingsSurvive (path : Addr) (ledgerDepth : Nat) (l l' : Location) (t : Int × Bytes) (bytes : Bytes) : Prop where
  binIo : (Addr.binWrite path).bind Addr.binRead = some path
  sexp : Addr.ofSexp (Addr.sexpOf path) = some path
  bytes : BytesSurvive ledgerDepth l l' t bytes

theorem bytesSurvive (hdepth : ledgerDepth < 254) (h : l.Fits ledgerDepth) (t : Int × Bytes) (bytes : Bytes) :
    BytesSurvive ledgerDepth l l' t bytes where
  parse := ⟨_, Location.serialize_of_fits h, Location.parse_key hdepth h⟩
  injective := by
    intro str hl hl'
    obtain ⟨hfits, rfl⟩ := Location.fits_of_serialize hl
    obtain ⟨hfits', heq⟩ := Location.fits_of_serialize hl'
    exact Location.key_inj hdepth hfits hfits' heq
  ofTuple := fun _ hpath => Addr.toTuple_of_ofTuple hpath
  ofParse := fun _ hloc => Location.serialize_of_parse hloc

/-- **Addresses and locations survive their encodings**, the text of an address only where it is empty. -/
theorem encodings_survive_iff (path : Addr) (l' : Location) (t : Int × Bytes) (bytes : Bytes) (hdepth : ledgerDepth < 254)
    (h : l.Fits ledgerDepth) :
    (EncodingsSurvive path ledgerDepth l l' t bytes ↔ path = []) ∧ Addr.ofTuple (Addr.toTuple path) = some path ∧
      (path.length ≤ 8 * maxStringLen → (Addr.binWrite path).bind Addr.binRead = some path) ∧
      BytesSurvive ledgerDepth l l' t bytes := by
  refine ⟨⟨fun hsurvive => (Addr.ofSexp_sexpOf path).1 hsurvive.sexp, ?_⟩, Addr.ofTuple_toTuple path,
    Addr.binRead_of_binWrite, bytesSurvive hdepth h t bytes⟩
  rintro rfl
  exact ⟨rfl, rfl, bytesSurvive hdepth h t bytes⟩

theorem encodings_survive_iff_root : Location.Fits 3 (.account [true, false, true]) ∧
      ((EncodingsSurvive [] 3 (.account [true, false, true]) (.hash []) (9, [1, 128]) [2, 64] ↔ ([] : Addr) = []) ∧
        Addr.ofTuple (Addr.toTuple []) = some [] ∧
        (([] : Addr).length ≤ 8 * maxStringLen → (Addr.binWrite []).bind Addr.binRead = some []) ∧
        BytesSurvive 3 (.account [true, false, true]) (.hash []) (9, [1, 128]) [2, 64]) :=
  ⟨rfl, encodings_survive_iff [] (.hash []) (9, [1, 128]) [2, 64] (by decide) rfl⟩

/-- The text of the address of the left child of the root is `0`, which is not read. -/
theorem left_child_not_survive :
    ¬ ∀ (path : Addr) (ledgerDepth : Nat) (l l' : Location) (t : Int × Bytes) (bytes : Bytes), ledgerDepth < 254 →
      l.Fits ledgerDepth → EncodingsSurvive path ledgerDepth l l' t bytes := by
  intro h
  have hsexp := (h [false] 1 (.account [false]) (.hash []) (1, [0]) [] (by decide) rfl).sexp
  exact absurd hsexp (by decide)

end Encodings

end MinaProtocol.MerkleLedger
