import Mathlib.Data.List.GetD
import Mathlib.Tactic

/-!
# Base.SignedCommandMemo

Memos of signed commands (`signed_command_memo.ml`): a tag, a length and 32 bytes, which are a digest or a text
with zeros after it; with their base58-check encoding (`base58_check.ml`). Strings are lists of bytes.

Everything that is made from a text or a digest is valid and is read back, also through base58-check and through
bits; but the raw form of a memo with a text of any length above zero is asked for the byte at index -2, and a
raw text is decoded as if it were base58-check.
-/

namespace MinaProtocol.SignedCommandMemo

/-- What can be raised. -/
inductive Exn where
  | indexOutOfBounds
  | tooLongUserMemoInput
  | tooLongDigestibleString
  /-- `"Unknown memo tag %c"`. -/
  | unknownMemoTag (tag : UInt8)
  /-- `"Cannot convert a digest to raw bytes"`. -/
  | digestToRawBytes
  /-- `"String is too long (%d bytes) to Base58Check-encode, max length is %d"`. -/
  | tooLongToEncode (length maxLength : Nat)
  | invalidBase58Character
  | invalidBase58CheckLength
  | invalidBase58Checksum
  | invalidBase58VersionByte (c : UInt8)
deriving DecidableEq

/-! ### Strings -/

variable (s : List UInt8)

/-- `s.[i]`. -/
def charAt (i : Int) : Except Exn UInt8 :=
  if 0 ≤ i ∧ i < s.length then .ok (s.getD i.toNat 0) else .error .indexOutOfBounds

/-- `String.sub`. -/
def sub (pos len : Nat) : Except Exn (List UInt8) :=
  if pos + len ≤ s.length then .ok ((s.drop pos).take len) else .error .indexOutOfBounds

/-- `String.init`. -/
def init (len : Nat) (f : Nat → Except Exn UInt8) : Except Exn (List UInt8) := (List.range len).mapM f

/-! ### Base58-check -/

/-- The functions of other libraries: `Blake2` digests, `SHA256`, and base58 with the alphabet of Bitcoin, which
cannot decode a string with other characters. -/
structure Codecs where
  blake2 : List UInt8 → List UInt8
  sha256 : List UInt8 → List UInt8
  b58Encode : List UInt8 → List UInt8
  b58Decode : List UInt8 → Option (List UInt8)

/-- What is known of them: digests have 32 bytes, and base58 is a bijection, of no characters for no bytes. -/
structure Codecs.Lawful (codecs : Codecs) : Prop where
  length_blake2 : ∀ s, (codecs.blake2 s).length = 32
  length_sha256 : ∀ s, (codecs.sha256 s).length = 32
  decode_encode : ∀ bytes, codecs.b58Decode (codecs.b58Encode bytes) = some bytes
  encode_nil : codecs.b58Encode [] = []

/-- `Version_bytes.user_command_memo`. -/
def versionByte : UInt8 := 0x14

def maxLength : Nat := 8192

def versionLen : Nat := 1

def checksumLen : Nat := 4

section Codec

variable (codecs : Codecs)

/-- `compute_checksum`: `SHA256` twice. -/
def computeChecksum (payload : List UInt8) : Except Exn (List UInt8) :=
  let firstHash := codecs.sha256 ([versionByte] ++ payload)
  let secondHash := codecs.sha256 firstHash
  sub secondHash 0 checksumLen

/-- `Base58_check.encode`. -/
def encode (payload : List UInt8) : Except Exn (List UInt8) :=
  let len := payload.length
  if maxLength < len then .error (.tooLongToEncode len maxLength)
  else do
    let checksum ← computeChecksum codecs payload
    return codecs.b58Encode ([versionByte] ++ payload ++ checksum)

/-- `Base58_check.decode_exn`. -/
def decodeExn (s : List UInt8) : Except Exn (List UInt8) :=
  match codecs.b58Decode s with
  | none => .error .invalidBase58Character
  | some decoded =>
    let len := decoded.length
    -- there must be the version byte and a checksum
    if len < versionLen + checksumLen then .error .invalidBase58CheckLength
    else do
      let checksum ← sub decoded (len - checksumLen) checksumLen
      let payload ← sub decoded 1 (len - versionLen - checksumLen)
      let expected ← computeChecksum codecs payload
      if checksum ≠ expected then .error .invalidBase58Checksum
      else do
        let c ← charAt decoded 0
        if c ≠ versionByte then .error (.invalidBase58VersionByte c) else return payload

/-! ### Memos -/

def maxDigestibleStringLength : Nat := 1000

def digestTag : UInt8 := 0x00

def bytesTag : UInt8 := 0x01

def tagIndex : Nat := 0

def lengthIndex : Nat := 1

/-- `Blake2.digest_size_in_bytes`. -/
def digestLength : Nat := 32

def digestLengthByte : UInt8 := UInt8.ofNat digestLength

/-- With the bytes of the tag and the length. -/
def memoLength : Nat := digestLength + 2

def maxInputLength : Nat := digestLength

variable (memo : List UInt8)

def tag : Except Exn UInt8 := charAt memo tagIndex

def length : Except Exn Nat := (charAt memo lengthIndex).map UInt8.toNat

def isBytes : Except Exn Bool := (tag memo).map (· == bytesTag)

def isDigest : Except Exn Bool := (tag memo).map (· == digestTag)

def isValid : Except Exn Bool :=
  if memo.length = memoLength then do
    let length ← length memo
    if ← isDigest memo then return decide (length = digestLength)
    else do
      let tag ← tag memo
      if tag = bytesTag ∧ length ≤ digestLength then do
        let padded ← sub memo (length + 2) (digestLength - length)
        return padded.all (· == 0x00)
      else return false
  else return false

def createByDigestingStringExn (s : List UInt8) : Except Exn (List UInt8) :=
  if maxDigestibleStringLength < s.length then .error .tooLongDigestibleString
  else
    let digest := codecs.blake2 s
    init memoLength fun ndx =>
      if ndx = tagIndex then .ok digestTag
      else if ndx = lengthIndex then .ok digestLengthByte
      else charAt digest ((ndx : Int) - 2)

/-- `create_from_value_exn`, of strings and of bytes. -/
def createFromValueExn (value : List UInt8) : Except Exn (List UInt8) :=
  let len := value.length
  if maxInputLength < len then .error .tooLongUserMemoInput
  else
    init memoLength fun ndx =>
      if ndx = tagIndex then .ok bytesTag
      else if ndx = lengthIndex then .ok (UInt8.ofNat len)
      else if ndx < len + 2 then charAt value ((ndx : Int) - 2)
      else .ok 0x00

def createFromStringExn (s : List UInt8) : Except Exn (List UInt8) := createFromValueExn s

def toBase58Check : Except Exn (List UInt8) := encode codecs memo

def ofBase58CheckExn (s : List UInt8) : Except Exn (List UInt8) := decodeExn codecs s

/-- `of_base58_check`, whose errors are what `decode_exn` raises. -/
def ofBase58Check (s : List UInt8) : Except Exn (List UInt8) := decodeExn codecs s

inductive Raw where
  | digest (base58Check : List UInt8)
  | bytes (str : List UInt8)
deriving DecidableEq

def toRawExn : Except Exn Raw := do
  let tag ← tag memo
  if tag = digestTag then return .digest (← toBase58Check codecs memo)
  else if tag = bytesTag then do
    let len ← length memo
    -- the two bytes before the text are subtracted, not added
    return .bytes (← init len fun idx => charAt memo ((idx : Int) - 2))
  else .error (.unknownMemoTag tag)

def toRawBytesExn : Except Exn (List UInt8) := do
  match ← toRawExn codecs memo with
  | .digest _ => .error .digestToRawBytes
  | .bytes str => return str

def ofRawExn : Raw → Except Exn (List UInt8)
  | .digest base58Check => ofBase58CheckExn codecs base58Check
  | .bytes str => ofBase58CheckExn codecs str

end Codec

/-- A bit of a string: the lowest of a byte comes first. -/
def bitAt (i : Nat) : Bool := decide (((s.getD (i / 8) 0).toNat >>> (i % 8)) &&& 1 = 1)

/-- `to_bits`, the list of `fold_bits`. -/
def toBits (t : List UInt8) : List Bool := (List.range (8 * t.length)).map (bitAt t)

/-- `"Memo does not contain text bytes"` and `"Memo does not contain a digest"`. -/
inductive Error where
  | noTextBytes
  | noDigest
deriving DecidableEq

def toPlaintext (memo : List UInt8) : Except Exn (Except Error (List UInt8)) := do
  if ← isBytes memo then do
    let length ← length memo
    return .ok (← sub memo 2 length)
  else return .error .noTextBytes

def toDigest (memo : List UInt8) : Except Exn (Except Error (List UInt8)) := do
  if ← isDigest memo then return .ok (← sub memo 2 digestLength) else return .error .noDigest

/-! ### Bits -/

/-- `make_byte`, by how many bits are left of eight. -/
def makeByte (bits : List Bool) (offset : Nat) : Nat → Nat → Nat
  | 0, acc => acc
  | left + 1, acc =>
    let i := 7 - left
    if offset + i < bits.length then makeByte bits offset left (if bits.getD (offset + i) false then acc ||| (1 <<< i) else acc)
    else acc

/-- `Blake2.bits_to_string`; a byte of eight bits is no larger than a character. -/
def bitsToString (bits : List Bool) : List UInt8 :=
  (List.range ((bits.length + 7) / 8)).map fun i => UInt8.ofNat (makeByte bits (8 * i) 8 0)

/-- `Blake2.string_to_bits`. -/
def stringToBits : List Bool := (List.range (8 * s.length)).map (bitAt s)

/-- `length_in_bits`. -/
def lengthInBits : Nat := 8 * memoLength

/-- `typ` to the circuit and back: an array of so many bits. -/
def thereAndBack (t : List UInt8) : Option (List UInt8) :=
  let bits := stringToBits t
  if bits.length = lengthInBits then some (bitsToString bits) else none

/-! ### Reading strings -/

section Strings

variable {s body : List UInt8} {c c₀ c₁ : UInt8} {n : Nat}

theorem charAt_of_lt {i : Nat} (hi : i < s.length) : charAt s i = .ok (s.getD i 0) := by
  rw [charAt, if_pos (by omega), Int.toNat_natCast]

theorem sub_of_le {pos len : Nat} (h : pos + len ≤ s.length) : sub s pos len = .ok ((s.drop pos).take len) := if_pos h

theorem mapM_ok {A B : Type} {f : A → Except Exn B} {g : A → B} {xs : List A} (h : ∀ x ∈ xs, f x = .ok (g x)) : xs.mapM f = .ok (xs.map g) := by
  induction xs with
  | nil => rfl
  | cons x xs ih =>
    rw [List.mapM_cons, h x List.mem_cons_self, ih fun y hy => h y (List.mem_cons_of_mem x hy)]
    rfl

theorem map_getD_range : (List.range s.length).map (s.getD · 0) = s := by
  refine List.ext_getElem (by simp) fun i hi hi' => ?_
  rw [List.getElem_map, List.getElem_range, List.getD_eq_getElem _ _ hi']

/-- A string is made from its characters. -/
theorem init_eq {f : Nat → Except Exn UInt8} (h : ∀ i < s.length, f i = .ok (s.getD i 0)) : init s.length f = .ok s := by
  rw [init, mapM_ok fun i hi => h i (List.mem_range.1 hi), map_getD_range]

@[simp] theorem tag_cons : tag (c :: s) = .ok c := charAt_of_lt (Nat.succ_pos _)

@[simp] theorem length_cons_cons : length (c₀ :: c₁ :: s) = .ok c₁.toNat := by
  rw [length, lengthIndex, charAt_of_lt (by simp)]
  rfl

/-- **What is valid**, for a memo of the right length. -/
theorem isValid_eq (hbody : body.length = 32) : isValid (c₀ :: c₁ :: body) = .ok (if c₀ = 0 then decide (c₁.toNat = 32)
      else decide (c₀ = 1 ∧ c₁.toNat ≤ 32) && (body.drop c₁.toNat).all (· == 0)) := by
  have hlength : (c₀ :: c₁ :: body).length = memoLength := by simp [hbody, memoLength, digestLength]
  have hdigest : isDigest (c₀ :: c₁ :: body) = .ok (c₀ == 0) := by rw [isDigest, tag_cons]; rfl
  rw [isValid, if_pos hlength, length_cons_cons, hdigest, tag_cons]
  by_cases hzero : c₀ = 0
  · rw [if_pos hzero, hzero]
    rfl
  · rw [if_neg hzero]
    by_cases hbytes : c₀ = 1 ∧ c₁.toNat ≤ 32
    · obtain ⟨rfl, hle⟩ := hbytes
      have hsub : sub (1 :: c₁ :: body) (c₁.toNat + 2) (32 - c₁.toNat) = .ok (body.drop c₁.toNat) := by
        rw [sub_of_le (by simp [hbody]; omega), List.drop_succ_cons, List.drop_succ_cons, List.take_of_length_le (by rw [List.length_drop, hbody])]
      simp [hle, hsub, digestLength, bytesTag, bind, Except.bind, pure, Except.pure]
    · simp [hzero, hbytes, digestLength, bytesTag, bind, Except.bind, pure, Except.pure]

/-- **A valid memo** is a digest or a text, padded with zeros. -/
theorem valid_cases (h : isValid s = .ok true) : (∃ digest : List UInt8, digest.length = 32 ∧ s = 0 :: 32 :: digest) ∨
      ∃ text : List UInt8, text.length ≤ 32 ∧ s = 1 :: UInt8.ofNat text.length :: (text ++ List.replicate (32 - text.length) 0) := by
  by_cases hlength : s.length = memoLength
  · obtain ⟨c₀, c₁, body, rfl⟩ : ∃ c₀ c₁ body, s = c₀ :: c₁ :: body := by
      match s, hlength with
      | c₀ :: c₁ :: body, _ => exact ⟨c₀, c₁, body, rfl⟩
    have hbody : body.length = 32 := by simpa [memoLength, digestLength] using hlength
    rw [isValid_eq hbody] at h
    by_cases hzero : c₀ = 0
    · rw [if_pos hzero] at h
      have hc₁ : c₁.toNat = 32 := of_decide_eq_true (Except.ok.inj h)
      refine .inl ⟨body, hbody, ?_⟩
      have hc : c₁ = 32 := UInt8.toNat_inj.1 hc₁
      rw [hzero, hc]
    · rw [if_neg hzero] at h
      have hboth := Except.ok.inj h
      rw [Bool.and_eq_true, decide_eq_true_eq] at hboth
      obtain ⟨⟨rfl, hle⟩, hzeros⟩ := hboth
      have htake : (body.take c₁.toNat).length = c₁.toNat := List.length_take_of_le (hbody ▸ hle)
      have hpad : body.drop c₁.toNat = List.replicate (32 - c₁.toNat) 0 := by
        rw [List.eq_replicate_iff, List.length_drop, hbody]
        exact ⟨rfl, fun c hc => beq_iff_eq.1 (List.all_eq_true.1 hzeros c hc)⟩
      refine .inr ⟨body.take c₁.toNat, htake.trans_le hle, ?_⟩
      rw [htake, ← hpad, List.take_append_drop, UInt8.ofNat_toNat]
  · rw [isValid, if_neg hlength] at h
    exact absurd (Except.ok.inj h) Bool.false_ne_true

end Strings

/-! ### Making memos -/

variable {codecs : Codecs} {text digest : List UInt8}

section Making

variable {s : List UInt8}

theorem createByDigestingStringExn_eq (hlawful : codecs.Lawful) (hs : s.length ≤ 1000) :
    createByDigestingStringExn codecs s = .ok (0 :: 32 :: codecs.blake2 s) := by
  have hlength : (0 :: 32 :: codecs.blake2 s).length = memoLength := by simp [hlawful.length_blake2, memoLength, digestLength]
  rw [createByDigestingStringExn, if_neg (by rw [maxDigestibleStringLength]; omega), ← hlength]
  refine init_eq fun i hi => ?_
  match i with
  | 0 => rfl
  | 1 => rfl
  | i + 2 =>
    have hindex : ((i + 2 : Nat) : Int) - 2 = (i : Nat) := by omega
    rw [if_neg (by simp [tagIndex]), if_neg (by simp [lengthIndex]), hindex, charAt_of_lt (by simpa using hi)]
    rfl

/-- A memo of a text. -/
theorem createFromStringExn_eq (hs : s.length ≤ 32) :
    createFromStringExn s = .ok (1 :: UInt8.ofNat s.length :: (s ++ List.replicate (32 - s.length) 0)) := by
  have hlength : (1 :: UInt8.ofNat s.length :: (s ++ List.replicate (32 - s.length) 0)).length = memoLength := by
    simp [memoLength, digestLength]
    omega
  rw [createFromStringExn, createFromValueExn, if_neg (by rw [maxInputLength, digestLength]; omega), ← hlength]
  refine init_eq fun i hi => ?_
  match i with
  | 0 => rfl
  | 1 => rfl
  | i + 2 =>
    have hindex : ((i + 2 : Nat) : Int) - 2 = (i : Nat) := by omega
    rw [if_neg (by simp [tagIndex]), if_neg (by simp [lengthIndex]), hindex]
    by_cases htext : i < s.length
    · rw [if_pos (by omega), charAt_of_lt htext, List.getD_cons_succ, List.getD_cons_succ, List.getD_append _ _ _ _ htext]
    · rw [if_neg (by omega), List.getD_cons_succ, List.getD_cons_succ, List.getD_append_right _ _ _ _ (Nat.le_of_not_lt htext),
        List.getD_eq_getElem?_getD, List.getElem?_getD_replicate_default_eq]

theorem toNat_ofNat_length (htext : text.length ≤ 32) : (UInt8.ofNat text.length).toNat = text.length := by
  rw [UInt8.toNat_ofNat']
  omega

/-- **A text** is valid and is read back. -/
theorem text_readable (htext : text.length ≤ 32) :
    isValid (1 :: UInt8.ofNat text.length :: (text ++ List.replicate (32 - text.length) 0)) = .ok true ∧
      toPlaintext (1 :: UInt8.ofNat text.length :: (text ++ List.replicate (32 - text.length) 0)) = .ok (.ok text) := by
  have hbody : (text ++ List.replicate (32 - text.length) (0 : UInt8)).length = 32 := by
    rw [List.length_append, List.length_replicate]
    omega
  constructor
  · rw [isValid_eq hbody, toNat_ofNat_length htext, List.drop_left' rfl]
    simp [htext]
  · have hbytes : isBytes (1 :: UInt8.ofNat text.length :: (text ++ List.replicate (32 - text.length) 0)) = .ok true := by
      rw [isBytes, tag_cons]
      rfl
    have hsub : sub (1 :: UInt8.ofNat text.length :: (text ++ List.replicate (32 - text.length) 0)) 2 text.length = .ok text := by
      rw [sub_of_le (by rw [List.length_cons, List.length_cons, hbody]; omega), List.drop_succ_cons, List.drop_succ_cons, List.drop_zero,
        List.take_left' rfl]
    rw [toPlaintext, hbytes, length_cons_cons, toNat_ofNat_length htext]
    change (sub _ 2 text.length >>= _) = _
    rw [hsub]
    rfl

/-- **A digest** is valid and is read back. -/
theorem digest_readable (hdigest : digest.length = 32) :
    isValid (0 :: 32 :: digest) = .ok true ∧ toDigest (0 :: 32 :: digest) = .ok (.ok digest) := by
  constructor
  · rw [isValid_eq hdigest]
    rfl
  · have hsub : sub (0 :: 32 :: digest) 2 digestLength = .ok digest := by
      rw [sub_of_le (by simp [hdigest, digestLength]), List.drop_succ_cons, List.drop_succ_cons, List.drop_zero,
        digestLength, List.take_of_length_le hdigest.le]
    have hkind : isDigest (0 :: 32 :: digest) = .ok true := by rw [isDigest, tag_cons]; rfl
    rw [toDigest, hkind]
    change (sub _ 2 digestLength >>= _) = _
    rw [hsub]
    rfl

end Making

/-! ### Base58-check -/

section Base58

variable {payload : List UInt8}

/-- **What is encoded is decoded.** -/
theorem decodeExn_encode (hlawful : codecs.Lawful) (hlength : payload.length ≤ 8192) :
    ∃ s, encode codecs payload = .ok s ∧ decodeExn codecs s = .ok payload := by
  obtain ⟨checksum, hchecksum, hfour⟩ : ∃ checksum, computeChecksum codecs payload = .ok checksum ∧ checksum.length = 4 := by
    refine ⟨_, sub_of_le (by simp [checksumLen, hlawful.length_sha256]), ?_⟩
    rw [List.drop_zero, List.length_take_of_le (by simp [checksumLen, hlawful.length_sha256])]
    rfl
  refine ⟨codecs.b58Encode ([versionByte] ++ payload ++ checksum), ?_, ?_⟩
  · rw [encode, if_neg (by rw [maxLength]; omega), hchecksum]
    rfl
  · have hlen : ([versionByte] ++ payload ++ checksum).length = payload.length + 5 := by simp [hfour]
    have hpayload : sub ([versionByte] ++ payload ++ checksum) 1 payload.length = .ok payload := by
      rw [sub_of_le (by omega)]
      simp
    have hsum : sub ([versionByte] ++ payload ++ checksum) (payload.length + 1) 4 = .ok checksum := by
      rw [sub_of_le (by omega), List.drop_left' (by simp), List.take_of_length_le hfour.le]
    have hversion : charAt ([versionByte] ++ payload ++ checksum) 0 = .ok versionByte := @charAt_of_lt _ 0 (by omega)
    have hpos : payload.length + 5 - checksumLen = payload.length + 1 := rfl
    have hrest : payload.length + 5 - versionLen - checksumLen = payload.length := rfl
    rw [decodeExn, hlawful.decode_encode]
    dsimp only
    rw [hlen, if_neg (by rw [versionLen, checksumLen]; omega), hpos, hrest, checksumLen, hsum, hpayload]
    change (computeChecksum codecs payload >>= _) = _
    rw [hchecksum]
    change (if checksum ≠ checksum then _ else _) = _
    rw [if_neg (not_not_intro rfl), hversion]
    rfl

end Base58

/-! ### Bits of strings -/

section Bits

variable {s t : List UInt8}

theorem makeByte_eight {bits : List Bool} {offset : Nat} (hlength : offset + 7 < bits.length) {b : Nat → Bool}
    (hb : ∀ i < 8, bits.getD (offset + i) false = b i) :
    makeByte bits offset 8 0 = [0, 1, 2, 3, 4, 5, 6, 7].foldl (fun acc i => if b i then acc ||| (1 <<< i) else acc) 0 := by
  have hstep : ∀ left acc, left < 8 → makeByte bits offset (left + 1) acc =
      makeByte bits offset left (if b (7 - left) then acc ||| (1 <<< (7 - left)) else acc) := by
    intro left acc hleft
    rw [makeByte, if_pos (by omega), hb _ (by omega)]
  simp only [hstep _ _ (by decide : 7 < 8), hstep _ _ (by decide : 6 < 8), hstep _ _ (by decide : 5 < 8), hstep _ _ (by decide : 4 < 8),
    hstep _ _ (by decide : 3 < 8), hstep _ _ (by decide : 2 < 8), hstep _ _ (by decide : 1 < 8), hstep _ _ (by decide : 0 < 8)]
  rfl

set_option maxRecDepth 4000 in
theorem byte_of_bits : ∀ c < 256, [0, 1, 2, 3, 4, 5, 6, 7].foldl
    (fun acc i => if decide ((c >>> i) &&& 1 = 1) then acc ||| (1 <<< i) else acc) 0 = c := by
  decide

/-- **Bits give the string back.** -/
theorem bitsToString_stringToBits : bitsToString (stringToBits s) = s := by
  have hlength : (stringToBits s).length = 8 * s.length := by simp [stringToBits]
  have hbytes : (8 * s.length + 7) / 8 = s.length := by omega
  have hbyte : ∀ i ∈ List.range s.length, UInt8.ofNat (makeByte (stringToBits s) (8 * i) 8 0) = s.getD i 0 := by
    intro i hi
    rw [List.mem_range] at hi
    have hbits : ∀ j < 8, (stringToBits s).getD (8 * i + j) false = decide (((s.getD i 0).toNat >>> j) &&& 1 = 1) := by
      intro j hj
      have hdiv : (8 * i + j) / 8 = i := by omega
      have hmod : (8 * i + j) % 8 = j := by omega
      rw [List.getD_eq_getElem?_getD, stringToBits, List.getElem?_map, List.getElem?_range (by omega), Option.map_some, Option.getD_some,
        bitAt, hdiv, hmod]
    rw [makeByte_eight (by omega) hbits, byte_of_bits _ (s.getD i 0).toNat_lt, UInt8.ofNat_toNat]
  rw [bitsToString, hlength, hbytes, List.map_congr_left hbyte, map_getD_range]

theorem toBits_inj (h : toBits s = toBits t) : s = t := by
  have hs : bitsToString (toBits s) = s := bitsToString_stringToBits
  rw [← hs, h]
  exact bitsToString_stringToBits

theorem thereAndBack_eq (hlength : t.length = memoLength) : thereAndBack t = some t := by
  have hbits : (stringToBits t).length = lengthInBits := by simp [stringToBits, hlength, lengthInBits]
  rw [thereAndBack, if_pos hbits, bitsToString_stringToBits]

end Bits

/-! ### What survives -/

section Survives

variable {s m : List UInt8}

theorem init_error {len : Nat} {f : Nat → Except Exn UInt8} {e : Exn} (hlen : 0 < len) (hf : f 0 = .error e) : init len f = .error e := by
  obtain ⟨len, rfl⟩ := Nat.exists_eq_succ_of_ne_zero hlen.ne'
  rw [init, List.range_succ_eq_map, List.mapM_cons, hf]
  rfl

theorem toRawExn_text (htext : text.length ≤ 32) :
    toRawExn codecs (1 :: UInt8.ofNat text.length :: (text ++ List.replicate (32 - text.length) 0)) =
      if text = [] then .ok (.bytes []) else .error .indexOutOfBounds := by
  rw [toRawExn, tag_cons]
  change (length _ >>= _) = _
  rw [length_cons_cons, toNat_ofNat_length htext]
  change (init text.length _ >>= _) = _
  split_ifs with hnil
  · rw [hnil]
    rfl
  · rw [init_error (List.length_pos_of_ne_nil hnil) rfl]
    rfl

theorem decodeExn_nil (hlawful : codecs.Lawful) : decodeExn codecs [] = .error .invalidBase58CheckLength := by
  have hnil : codecs.b58Decode [] = some [] := by
    have hdecode := hlawful.decode_encode []
    rwa [hlawful.encode_nil] at hdecode
  rw [decodeExn, hnil]
  rfl

theorem toRawBytesExn_text (htext : text.length ≤ 32) :
    toRawBytesExn codecs (1 :: UInt8.ofNat text.length :: (text ++ List.replicate (32 - text.length) 0)) = .ok text ↔ text = [] := by
  rw [toRawBytesExn, toRawExn_text htext]
  split_ifs with hnil
  · rw [hnil]
    exact iff_of_true rfl rfl
  · exact iff_of_false (by simp [bind, Except.bind]) hnil

theorem not_ofRawExn_text (hlawful : codecs.Lawful) (htext : text.length ≤ 32) {raw : Raw}
    (hraw : toRawExn codecs (1 :: UInt8.ofNat text.length :: (text ++ List.replicate (32 - text.length) 0)) = .ok raw) :
    ofRawExn codecs raw = .error .invalidBase58CheckLength := by
  rw [toRawExn_text htext] at hraw
  split_ifs at hraw
  obtain rfl := Except.ok.inj hraw
  exact decodeExn_nil hlawful

theorem toRawExn_digest (hlawful : codecs.Lawful) (hdigest : digest.length = 32) :
    ∃ raw, toRawExn codecs (0 :: 32 :: digest) = .ok raw ∧ ofRawExn codecs raw = .ok (0 :: 32 :: digest) := by
  obtain ⟨s, hs, hdecode⟩ : ∃ s, encode codecs (0 :: 32 :: digest) = .ok s ∧ decodeExn codecs s = .ok (0 :: 32 :: digest) :=
    decodeExn_encode hlawful (by simp [hdigest])
  refine ⟨.digest s, ?_, hdecode⟩
  rw [toRawExn, tag_cons]
  change (encode codecs _ >>= _) = _
  rw [hs]
  rfl

theorem length_of_valid (h : isValid m = .ok true) : m.length = memoLength := by
  by_contra hlength
  rw [isValid, if_neg hlength] at h
  exact Bool.false_ne_true (Except.ok.inj h)

/-- **Which memos survive.** Texts and digests are valid memos and are read back as plain text and as digests, and every
valid memo is given back by base58-check and by the circuit's bits, which are those of no other one; the raw form gives
the text back for the empty one alone, and the memo for digests alone. -/
theorem memos_survive_iff (codecs : Codecs) (hlawful : codecs.Lawful) :
    (∀ s : List UInt8, s.length ≤ 32 → ∃ m, createFromStringExn s = .ok m ∧ isValid m = .ok true ∧ toPlaintext m = .ok (.ok s) ∧
      (toRawBytesExn codecs m = .ok s ↔ s = [])) ∧
    (∀ s : List UInt8, s.length ≤ 1000 → ∃ m, createByDigestingStringExn codecs s = .ok m ∧ isValid m = .ok true ∧
      toDigest m = .ok (.ok (codecs.blake2 s))) ∧
    (∀ m, isValid m = .ok true → (∃ s, toBase58Check codecs m = .ok s ∧ ofBase58Check codecs s = .ok m) ∧ thereAndBack m = some m ∧
      ((∃ raw, toRawExn codecs m = .ok raw ∧ ofRawExn codecs raw = .ok m) ↔ isDigest m = .ok true)) ∧
    ∀ m m', isValid m = .ok true → isValid m' = .ok true → m ≠ m' → toBits m ≠ toBits m' := by
  refine ⟨fun s hs => ?_, fun s hs => ?_, fun m hm => ⟨?_, thereAndBack_eq (length_of_valid hm), ?_⟩, fun m m' _ _ hne heq => hne (toBits_inj heq)⟩
  · obtain ⟨hvalid, hplain⟩ := text_readable hs
    exact ⟨_, createFromStringExn_eq hs, hvalid, hplain, toRawBytesExn_text hs⟩
  · obtain ⟨hvalid, hdigest⟩ := digest_readable (hlawful.length_blake2 s)
    exact ⟨_, createByDigestingStringExn_eq hlawful hs, hvalid, hdigest⟩
  · exact decodeExn_encode hlawful (by rw [length_of_valid hm]; decide)
  · obtain ⟨digest, hdigest, rfl⟩ | ⟨text, htext, rfl⟩ := valid_cases hm
    · refine iff_of_true (toRawExn_digest hlawful hdigest) ?_
      rw [isDigest, tag_cons]
      rfl
    · refine iff_of_false ?_ ?_
      · rintro ⟨raw, hraw, hback⟩
        rw [not_ofRawExn_text hlawful htext hraw] at hback
        cases hback
      · rw [isDigest, tag_cons]
        exact fun h => Bool.false_ne_true (Except.ok.inj h)

end Survives

/-! ### The memo of the empty string's digest -/

/-- `Blake2` of no bytes. -/
def emptyDigest : List UInt8 :=
  [14, 87, 81, 192, 38, 229, 67, 178, 232, 171, 46, 176, 96, 153, 218, 161, 209, 229, 223, 71, 119, 143, 119, 135, 250, 171,
    69, 205, 241, 47, 227, 168]

/-- `SHA256` of the version byte and the memo with this digest, and `SHA256` of that. -/
def firstSha256 : List UInt8 :=
  [188, 126, 45, 55, 3, 105, 56, 72, 34, 126, 164, 66, 75, 4, 72, 103, 197, 219, 82, 61, 133, 66, 100, 9, 231, 232, 107, 56,
    102, 37, 217, 171]

def secondSha256 : List UInt8 :=
  [102, 33, 21, 6, 182, 244, 224, 71, 232, 81, 125, 236, 251, 104, 223, 104, 99, 123, 71, 44, 56, 195, 137, 223, 2, 25, 66,
    155, 220, 238, 177, 240]

/-- The memo with its version and checksum, and in base58. -/
def dummyChecked : List UInt8 := [versionByte, 0, 32] ++ emptyDigest ++ secondSha256.take checksumLen

/-- `"E4QqiVG8rCzSPqdgMPUP59hA8yMWV6m8YSYGSYBAofr6mLp16UFnM"`. -/
def dummyBase58 : List UInt8 :=
  [69, 52, 81, 113, 105, 86, 71, 56, 114, 67, 122, 83, 80, 113, 100, 103, 77, 80, 85, 80, 53, 57, 104, 65, 56, 121, 77, 87,
    86, 54, 109, 56, 89, 83, 89, 71, 83, 89, 66, 65, 111, 102, 114, 54, 109, 76, 112, 49, 54, 85, 70, 110, 77]

/-- Change these two strings for each other. -/
def exchange : List UInt8 := if s = dummyChecked then dummyBase58 else if s = dummyBase58 then dummyChecked else s

theorem exchange_exchange : exchange (exchange s) = s := by
  have hne : dummyBase58 ≠ dummyChecked := by decide
  by_cases hchecked : s = dummyChecked
  · rw [hchecked]
    decide
  · by_cases hbase58 : s = dummyBase58
    · rw [hbase58]
      decide
    · have hsame : exchange s = s := by rw [exchange, if_neg hchecked, if_neg hbase58]
      rw [hsame, hsame]

/-- Codecs that are right about this memo. -/
def dummyCodecs : Codecs where
  blake2 s := if s = [] then emptyDigest else List.replicate 32 0
  sha256 s := if s = [versionByte, 0, 32] ++ emptyDigest then firstSha256 else if s = firstSha256 then secondSha256 else List.replicate 32 0
  b58Encode := exchange
  b58Decode s := some (exchange s)

theorem dummyCodecs_lawful : dummyCodecs.Lawful where
  length_blake2 s := by
    simp only [dummyCodecs]
    split_ifs <;> rfl
  length_sha256 s := by
    simp only [dummyCodecs]
    split_ifs <;> rfl
  decode_encode bytes := congrArg some (exchange_exchange bytes)
  encode_nil := by decide

/-- The digest survives and the text `"hi"` does not. -/
theorem memos_survive_iff_dummy : (∃ m, createByDigestingStringExn dummyCodecs [] = .ok m ∧
      ((∃ raw, toRawExn dummyCodecs m = .ok raw ∧ ofRawExn dummyCodecs raw = .ok m) ↔ isDigest m = .ok true)) ∧
    ∃ m, createFromStringExn [104, 105] = .ok m ∧ toRawBytesExn dummyCodecs m ≠ .ok [104, 105] := by
  obtain ⟨htext, hdigest, hmemo, -⟩ := memos_survive_iff dummyCodecs dummyCodecs_lawful
  obtain ⟨m, hm, hvalid, -⟩ := hdigest [] (by decide)
  obtain ⟨m', hm', -, -, hraw⟩ := htext [104, 105] (by decide)
  exact ⟨⟨m, hm, (hmemo m hvalid).2.2⟩, m', hm', fun h => absurd (hraw.1 h) (by decide)⟩

/-- The text `"hi"` makes a valid memo whose raw form raises; that of the empty text is not read back. -/
theorem text_not_raw :
    (∃ m, createFromStringExn [104, 105] = .ok m ∧ isValid m = .ok true ∧ toPlaintext m = .ok (.ok [104, 105]) ∧
      toRawBytesExn dummyCodecs m = .error .indexOutOfBounds) ∧
    ∃ m, createFromStringExn [] = .ok m ∧ isValid m = .ok true ∧ toRawExn dummyCodecs m = .ok (.bytes []) ∧
      ofRawExn dummyCodecs (.bytes []) = .error .invalidBase58CheckLength := by
  refine ⟨⟨_, createFromStringExn_eq (by decide), ?_⟩, _, createFromStringExn_eq (by decide), ?_⟩ <;> decide

end MinaProtocol.SignedCommandMemo
