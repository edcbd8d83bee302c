import MinaProtocol.Lib.FoldMap
import MinaProtocol.Lib.Outcome
import MinaProtocol.RandomOracleInput.Packing

/-!
# RandomOracleInput.Coding

Legacy inputs as bytes, for signers outside of the node (`Coding` and `Coding2` of `random_oracle_input.ml`). Both
counts are four bytes, field elements are as many bytes as their bits fill, and the bits are packed eight to a
byte, whatever bitstrings they come from; the bits are read back from all the bytes that are left, as many as the
count says.
-/

namespace MinaProtocol.RandomOracleInput.Legacy

variable {A B E : Type}

section Bytes

/-! ### Bits in bytes -/

/-- `go`: the number with these bits, the first one being the highest. -/
def bitsToInt (bits : List Bool) : Nat := bits.foldl (fun acc b => acc * 2 + b.toNat) 0

/-- `Char.of_int_exn`, where `none` is a raise. -/
def charOfInt (n : Nat) : Option UInt8 := if n < 256 then some (UInt8.ofNat n) else none

/-- Up to eight bits, padded at the end; of more than eight `List.init` raises. -/
def packByte (toBool : B → Bool) (ofBool : Bool → B) (bits : List B) : Option UInt8 :=
  if bits.length ≤ 8 then
    let pad := List.replicate (8 - bits.length) (ofBool false)
    charOfInt (bitsToInt ((bits ++ pad).map toBool))
  else none

/-- What `bits_of_byte` makes of an integer. -/
def boolOfInt : Nat → Option Bool
  | 0 => some false
  | 1 => some true
  | _ => none

/-- `bits_of_byte`. -/
def bitsOfByte (ofBool : Bool → B) (b : UInt8) : Option (List B) :=
  [7, 6, 5, 4, 3, 2, 1, 0].mapM fun i => (boolOfInt ((b.toNat &&& (1 <<< i)) >>> i)).map ofBool

/-- `List.chunks_of`, for a positive length. -/
def chunksOf (length : Nat) (xs : List A) : List (List A) :=
  if 0 < length ∧ xs ≠ [] then xs.take length :: chunksOf length (xs.drop length) else []
termination_by xs.length
decreasing_by
  rename_i h
  rw [List.length_drop]
  have := List.length_pos_of_ne_nil h.2
  omega

/-! ### Writing -/

def lenToString (x : Nat) : List UInt8 :=
  [UInt8.ofNat ((x >>> 24) &&& 0xff), UInt8.ofNat ((x >>> 16) &&& 0xff), UInt8.ofNat ((x >>> 8) &&& 0xff), UInt8.ofNat (x &&& 0xff)]

/-- `Coding.serialize`, where `none` is an assertion that fails. -/
def serialize {F : Type} (stringOfField : F → Option (List UInt8)) (toBool : B → Bool) (ofBool : Bool → B) (t : Legacy F B) :
    Option (List UInt8) := do
  let len₁ := lenToString t.fieldElements.length
  -- only fields of 32 bytes are supported, and the first one is looked at
  match t.fieldElements with
  | [] => pure ()
  | field :: _ => do
    let s ← stringOfField field
    guard (s.length = 32)
  let fields ← t.fieldElements.mapM stringOfField
  let len₂ := lenToString (t.bitstrings.map List.length).sum
  let packed ← (packBits 8 (packByte toBool ofBool) t).mapM id
  return len₁ ++ fields.flatten ++ len₂ ++ packed.reverse

/-- `string_of_field`. -/
def stringOfField (xs : List Bool) : Option (List UInt8) := (chunksOf 8 xs).mapM (packByte id id)

/-! ### Parsing -/

/-- Why parsing fails; a field element can be refused for its own reason. -/
inductive ParseError (E : Type) where
  | unexpectedEof
  | expectedEof
  | field (e : E)
deriving DecidableEq

/-- `Parser.t`. A parser that would not end counts as one that raises. -/
abbrev Parser (E A : Type) := List UInt8 → Outcome (ParseError E) (A × List UInt8)

namespace Parser

protected def bind (t : Parser E A) (f : A → Parser E B) : Parser E B := fun cs =>
  (t cs).bind fun p => f p.1 p.2

def u8 : Parser E UInt8
  | c :: cs => .ok (c, cs)
  | [] => .error .unexpectedEof

def u32 : Parser E Nat :=
  Parser.bind u8 fun a => Parser.bind u8 fun b => Parser.bind u8 fun c => Parser.bind u8 fun d => fun cs =>
    .ok ((a.toNat <<< 24) ||| (b.toNat <<< 16) ||| (c.toNat <<< 8) ||| d.toNat, cs)

def take (n : Nat) : Parser E (List UInt8) := fun cs =>
  if cs.length < n then .error .unexpectedEof else .ok (cs.take n, cs.drop n)

/-- The loop of `many`, which does not end if the parser takes nothing. -/
def manyFrom (p : Parser E A) (xs : List UInt8) (acc : List A) : Outcome (ParseError E) (List A × List UInt8) :=
  match p xs with
  | .ok (a, xs') => if xs'.length < xs.length then manyFrom p xs' (a :: acc) else .raise
  | .error _ => .ok (acc, xs)
  | .raise => .raise
termination_by xs.length

def many (p : Parser E A) : Parser E (List A) := Parser.bind (fun cs => manyFrom p cs []) fun acc cs => .ok (acc.reverse, cs)

/-- The loop of `exactly`. -/
def exactlyFrom (p : Parser E A) : Nat → List UInt8 → List A → Outcome (ParseError E) (List A × List UInt8)
  | 0, xs, acc => .ok (acc, xs)
  | i + 1, xs, acc => (p xs).bind fun q => exactlyFrom p i q.2 (q.1 :: acc)

def exactly (n : Nat) (p : Parser E A) : Parser E (List A) :=
  Parser.bind (fun cs => exactlyFrom p n cs []) fun acc cs => .ok (acc.reverse, cs)

def run (p : Parser E A) (cs : List UInt8) : Outcome (ParseError E) A :=
  (p cs).bind fun q => if q.2 = [] then .ok q.1 else .error .expectedEof

end Parser

/-! ### Reading -/

/-- The parser of a field element. -/
def field {F : Type} (fieldOfString : List UInt8 → Outcome E F) : Parser E F :=
  Parser.bind (Parser.take 32) fun s cs => ((fieldOfString s).mapError ParseError.field).bind fun x => .ok (x, cs)

/-- The parser of an input. -/
def parser {F : Type} (fieldOfString : List UInt8 → Outcome E F) (ofBool : Bool → B) : Parser E (Legacy F B) :=
  Parser.bind Parser.u32 fun len₁ => Parser.bind (Parser.exactly len₁ (field fieldOfString)) fun fields =>
    Parser.bind Parser.u32 fun len₂ => Parser.bind (Parser.many Parser.u8) fun bytes cs =>
      (Outcome.ofOption (bytes.mapM (bitsOfByte ofBool))).bind fun bits =>
        .ok (⟨fields, [bits.flatten.take len₂]⟩, cs)

/-- `Coding.deserialize`. -/
def deserialize {F : Type} (fieldOfString : List UInt8 → Outcome E F) (ofBool : Bool → B) (s : List UInt8) :
    Outcome (ParseError E) (Legacy F B) :=
  Parser.run (parser fieldOfString ofBool) s

/-- `field_of_string`. -/
def fieldOfString (sizeInBits : Nat) (s : List UInt8) : Outcome E (List Bool) :=
  (Outcome.ofOption (s.mapM (bitsOfByte id))).bind fun bits => .ok (bits.flatten.take sizeInBits)

end Bytes

/-! ### Bits and bytes -/

section Bits

theorem bitsOfByte_of_eight : ∀ b₇ b₆ b₅ b₄ b₃ b₂ b₁ b₀ : Bool, bitsToInt [b₇, b₆, b₅, b₄, b₃, b₂, b₁, b₀] < 256 ∧
    bitsOfByte id (UInt8.ofNat (bitsToInt [b₇, b₆, b₅, b₄, b₃, b₂, b₁, b₀])) = some [b₇, b₆, b₅, b₄, b₃, b₂, b₁, b₀] := by
  decide

/-- **A byte of up to eight bits** is read as these bits and their padding. -/
theorem packByte_spec {bits : List Bool} (hlength : bits.length ≤ 8) :
    ∃ b, packByte id id bits = some b ∧ bitsOfByte id b = some (bits ++ List.replicate (8 - bits.length) false) := by
  have height : (bits ++ List.replicate (8 - bits.length) false).length = 8 := by
    rw [List.length_append, List.length_replicate]
    omega
  have hpack : packByte id id bits = charOfInt (bitsToInt (bits ++ List.replicate (8 - bits.length) false)) := by
    rw [packByte, if_pos hlength]
    exact congrArg (fun combined => charOfInt (bitsToInt combined)) (List.map_id _)
  rw [hpack]
  generalize bits ++ List.replicate (8 - bits.length) false = combined at height
  match combined, height with
  | [b₇, b₆, b₅, b₄, b₃, b₂, b₁, b₀], _ =>
    obtain ⟨hlt, hbits⟩ := bitsOfByte_of_eight b₇ b₆ b₅ b₄ b₃ b₂ b₁ b₀
    exact ⟨_, if_pos hlt, hbits⟩

/-- **Groups of eight bits** become as many bytes, which give the bits back with less than a byte of padding. -/
theorem mapM_packByte_spec {groups : List (List Bool)} (hcut : IsCut 8 groups) :
    ∃ (s : List UInt8) (bits : List (List Bool)) (pad : List Bool), groups.mapM (packByte id id) = some s ∧
      s.mapM (bitsOfByte id) = some bits ∧ bits.flatten = groups.flatten ++ pad ∧ pad.length < 8 ∧
      8 * s.length = groups.flatten.length + pad.length := by
  induction groups with
  | nil => exact ⟨[], [], [], rfl, rfl, rfl, by decide, rfl⟩
  | cons group groups ih =>
    cases groups with
    | nil =>
      obtain ⟨hne, hle⟩ := hcut
      obtain ⟨b, hb, hbits⟩ := packByte_spec hle
      have hpos := List.length_pos_of_ne_nil hne
      refine ⟨[b], [group ++ List.replicate (8 - group.length) false], List.replicate (8 - group.length) false, ?_, ?_, ?_, ?_, ?_⟩
      · simp [hb]
      · simp [hbits]
      · simp
      · rw [List.length_replicate]
        omega
      · rw [List.flatten_singleton, List.length_replicate, List.length_singleton]
        omega
    | cons next groups =>
      obtain ⟨hgroup, hcut⟩ := hcut
      obtain ⟨b, hb, hbits⟩ := packByte_spec hgroup.le
      obtain ⟨s, bits, pad, hs, hread, hflatten, hpad, hlength⟩ := ih hcut
      rw [hgroup, Nat.sub_self, List.replicate_zero, List.append_nil] at hbits
      refine ⟨b :: s, group :: bits, pad, ?_, ?_, ?_, hpad, ?_⟩
      · rw [List.mapM_cons, hb, hs]
        rfl
      · rw [List.mapM_cons, hbits, hread]
        rfl
      · rw [List.flatten_cons, hflatten, List.flatten_cons (l := group), List.append_assoc]
      · rw [List.length_cons, Nat.mul_add, hlength, List.flatten_cons (l := group), List.length_append, hgroup]
        omega

theorem boolOfInt_bit (n i : Nat) : ∃ b, boolOfInt ((n &&& (1 <<< i)) >>> i) = some b := by
  have hbit : (n &&& (1 <<< i)) >>> i = n / 2 ^ i % 2 := by
    rw [Nat.shiftRight_and_distrib, Nat.shiftLeft_shiftRight, Nat.and_one_is_mod, Nat.shiftRight_eq_div_pow]
  rw [hbit]
  rcases Nat.mod_two_eq_zero_or_one (n / 2 ^ i) with h | h
  · exact ⟨false, by rw [h]; rfl⟩
  · exact ⟨true, by rw [h]; rfl⟩

theorem exists_mapM_of_forall {A B : Type} {f : A → Option B} {xs : List A} (h : ∀ x ∈ xs, ∃ y, f x = some y) :
    ∃ ys, xs.mapM f = some ys := by
  obtain ⟨ys, hys, -⟩ := exists_mapM (P := fun _ _ => True) fun x hx => (h x hx).imp fun _ hy => ⟨hy, trivial⟩
  exact ⟨ys, hys⟩

theorem exists_bitsOfByte {B : Type} (ofBool : Bool → B) (s : List UInt8) : ∃ bits, s.mapM (bitsOfByte ofBool) = some bits := by
  refine exists_mapM_of_forall fun b _ => exists_mapM_of_forall fun i _ => ?_
  obtain ⟨bit, hbit⟩ := boolOfInt_bit b.toNat i
  exact ⟨ofBool bit, by rw [hbit]; rfl⟩

theorem chunksOf_spec {A : Type} {length : Nat} (hlength : 0 < length) (xs : List A) :
    (chunksOf length xs).flatten = xs ∧ IsCut length (chunksOf length xs) := by
  fun_induction chunksOf length xs with
  | case1 xs h ih =>
    obtain ⟨hflatten, hcut⟩ := ih
    refine ⟨by rw [List.flatten_cons, hflatten, List.take_append_drop], ?_⟩
    cases hrest : chunksOf length (xs.drop length) with
    | nil =>
      refine ⟨fun hnil => ?_, List.length_take_le _ _⟩
      rcases List.take_eq_nil_iff.1 hnil with hzero | hxs
      · exact hlength.ne' hzero
      · exact h.2 hxs
    | cons next rest =>
      rw [hrest] at hcut hflatten
      refine ⟨List.length_take_of_le ?_, hcut⟩
      -- something is left, so that the group is full
      by_contra hshort
      rw [List.drop_eq_nil_of_le (by omega), List.flatten_cons] at hflatten
      have hnext : next ≠ [] := by
        cases rest with
        | nil => exact hcut.1
        | cons next' rest => exact List.ne_nil_of_length_pos (hcut.1 ▸ hlength)
      exact hnext (List.append_eq_nil_iff.1 hflatten).1
  | case2 xs h =>
    obtain rfl : xs = [] := by
      by_contra hne
      exact h ⟨hlength, hne⟩
    exact ⟨rfl, trivial⟩

/-- **A field element of 255 bits** is 32 bytes, and is read back from them. -/
theorem stringOfField_spec {E : Type} {x : List Bool} (hx : x.length = 255) :
    ∃ s, stringOfField x = some s ∧ s.length = 32 ∧ fieldOfString 255 s = (.ok x : Outcome E (List Bool)) := by
  obtain ⟨hflatten, hcut⟩ := chunksOf_spec (by decide : 0 < 8) x
  obtain ⟨s, bits, pad, hs, hread, hbits, hpad, hlength⟩ := mapM_packByte_spec hcut
  rw [hflatten] at hbits hlength
  refine ⟨s, hs, by omega, ?_⟩
  rw [fieldOfString, hread, Outcome.ofOption_some]
  refine congrArg Outcome.ok ?_
  rw [hbits, List.take_append_of_le_length hx.ge, List.take_of_length_le hx.le]

end Bits

/-! ### The parsers -/

variable {F : Type} {cs : List UInt8}

section Parsers

variable {x : A}

theorem bind_eq_ok {B : Type} {p : Parser E A} {f : A → Parser E B} {y : B × List UInt8} (h : Parser.bind p f cs = .ok y) :
    ∃ q, p cs = .ok q ∧ f q.1 q.2 = .ok y :=
  Outcome.bind_ok_iff.1 h

/-- Four bytes hold a count. -/
theorem u32_lenToString {n : Nat} (hn : n < 2 ^ 32) : Parser.u32 (lenToString n ++ cs) = (.ok (n, cs) : Outcome (ParseError E) _) := by
  have hbyte : ∀ m : Nat, (UInt8.ofNat (m &&& 0xff)).toNat = m % 2 ^ 8 := by
    intro m
    rw [UInt8.toNat_ofNat', Nat.and_two_pow_sub_one_eq_mod m 8, Nat.mod_mod]
  have hlow : (n >>> 8 % 2 ^ 8) <<< 8 ||| n % 2 ^ 8 = n % 2 ^ 16 := by
    rw [← Nat.shiftLeft_add_eq_or_of_lt (by omega), Nat.shiftLeft_eq, Nat.shiftRight_eq_div_pow]
    omega
  have hmiddle : (n >>> 16 % 2 ^ 8) <<< 16 ||| n % 2 ^ 16 = n % 2 ^ 24 := by
    rw [← Nat.shiftLeft_add_eq_or_of_lt (by omega), Nat.shiftLeft_eq, Nat.shiftRight_eq_div_pow]
    omega
  have hhigh : (n >>> 24 % 2 ^ 8) <<< 24 ||| n % 2 ^ 24 = n := by
    rw [← Nat.shiftLeft_add_eq_or_of_lt (by omega), Nat.shiftLeft_eq, Nat.shiftRight_eq_div_pow]
    omega
  have hparse : Parser.u32 (lenToString n ++ cs) = (.ok (_, cs) : Outcome (ParseError E) _) := rfl
  rw [hparse, hbyte, hbyte, hbyte, hbyte, Nat.or_assoc, Nat.or_assoc, hlow, hmiddle, hhigh]

/-- `many` of single bytes takes all that there are. -/
theorem manyFrom_u8 {acc : List UInt8} : Parser.manyFrom Parser.u8 cs acc = (.ok (cs.reverse ++ acc, []) : Outcome (ParseError E) _) := by
  induction cs generalizing acc with
  | nil => rw [Parser.manyFrom, Parser.u8]; rfl
  | cons c cs ih =>
    rw [Parser.manyFrom, Parser.u8]
    dsimp only
    rw [if_pos (by simp), ih, List.reverse_cons, List.append_assoc]
    rfl

theorem many_u8 : Parser.many Parser.u8 cs = (.ok (cs, []) : Outcome (ParseError E) _) := by
  have hmany : Parser.many Parser.u8 cs = ((Parser.manyFrom Parser.u8 cs []).bind fun q => .ok (q.1.reverse, q.2) : Outcome (ParseError E) _) := rfl
  rw [hmany, manyFrom_u8, Outcome.bind, List.append_nil, List.reverse_reverse]

end Parsers

/-! ### What is written is read -/

section RoundTrip

variable {write : F → Option (List UInt8)} {read : List UInt8 → Outcome E F} {ss : List (List UInt8)}
  {fields : List F}

variable (hread : ∀ x ∈ fields, ∀ s, write x = some s → s.length = 32 ∧ read s = .ok x)

include hread

theorem exactlyFrom_field {acc : List F} (hss : fields.mapM write = some ss) :
    Parser.exactlyFrom (field read) fields.length (ss.flatten ++ cs) acc = .ok (fields.reverse ++ acc, cs) := by
  induction fields generalizing ss acc with
  | nil =>
    obtain rfl : [] = ss := Option.some.inj hss
    rfl
  | cons x fields ih =>
    rw [List.mapM_cons] at hss
    obtain ⟨s, hs, hss⟩ := Option.bind_eq_some_iff.1 hss
    obtain ⟨rest, hrest, hss⟩ := Option.bind_eq_some_iff.1 hss
    obtain rfl := Option.some.inj hss
    obtain ⟨hlength, hx⟩ := hread x List.mem_cons_self s hs
    have htake : (field read) (s ++ (rest.flatten ++ cs)) = .ok (x, rest.flatten ++ cs) := by
      rw [field, Parser.bind, Parser.take, if_neg (by rw [List.length_append]; omega), Outcome.bind, List.take_left' hlength,
        List.drop_left' hlength]
      dsimp only
      rw [hx]
      rfl
    rw [List.length_cons, List.flatten_cons, List.append_assoc, Parser.exactlyFrom, htake, Outcome.bind, ih (fun x hx => hread x (List.mem_cons_of_mem _ hx)) hrest,
      List.reverse_cons, List.append_assoc]
    rfl

/-- **The parser of an input** on what has the shape of one. -/
theorem deserialize_eq
    (hss : fields.mapM write = some ss) (hfields : fields.length < 2 ^ 32) {count : Nat} (hcount : count < 2 ^ 32)
    {ofBool : Bool → B} {packed : List UInt8} {bits : List (List B)} (hbits : packed.mapM (bitsOfByte ofBool) = some bits) :
    deserialize read ofBool (lenToString fields.length ++ ss.flatten ++ lenToString count ++ packed) = .ok ⟨fields, [bits.flatten.take count]⟩ := by
  have hexactly : Parser.exactly fields.length (field read) (ss.flatten ++ (lenToString count ++ packed)) =
      .ok (fields, lenToString count ++ packed) := by
    rw [Parser.exactly, Parser.bind, exactlyFrom_field hread hss, Outcome.bind, List.append_nil, List.reverse_reverse]
  rw [deserialize, Parser.run, parser, Parser.bind, List.append_assoc, List.append_assoc, u32_lenToString hfields]
  simp only [Outcome.bind, Parser.bind, hexactly, u32_lenToString hcount, many_u8, hbits, Outcome.ofOption_some, if_true]

omit hread

end RoundTrip

/-! ### Whatever is read -/

section Total

variable {read : List UInt8 → Outcome E F} {rest : List UInt8} {n : Nat} {p : Parser E A}

theorem ok_ne_raise {a : A} : (.ok a : Outcome E A) ≠ .raise := by simp

theorem error_ne_raise {e : E} : (.error e : Outcome E A) ≠ .raise := by simp

theorem bind_ne_raise {B : Type} {f : A → Parser E B} (hp : p cs ≠ .raise) (hf : ∀ a cs, f a cs ≠ .raise) :
    Parser.bind p f cs ≠ .raise :=
  Outcome.bind_ne_raise hp fun q _ => hf q.1 q.2

theorem u8_ne_raise : Parser.u8 cs ≠ (.raise : Outcome (ParseError E) _) := by
  cases cs with
  | nil => exact error_ne_raise
  | cons c cs => exact ok_ne_raise

theorem u32_ne_raise : Parser.u32 cs ≠ (.raise : Outcome (ParseError E) _) :=
  bind_ne_raise u8_ne_raise fun _ _ => bind_ne_raise u8_ne_raise fun _ _ => bind_ne_raise u8_ne_raise fun _ _ =>
    bind_ne_raise u8_ne_raise fun _ _ => ok_ne_raise

theorem field_ne_raise (hread : ∀ s, read s ≠ .raise) : field read cs ≠ .raise := by
  refine bind_ne_raise ?_ fun s cs => Outcome.bind_ne_raise (Outcome.mapError_ne_raise.2 (hread s)) fun x _ => ok_ne_raise
  rw [Parser.take]
  split_ifs
  · exact error_ne_raise
  · exact ok_ne_raise

theorem exactlyFrom_ne_raise (hp : ∀ cs, p cs ≠ .raise) {acc : List A} : Parser.exactlyFrom p n cs acc ≠ .raise := by
  induction n generalizing cs acc with
  | zero => exact ok_ne_raise
  | succ n ih => exact Outcome.bind_ne_raise (hp cs) fun q _ => ih

/-- **Parsing ends** with an input or an error. -/
theorem deserialize_ne_raise (hread : ∀ s, read s ≠ .raise) (ofBool : Bool → B) (s : List UInt8) : deserialize read ofBool s ≠ .raise := by
  have hparser : parser read ofBool s ≠ .raise := by
    refine bind_ne_raise u32_ne_raise fun len₁ cs => bind_ne_raise ?_ fun fields cs => bind_ne_raise u32_ne_raise fun len₂ cs => ?_
    · exact bind_ne_raise (exactlyFrom_ne_raise fun cs => field_ne_raise hread) fun acc cs => ok_ne_raise
    · obtain ⟨bits, hbits⟩ := exists_bitsOfByte ofBool cs
      rw [Parser.bind, many_u8, Outcome.bind, hbits]
      exact ok_ne_raise
  refine Outcome.bind_ne_raise hparser fun q _ => ?_
  split_ifs
  · exact ok_ne_raise
  · exact error_ne_raise

theorem length_of_field {x : F} (h : field read cs = .ok (x, rest)) : ∃ s, cs = s ++ rest ∧ s.length = 32 := by
  obtain ⟨⟨s, cs'⟩, htake, h⟩ := bind_eq_ok h
  rw [Parser.take] at htake
  split_ifs at htake with hlength
  obtain ⟨rfl, rfl⟩ := Prod.mk.inj (Outcome.ok.inj htake)
  obtain ⟨y, -, h⟩ := Outcome.bind_ok_iff.1 h
  obtain ⟨-, rfl⟩ := Prod.mk.inj (Outcome.ok.inj h)
  exact ⟨cs.take 32, (List.take_append_drop 32 cs).symm, List.length_take_of_le (Nat.le_of_not_lt hlength)⟩

theorem length_of_exactlyFrom {acc fields : List F}
    (h : Parser.exactlyFrom (field read) n cs acc = .ok (fields, rest)) :
    fields.length = n + acc.length ∧ ∃ s, cs = s ++ rest ∧ s.length = 32 * n := by
  induction n generalizing cs acc with
  | zero =>
    obtain ⟨rfl, rfl⟩ := Prod.mk.inj (Outcome.ok.inj h)
    exact ⟨(Nat.zero_add _).symm, [], rfl, rfl⟩
  | succ n ih =>
    rw [Parser.exactlyFrom] at h
    obtain ⟨⟨x, cs'⟩, hx, hfrom⟩ := Outcome.bind_ok_iff.1 h
    obtain ⟨s, rfl, hs⟩ := length_of_field hx
    obtain ⟨hlength, s', rfl, hs'⟩ := ih hfrom
    refine ⟨by rw [hlength, List.length_cons]; omega, s ++ s', (List.append_assoc s s' rest).symm, ?_⟩
    rw [List.length_append, hs, hs']
    omega

/-- **What is read** has as many field elements as the first count says, and no more bits than the second one. -/
theorem counts_of_deserialize {ofBool : Bool → B} {s : List UInt8} {t : Legacy F B} (h : deserialize read ofBool s = .ok t) :
    ∃ len₁ fields rest len₂ packed, Parser.u32 s = (.ok (len₁, fields ++ rest) : Outcome (ParseError E) _) ∧ fields.length = 32 * len₁ ∧
      Parser.u32 rest = (.ok (len₂, packed) : Outcome (ParseError E) _) ∧ t.fieldElements.length = len₁ ∧
      t.bitstrings.flatten.length ≤ len₂ := by
  obtain ⟨⟨t', cs⟩, hparser, h⟩ := Outcome.bind_ok_iff.1 h
  split_ifs at h
  obtain rfl := Outcome.ok.inj h
  obtain ⟨⟨len₁, cs₁⟩, hlen₁, h⟩ := bind_eq_ok hparser
  obtain ⟨⟨fields, cs₂⟩, hexactly, h⟩ := bind_eq_ok h
  obtain ⟨⟨len₂, cs₃⟩, hlen₂, h⟩ := bind_eq_ok h
  obtain ⟨⟨bytes, cs₄⟩, -, h⟩ := bind_eq_ok h
  obtain ⟨bits, -, h⟩ := Outcome.bind_ok_iff.1 h
  obtain ⟨rfl, -⟩ := Prod.mk.inj (Outcome.ok.inj h)
  obtain ⟨⟨acc, cs₅⟩, hfrom, h⟩ := bind_eq_ok hexactly
  obtain ⟨rfl, rfl⟩ := Prod.mk.inj (Outcome.ok.inj h)
  obtain ⟨hcount, s', rfl, hs'⟩ := length_of_exactlyFrom hfrom
  refine ⟨len₁, s', _, len₂, cs₃, hlen₁, hs', hlen₂, ?_, ?_⟩
  · rw [List.length_reverse]
    exact hcount
  · rw [List.flatten_singleton]
    exact List.length_take_le _ _

end Total

/-! ### The other coding -/

/-- `Coding2.Rendered.t_`: what comes before and after the field elements that are added. -/
structure Rendered (F : Type) where
  prefixFields : List F
  suffix : List F

/-- `Coding2.serialize'`. -/
def serialize' {F B : Type} (pack : List B → F) (t : Legacy F B) : Rendered F :=
  ⟨t.fieldElements, (packBits 254 pack t).reverse⟩

/-! ### Both codings -/

/-- **Serializing.** An input with field elements of 255 bits is serialized, and what is read back has its bits in a single
bitstring. -/
theorem exists_serialize {E : Type} {t : Legacy (List Bool) Bool} (hfields : ∀ x ∈ t.fieldElements, x.length = 255)
    (hcount : t.fieldElements.length < 2 ^ 32) (hbits : t.bitstrings.flatten.length < 2 ^ 32) :
    ∃ s, serialize stringOfField id id t = some s ∧
      deserialize (fieldOfString 255 : List UInt8 → Outcome E _) id s = .ok ⟨t.fieldElements, [t.bitstrings.flatten]⟩ := by
  obtain ⟨ss, hss⟩ := exists_mapM_of_forall fun x hx => (stringOfField_spec (E := E) (hfields x hx)).imp fun _ h => h.1
  have hread : ∀ x ∈ t.fieldElements, ∀ s, stringOfField x = some s → s.length = 32 ∧ (fieldOfString 255 s : Outcome E _) = .ok x := by
    intro x hx s hs
    obtain ⟨s', hs', hlength, hread⟩ := stringOfField_spec (E := E) (hfields x hx)
    obtain rfl := Option.some.inj (hs.symm.trans hs')
    exact ⟨hlength, hread⟩
  have hsum : (t.bitstrings.map List.length).sum = t.bitstrings.flatten.length := List.length_flatten.symm
  obtain ⟨groups, hgroups, hflatten, hcut⟩ := packBits_spec (packByte id id) (by decide : 0 < 8) t
  obtain ⟨packed, bits, pad, hpacked, hunpacked, hpadded, -, -⟩ := mapM_packByte_spec hcut
  have hpack : (packBits 8 (packByte id id) t).mapM id = some packed.reverse := by
    rw [← List.reverse_reverse (packBits 8 (packByte id id) t), hgroups, mapM_reverse, List.mapM_map]
    exact congrArg (Option.map List.reverse) hpacked
  have hfirst : ∀ x ∈ t.fieldElements.head?, ∃ s, stringOfField x = some s ∧ s.length = 32 := fun x hx =>
    (stringOfField_spec (E := E) (hfields x (List.mem_of_mem_head? hx))).imp fun _ h => ⟨h.1, h.2.1⟩
  refine ⟨lenToString t.fieldElements.length ++ ss.flatten ++ lenToString t.bitstrings.flatten.length ++ packed, ?_, ?_⟩
  · rw [serialize, hss, hpack, hsum]
    cases hlist : t.fieldElements with
    | nil => simp
    | cons x fields =>
      obtain ⟨s, hs, hlength⟩ := hfirst x (by rw [hlist]; rfl)
      simp [hs, hlength]
  · rw [deserialize_eq hread hss hcount hbits hunpacked, hpadded, hflatten, List.take_left' rfl]

/-- **The codings of inputs.** What is serialized is read back, field elements from their bytes too; whatever is read, the
counts bound it; and the parts of the other coding are what is packed around the elements that a signer adds. -/
theorem coding_reads_back (E : Type) :
    (∀ t : Legacy (List Bool) Bool, (∀ x ∈ t.fieldElements, x.length = 255) → t.fieldElements.length < 2 ^ 32 →
      t.bitstrings.flatten.length < 2 ^ 32 → ∃ s, serialize stringOfField id id t = some s ∧
        deserialize (fieldOfString 255 : List UInt8 → Outcome E _) id s = .ok ⟨t.fieldElements, [t.bitstrings.flatten]⟩) ∧
    (∀ x : List Bool, x.length = 255 → ∃ s, stringOfField x = some s ∧ (fieldOfString 255 s : Outcome E _) = .ok x) ∧
    (∀ s, deserialize (fieldOfString 255 : List UInt8 → Outcome E _) id s ≠ .raise ∧
      ∀ t, deserialize (fieldOfString 255 : List UInt8 → Outcome E _) id s = .ok t →
        ∃ len₁ fields rest len₂ packed, Parser.u32 s = (.ok (len₁, fields ++ rest) : Outcome (ParseError E) _) ∧
          fields.length = 32 * len₁ ∧ Parser.u32 rest = (.ok (len₂, packed) : Outcome (ParseError E) _) ∧
          t.fieldElements.length = len₁ ∧ t.bitstrings.flatten.length ≤ len₂) ∧
    ∀ (F B : Type) (pack : List B → F) (t : Legacy F B) (x y : F),
      (serialize' pack t).prefixFields ++ [x, y] ++ (serialize' pack t).suffix =
        (t.append (ofFieldElements [x, y])).packToFields 255 pack := by
  have htotal : ∀ s, (fieldOfString 255 s : Outcome E _) ≠ .raise := by
    intro s
    obtain ⟨bits, hbits⟩ := exists_bitsOfByte id s
    rw [fieldOfString, hbits]
    exact ok_ne_raise
  refine ⟨fun t hfields hcount hbits => exists_serialize hfields hcount hbits, fun x hx => ?_, fun s => ⟨deserialize_ne_raise htotal id s, fun t =>
    counts_of_deserialize⟩, fun F B pack t x y => ?_⟩
  · obtain ⟨s, hs, -, hread⟩ := stringOfField_spec (E := E) hx
    exact ⟨s, hs, hread⟩
  · have hsame : packBits 254 pack (t.append (ofFieldElements [x, y])) = packBits 254 pack t := by
      rw [packBits, append, ofFieldElements, List.append_nil, packBits]
    rw [serialize', packToFields, hsame]
    rfl

/-- An input without field elements, of three bits in two bitstrings. -/
theorem coding_reads_back_bits : ∃ s, serialize stringOfField id id ⟨[], [[true], [false, true]]⟩ = some s ∧
      deserialize (fieldOfString 255 : List UInt8 → Outcome Empty _) id s = .ok ⟨[], [[true, false, true]]⟩ :=
  (coding_reads_back Empty).1 ⟨[], [[true], [false, true]]⟩ (fun _ h => absurd h List.not_mem_nil) (by decide) (by decide)

end MinaProtocol.RandomOracleInput.Legacy
