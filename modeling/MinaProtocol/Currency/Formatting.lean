import Mathlib.Data.List.Basic
import Mathlib.Data.Rat.Cast.Defs
import Mathlib.Tactic

/-!
# Currency.Formatting

Amounts as decimal numbers of units. `to_mina_string` strips the zeros at the end of the fraction
and pads the rest again to its width; `of_mina_string_exn` reads the whole part and the fraction,
brought to nine digits, as one number. Both go through the number that a text denotes
(`toMinaString_denotes`, `ofMinaString_of_denotes`).
-/

namespace MinaProtocol.Currency

/-- The number of a text of digits. -/
def digitsValue (s : List Char) : Nat := Nat.ofDigitChars 10 s 0

/-- The texts of `Unsigned.UInt64`: `to_string` writes decimal digits, and `of_string` reads them
where the number fits. On other texts `of_string` may raise (`none`) or not. -/
structure UnsignedText where
  toString : UInt64 → List Char
  ofString : List Char → Option UInt64
  toString_eq : ∀ x, toString x = Nat.toDigits 10 x.toNat
  ofString_eq : ∀ s, s ≠ [] → (∀ c ∈ s, c.isDigit = true) → digitsValue s < 2 ^ 64 →
    ofString s = some (UInt64.ofNat (digitsValue s))

namespace Formatting

/-- `precision`. -/
def precision : Nat := 9

/-- `precision_exp`. -/
def precisionExp : UInt64 := 1000000000

/-- `go` in `to_mina_string`. -/
def stripZeros (numStrippedZeros num : Nat) : Nat × Nat :=
  if num % 10 = 0 ∧ num ≠ 0 then stripZeros (numStrippedZeros + 1) (num / 10) else (numStrippedZeros, num)
termination_by num

variable (text : UnsignedText) {x : UInt64} {s : List Char} {c : Char} {n : Nat}

/-- `to_mina_string`. -/
def toMinaString (amount : UInt64) : List Char :=
  let whole := amount / precisionExp
  let remainder := (amount % precisionExp).toNat
  if remainder = 0 then text.toString whole
  else
    let (numStrippedZeros, num) := stripZeros 0 remainder
    text.toString whole ++ '.' :: (Nat.toDigits 10 num).leftpad (precision - numStrippedZeros) '0'

/-- `of_mina_string_exn`: `none` where it raises. -/
def ofMinaString (input : List Char) : Option UInt64 :=
  match input.splitOn '.' with
  | [whole] => text.ofString (whole ++ List.replicate precision '0')
  | [whole, decimal] =>
    if precision < decimal.length then text.ofString (whole ++ decimal.take precision)
    else text.ofString (whole ++ decimal ++ List.replicate (precision - decimal.length) '0')
  | _ => none

/-- The text is a decimal number with so many digits after the point. -/
inductive Denotes : List Char → Nat → ℚ → Prop
  | whole {ds : List Char} (hds : ∀ c ∈ ds, c.isDigit = true) (hne : ds ≠ []) :
    Denotes ds 0 (digitsValue ds)
  | decimal {ds fs : List Char} (hds : ∀ c ∈ ds, c.isDigit = true) (hfs : ∀ c ∈ fs, c.isDigit = true) :
    Denotes (ds ++ '.' :: fs) fs.length (digitsValue ds + digitsValue fs / 10 ^ fs.length)

/-! ### Digits -/

theorem digitsValue_append (s t : List Char) :
    digitsValue (s ++ t) = digitsValue s * 10 ^ t.length + digitsValue t := by
  unfold digitsValue
  rw [Nat.ofDigitChars_append, Nat.ofDigitChars_eq_ofDigitChars_zero, Nat.mul_comm]

@[simp] theorem digitsValue_replicate (n : Nat) : digitsValue (List.replicate n '0') = 0 := by
  unfold digitsValue
  rw [Nat.ofDigitChars_replicate_zero, Nat.mul_zero]

@[simp] theorem digitsValue_toDigits (n : Nat) : digitsValue (Nat.toDigits 10 n) = n :=
  Nat.ofDigitChars_ten_toDigits

theorem isDigit_of_mem_toDigits (hc : c ∈ Nat.toDigits 10 n) : c.isDigit = true :=
  Nat.isDigit_of_mem_toDigits (by decide) (by decide) hc

theorem isDigit_of_mem_replicate (hc : c ∈ List.replicate n '0') : c.isDigit = true := by
  rw [List.eq_of_mem_replicate hc]
  rfl

theorem point_notMem (h : ∀ c ∈ s, c.isDigit = true) : '.' ∉ s :=
  fun hmem => absurd (h _ hmem) (by decide)

theorem stripZeros_spec (k n : Nat) : ∃ j m, stripZeros k n = (k + j, m) ∧ n = m * 10 ^ j ∧ (n ≠ 0 → m % 10 ≠ 0) := by
  induction n using Nat.strong_induction_on generalizing k with
  | _ n ih =>
    rw [stripZeros]
    by_cases h : n % 10 = 0 ∧ n ≠ 0
    · obtain ⟨j, m, heq, hn, hm⟩ := ih (n / 10) (by omega) (k + 1)
      refine ⟨j + 1, m, ?_, ?_, fun _ => hm (by omega)⟩
      · rw [if_pos h, heq, Nat.add_assoc, Nat.add_comm 1]
      · rw [pow_succ, ← Nat.mul_assoc, ← hn]
        omega
    · exact ⟨0, n, by rw [if_neg h, Nat.add_zero], by simp, fun h0 hmod => h ⟨hmod, h0⟩⟩

theorem digitChar_ne_zero {d : Nat} (hpos : d ≠ 0) (hlt : d < 10) : d.digitChar ≠ '0' := by
  interval_cases d
  · exact absurd rfl hpos
  all_goals decide

theorem getLast?_toDigits (n : Nat) : (Nat.toDigits 10 n).getLast? = some (n % 10).digitChar := by
  rw [Nat.toDigits_eq_if (by decide)]
  split
  · next h => rw [Nat.mod_eq_of_lt h]; rfl
  · rw [List.getLast?_concat]

/-! ### What the texts denote -/

theorem toNat_precisionExp : precisionExp.toNat = 10 ^ 9 := rfl

/-- The text of an amount that is no whole number of units: the fraction without the zeros at its
end, brought to its width. -/
theorem toMinaString_of_ne_zero (h : x.toNat % 10 ^ 9 ≠ 0) :
    ∃ j m, j ≤ 9 ∧ x.toNat % 10 ^ 9 = m * 10 ^ j ∧ m % 10 ≠ 0 ∧ (Nat.toDigits 10 m).length ≤ 9 - j
      ∧ toMinaString text x = Nat.toDigits 10 (x.toNat / 10 ^ 9)
        ++ '.' :: (Nat.toDigits 10 m).leftpad (9 - j) '0' := by
  obtain ⟨j, m, hstrip, hr, hm⟩ := stripZeros_spec 0 (x.toNat % 10 ^ 9)
  have hm := hm h
  have hpos : 0 < m := by omega
  have hlt : m * 10 ^ j < 10 ^ 9 := by
    rw [← hr]
    exact Nat.mod_lt _ (by decide)
  have hj : j < 9 := by
    rw [← Nat.pow_lt_pow_iff_right (show 1 < 10 by decide)]
    exact lt_of_le_of_lt (Nat.le_mul_of_pos_left _ hpos) hlt
  refine ⟨j, m, hj.le, hr, hm, ?_, ?_⟩
  · rw [Nat.length_toDigits_le_iff (by decide) (by omega)]
    have hsplit : (10 : Nat) ^ 9 = 10 ^ (9 - j) * 10 ^ j := by
      rw [← pow_add]
      congr 1
      omega
    rw [hsplit] at hlt
    exact Nat.lt_of_mul_lt_mul_right hlt
  · have hne : ¬ (x % precisionExp).toNat = 0 := by
      rw [UInt64.toNat_mod]
      exact h
    unfold toMinaString
    dsimp only
    rw [if_neg hne, UInt64.toNat_mod, toNat_precisionExp, hstrip, Nat.zero_add, text.toString_eq, UInt64.toNat_div]
    rfl

theorem toMinaString_of_eq_zero (h : x.toNat % 10 ^ 9 = 0) :
    toMinaString text x = Nat.toDigits 10 (x.toNat / 10 ^ 9) := by
  have hzero : (x % precisionExp).toNat = 0 := by
    rw [UInt64.toNat_mod]
    exact h
  unfold toMinaString
  dsimp only
  rw [if_pos hzero, text.toString_eq, UInt64.toNat_div]
  rfl

theorem digitsValue_leftpad (n : Nat) (s : List Char) : digitsValue (s.leftpad n '0') = digitsValue s := by
  unfold List.leftpad
  rw [digitsValue_append, digitsValue_replicate, Nat.zero_mul, Nat.zero_add]

/-- **The printed text denotes the amount**, with at most nine digits after the point. -/
theorem toMinaString_denotes (x : UInt64) : ∃ places ≤ 9, Denotes (toMinaString text x) places (x.toNat / 10 ^ 9) := by
  have hdigits : ∀ n : Nat, ∀ c ∈ Nat.toDigits 10 n, c.isDigit = true :=
    fun _ _ hc => isDigit_of_mem_toDigits hc
  have hx := Nat.div_add_mod x.toNat (10 ^ 9)
  by_cases h : x.toNat % 10 ^ 9 = 0
  · refine ⟨0, Nat.zero_le _, ?_⟩
    have hdenotes := Denotes.whole (hdigits (x.toNat / 10 ^ 9)) (by simp)
    rw [toMinaString_of_eq_zero text h]
    convert hdenotes using 1
    rw [digitsValue_toDigits, div_eq_iff (by positivity)]
    exact_mod_cast (by omega : x.toNat = x.toNat / 10 ^ 9 * 10 ^ 9)
  · obtain ⟨j, m, hj, hr, -, hlength, htext⟩ := toMinaString_of_ne_zero text h
    have hpad : ((Nat.toDigits 10 m).leftpad (9 - j) '0').length = 9 - j := by
      rw [List.length_leftpad]
      omega
    have hfs : ∀ c ∈ (Nat.toDigits 10 m).leftpad (9 - j) '0', c.isDigit = true := by
      intro c hc
      obtain hc | hc := List.mem_append.1 hc
      · exact isDigit_of_mem_replicate hc
      · exact isDigit_of_mem_toDigits hc
    have hdenotes := Denotes.decimal (hdigits (x.toNat / 10 ^ 9)) hfs
    rw [hpad] at hdenotes
    refine ⟨9 - j, by omega, ?_⟩
    rw [htext]
    convert hdenotes using 1
    rw [digitsValue_toDigits, digitsValue_leftpad, digitsValue_toDigits, div_eq_iff (by positivity)]
    have hpow : (10 : ℚ) ^ 9 = 10 ^ (9 - j) * 10 ^ j := by
      rw [← pow_add]
      congr 1
      omega
    have hx' : (x.toNat : ℚ) = (x.toNat / 10 ^ 9 : Nat) * 10 ^ 9 + m * 10 ^ j := by
      rw [hr] at hx
      exact_mod_cast (by omega : x.toNat = x.toNat / 10 ^ 9 * 10 ^ 9 + m * 10 ^ j)
    rw [hx', add_mul, hpow, div_mul_eq_mul_div, mul_div_assoc, mul_div_cancel_left₀ _ (by positivity)]

/-- **The parser reads the number that the text denotes**, if it fits. -/
theorem ofMinaString_of_denotes {places : Nat} {q : ℚ}
    (h : Denotes s places q) (hplaces : places ≤ 9) (hfits : q * 10 ^ 9 < 2 ^ 64) :
    ∃ x, ofMinaString text s = some x ∧ (x.toNat : ℚ) = q * 10 ^ 9 := by
  -- the digits that are read, and their number
  have hread : ∀ ds : List Char, ds ≠ [] → (∀ c ∈ ds, c.isDigit = true) →
      (digitsValue ds : ℚ) = q * 10 ^ 9 → ∃ x, text.ofString ds = some x ∧ (x.toNat : ℚ) = q * 10 ^ 9 := by
    intro ds hne hds hvalue
    have hlt : digitsValue ds < 2 ^ 64 := by
      rw [← hvalue] at hfits
      exact_mod_cast hfits
    refine ⟨_, text.ofString_eq ds hne hds hlt, ?_⟩
    rw [UInt64.toNat_ofNat_of_lt' (by simp only [UInt64.size]; omega), hvalue]
  cases h with
  | @whole ds hds hne =>
    unfold ofMinaString
    rw [List.splitOn_eq_singleton (point_notMem hds)]
    refine hread _ (by simp [hne]) (fun c hc => ?_) ?_
    · obtain hc | hc := List.mem_append.1 hc
      · exact hds c hc
      · exact isDigit_of_mem_replicate hc
    · rw [digitsValue_append, digitsValue_replicate, List.length_replicate, Nat.add_zero]
      push_cast
      rfl
  | @decimal ds fs hds hfs =>
    unfold ofMinaString
    rw [List.splitOn_append_cons_self_of_not_mem (point_notMem hds), List.splitOn_eq_singleton (point_notMem hfs)]
    dsimp only
    rw [if_neg (by unfold precision; omega)]
    refine hread _ ?_ (fun c hc => ?_) ?_
    · intro hnil
      have hlength := congrArg List.length hnil
      simp only [List.length_append, List.length_replicate, List.length_nil, precision] at hlength
      omega
    · simp only [List.mem_append] at hc
      obtain (hc | hc) | hc := hc
      · exact hds c hc
      · exact hfs c hc
      · exact isDigit_of_mem_replicate hc
    · have hpow : (10 : ℚ) ^ 9 = 10 ^ fs.length * 10 ^ (9 - fs.length) := by
        rw [← pow_add]
        congr 1
        omega
      rw [digitsValue_append, digitsValue_append, digitsValue_replicate, List.length_replicate, hpow]
      push_cast
      unfold precision
      rw [add_zero]
      field_simp

theorem getLast?_toMinaString (h : '.' ∈ toMinaString text x) : (toMinaString text x).getLast? ≠ some '0' := by
  by_cases hr : x.toNat % 10 ^ 9 = 0
  · rw [toMinaString_of_eq_zero text hr] at h
    exact absurd h (point_notMem fun c hc => isDigit_of_mem_toDigits hc)
  · obtain ⟨j, m, -, -, hm, -, htext⟩ := toMinaString_of_ne_zero text hr
    have hlast : (toMinaString text x).getLast? = some (m % 10).digitChar := by
      rw [htext, List.leftpad, List.getLast?_append, List.getLast?_cons, List.getLast?_append, getLast?_toDigits]
      rfl
    rw [hlast]
    exact fun heq => digitChar_ne_zero hm (by omega) (Option.some.inj heq)

/-- **Amounts go through their text, and decimal texts through the amount.** -/
theorem minaString_roundTrip (text : UnsignedText) :
    (∀ x, ('.' ∈ toMinaString text x → (toMinaString text x).getLast? ≠ some '0')
        ∧ ofMinaString text (toMinaString text x) = some x)
      ∧ ∀ s places q, Denotes s places q → places ≤ 9 → q * 10 ^ 9 < 2 ^ 64 →
        ∃ x places', ofMinaString text s = some x ∧ Denotes (toMinaString text x) places' q := by
  constructor
  · intro x
    obtain ⟨places, hplaces, hdenotes⟩ := toMinaString_denotes text x
    have hcancel : (x.toNat : ℚ) / 10 ^ 9 * 10 ^ 9 = x.toNat := by field_simp
    obtain ⟨y, hy, hvalue⟩ := ofMinaString_of_denotes text hdenotes hplaces
      (by rw [hcancel]; exact_mod_cast x.toNat_lt)
    rw [hcancel] at hvalue
    obtain rfl : y = x := UInt64.toNat_inj.1 (by exact_mod_cast hvalue)
    exact ⟨getLast?_toMinaString text, hy⟩
  · intro s places q hs hplaces hfits
    obtain ⟨x, hx, hvalue⟩ := ofMinaString_of_denotes text hs hplaces hfits
    obtain ⟨places', -, hdenotes⟩ := toMinaString_denotes text x
    rw [hvalue, mul_div_cancel_right₀ _ (by positivity)] at hdenotes
    exact ⟨x, places', hx, hdenotes⟩

/-- The texts of the package on digits. -/
def decimalText : UnsignedText where
  toString x := Nat.toDigits 10 x.toNat
  ofString s := if digitsValue s < 2 ^ 64 then some (UInt64.ofNat (digitsValue s)) else none
  toString_eq _ := rfl
  ofString_eq _ _ _ h := if_pos h

/-- One and a half units, and back. -/
theorem one_and_a_half : toMinaString decimalText 1500000000 = ['1', '.', '5']
    ∧ ofMinaString decimalText (toMinaString decimalText 1500000000) = some 1500000000 :=
  ⟨by with_unfolding_all decide, ((minaString_roundTrip decimalText).1 1500000000).2⟩

end Formatting

end MinaProtocol.Currency
