import MinaProtocol.Base.Account
import MinaProtocol.Base.Signed
import MinaProtocol.Lib.ShortWord

/-!
# Base.FeeExcess

Fee excesses of transactions and of sequences of them (`fee_excess.ml`). An excess is
kept for the token at the left end and for the token at the right end. `combine` puts
two sequences together: the excesses in the middle must be merged into one at an end,
or be zero.

An excess with two tokens stands for a product of two factors in the free product of
copies of the integers, one for each token. `eliminate_fee_excess` and `rebalance` do not
change the product, so `combine` multiplies; the canonical form makes the product reduced.
Associativity and conservation follow from this.
-/

namespace MinaProtocol

/-- `One_or_two.t`. -/
inductive OneOrTwo (α : Type) where
  | one (a : α)
  | two (a b : α)
deriving DecidableEq, Repr

/-- `Fee_excess.t`. -/
structure FeeExcess where
  feeTokenL : Nat
  feeExcessL : Signed
  feeTokenR : Nat
  feeExcessR : Signed
deriving DecidableEq, Repr

namespace FeeExcess

/-- The errors of this module. -/
inductive Error where
  | addingFees
  | rebalancing
  | nonzero (token : Nat) (excess : Signed)
deriving DecidableEq, Repr

/-- `add_err` of `eliminate_fee_excess`. -/
def addErr (x y : Signed) : Except Error Signed :=
  match Signed.add x y with
  | some z => .ok z
  | none => .error .addingFees

/-- `eliminate_fee_excess`. -/
def eliminateFeeExcess (l m r : Nat × Signed) : Except Error ((Nat × Signed) × (Nat × Signed)) :=
  if l.1 = m.1 ∨ l.2.magnitude = 0 then do
    let feeExcessL ← addErr l.2 m.2
    return ((m.1, feeExcessL), r)
  else if r.1 = m.1 ∨ r.2.magnitude = 0 then do
    let feeExcessR ← addErr r.2 m.2
    return (l, (m.1, feeExcessR))
  else if m.2.magnitude = 0 then return (l, r)
  else .error (.nonzero m.1 m.2)

/-- `rebalance`. -/
def rebalance (e : FeeExcess) : Except Error FeeExcess := do
  -- use the same token for both if the left excess is zero
  let feeTokenL := if e.feeExcessL.magnitude = 0 then e.feeTokenR else e.feeTokenL
  let (feeExcessL, feeExcessR) ←
    if feeTokenL = e.feeTokenR then
      match Signed.add e.feeExcessL e.feeExcessR with
      | some feeExcessL => .ok (feeExcessL, Signed.zero)
      | none => .error .rebalancing
    else .ok (e.feeExcessL, e.feeExcessR)
  return {
    feeTokenL := if feeExcessL.magnitude = 0 then TokenId.default else feeTokenL
    feeExcessL
    feeTokenR := if feeExcessR.magnitude = 0 then TokenId.default else e.feeTokenR
    feeExcessR }

/-- `combine`. -/
def combine (e1 e2 : FeeExcess) : Except Error FeeExcess := do
  let (l1, l2) ← eliminateFeeExcess (e1.feeTokenL, e1.feeExcessL) (e1.feeTokenR, e1.feeExcessR)
    (e2.feeTokenL, e2.feeExcessL)
  let (l1, r2) ← eliminateFeeExcess l1 l2 (e2.feeTokenR, e2.feeExcessR)
  rebalance ⟨l1.1, l1.2, r2.1, r2.2⟩

/-- `zero`. -/
def zero : FeeExcess := ⟨TokenId.default, Signed.zero, TokenId.default, Signed.zero⟩

/-- `of_single`; `none` where `Or_error.ok_exn` would raise. -/
def ofSingle (p : Nat × Signed) : Option FeeExcess :=
  (rebalance ⟨p.1, p.2, TokenId.default, Signed.zero⟩).toOption

/-- `of_one_or_two`. -/
def ofOneOrTwo : OneOrTwo (Nat × Signed) → Except Error FeeExcess
  | .one p => rebalance ⟨p.1, p.2, TokenId.default, Signed.zero⟩
  | .two p q => rebalance ⟨p.1, p.2, q.1, q.2⟩

/-- `to_one_or_two`. -/
def toOneOrTwo (e : FeeExcess) : OneOrTwo (Nat × Signed) :=
  if e.feeExcessR.magnitude = 0 then .one (e.feeTokenL, e.feeExcessL)
  else .two (e.feeTokenL, e.feeExcessL) (e.feeTokenR, e.feeExcessR)

/-! ### The form of the results -/

/-- The magnitudes have 64 bits. -/
def Fits (e : FeeExcess) : Prop :=
  e.feeExcessL.magnitude < 2 ^ 64 ∧ e.feeExcessR.magnitude < 2 ^ 64

/-- The canonical form: a single excess is on the left, a zero excess has the default
token, and two excesses are of different tokens. -/
structure Canonical (e : FeeExcess) : Prop where
  fits : e.Fits
  left : e.feeExcessL.magnitude = 0 → e.feeExcessR.magnitude = 0
  default_left : e.feeExcessL.magnitude = 0 → e.feeTokenL = TokenId.default
  default_right : e.feeExcessR.magnitude = 0 → e.feeTokenR = TokenId.default
  distinct : e.feeExcessL.magnitude ≠ 0 → e.feeExcessR.magnitude ≠ 0 → e.feeTokenL ≠ e.feeTokenR

/-- The zeros in an excess are positive. -/
def Normal (e : FeeExcess) : Prop := e.feeExcessL.Normal ∧ e.feeExcessR.Normal

/-- The tokens are the same, and so are the excesses by `Fee.Signed.equal`. -/
def Same (e e' : FeeExcess) : Prop :=
  e.feeTokenL = e'.feeTokenL ∧ e.feeTokenR = e'.feeTokenR
    ∧ Signed.equal e.feeExcessL e'.feeExcessL = true ∧ Signed.equal e.feeExcessR e'.feeExcessR = true

variable {e r a b : FeeExcess} {l l' m r' p : Nat × Signed} {e' : FeeExcess} {x y z : Signed} {t : Nat}

theorem Same.eq (h : Same e e') (hn : e.Normal) (hn' : e'.Normal) : e = e' := by
  obtain ⟨tl, el, tr, er⟩ := e
  obtain ⟨tl', el', tr', er'⟩ := e'
  obtain ⟨h1, h2, h3, h4⟩ := h
  rw [Signed.equal_iff] at h3 h4
  have h3' := Signed.eq_of_toInt_eq hn.1 hn'.1 h3
  have h4' := Signed.eq_of_toInt_eq hn.2 hn'.2 h4
  simp_all

/-- What `rebalance` does, in its three cases. -/
theorem rebalance_cases (h : rebalance e = .ok r) : (∃ z, (e.feeExcessL.magnitude = 0 ∨ e.feeTokenL = e.feeTokenR)
        ∧ Signed.add e.feeExcessL e.feeExcessR = some z
        ∧ r = ⟨if z.magnitude = 0 then TokenId.default else e.feeTokenR, z, TokenId.default, Signed.zero⟩)
      ∨ (e.feeExcessL.magnitude ≠ 0 ∧ e.feeTokenL ≠ e.feeTokenR ∧ r = ⟨e.feeTokenL, e.feeExcessL,
          if e.feeExcessR.magnitude = 0 then TokenId.default else e.feeTokenR, e.feeExcessR⟩) := by
  unfold rebalance at h
  by_cases hl : e.feeExcessL.magnitude = 0
  · simp only [hl, if_true] at h
    cases hz : Signed.add e.feeExcessL e.feeExcessR with
    | none => simp [hz, bind, Except.bind] at h
    | some z =>
      simp only [hz, bind, Except.bind, pure, Except.pure, Except.ok.injEq] at h
      exact .inl ⟨z, .inl hl, rfl, h.symm⟩
  · simp only [hl, if_false] at h
    by_cases ht : e.feeTokenL = e.feeTokenR
    · simp only [ht, if_true] at h
      cases hz : Signed.add e.feeExcessL e.feeExcessR with
      | none => simp [hz, bind, Except.bind] at h
      | some z =>
        simp only [hz, bind, Except.bind, pure, Except.pure, Except.ok.injEq] at h
        exact .inl ⟨z, .inr ht, rfl, h.symm⟩
    · simp only [ht, if_false, bind, Except.bind, pure, Except.pure, Except.ok.injEq, hl] at h
      exact .inr ⟨hl, ht, h.symm⟩

/-- **Every result of `rebalance` is canonical.** -/
theorem rebalance_canonical (hf : e.Fits) (h : rebalance e = .ok r) : Canonical r := by
  rcases rebalance_cases h with ⟨z, -, hz, rfl⟩ | ⟨hl, ht, rfl⟩
  · refine ⟨⟨Signed.add_magnitude_lt hf.1 hf.2 hz, Nat.two_pow_pos 64⟩, fun _ => rfl, fun h0 => if_pos h0,
      fun _ => rfl, fun _ hr => absurd rfl hr⟩
  · refine ⟨hf, fun h0 => absurd h0 hl, fun h0 => absurd h0 hl, fun h0 => if_pos h0, fun _ hr => ?_⟩
    rw [if_neg hr]
    exact ht

theorem rebalance_normal (hn : e.Normal) (h : rebalance e = .ok r) : r.Normal := by
  rcases rebalance_cases h with ⟨z, -, hz, rfl⟩ | ⟨-, -, rfl⟩
  · exact ⟨(Signed.toInt_add hz).2, fun _ => rfl⟩
  · exact hn

/-- What `eliminate_fee_excess` does, in its three cases. -/
theorem eliminateFeeExcess_cases {r : Nat × Signed} (h : eliminateFeeExcess l m r = .ok (l', r')) :
    ((l.1 = m.1 ∨ l.2.magnitude = 0) ∧ ∃ z, Signed.add l.2 m.2 = some z ∧ l' = (m.1, z) ∧ r' = r)
      ∨ ((r.1 = m.1 ∨ r.2.magnitude = 0) ∧ ∃ z, Signed.add r.2 m.2 = some z ∧ l' = l ∧ r' = (m.1, z))
      ∨ (m.2.magnitude = 0 ∧ l' = l ∧ r' = r) := by
  unfold eliminateFeeExcess addErr at h
  split at h
  · rename_i hc
    cases hz : Signed.add l.2 m.2 with
    | none => simp [hz, bind, Except.bind] at h
    | some z =>
      simp only [hz, bind, Except.bind, pure, Except.pure, Except.ok.injEq, Prod.mk.injEq] at h
      exact .inl ⟨hc, z, rfl, h.1.symm, h.2.symm⟩
  · split at h
    · rename_i hc
      cases hz : Signed.add r.2 m.2 with
      | none => simp [hz, bind, Except.bind] at h
      | some z =>
        simp only [hz, bind, Except.bind, pure, Except.pure, Except.ok.injEq, Prod.mk.injEq] at h
        exact .inr (.inl ⟨hc, z, rfl, h.1.symm, h.2.symm⟩)
    · split at h
      · rename_i hm
        simp only [pure, Except.pure, Except.ok.injEq, Prod.mk.injEq] at h
        exact .inr (.inr ⟨hm, h.1.symm, h.2.symm⟩)
      · cases h

theorem eliminateFeeExcess_fits {r : Nat × Signed} (hl : l.2.magnitude < 2 ^ 64)
    (hm : m.2.magnitude < 2 ^ 64) (hr : r.2.magnitude < 2 ^ 64) (h : eliminateFeeExcess l m r = .ok (l', r')) :
    l'.2.magnitude < 2 ^ 64 ∧ r'.2.magnitude < 2 ^ 64 := by
  rcases eliminateFeeExcess_cases h with ⟨-, z, hz, rfl, rfl⟩ | ⟨-, z, hz, rfl, rfl⟩ | ⟨-, rfl, rfl⟩
  · exact ⟨Signed.add_magnitude_lt hl hm hz, hr⟩
  · exact ⟨hl, Signed.add_magnitude_lt hr hm hz⟩
  · exact ⟨hl, hr⟩

theorem eliminateFeeExcess_normal {r : Nat × Signed} (hl : l.2.Normal) (hr : r.2.Normal)
    (h : eliminateFeeExcess l m r = .ok (l', r')) : l'.2.Normal ∧ r'.2.Normal := by
  rcases eliminateFeeExcess_cases h with ⟨-, z, hz, rfl, rfl⟩ | ⟨-, z, hz, rfl, rfl⟩ | ⟨-, rfl, rfl⟩
  · exact ⟨(Signed.toInt_add hz).2, hr⟩
  · exact ⟨hl, (Signed.toInt_add hz).2⟩
  · exact ⟨hl, hr⟩

/-- The three parts of `combine`. -/
theorem combine_cases (h : combine a b = .ok r) :
    ∃ l m l' r', eliminateFeeExcess (a.feeTokenL, a.feeExcessL) (a.feeTokenR, a.feeExcessR)
          (b.feeTokenL, b.feeExcessL) = .ok (l, m)
      ∧ eliminateFeeExcess l m (b.feeTokenR, b.feeExcessR) = .ok (l', r')
      ∧ rebalance ⟨l'.1, l'.2, r'.1, r'.2⟩ = .ok r := by
  unfold combine at h
  cases h1 : eliminateFeeExcess (a.feeTokenL, a.feeExcessL) (a.feeTokenR, a.feeExcessR)
      (b.feeTokenL, b.feeExcessL) with
  | error e => simp [h1, bind, Except.bind] at h
  | ok p =>
    obtain ⟨l, m⟩ := p
    simp only [h1, bind, Except.bind] at h
    cases h2 : eliminateFeeExcess l m (b.feeTokenR, b.feeExcessR) with
    | error e => simp [h2] at h
    | ok q =>
      obtain ⟨l', r'⟩ := q
      simp only [h2] at h
      exact ⟨l, m, l', r', rfl, h2, h⟩

theorem combine_canonical (ha : a.Fits) (hb : b.Fits) (h : combine a b = .ok r) : Canonical r := by
  obtain ⟨l, m, l', r', h1, h2, h3⟩ := combine_cases h
  obtain ⟨hl, hm⟩ := eliminateFeeExcess_fits ha.1 ha.2 hb.1 h1
  have hf : Fits ⟨l'.1, l'.2, r'.1, r'.2⟩ := eliminateFeeExcess_fits hl hm hb.2 h2
  exact rebalance_canonical hf h3

theorem combine_normal (ha : a.Normal) (hb : b.Normal) (h : combine a b = .ok r) : r.Normal := by
  obtain ⟨l, m, l', r', h1, h2, h3⟩ := combine_cases h
  obtain ⟨hl, -⟩ := eliminateFeeExcess_normal ha.1 hb.1 h1
  have hn : Normal ⟨l'.1, l'.2, r'.1, r'.2⟩ := eliminateFeeExcess_normal hl hb.2 h2
  exact rebalance_normal hn h3

/-! ### The product that an excess stands for -/

/-- Integers for each token. -/
abbrev Ledgers : Nat → Type := fun _ => Multiplicative ℤ

/-- An excess of one token. -/
def factor (p : Nat × Signed) : Monoid.CoprodI Ledgers :=
  Monoid.CoprodI.of (i := p.1) (Multiplicative.ofAdd p.2.toInt)

/-- The product of the two excesses. -/
def value (e : FeeExcess) : Monoid.CoprodI Ledgers :=
  factor (e.feeTokenL, e.feeExcessL) * factor (e.feeTokenR, e.feeExcessR)

theorem factor_zero (h : p.2.magnitude = 0) : factor p = 1 := by
  unfold factor
  rw [Signed.toInt_eq_zero.2 h, ofAdd_zero, map_one]

theorem factor_mul (h : Signed.add x y = some z) : factor (t, x) * factor (t, y) = factor (t, z) := by
  unfold factor
  rw [← map_mul, ← ofAdd_add, (Signed.toInt_add h).1]

theorem factor_comm : factor (t, x) * factor (t, y) = factor (t, y) * factor (t, x) := by
  unfold factor
  rw [← map_mul Monoid.CoprodI.of, ← map_mul Monoid.CoprodI.of, mul_comm]

theorem factor_merge {q : Nat × Signed} (h : p.1 = q.1 ∨ p.2.magnitude = 0)
    (hz : Signed.add p.2 q.2 = some z) : factor p * factor q = factor (q.1, z) := by
  obtain ⟨t, x⟩ := p
  obtain ⟨t', y⟩ := q
  rcases h with ht | h0
  · obtain rfl : t = t' := ht
    exact factor_mul hz
  · have hx : (t, x).2.magnitude = (t', x).2.magnitude := rfl
    rw [factor_zero h0, ← factor_zero (hx ▸ h0)]
    exact factor_mul hz

theorem eliminateFeeExcess_value {r : Nat × Signed} (h : eliminateFeeExcess l m r = .ok (l', r')) :
    factor l * factor m * factor r = factor l' * factor r' := by
  rcases eliminateFeeExcess_cases h with ⟨hc, z, hz, rfl, rfl⟩ | ⟨hc, z, hz, rfl, rfl⟩ | ⟨hm, rfl, rfl⟩
  · rw [factor_merge hc hz]
  · have hmr : factor m * factor r = factor r * factor m := by
      rcases hc with ht | h0
      · obtain ⟨t, x⟩ := m
        obtain ⟨t', y⟩ := r
        obtain rfl : t' = t := ht
        exact factor_comm
      · rw [factor_zero h0, mul_one, one_mul]
    rw [mul_assoc, hmr, factor_merge hc hz]
  · rw [factor_zero hm, mul_one]

theorem rebalance_value (h : rebalance e = .ok r) : r.value = e.value := by
  unfold value
  rcases rebalance_cases h with ⟨z, hc, hz, rfl⟩ | ⟨-, -, rfl⟩
  · rw [factor_merge (p := (e.feeTokenL, e.feeExcessL)) (q := (e.feeTokenR, e.feeExcessR)) hc.symm hz,
      factor_zero (p := (TokenId.default, Signed.zero)) rfl, mul_one]
    by_cases h0 : z.magnitude = 0
    · rw [factor_zero h0, factor_zero h0]
    · simp only [h0, if_false]
  · by_cases h0 : e.feeExcessR.magnitude = 0
    · rw [factor_zero (p := (_, e.feeExcessR)) h0, factor_zero (p := (_, e.feeExcessR)) h0]
    · simp only [h0, if_false]

/-- **`combine` multiplies.** -/
theorem combine_value (h : combine a b = .ok r) : r.value = a.value * b.value := by
  obtain ⟨l, m, l', r', h1, h2, h3⟩ := combine_cases h
  calc r.value = factor l' * factor r' := rebalance_value h3
    _ = factor l * factor m * factor (b.feeTokenR, b.feeExcessR) := (eliminateFeeExcess_value h2).symm
    _ = a.value * b.value := by
        rw [← eliminateFeeExcess_value h1]
        unfold value
        simp only [mul_assoc]

theorem Canonical.reduced (h : Canonical e) : Reduced (M := Ledgers) (i := e.feeTokenL) (j := e.feeTokenR)
      (Multiplicative.ofAdd e.feeExcessL.toInt) (Multiplicative.ofAdd e.feeExcessR.toInt) where
  left h1 := by
    rw [ofAdd_eq_one, Signed.toInt_eq_zero] at h1 ⊢
    exact h.left h1
  distinct h1 h2 := by
    rw [ne_eq, ofAdd_eq_one, Signed.toInt_eq_zero] at h1 h2
    exact h.distinct h1 h2

/-- **Canonical excesses with the same product are the same.** -/
theorem Canonical.same_of_value_eq (h : Canonical e) (h' : Canonical e') (hv : e.value = e'.value) : Same e e' := by
  have hs := h.reduced.syllables_eq h'.reduced hv
  unfold syllables at hs
  simp only [ofAdd_eq_one, Signed.toInt_eq_zero] at hs
  unfold Same
  rw [Signed.equal_iff, Signed.equal_iff]
  by_cases hl : e.feeExcessL.magnitude = 0
  · by_cases hl' : e'.feeExcessL.magnitude = 0
    · have hr := h.left hl
      have hr' := h'.left hl'
      rw [h.default_left hl, h'.default_left hl', h.default_right hr, h'.default_right hr',
        Signed.toInt_eq_zero.2 hl, Signed.toInt_eq_zero.2 hl', Signed.toInt_eq_zero.2 hr, Signed.toInt_eq_zero.2 hr']
      simp
    · by_cases hr' : e'.feeExcessR.magnitude = 0 <;> simp [hl, hl', hr'] at hs
  · by_cases hl' : e'.feeExcessL.magnitude = 0
    · by_cases hr : e.feeExcessR.magnitude = 0 <;> simp [hl, hl', hr] at hs
    · by_cases hr : e.feeExcessR.magnitude = 0 <;> by_cases hr' : e'.feeExcessR.magnitude = 0 <;>
        simp [hl, hl', hr, hr'] at hs
      · rw [h.default_right hr, h'.default_right hr', Signed.toInt_eq_zero.2 hr, Signed.toInt_eq_zero.2 hr']
        exact ⟨hs.1, rfl, hs.2, rfl⟩
      · exact ⟨hs.1.1, hs.2.1, hs.1.2, hs.2.2⟩

/-! ### Totals -/

/-- The excess of a token. -/
def total (e : FeeExcess) (t : Nat) : Int :=
  (if e.feeTokenL = t then e.feeExcessL.toInt else 0) + (if e.feeTokenR = t then e.feeExcessR.toInt else 0)

/-- The part of a product that belongs to a token. -/
def part (t : Nat) : Monoid.CoprodI Ledgers →* Multiplicative ℤ :=
  Monoid.CoprodI.lift (fun i => if i = t then MonoidHom.id _ else 1)

theorem part_factor (t : Nat) (p : Nat × Signed) : (part t (factor p)).toAdd = if p.1 = t then p.2.toInt else 0 := by
  unfold part factor
  rw [Monoid.CoprodI.lift_of]
  split <;> simp

theorem part_value (t : Nat) (e : FeeExcess) : (part t e.value).toAdd = e.total t := by
  unfold value total
  rw [map_mul, toAdd_mul, part_factor, part_factor]

theorem combine_total (h : combine a b = .ok r) (t : Nat) : r.total t = a.total t + b.total t := by
  rw [← part_value, ← part_value, ← part_value, combine_value h, map_mul, toAdd_mul]

/-! ### Zero -/

theorem add_of_zero (hx : x.magnitude < 2 ^ 64) (hy : y.magnitude < 2 ^ 64)
    (h : x.magnitude = 0 ∨ y.magnitude = 0) : ∃ z, Signed.add x y = some z := by
  rcases h with h | h
  · exact ⟨_, Signed.add_of_left_zero h hy⟩
  · exact ⟨_, Signed.add_of_right_zero hx h⟩

theorem rebalance_ok (hf : e.Fits)
    (h : e.feeTokenL = e.feeTokenR → e.feeExcessL.magnitude = 0 ∨ e.feeExcessR.magnitude = 0) :
    ∃ r, rebalance e = .ok r := by
  unfold rebalance
  by_cases hl : e.feeExcessL.magnitude = 0
  · obtain ⟨z, hz⟩ := add_of_zero hf.1 hf.2 (.inl hl)
    simp only [hl, if_true, hz]
    exact ⟨_, rfl⟩
  · by_cases ht : e.feeTokenL = e.feeTokenR
    · obtain ⟨z, hz⟩ := add_of_zero hf.1 hf.2 (h ht)
      simp only [hl, if_false, ht, if_true, hz]
      exact ⟨_, rfl⟩
    · simp only [hl, ht, if_false]
      exact ⟨_, rfl⟩

theorem Canonical.add_ok (h : Canonical e) :
    e.feeTokenL = e.feeTokenR → e.feeExcessL.magnitude = 0 ∨ e.feeExcessR.magnitude = 0 := by
  intro ht
  by_contra hno
  rw [not_or] at hno
  exact h.distinct hno.1 hno.2 ht

theorem eliminateFeeExcess_zero {r : Nat × Signed} (hl : l.2.magnitude < 2 ^ 64)
    (hm : m.2.magnitude < 2 ^ 64) (hr : r.2.magnitude = 0) (h : l.1 = m.1 → l.2.magnitude = 0 ∨ m.2.magnitude = 0) :
    ∃ l' r', eliminateFeeExcess l m r = .ok (l', r') ∧ l'.2.magnitude < 2 ^ 64
      ∧ r'.2.magnitude < 2 ^ 64 ∧ (l'.1 = r'.1 → l'.2.magnitude = 0 ∨ r'.2.magnitude = 0) := by
  have hr64 : r.2.magnitude < 2 ^ 64 := by
    rw [hr]
    exact Nat.two_pow_pos 64
  unfold eliminateFeeExcess addErr
  by_cases hc : l.1 = m.1 ∨ l.2.magnitude = 0
  · obtain ⟨z, hz⟩ := add_of_zero hl hm (hc.elim h .inl)
    rw [if_pos hc, hz]
    exact ⟨_, _, rfl, Signed.add_magnitude_lt hl hm hz, hr64, fun _ => .inr hr⟩
  · obtain ⟨z, hz⟩ := add_of_zero hr64 hm (.inl hr)
    rw [if_neg hc, if_pos (.inr hr), hz]
    exact ⟨_, _, rfl, hl, Signed.add_magnitude_lt hr64 hm hz, fun ht => absurd (.inl ht) hc⟩

theorem zero_value : zero.value = 1 := by
  unfold value
  rw [factor_zero rfl, factor_zero rfl, mul_one]

theorem zero_canonical : Canonical zero :=
  ⟨⟨Nat.two_pow_pos 64, Nat.two_pow_pos 64⟩, fun _ => rfl, fun _ => rfl, fun _ => rfl, fun h => absurd rfl h⟩

theorem combine_zero_left (h : Canonical a) : ∃ r, combine zero a = .ok r ∧ Same r a := by
  have h1 : eliminateFeeExcess (zero.feeTokenL, zero.feeExcessL) (zero.feeTokenR, zero.feeExcessR)
      (a.feeTokenL, a.feeExcessL) = .ok ((TokenId.default, Signed.zero), (a.feeTokenL, a.feeExcessL)) := rfl
  have h2 : eliminateFeeExcess (TokenId.default, Signed.zero) (a.feeTokenL, a.feeExcessL)
      (a.feeTokenR, a.feeExcessR) = .ok ((a.feeTokenL, .create a.feeExcessL.magnitude a.feeExcessL.sgn),
        (a.feeTokenR, a.feeExcessR)) := by
    unfold eliminateFeeExcess addErr
    rw [if_pos (.inr rfl), Signed.add_of_left_zero rfl h.fits.1]
    rfl
  obtain ⟨r, h3⟩ := rebalance_ok (e := ⟨a.feeTokenL, .create a.feeExcessL.magnitude a.feeExcessL.sgn,
    a.feeTokenR, a.feeExcessR⟩) h.fits h.add_ok
  have heq : combine zero a = .ok r := by
    unfold combine
    simp only [h1, h2, bind, Except.bind, h3]
  refine ⟨r, heq, (combine_canonical zero_canonical.fits h.fits heq).same_of_value_eq h ?_⟩
  rw [combine_value heq, zero_value, one_mul]

theorem combine_zero_right (h : Canonical a) : ∃ r, combine a zero = .ok r ∧ Same r a := by
  obtain ⟨l, m, h1, hl, hm, ht⟩ := eliminateFeeExcess_zero (l := (a.feeTokenL, a.feeExcessL))
    (m := (a.feeTokenR, a.feeExcessR)) (r := (zero.feeTokenL, zero.feeExcessL)) h.fits.1 h.fits.2 rfl
    h.add_ok
  obtain ⟨l', r', h2, hl', hr', ht'⟩ := eliminateFeeExcess_zero
    (r := (zero.feeTokenR, zero.feeExcessR)) hl hm rfl ht
  obtain ⟨r, h3⟩ := rebalance_ok (e := ⟨l'.1, l'.2, r'.1, r'.2⟩) ⟨hl', hr'⟩ ht'
  have heq : combine a zero = .ok r := by
    unfold combine
    simp only [h1, h2, bind, Except.bind, h3]
  refine ⟨r, heq, (combine_canonical h.fits zero_canonical.fits heq).same_of_value_eq h ?_⟩
  rw [combine_value heq, zero_value, mul_one]

/-- `of_single` does not raise, and gives the canonical form. -/
theorem ofSingle_canonical (h : p.2.magnitude < 2 ^ 64) : ∃ e, ofSingle p = some e ∧ Canonical e := by
  have hf : Fits ⟨p.1, p.2, TokenId.default, Signed.zero⟩ := ⟨h, Nat.two_pow_pos 64⟩
  obtain ⟨r, hr⟩ := rebalance_ok hf fun _ => .inr rfl
  refine ⟨r, ?_, rebalance_canonical hf hr⟩
  unfold ofSingle
  rw [hr]
  rfl

/-- The excesses that `of_one_or_two` is given fit into 64 bits. -/
def PartsFit : OneOrTwo (Nat × Signed) → Prop
  | .one p => p.2.magnitude < 2 ^ 64
  | .two p q => p.2.magnitude < 2 ^ 64 ∧ q.2.magnitude < 2 ^ 64

theorem ofOneOrTwo_canonical {p : OneOrTwo (Nat × Signed)} (hp : PartsFit p)
    (h : ofOneOrTwo p = .ok e) : Canonical e := by
  cases p with
  | one p => exact rebalance_canonical (e := ⟨p.1, p.2, _, _⟩) ⟨hp, Nat.two_pow_pos 64⟩ h
  | two p q => exact rebalance_canonical (e := ⟨p.1, p.2, q.1, q.2⟩) hp h

/-- The excesses that `of_single`, `of_one_or_two` and `combine` produce. -/
inductive Produced : FeeExcess → Prop where
  | ofSingle {p : Nat × Signed} {e : FeeExcess} : p.2.magnitude < 2 ^ 64 → ofSingle p = some e → Produced e
  | ofOneOrTwo {p : OneOrTwo (Nat × Signed)} {e : FeeExcess} : PartsFit p → ofOneOrTwo p = .ok e →
      Produced e
  | combine {a b e : FeeExcess} : Produced a → Produced b → combine a b = .ok e → Produced e

theorem Produced.canonical (h : Produced e) : Canonical e := by
  induction h with
  | ofSingle hp he =>
    obtain ⟨e', he', hc⟩ := ofSingle_canonical hp
    rw [he] at he'
    exact Option.some.inj he' ▸ hc
  | ofOneOrTwo hp he => exact ofOneOrTwo_canonical hp he
  | combine _ _ he iha ihb => exact combine_canonical iha.fits ihb.fits he

/-- **Merging is associative, has zero as unit, gives canonical forms and conserves the
excess of every token.** The results are equal if no zero in the inputs is negative;
otherwise they are the same by `Fee.Signed.equal`. -/
theorem combine_lawful : (∀ a b c ab bc x y : FeeExcess, Produced a → Produced b → Produced c →
        combine a b = .ok ab → combine ab c = .ok x → combine b c = .ok bc → combine a bc = .ok y →
        Same x y ∧ (a.Normal → b.Normal → c.Normal → x = y))
      ∧ (∀ a : FeeExcess, Produced a → ∃ x y, combine zero a = .ok x ∧ combine a zero = .ok y
        ∧ Same x a ∧ Same y a ∧ (a.Normal → x = a ∧ y = a))
      ∧ (∀ e : FeeExcess, Produced e → Canonical e)
      ∧ ∀ a b e : FeeExcess, combine a b = .ok e → ∀ t, e.total t = a.total t + b.total t := by
  refine ⟨?_, ?_, fun e he => he.canonical, fun a b e h t => combine_total h t⟩
  · intro a b c ab bc x y ha hb hc hab hx hbc hy
    have hab' := combine_canonical ha.canonical.fits hb.canonical.fits hab
    have hbc' := combine_canonical hb.canonical.fits hc.canonical.fits hbc
    have hx' := combine_canonical hab'.fits hc.canonical.fits hx
    have hy' := combine_canonical ha.canonical.fits hbc'.fits hy
    have hsame : Same x y := by
      refine hx'.same_of_value_eq hy' ?_
      rw [combine_value hx, combine_value hab, combine_value hy, combine_value hbc, mul_assoc]
    refine ⟨hsame, fun na nb nc => hsame.eq ?_ ?_⟩
    · exact combine_normal (combine_normal na nb hab) nc hx
    · exact combine_normal na (combine_normal nb nc hbc) hy
  · intro a ha
    obtain ⟨x, hx, hsx⟩ := combine_zero_left ha.canonical
    obtain ⟨y, hy, hsy⟩ := combine_zero_right ha.canonical
    have hz : zero.Normal := ⟨fun _ => rfl, fun _ => rfl⟩
    exact ⟨x, y, hx, hy, hsx, hsy, fun na =>
      ⟨hsx.eq (combine_normal hz na hx) na, hsy.eq (combine_normal na hz hy) na⟩⟩

-- the excess in the middle is of one token and cancels
example : combine ⟨2, ⟨5, .pos⟩, 3, ⟨1, .pos⟩⟩ ⟨3, ⟨1, .neg⟩, 2, ⟨4, .neg⟩⟩
    = .ok ⟨2, ⟨1, .pos⟩, TokenId.default, Signed.zero⟩ := by decide

end FeeExcess

end MinaProtocol
