import MinaProtocol.Base.FeeExcess
import MinaProtocol.Currency.CheckedSigned

/-!
# Base.CheckedFeeExcess

Fee excesses in the circuit: `combine_checked` of `fee_excess.ml`. It adds in the field, without
a check between the additions, and changes the token of a zero excess on either side. `moveExcess`
and `rebalanceChecked` are stated over any group: what they do in the field is what they do to
integers. There they keep the totals, and follow the unchecked code up to the tokens of zeros.
-/

namespace MinaProtocol.FeeExcess

open Currency (WideField SignedPoly)
open Currency.Checked (SignedVar)

/-! ### The circuit -/

section Definitions

variable {A : Type} [AddGroup A] [DecidableEq A]

/-- `combine` of `eliminate_fee_excess_checked`: the new left or right excess, and what is left of
the middle one. -/
def moveExcess (side : Nat × A) (feeTokenM : Nat) (feeExcessM : A) : (Nat × A) × A :=
  let feeTokenEqual := decide (side.1 = feeTokenM)
  let feeExcessZero := decide (0 = side.2)
  let mayMove := feeTokenEqual || feeExcessZero
  let feeToken := if feeExcessZero then feeTokenM else side.1
  let feeExcessToMove := if mayMove then feeExcessM else 0
  ((feeToken, side.2 + feeExcessToMove), feeExcessM - feeExcessToMove)

/-- The two moves of `eliminate_fee_excess_checked`, and what is left. -/
def eliminate (l m r : Nat × A) : ((Nat × A) × (Nat × A)) × A :=
  let left := moveExcess l m.1 m.2
  let right := moveExcess r m.1 left.2
  ((left.1, right.1), right.2)

/-- `rebalance_checked`. -/
def rebalanceChecked (l r : Nat × A) : (Nat × A) × (Nat × A) :=
  let feeTokenL := if decide (0 = l.2) then r.1 else l.1
  let tokensEqual := decide (feeTokenL = r.1)
  let amountToMove := if tokensEqual then r.2 else 0
  let feeExcessL := l.2 + amountToMove
  let feeExcessR := r.2 - amountToMove
  ((if decide (0 = feeExcessL) then TokenId.default else feeTokenL, feeExcessL),
    (if decide (0 = feeExcessR) then TokenId.default else r.1, feeExcessR))

end Definitions

section Circuit

variable {F : Type} [Field F] [DecidableEq F]

/-- `eliminate_fee_excess_checked`. -/
def eliminateFeeExcessChecked (l m r : Nat × F) : Circuit ((Nat × F) × (Nat × F)) := do
  let (sides, feeExcessM) := eliminate l m r
  Circuit.assert (0 = feeExcessM)
  pure sides

/-- `Fee_excess.var`. -/
structure Var (F : Type) where
  feeTokenL : Nat
  feeExcessL : SignedVar F
  feeTokenR : Nat
  feeExcessR : SignedVar F

/-- `Fee.Signed.typ`. -/
def signedTyp : Circuit (SignedVar F) :=
  Circuit.choose fun d => CheckedNumber.InRange 64 d.magnitude ∧ d.sgn * d.sgn = 1 ∧ d.value = none

/-- `convert_to_currency` of `combine_checked`. -/
def convertToCurrency (excess : F) : Circuit (SignedVar F) := do
  let currencyExcess ← signedTyp
  let excessFromCurrency ← currencyExcess.toFieldVar
  Circuit.assert (excess = excessFromCurrency)
  pure currencyExcess

/-- `combine_checked`. -/
def combineChecked (e1 e2 : Var F) : Circuit (Var F) := do
  let feeExcess1L ← e1.feeExcessL.toFieldVar
  let feeExcess1R ← e1.feeExcessR.toFieldVar
  let feeExcess2L ← e2.feeExcessL.toFieldVar
  let feeExcess2R ← e2.feeExcessR.toFieldVar
  -- [1l; 1r; 2l; 2r] -> [1l; 2l; 2r] -> [1l; 2r]
  let (l1, l2) ← eliminateFeeExcessChecked (e1.feeTokenL, feeExcess1L) (e1.feeTokenR, feeExcess1R)
    (e2.feeTokenL, feeExcess2L)
  let (l1, r2) ← eliminateFeeExcessChecked l1 l2 (e2.feeTokenR, feeExcess2R)
  let (l, r) := rebalanceChecked l1 r2
  let feeExcessL ← convertToCurrency l.2
  let feeExcessR ← convertToCurrency r.2
  pure ⟨l.1, feeExcessL, r.1, feeExcessR⟩

end Circuit

/-! ### The excesses as integers -/

variable (p : Nat × Int) {l r l' r' : Nat × Int} {m : Nat × Int}

/-- An excess of a token. -/
def totalOf (t : Nat) : Int := if p.1 = t then p.2 else 0

theorem moveExcess_cases (tokenM : Nat) (excessM : Int) :
    (p.2 = 0 ∧ moveExcess p tokenM excessM = ((tokenM, excessM), 0))
      ∨ (p.2 ≠ 0 ∧ p.1 = tokenM ∧ moveExcess p tokenM excessM = ((tokenM, p.2 + excessM), 0))
      ∨ (p.2 ≠ 0 ∧ p.1 ≠ tokenM ∧ moveExcess p tokenM excessM = (p, excessM)) := by
  obtain ⟨t, x⟩ := p
  unfold moveExcess
  by_cases hx : x = 0
  · exact .inl ⟨hx, by simp [hx]⟩
  · by_cases ht : t = tokenM
    · exact .inr (.inl ⟨hx, ht, by simp [ht, Ne.symm hx]⟩)
    · exact .inr (.inr ⟨hx, ht, by simp [ht, Ne.symm hx]⟩)

theorem moveExcess_total (tokenM : Nat) (excessM : Int) (t : Nat) :
    totalOf (moveExcess p tokenM excessM).1 t + totalOf (tokenM, (moveExcess p tokenM excessM).2) t
      = totalOf p t + totalOf (tokenM, excessM) t := by
  obtain ⟨h0, h⟩ | ⟨-, ht, h⟩ | ⟨-, -, h⟩ := moveExcess_cases p tokenM excessM <;> rw [h] <;>
    simp only [totalOf] <;> grind

theorem eliminate_total (h : eliminate l m r = ((l', r'), 0)) (t : Nat) :
    totalOf l' t + totalOf r' t = totalOf l t + totalOf m t + totalOf r t := by
  have hleft := moveExcess_total l m.1 m.2 t
  have hright := moveExcess_total r m.1 (moveExcess l m.1 m.2).2 t
  unfold eliminate at h
  simp only [Prod.mk.injEq] at h
  obtain ⟨⟨rfl, rfl⟩, h0⟩ := h
  rw [h0] at hright
  simp only [totalOf] at *
  grind

theorem rebalanceChecked_total (l r : Nat × Int) (t : Nat) :
    totalOf (rebalanceChecked l r).1 t + totalOf (rebalanceChecked l r).2 t = totalOf l t + totalOf r t := by
  unfold rebalanceChecked totalOf
  grind

theorem rebalanceChecked_canonical (l r : Nat × Int)
    (h : rebalanceChecked l r = (l', r')) : (l'.2 = 0 → r'.2 = 0) ∧ (l'.2 = 0 → l'.1 = TokenId.default)
      ∧ (r'.2 = 0 → r'.1 = TokenId.default) ∧ (l'.2 ≠ 0 → r'.2 ≠ 0 → l'.1 ≠ r'.1) := by
  unfold rebalanceChecked at h
  grind

/-! ### Against the unchecked code -/

/-- The integer is the signed excess, and has its token if it is not zero. -/
structure Follows (q : Nat × Signed) : Prop where
  excess : p.2 = q.2.toInt
  token : p.2 ≠ 0 → p.1 = q.1

theorem eliminate_follows {l' m' r' q q' : Nat × Signed} (hl : Follows l l')
    (hm : Follows m m') (hr : Follows r r') (h : eliminateFeeExcess l' m' r' = .ok (q, q')) :
    (eliminate l m r).2 = 0 ∧ Follows (eliminate l m r).1.1 q ∧ Follows (eliminate l m r).1.2 q' := by
  obtain ⟨hl, htl⟩ := hl
  obtain ⟨hm, htm⟩ := hm
  obtain ⟨hr, htr⟩ := hr
  unfold eliminateFeeExcess addErr at h
  simp only [← Signed.toInt_eq_zero] at h
  have hleft := moveExcess_cases l m.1 m.2
  have hright := moveExcess_cases r m.1 (moveExcess l m.1 m.2).2
  unfold eliminate
  split at h
  · rename_i hc
    cases hz : Signed.add l'.2 m'.2 with
    | none => simp [hz, bind, Except.bind] at h
    | some z =>
      have hsum := (Signed.toInt_add hz).1
      simp only [hz, bind, Except.bind, pure, Except.pure, Except.ok.injEq, Prod.mk.injEq] at h
      obtain ⟨rfl, rfl⟩ := h
      refine ⟨?_, ⟨?_, ?_⟩, ⟨?_, ?_⟩⟩ <;> grind
  · split at h
    · rename_i hc
      cases hz : Signed.add r'.2 m'.2 with
      | none => simp [hz, bind, Except.bind] at h
      | some z =>
        have hsum := (Signed.toInt_add hz).1
        simp only [hz, bind, Except.bind, pure, Except.pure, Except.ok.injEq, Prod.mk.injEq] at h
        obtain ⟨rfl, rfl⟩ := h
        refine ⟨?_, ⟨?_, ?_⟩, ⟨?_, ?_⟩⟩ <;> grind
    · split at h
      · simp only [pure, Except.pure, Except.ok.injEq, Prod.mk.injEq] at h
        obtain ⟨rfl, rfl⟩ := h
        refine ⟨?_, ⟨?_, ?_⟩, ⟨?_, ?_⟩⟩ <;> grind
      · cases h

theorem rebalanceChecked_follows {e e' : FeeExcess}
    (hl : Follows l (e.feeTokenL, e.feeExcessL)) (hr : Follows r (e.feeTokenR, e.feeExcessR))
    (h : rebalance e = .ok e') :
    rebalanceChecked l r = ((e'.feeTokenL, e'.feeExcessL.toInt), (e'.feeTokenR, e'.feeExcessR.toInt)) := by
  obtain ⟨hl, htl⟩ := hl
  obtain ⟨hr, htr⟩ := hr
  rcases rebalance_cases h with ⟨z, hc, hz, rfl⟩ | ⟨h0, ht, rfl⟩
  · have hsum := (Signed.toInt_add hz).1
    simp only [← Signed.toInt_eq_zero] at hc ⊢
    unfold rebalanceChecked
    dsimp only at *
    rw [Signed.toInt_zero]
    grind
  · have h0' : e.feeExcessL.toInt ≠ 0 := fun hz => h0 (Signed.toInt_eq_zero.1 hz)
    simp only [← Signed.toInt_eq_zero]
    unfold rebalanceChecked
    dsimp only at *
    grind

/-! ### In the field -/

section Field

variable {F : Type} [Field F] [DecidableEq F] {bits : Nat} {l l' r r' : Nat × Int}

/-- The integer as an element of the field. -/
def castPair (p : Nat × Int) : Nat × F := (p.1, (p.2 : F))

variable [WideField F] {m : Nat × Int} {a b : FeeExcess} {rest : Int}

omit [DecidableEq F] in
theorem zero_eq_intCast {z : Int} (hz : |z| < 2 ^ 98) : (0 : F) = (z : F) ↔ 0 = z := by
  rw [← Int.cast_zero]
  exact Currency.Checked.intCast_inj (by norm_num) hz

theorem moveExcess_cast {p : Nat × Int} (hp : |p.2| < 2 ^ 98) (tokenM : Nat) (excessM : Int) :
    moveExcess (castPair p : Nat × F) tokenM (excessM : F)
      = (castPair (moveExcess p tokenM excessM).1, ((moveExcess p tokenM excessM).2 : F)) := by
  have hzero : decide ((0 : F) = (p.2 : F)) = decide (0 = p.2) := decide_eq_decide.2 (zero_eq_intCast hp)
  unfold moveExcess castPair
  simp only [hzero]
  split <;> simp

/-- The integers are below a power of two. -/
def Below (bits : Nat) (p : Nat × Int) : Prop := |p.2| < 2 ^ bits

theorem moveExcess_below {p : Nat × Int} (hp : Below bits p) (hm : Below bits m) :
    Below (bits + 1) (moveExcess p m.1 m.2).1 ∧ |(moveExcess p m.1 m.2).2| < 2 ^ bits := by
  unfold Below at *
  rw [pow_succ]
  rw [abs_lt] at *
  rw [abs_lt]
  generalize (2 : Int) ^ bits = bound at *
  obtain ⟨-, h⟩ | ⟨-, -, h⟩ | ⟨-, -, h⟩ := moveExcess_cases p m.1 m.2 <;> rw [h] <;> dsimp only <;> omega

theorem eliminate_below (hl : Below bits l)
    (hm : Below bits m) (hr : Below bits r) (h : eliminate l m r = ((l', r'), rest)) :
    Below (bits + 1) l' ∧ Below (bits + 1) r' ∧ |rest| < 2 ^ bits := by
  obtain ⟨hleft, hmiddle⟩ := moveExcess_below hl hm
  obtain ⟨hright, hrest⟩ := moveExcess_below (m := (m.1, (moveExcess l m.1 m.2).2)) hr hmiddle
  cases h
  exact ⟨hleft, hright, hrest⟩

theorem returns_eliminate (hbits : bits ≤ 90)
    (hl : Below bits l) (hm : Below bits m) (hr : Below bits r) (h : eliminate l m r = ((l', r'), rest))
    {out : (Nat × F) × (Nat × F)} : (eliminateFeeExcessChecked (castPair l) (castPair m) (castPair r)).Returns out
      ↔ rest = 0 ∧ out = (castPair l', castPair r') := by
  have hwide : (2 : Int) ^ bits ≤ 2 ^ 98 := pow_le_pow_right₀ (by norm_num) (by omega)
  have hrest := zero_eq_intCast (F := F) ((eliminate_below hl hm hr h).2.2.trans_le hwide)
  have hcast : eliminate (castPair l : Nat × F) (castPair m) (castPair r)
      = ((castPair l', castPair r'), (rest : F)) := by
    have hleft := moveExcess_cast (F := F) (hl.trans_le hwide) m.1 m.2
    have hright := moveExcess_cast (F := F) (hr.trans_le hwide) m.1 (moveExcess l m.1 m.2).2
    change moveExcess (castPair l : Nat × F) (castPair m : Nat × F).1 (castPair m : Nat × F).2 = _ at hleft
    change moveExcess (castPair r : Nat × F) (castPair m : Nat × F).1 _ = _ at hright
    cases h
    simp only [eliminate, hleft, hright]
  unfold eliminateFeeExcessChecked
  rw [hcast]
  simp only [Circuit.returns_bind, Circuit.returns_assert, Circuit.returns_pure, exists_const, hrest]
  exact and_congr_left' eq_comm

theorem rebalanceChecked_below (hl : Below bits l) (hr : Below bits r)
    (h : rebalanceChecked l r = (l', r')) : Below (bits + 1) l' ∧ Below (bits + 1) r' := by
  unfold Below at *
  rw [pow_succ]
  rw [abs_lt] at *
  rw [abs_lt]
  generalize (2 : Int) ^ bits = bound at *
  cases h
  dsimp only
  by_cases heq : (if decide (0 = l.2) then r.1 else l.1) = r.1 <;> simp only [heq] <;> simp <;> omega

theorem rebalanceChecked_cast (hbits : bits ≤ 90) (hl : Below bits l)
    (hr : Below bits r) (h : rebalanceChecked l r = (l', r')) :
    rebalanceChecked (castPair l : Nat × F) (castPair r) = (castPair l', castPair r') := by
  have hwide : (2 : Int) ^ bits ≤ 2 ^ 98 := pow_le_pow_right₀ (by norm_num) (by omega)
  have hwide' : (2 : Int) ^ (bits + 1) ≤ 2 ^ 98 := pow_le_pow_right₀ (by norm_num) (by omega)
  obtain ⟨hl', hr'⟩ := rebalanceChecked_below hl hr h
  have hzero : decide ((0 : F) = (l.2 : F)) = decide (0 = l.2) :=
    decide_eq_decide.2 (zero_eq_intCast (hl.trans_le hwide))
  have hzeroL := zero_eq_intCast (F := F) (hl'.trans_le hwide')
  have hzeroR := zero_eq_intCast (F := F) (hr'.trans_le hwide')
  cases h
  unfold rebalanceChecked castPair
  dsimp only at *
  simp only [hzero]
  by_cases heq : (if decide (0 = l.2) then r.1 else l.1) = r.1
  · simp only [heq, decide_true, if_true] at *
    push_cast at *
    simp only [hzeroL, hzeroR]
  · simp only [heq, decide_false] at *
    push_cast at *
    simp only [hzeroL, hzeroR]

omit [DecidableEq F] in
theorem returns_convertToCurrency {z : Int} (hz : |z| < 2 ^ 98) {d : SignedVar F} :
    (convertToCurrency (z : F)).Returns d
      ↔ ∃ x : SignedPoly, x.toInt = z ∧ d = SignedVar.ofSigned x := by
  unfold convertToCurrency signedTyp
  simp only [Circuit.returns_bind, Circuit.returns_choose, Circuit.returns_assert, Circuit.returns_pure]
  constructor
  · rintro ⟨⟨_, sgn, _⟩, ⟨⟨n, hn, rfl⟩, hsgn, rfl⟩, _, rfl, -, heq, rfl⟩
    have hword : (UInt64.ofNat n).toNat = n := by rw [UInt64.toNat_ofNat', Nat.mod_eq_of_lt hn]
    have hfit : |(n : Int)| < 2 ^ 98 ∧ |-(n : Int)| < 2 ^ 98 := by
      rw [abs_neg, abs_of_nonneg (Int.natCast_nonneg n)]
      omega
    obtain rfl | rfl := mul_self_eq_one_iff.1 hsgn
    · rw [one_mul, ← Int.cast_natCast, Currency.Checked.intCast_inj hz hfit.1] at heq
      refine ⟨⟨UInt64.ofNat n, .pos⟩, ?_, ?_⟩
      · rw [heq, SignedVar.toInt_eq_sign_mul, hword]
        exact one_mul _
      · simp [SignedVar.ofSigned, SignedVar.sign, Currency.Checked.word, hword]
    · rw [neg_one_mul, ← Int.cast_natCast, ← Int.cast_neg, Currency.Checked.intCast_inj hz hfit.2] at heq
      refine ⟨⟨UInt64.ofNat n, .neg⟩, ?_, ?_⟩
      · rw [heq, SignedVar.toInt_eq_sign_mul, hword]
        exact neg_one_mul _
      · simp [SignedVar.ofSigned, SignedVar.sign, Currency.Checked.word, hword]
  · rintro ⟨x, rfl, rfl⟩
    refine ⟨_, ⟨⟨x.magnitude.toNat, x.magnitude.toNat_lt, rfl⟩, ?_, rfl⟩, _, ?_, (), rfl, rfl⟩
    · obtain ⟨m, s⟩ := x
      cases s <;> simp [SignedVar.ofSigned, SignedVar.sign]
    · rw [(SignedVar.represents_ofSigned x).toFieldVar]
      rfl

/-- The amount in a word. -/
def poly (x : Signed) : SignedPoly := ⟨UInt64.ofNat x.magnitude, x.sgn⟩

omit [Field F] [DecidableEq F] [WideField F] in
theorem toInt_poly {x : Signed} (h : x.magnitude < 2 ^ 64) : (poly x).toInt = x.toInt := by
  have hword : (UInt64.ofNat x.magnitude).toNat = x.magnitude := by
    rw [UInt64.toNat_ofNat', Nat.mod_eq_of_lt h]
  unfold SignedPoly.toInt SignedPoly.toSigned poly
  rw [hword]

omit [DecidableEq F] [WideField F] in
/-- Amounts of one integer are the same up to the sign of zero. -/
theorem matches_of_toInt_eq {x y : SignedPoly} (h : x.toInt = y.toInt) :
    (SignedVar.ofSigned x : SignedVar F).Matches y := by
  obtain ⟨m, s⟩ := x
  obtain ⟨m', s'⟩ := y
  rw [SignedVar.toInt_eq_sign_mul, SignedVar.toInt_eq_sign_mul] at h
  have hm : m = m' := by
    rw [← UInt64.toNat_inj]
    cases s <;> cases s' <;> simp only [SignedVar.sign] at h <;> omega
  refine ⟨congrArg Currency.Checked.word hm, fun hne => ?_⟩
  have hpos : m'.toNat ≠ 0 := fun h0 => hne (UInt64.toNat_inj.1 h0)
  have hs : s = s' := by
    rw [hm] at h
    cases s <;> cases s' <;> simp only [SignedVar.sign] at h ⊢ <;> omega
  rw [← hs]
  rfl

omit [DecidableEq F] [WideField F] in
theorem represents_toSigned (x : SignedPoly) : (SignedVar.ofSigned x : SignedVar F).Represents (poly x.toSigned) := by
  have hpoly : poly x.toSigned = x := by
    obtain ⟨m, s⟩ := x
    simp [poly, SignedPoly.toSigned]
  rw [hpoly]
  exact SignedVar.represents_ofSigned x

namespace Var

/-- The variable is one of the fee excess. -/
structure Represents (d : Var F) (e : FeeExcess) : Prop where
  feeTokenL : d.feeTokenL = e.feeTokenL
  feeExcessL : d.feeExcessL.Represents (poly e.feeExcessL)
  feeTokenR : d.feeTokenR = e.feeTokenR
  feeExcessR : d.feeExcessR.Represents (poly e.feeExcessR)

/-- The variable is one of the fee excess, up to the signs of zeros. -/
structure Matches (d : Var F) (e : FeeExcess) : Prop where
  feeTokenL : d.feeTokenL = e.feeTokenL
  feeExcessL : d.feeExcessL.Matches (poly e.feeExcessL)
  feeTokenR : d.feeTokenR = e.feeTokenR
  feeExcessR : d.feeExcessR.Matches (poly e.feeExcessR)

end Var

/-- The left excess as an integer. -/
def left (e : FeeExcess) : Nat × Int := (e.feeTokenL, e.feeExcessL.toInt)

/-- The right excess as an integer. -/
def right (e : FeeExcess) : Nat × Int := (e.feeTokenR, e.feeExcessR.toInt)

theorem Fits.below {e : FeeExcess} (h : e.Fits) : Below 64 (left e) ∧ Below 64 (right e) := by
  unfold Below left right
  dsimp only
  rw [Int.abs_eq_natAbs, Int.abs_eq_natAbs, Signed.natAbs_toInt, Signed.natAbs_toInt]
  exact ⟨by exact_mod_cast h.1, by exact_mod_cast h.2⟩

theorem returns_combineChecked (ha : a.Fits) (hb : b.Fits) {da db : Var F}
    (hda : da.Represents a) (hdb : db.Represents b) {out : Var F} : (combineChecked da db).Returns out ↔
      ∃ l1 l2 l r l' r', eliminate (left a) (right a) (left b) = ((l1, l2), 0)
        ∧ eliminate l1 l2 (right b) = ((l, r), 0) ∧ rebalanceChecked l r = (l', r')
        ∧ ∃ x y : SignedPoly, x.toInt = l'.2 ∧ y.toInt = r'.2
          ∧ out = ⟨l'.1, SignedVar.ofSigned x, r'.1, SignedVar.ofSigned y⟩ := by
  obtain ⟨hal, har⟩ := ha.below
  obtain ⟨hbl, hbr⟩ := hb.below
  have hbr' : Below 65 (right b) := lt_trans hbr (by norm_num)
  unfold combineChecked
  rw [hda.feeExcessL.toFieldVar, hda.feeExcessR.toFieldVar, hdb.feeExcessL.toFieldVar,
    hdb.feeExcessR.toFieldVar, toInt_poly ha.1, toInt_poly ha.2, toInt_poly hb.1, toInt_poly hb.2,
    hda.feeTokenL, hda.feeTokenR, hdb.feeTokenL, hdb.feeTokenR]
  simp only [pure_bind]
  change (eliminateFeeExcessChecked (castPair (left a)) (castPair (right a)) (castPair (left b)) >>= fun s =>
    eliminateFeeExcessChecked s.1 s.2 (castPair (right b)) >>= fun s' => _).Returns out ↔ _
  rw [Circuit.returns_bind]
  have hwide : ∀ {p : Nat × Int}, Below 67 p → |p.2| < 2 ^ 98 := fun hp => lt_trans hp (by norm_num)
  constructor
  · rintro ⟨_, hfirst, hrest⟩
    obtain ⟨⟨⟨l1, l2⟩, rest1⟩, h1⟩ : ∃ e, eliminate (left a) (right a) (left b) = e := ⟨_, rfl⟩
    obtain ⟨rfl, rfl⟩ := (returns_eliminate (by decide) hal har hbl h1).1 hfirst
    obtain ⟨hl1, hl2, -⟩ := eliminate_below hal har hbl h1
    obtain ⟨_, hsecond, hrest⟩ := hrest
    obtain ⟨⟨⟨l, r⟩, rest2⟩, h2⟩ : ∃ e, eliminate l1 l2 (right b) = e := ⟨_, rfl⟩
    obtain ⟨rfl, rfl⟩ := (returns_eliminate (by decide) hl1 hl2 hbr' h2).1 hsecond
    obtain ⟨hl, hr, -⟩ := eliminate_below hl1 hl2 hbr' h2
    obtain ⟨⟨l', r'⟩, h3⟩ : ∃ e, rebalanceChecked l r = e := ⟨_, rfl⟩
    obtain ⟨hl', hr'⟩ := rebalanceChecked_below hl hr h3
    rw [rebalanceChecked_cast (by decide) hl hr h3] at hrest
    obtain ⟨_, hleft, _, hright, hout⟩ := hrest
    obtain ⟨x, hx, rfl⟩ := (returns_convertToCurrency (hwide hl')).1 hleft
    obtain ⟨y, hy, rfl⟩ := (returns_convertToCurrency (hwide hr')).1 hright
    exact ⟨l1, l2, l, r, l', r', h1, h2, h3, x, y, hx, hy, hout⟩
  · rintro ⟨l1, l2, l, r, l', r', h1, h2, h3, x, y, hx, hy, hout⟩
    obtain ⟨hl1, hl2, -⟩ := eliminate_below hal har hbl h1
    obtain ⟨hl, hr, -⟩ := eliminate_below hl1 hl2 hbr' h2
    obtain ⟨hl', hr'⟩ := rebalanceChecked_below hl hr h3
    refine ⟨_, (returns_eliminate (by decide) hal har hbl h1).2 ⟨rfl, rfl⟩, _,
      (returns_eliminate (by decide) hl1 hl2 hbr' h2).2 ⟨rfl, rfl⟩, ?_⟩
    dsimp only
    rw [rebalanceChecked_cast (by decide) hl hr h3]
    exact ⟨_, (returns_convertToCurrency (hwide hl')).2 ⟨x, hx, rfl⟩, _,
      (returns_convertToCurrency (hwide hr')).2 ⟨y, hy, rfl⟩, hout⟩

theorem combine_follows {r : FeeExcess} (h : combine a b = .ok r) :
    ∃ l1 l2 l' r', eliminate (left a) (right a) (left b) = ((l1, l2), 0)
      ∧ eliminate l1 l2 (right b) = ((l', r'), 0) ∧ rebalanceChecked l' r' = (left r, right r) := by
  obtain ⟨p, q, p', q', h1, h2, h3⟩ := combine_cases h
  have hfollows : ∀ e : FeeExcess, Follows (left e) (e.feeTokenL, e.feeExcessL)
      ∧ Follows (right e) (e.feeTokenR, e.feeExcessR) :=
    fun e => ⟨⟨rfl, fun _ => rfl⟩, ⟨rfl, fun _ => rfl⟩⟩
  obtain ⟨⟨⟨l1, l2⟩, rest1⟩, he1⟩ : ∃ e, eliminate (left a) (right a) (left b) = e := ⟨_, rfl⟩
  have hfollows1 := eliminate_follows (hfollows a).1 (hfollows a).2 (hfollows b).1 h1
  rw [he1] at hfollows1
  obtain ⟨rfl, hl1, hl2⟩ := hfollows1
  obtain ⟨⟨⟨l, r'⟩, rest2⟩, he2⟩ : ∃ e, eliminate l1 l2 (right b) = e := ⟨_, rfl⟩
  have hfollows2 := eliminate_follows hl1 hl2 (hfollows b).2 h2
  rw [he2] at hfollows2
  obtain ⟨rfl, hl, hr⟩ := hfollows2
  exact ⟨l1, l2, l, r', he1, he2, rebalanceChecked_follows hl hr h3⟩

/-- **The fee excess circuit agrees with the unchecked code.** Where the unchecked code combines two
excesses, the constraints can be satisfied, and force its result up to the signs of zeros. What
satisfies them always is a canonical fee excess that keeps the total of every token. -/
theorem combine_checked_agrees (F : Type) [Field F] [DecidableEq F] [WideField F] (a b : FeeExcess)
    (ha : Canonical a) (hb : Canonical b) (da db : Var F) (hda : da.Represents a) (hdb : db.Represents b) :
    (∀ r, combine a b = .ok r → (combineChecked da db).Satisfiable
        ∧ ∀ out, (combineChecked da db).Returns out → out.Matches r)
      ∧ ∀ out, (combineChecked da db).Returns out →
        ∃ r, out.Represents r ∧ Canonical r ∧ ∀ t, r.total t = a.total t + b.total t := by
  have hreturns : ∀ out, (combineChecked da db).Returns out ↔ _ := fun out => returns_combineChecked ha.fits hb.fits hda hdb
  refine ⟨fun r h => ?_, fun out hout => ?_⟩
  · obtain ⟨l1, l2, l, r', h1, h2, h3⟩ := combine_follows h
    have hfits := (combine_canonical ha.fits hb.fits h).fits
    refine ⟨⟨_, (hreturns _).2 ⟨l1, l2, l, r', _, _, h1, h2, h3, poly r.feeExcessL, poly r.feeExcessR,
      toInt_poly hfits.1, toInt_poly hfits.2, rfl⟩⟩, fun out hout => ?_⟩
    obtain ⟨_, _, _, _, _, _, h1', h2', h3', x, y, hx, hy, rfl⟩ := (hreturns out).1 hout
    cases h1.symm.trans h1'
    cases h2.symm.trans h2'
    cases h3.symm.trans h3'
    exact ⟨rfl, matches_of_toInt_eq (hx.trans (toInt_poly hfits.1).symm), rfl,
      matches_of_toInt_eq (hy.trans (toInt_poly hfits.2).symm)⟩
  · obtain ⟨l1, l2, l, r, l', r', h1, h2, h3, x, y, hx, hy, rfl⟩ := (hreturns out).1 hout
    obtain ⟨hleft, hdefaultL, hdefaultR, hdistinct⟩ := rebalanceChecked_canonical l r h3
    have hx0 : x.toSigned.magnitude = 0 ↔ l'.2 = 0 := by
      rw [← hx, SignedPoly.toInt, Signed.toInt_eq_zero]
    have hy0 : y.toSigned.magnitude = 0 ↔ r'.2 = 0 := by
      rw [← hy, SignedPoly.toInt, Signed.toInt_eq_zero]
    refine ⟨⟨l'.1, x.toSigned, r'.1, y.toSigned⟩, ⟨rfl, represents_toSigned x, rfl, represents_toSigned y⟩,
      ⟨⟨x.magnitude.toNat_lt, y.magnitude.toNat_lt⟩, fun h => hy0.2 (hleft (hx0.1 h)),
        fun h => hdefaultL (hx0.1 h), fun h => hdefaultR (hy0.1 h),
        fun hl hr => hdistinct (mt hx0.2 hl) (mt hy0.2 hr)⟩, fun t => ?_⟩
    have htotal := rebalanceChecked_total l r t
    rw [h3] at htotal
    calc (if l'.1 = t then x.toInt else 0) + (if r'.1 = t then y.toInt else 0)
        = totalOf l' t + totalOf r' t := by rw [hx, hy]; rfl
      _ = totalOf l t + totalOf r t := htotal
      _ = totalOf (left a) t + totalOf (right a) t + totalOf (left b) t + totalOf (right b) t := by
          rw [eliminate_total h2, eliminate_total h1]
      _ = a.total t + b.total t := by
          unfold total totalOf left right
          ring

/-- The variable that `Fee_excess.typ` makes. -/
def Var.ofFeeExcess (e : FeeExcess) : Var F where
  feeTokenL := e.feeTokenL
  feeExcessL := SignedVar.ofSigned (poly e.feeExcessL)
  feeTokenR := e.feeTokenR
  feeExcessR := SignedVar.ofSigned (poly e.feeExcessR)

omit [DecidableEq F] [WideField F] in
theorem Var.represents_ofFeeExcess (e : FeeExcess) : (Var.ofFeeExcess e : Var F).Represents e :=
  ⟨rfl, SignedVar.represents_ofSigned _, rfl, SignedVar.represents_ofSigned _⟩

end Field

/-- An excess of one token. -/
def excessOf (feeToken : Nat) (excess : Signed) : FeeExcess := ⟨feeToken, excess, TokenId.default, Signed.zero⟩

theorem canonical_excessOf {feeToken : Nat} {excess : Signed} (h : excess.magnitude < 2 ^ 64)
    (hne : excess.magnitude ≠ 0) : Canonical (excessOf feeToken excess) :=
  ⟨⟨h, Nat.two_pow_pos 64⟩, fun h0 => absurd h0 hne, fun h0 => absurd h0 hne, fun _ => rfl, fun _ h0 => absurd rfl h0⟩

/-- A fee that is paid in token 7, and paid out. -/
theorem combine_checked_agrees_paid_out : combine (excessOf 7 ⟨5, .pos⟩) (excessOf 7 ⟨5, .neg⟩) = .ok zero
      ∧ (combineChecked (Var.ofFeeExcess (excessOf 7 ⟨5, .pos⟩) : Var (ZMod (mersenne 107)))
        (Var.ofFeeExcess (excessOf 7 ⟨5, .neg⟩))).Satisfiable := by
  have hcombine : combine (excessOf 7 ⟨5, .pos⟩) (excessOf 7 ⟨5, .neg⟩) = .ok zero := by rfl
  exact ⟨hcombine, ((combine_checked_agrees (ZMod (mersenne 107)) (excessOf 7 ⟨5, .pos⟩)
    (excessOf 7 ⟨5, .neg⟩) (canonical_excessOf (by decide) (by decide)) (canonical_excessOf (by decide) (by decide))
    _ _ (Var.represents_ofFeeExcess _) (Var.represents_ofFeeExcess _)).1 zero hcombine).1⟩

end MinaProtocol.FeeExcess
