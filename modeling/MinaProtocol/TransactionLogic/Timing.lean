import MinaProtocol.Base.Account
import MinaProtocol.Base.TransactionStatus
import MinaProtocol.Lib.Outcome

/-!
# TransactionLogic.Timing

The timing of an account. A timed account must keep its minimum balance, which never
grows from slot to slot (`minBalanceAtSlot_antitone`); once it is zero the account
becomes untimed. `validate_timing` lets an amount be taken only when the rest is enough.
-/

namespace MinaProtocol.TransactionLogic

/-- The errors of `validate_timing_with_min_balance'`. -/
inductive TimingError where
  | insufficientBalance (b : Bool)
  | invalidTiming (b : Bool)
deriving DecidableEq, Repr

/-- `validate_timing_with_min_balance'`: the error, the new timing and the minimum balance. -/
def validateTimingWithMinBalance' (account : Account) (txnAmount : Nat) (txnGlobalSlot : GlobalSlot) :
    TimingError × AccountTiming × Nat :=
  match account.timing with
  | .untimed =>
    match Amount.sub account.balance txnAmount with
    | none => (.insufficientBalance true, .untimed, 0)
    | some _ => (.invalidTiming false, .untimed, 0)
  | .timed t =>
    let (invalidBalance, invalidTiming, currMinBalance) : Bool × Bool × Nat :=
      match Amount.sub account.balance txnAmount with
      -- a placeholder, not the minimum balance
      | none => (true, false, t.initialMinimumBalance)
      | some proposedNewBalance =>
        let currMinBalance := Account.minBalanceAtSlot txnGlobalSlot t
        (false, proposedNewBalance < currMinBalance, currMinBalance)
    let possiblyError : TimingError :=
      if invalidBalance then .insufficientBalance invalidBalance else .invalidTiming invalidTiming
    if 0 < currMinBalance then (possiblyError, account.timing, currMinBalance)
    else (possiblyError, .untimed, 0)

/-- The tags of the errors of `validate_timing_with_min_balance`. -/
inductive TimingTag where
  | nsf
  | minBalance
deriving DecidableEq, Repr

/-- `validate_timing_with_min_balance`. -/
def validateTimingWithMinBalance (account : Account) (txnAmount : Nat) (txnGlobalSlot : GlobalSlot) :
    Outcome TimingTag (AccountTiming × Nat) :=
  let (possiblyError, timing, minBalance) := validateTimingWithMinBalance' account txnAmount txnGlobalSlot
  match possiblyError with
  | .insufficientBalance true => .error .nsf
  | .invalidTiming true => .error .minBalance
  | .insufficientBalance false => .raise
  | .invalidTiming false => .ok (timing, minBalance)

/-- `validate_timing`. -/
def validateTiming (account : Account) (txnAmount : Nat) (txnGlobalSlot : GlobalSlot) :
    Outcome TimingTag AccountTiming := do
  let (timing, _) ← validateTimingWithMinBalance account txnAmount txnGlobalSlot
  return timing

/-- `timing_error_to_user_command_status`. -/
def timingErrorToUserCommandStatus : TimingTag → Failure
  | .nsf => .sourceInsufficientBalance
  | .minBalance => .sourceMinimumBalanceViolation

/-! ### The minimum balance -/

variable (slot : GlobalSlot) {account : Account} {slot' : GlobalSlot} {amount : Nat}

/-- The minimum balance of a timing: nothing when it is untimed. -/
def minBalance : AccountTiming → Nat
  | .untimed => 0
  | .timed t => Account.minBalanceAtSlot slot t

/-- The part that has vested after the periods, capped where it would overflow. -/
def vested (increment numPeriods : Nat) : Nat := min (numPeriods * increment) (2 ^ 64 - 1)

theorem vestingDecrement_eq (increment numPeriods : Nat) :
    (if numPeriods ≠ 0 ∧ (2 ^ 64 - 1) / numPeriods < increment then 2 ^ 64 - 1
      else numPeriods * increment) = vested increment numPeriods := by
  unfold vested
  rcases Nat.eq_zero_or_pos numPeriods with rfl | hpos
  · simp
  · have hiff : (2 ^ 64 - 1) / numPeriods < increment ↔ 2 ^ 64 - 1 < numPeriods * increment := by
      rw [Nat.div_lt_iff_lt_mul hpos, Nat.mul_comm]
    split
    · rename_i h
      exact (Nat.min_eq_right (hiff.1 h.2).le).symm
    · rename_i h
      have hle : ¬ 2 ^ 64 - 1 < numPeriods * increment :=
        fun hlt => h ⟨Nat.pos_iff_ne_zero.1 hpos, hiff.2 hlt⟩
      exact (Nat.min_eq_left (Nat.not_lt.1 hle)).symm

theorem vested_mono {increment n m : Nat} (h : n ≤ m) : vested increment n ≤ vested increment m :=
  min_le_min (Nat.mul_le_mul_right _ h) le_rfl

theorem minBalanceAtSlot_of_cliff_le {slot : GlobalSlot} {t : TimingInfo} (h : ¬ slot < t.cliffTime)
    (hp : t.vestingPeriod ≠ 0) : Account.minBalanceAtSlot slot t = t.initialMinimumBalance - t.cliffAmount
      - vested t.vestingIncrement ((slot - t.cliffTime) / t.vestingPeriod).toNat := by
  unfold Account.minBalanceAtSlot
  rw [if_neg h, if_neg hp]
  dsimp only
  rw [vestingDecrement_eq]
  unfold Amount.sub
  split
  · rename_i hs
    split at hs
    · cases hs
    · omega
  · rename_i m hs
    split at hs
    · obtain rfl := Option.some.inj hs
      split
      · rename_i hs'
        split at hs'
        · cases hs'
        · omega
      · rename_i hs'
        split at hs'
        · exact (Option.some.inj hs').symm
        · cases hs'
    · cases hs

theorem minBalanceAtSlot_le_initial (t : TimingInfo) : Account.minBalanceAtSlot slot t ≤ t.initialMinimumBalance := by
  by_cases h : slot < t.cliffTime
  · unfold Account.minBalanceAtSlot
    rw [if_pos h]
  · by_cases hp : t.vestingPeriod = 0
    · unfold Account.minBalanceAtSlot
      rw [if_neg h, if_pos hp]
      exact Nat.zero_le _
    · rw [minBalanceAtSlot_of_cliff_le h hp]
      omega

/-- **The minimum balance never grows.** -/
theorem minBalanceAtSlot_antitone {slot : GlobalSlot} (h : slot ≤ slot') (t : TimingInfo) :
    Account.minBalanceAtSlot slot' t ≤ Account.minBalanceAtSlot slot t := by
  rw [UInt32.le_iff_toNat_le] at h
  by_cases hc : slot < t.cliffTime
  · have hinit : Account.minBalanceAtSlot slot t = t.initialMinimumBalance := by
      unfold Account.minBalanceAtSlot
      rw [if_pos hc]
    rw [hinit]
    exact minBalanceAtSlot_le_initial slot' t
  · have hc' : ¬ slot' < t.cliffTime := by
      rw [UInt32.lt_iff_toNat_lt] at hc ⊢
      omega
    by_cases hp : t.vestingPeriod = 0
    · unfold Account.minBalanceAtSlot
      rw [if_neg hc', if_pos hp]
      exact Nat.zero_le _
    · rw [minBalanceAtSlot_of_cliff_le hc hp, minBalanceAtSlot_of_cliff_le hc' hp]
      refine Nat.sub_le_sub_left (vested_mono ?_) _
      rw [UInt32.toNat_div, UInt32.toNat_div]
      refine Nat.div_le_div_right ?_
      rw [UInt32.lt_iff_toNat_lt] at hc hc'
      rw [UInt32.toNat_sub_of_le, UInt32.toNat_sub_of_le]
      · omega
      · rw [UInt32.le_iff_toNat_le]
        omega
      · rw [UInt32.le_iff_toNat_le]
        omega

theorem minBalance_antitone {slot : GlobalSlot} (h : slot ≤ slot') (timing : AccountTiming) :
    minBalance slot' timing ≤ minBalance slot timing := by
  cases timing with
  | untimed => exact le_rfl
  | timed t => exact minBalanceAtSlot_antitone h t

/-- The timing at the slot: an account whose minimum balance is zero becomes untimed. -/
def timingAfter (timing : AccountTiming) : AccountTiming :=
  if 0 < minBalance slot timing then timing else .untimed

/-! ### What the checks allow -/

theorem validateTimingWithMinBalance'_of_le (h : amount ≤ account.balance) :
    (validateTimingWithMinBalance' account amount slot).1
        = .invalidTiming (account.balance - amount < minBalance slot account.timing)
      ∧ (validateTimingWithMinBalance' account amount slot).2.1 = timingAfter slot account.timing := by
  have hsub : Amount.sub account.balance amount = some (account.balance - amount) :=
    Amount.sub_eq_some.2 (by omega)
  unfold validateTimingWithMinBalance' timingAfter minBalance
  cases account.timing with
  | untimed =>
    rw [hsub]
    simp
  | timed t =>
    rw [hsub]
    dsimp only
    split
    · exact ⟨rfl, rfl⟩
    · exact ⟨rfl, rfl⟩

theorem validateTimingWithMinBalance'_of_lt (h : account.balance < amount) :
    (validateTimingWithMinBalance' account amount slot).1 = .insufficientBalance true := by
  have hsub := Amount.sub_eq_none.2 h
  unfold validateTimingWithMinBalance'
  cases account.timing with
  | untimed => rw [hsub]
  | timed t =>
    rw [hsub]
    dsimp only
    split
    · rfl
    · rfl

/-- **An amount may be taken** exactly when the balance has it and keeps the minimum. -/
theorem validateTiming_eq_ok {slot : GlobalSlot} {timing : AccountTiming} :
    validateTiming account amount slot = .ok timing ↔
      amount ≤ account.balance ∧ minBalance slot account.timing ≤ account.balance - amount
        ∧ timing = timingAfter slot account.timing := by
  unfold validateTiming validateTimingWithMinBalance
  rcases Nat.lt_or_ge account.balance amount with hlt | hge
  · have herr := validateTimingWithMinBalance'_of_lt slot hlt
    generalize validateTimingWithMinBalance' account amount slot = r at herr
    obtain ⟨e, timing', m⟩ := r
    obtain rfl : e = _ := herr
    simp only [Outcome.error_bind, reduceCtorEq, false_iff]
    omega
  · obtain ⟨herr, htiming⟩ := validateTimingWithMinBalance'_of_le slot hge
    generalize validateTimingWithMinBalance' account amount slot = r at herr htiming
    obtain ⟨e, timing', m⟩ := r
    obtain rfl : e = _ := herr
    obtain rfl : timing' = _ := htiming
    by_cases hmin : account.balance - amount < minBalance slot account.timing
    · simp only [hmin, decide_true, Outcome.error_bind, reduceCtorEq, false_iff]
      omega
    · simp only [hmin, decide_false, Outcome.ok_bind, Outcome.pure_eq, Outcome.ok.injEq]
      constructor
      · intro h
        exact ⟨hge, Nat.not_lt.1 hmin, h.symm⟩
      · intro h
        exact h.2.2.symm

end MinaProtocol.TransactionLogic
