import MinaProtocol.TransactionLogic.CheckedTiming
import MinaProtocol.TransactionLogic.Vesting

/-!
# TransactionLogic.VestingSchedule

The end of a vesting schedule, and what vests between two slots. `final_vesting_slot` is the first slot without
locked tokens where the schedule ends before the slots do (`finalVestingSlot_is_first`); beyond that it wraps.
-/

namespace MinaProtocol

namespace Account

/-- `Account.has_locked_tokens`. -/
def hasLockedTokens (globalSlot : GlobalSlot) (account : Account) : Bool :=
  match account.timing with
  | .untimed => false
  | .timed t => 0 < minBalanceAtSlot globalSlot t

/-- `Account.incremental_balance_between_slots`. -/
def incrementalBalanceBetweenSlots (startSlot endSlot : GlobalSlot) (t : TimingInfo) : UInt64 :=
  if endSlot ≤ startSlot then 0
  else
    let minBalanceAtStartSlot := UInt64.ofNat (minBalanceAtSlot startSlot t)
    let minBalanceAtEndSlot := UInt64.ofNat (minBalanceAtSlot endSlot t)
    minBalanceAtStartSlot - minBalanceAtEndSlot

/-- `periods` in `Account.final_vesting_slot`. -/
def vestingPeriods (t : TimingInfo) : Nat :=
  let toVest := (Amount.sub t.initialMinimumBalance t.cliffAmount).getD 0
  toVest / t.vestingIncrement + if toVest % t.vestingIncrement = 0 then 0 else 1

/-- `Account.final_vesting_slot`: `none` where it divides by zero. -/
def finalVestingSlot (t : TimingInfo) : Option GlobalSlot :=
  if t.vestingIncrement = 0 then none
  else some (t.cliffTime + UInt32.ofNat (vestingPeriods t) * t.vestingPeriod)

/-- `Account.timing_final_vesting_slot`. -/
def timingFinalVestingSlot : AccountTiming → Option GlobalSlot
  | .untimed => some 0
  | .timed t => finalVestingSlot t

end Account

namespace TransactionLogic

theorem mul_lt_iff_lt_ceil {n m d : Nat} (hd : 0 < d) : n * d < m ↔ n < m / d + if m % d = 0 then 0 else 1 := by
  have hdiv := Nat.div_add_mod m d
  split
  · rename_i hmod
    rw [hmod, Nat.add_zero, Nat.mul_comm] at hdiv
    rw [Nat.add_zero, ← hdiv, Nat.mul_div_cancel _ hd, Nat.mul_lt_mul_right hd]
  · rename_i hmod
    rw [Nat.lt_succ_iff, Nat.le_div_iff_mul_le hd]
    refine ⟨Nat.le_of_lt, fun hle => Nat.lt_of_le_of_ne hle fun heq => hmod ?_⟩
    rw [← heq, Nat.mul_mod_left]

variable {t : Schedule} {slot : GlobalSlot}

/-- **Some tokens are locked** until all periods have passed. -/
theorem minBalanceAtSlot_pos_iff (hinitial : t.initialMinimumBalance ≠ 0) (hincrement : t.vestingIncrement ≠ 0) :
    0 < Account.minBalanceAtSlot slot t.toTimingInfo ↔
      slot.toNat < t.cliffTime.toNat + Account.vestingPeriods t.toTimingInfo * t.vestingPeriod.toNat := by
  have hpos : 0 < t.vestingIncrement.toNat := Nat.pos_of_ne_zero fun h => hincrement (UInt64.toNat_inj.1 h)
  by_cases hcliff : slot < t.cliffTime
  · rw [minBalanceAtSlot_before hcliff]
    have hlocked : 0 < t.initialMinimumBalance.toNat := Nat.pos_of_ne_zero fun h => hinitial (UInt64.toNat_inj.1 h)
    rw [UInt32.lt_iff_toNat_lt] at hcliff
    exact iff_of_true hlocked (hcliff.trans_le (Nat.le_add_right _ _))
  · have hle : t.cliffTime.toNat ≤ slot.toNat := by rwa [UInt32.lt_iff_toNat_lt, Nat.not_lt] at hcliff
    by_cases hperiod : t.vestingPeriod = 0
    · have hzero : Account.minBalanceAtSlot slot t.toTimingInfo = 0 := by
        simp [Account.minBalanceAtSlot, Schedule.toTimingInfo, hcliff, hperiod]
      simp [hzero, hperiod, hle]
    · have hperiods : Account.vestingPeriods t.toTimingInfo =
          t.pastCliff / t.vestingIncrement.toNat + if t.pastCliff % t.vestingIncrement.toNat = 0 then 0 else 1 := by
        have hvest : (Amount.sub t.initialMinimumBalance.toNat t.cliffAmount.toNat).getD 0 = t.pastCliff := by
          unfold Amount.sub Schedule.pastCliff
          split
          · rfl
          · simp; omega
        simp only [Account.vestingPeriods, Schedule.toTimingInfo, hvest]
      rw [minBalanceAtSlot_after hcliff hperiod, Nat.sub_pos_iff_lt, mul_lt_iff_lt_ceil hpos, ← hperiods, Schedule.periods,
        Nat.div_lt_iff_lt_mul (Nat.pos_of_ne_zero fun h => hperiod (UInt32.toNat_inj.1 h))]
      omega

/-- **The final vesting slot is the first without locked tokens** exactly where the schedule ends before the slots do. -/
theorem finalVestingSlot_is_first (account : Account) (t : Schedule) (htimed : account.timing = .timed t.toTimingInfo)
    (hinitial : t.initialMinimumBalance ≠ 0) (hincrement : t.vestingIncrement ≠ 0) :
    ∃ final, Account.timingFinalVestingSlot account.timing = some final ∧
      ((∀ slot, account.hasLockedTokens slot = true ↔ slot < final) ↔
        t.cliffTime.toNat + Account.vestingPeriods t.toTimingInfo * t.vestingPeriod.toNat < 2 ^ 32) := by
  have hne : ¬ t.toTimingInfo.vestingIncrement = 0 := fun h => hincrement (UInt64.toNat_inj.1 h)
  refine ⟨_, by rw [htimed, Account.timingFinalVestingSlot, Account.finalVestingSlot, if_neg hne], ?_⟩
  generalize hfinal : t.toTimingInfo.cliffTime + UInt32.ofNat (Account.vestingPeriods t.toTimingInfo) * t.toTimingInfo.vestingPeriod = final
  have hwraps : final.toNat =
      (t.cliffTime.toNat + Account.vestingPeriods t.toTimingInfo * t.vestingPeriod.toNat) % 2 ^ 32 := by
    simp [← hfinal, Schedule.toTimingInfo]
  have hlocked : ∀ slot, account.hasLockedTokens slot = true ↔
      slot.toNat < t.cliffTime.toNat + Account.vestingPeriods t.toTimingInfo * t.vestingPeriod.toNat := by
    intro slot
    rw [← minBalanceAtSlot_pos_iff hinitial hincrement, Account.hasLockedTokens, htimed, decide_eq_true_iff]
  constructor
  · intro hfirst
    have hfree : ¬ final.toNat < _ := mt (hlocked final).2 (mt (hfirst final).1 (UInt32.lt_irrefl _))
    exact (Nat.not_lt.1 hfree).trans_lt final.toNat_lt
  · intro hends slot
    rw [hlocked, UInt32.lt_iff_toNat_lt, hwraps, Nat.mod_eq_of_lt hends]

/-- **What is not locked grows by what vests**, from slot to slot, while the balance stays. -/
theorem liquidBalance_vests (account : Account) (t : Schedule) (htimed : account.timing = .timed t.toTimingInfo)
    (startSlot endSlot : GlobalSlot) (h : startSlot ≤ endSlot) (liquid : Nat)
    (hliquid : account.liquidBalanceAtSlot startSlot = some liquid) : account.liquidBalanceAtSlot endSlot =
      some (liquid + (Account.incrementalBalanceBetweenSlots startSlot endSlot t.toTimingInfo).toNat) := by
  have hstart := minBalanceAtSlot_le_initial startSlot t.toTimingInfo
  have hend := minBalanceAtSlot_antitone h t.toTimingInfo
  have hword : ∀ n, n ≤ t.toTimingInfo.initialMinimumBalance → (UInt64.ofNat n).toNat = n := fun n hn =>
    UInt64.toNat_ofNat_of_lt' (hn.trans_lt t.initialMinimumBalance.toNat_lt)
  have hvests : (Account.incrementalBalanceBetweenSlots startSlot endSlot t.toTimingInfo).toNat =
      Account.minBalanceAtSlot startSlot t.toTimingInfo - Account.minBalanceAtSlot endSlot t.toTimingInfo := by
    unfold Account.incrementalBalanceBetweenSlots
    split
    · rename_i hle
      obtain rfl := UInt32.le_antisymm h hle
      simp
    · have hle : UInt64.ofNat (Account.minBalanceAtSlot endSlot t.toTimingInfo) ≤
          UInt64.ofNat (Account.minBalanceAtSlot startSlot t.toTimingInfo) := by
        rwa [UInt64.le_iff_toNat_le, hword _ (hend.trans hstart), hword _ hstart]
      rw [UInt64.toNat_sub_of_le _ _ hle, hword _ (hend.trans hstart), hword _ hstart]
  simp only [Account.liquidBalanceAtSlot, htimed, Amount.sub, Option.ite_none_right_eq_some, Option.some.injEq] at hliquid ⊢
  omega

/-- Of 100 the first 10 get free at the fifth slot, and 20 more at every third one from there. -/
def scheduledAccount : Account :=
  { Account.create sampleDigests (sampleId 1) 100 with timing := .timed (Schedule.toTimingInfo ⟨100, 5, 10, 3, 20⟩) }

theorem finalVestingSlot_is_first_small :
    scheduledAccount.hasLockedTokens 19 = true ∧ ¬ scheduledAccount.hasLockedTokens 20 = true := by
  obtain ⟨final, hfinal, hfirst⟩ := finalVestingSlot_is_first scheduledAccount ⟨100, 5, 10, 3, 20⟩ rfl (by decide) (by decide)
  obtain rfl : 20 = final := Option.some.inj hfinal
  have hlocked := hfirst.2 (by decide)
  exact ⟨(hlocked 19).2 (by decide), mt (hlocked 20).1 (by decide)⟩

theorem liquidBalance_vests_small : scheduledAccount.liquidBalanceAtSlot 12 = some 50 :=
  liquidBalance_vests scheduledAccount ⟨100, 5, 10, 3, 20⟩ rfl 5 12 (by decide) 10 rfl

end TransactionLogic

end MinaProtocol
