import MinaProtocol.TransactionLogic.AllOrNothing
import MinaProtocol.TransactionLogic.Transactions

/-!
# TransactionLogic.Vesting

Timed accounts keep their minimum balance in every run (`vesting_safe`). Where a balance goes
down the timing is checked, and where it is not checked the balance only goes up; the minimum
balance itself never grows with the slot.
-/

namespace MinaProtocol.TransactionLogic

open Std

/-- Every account has its minimum balance at the slot. -/
def VestingSafe (slot : GlobalSlot) (ledger : Ledger) : Prop :=
  ∀ (accountId : AccountId) (a : Account), ledger[accountId]? = some a → minBalance slot a.timing ≤ a.balance

variable {slot slot' : GlobalSlot} {config : Config} {ledger : Ledger} {s' s : RunState}

theorem VestingSafe.mono (h : VestingSafe slot ledger) (hle : slot ≤ slot') : VestingSafe slot' ledger := by
  intro accountId a ha
  exact (minBalance_antitone hle a.timing).trans (h accountId a ha)

theorem minBalance_timingAfter (hle : slot ≤ slot') (timing : AccountTiming) :
    minBalance slot' (timingAfter slot timing) = minBalance slot' timing := by
  unfold timingAfter
  split
  · rfl
  · rename_i h
    have hzero := minBalance_antitone hle timing
    rw [Nat.eq_zero_of_not_pos h] at hzero
    exact (Nat.le_zero.1 hzero).symm

/-- A change of the ledger that keeps minimum balances, and lowers none. -/
structure VestingStep (slot : GlobalSlot) (ledger ledger' : Ledger) : Prop where
  safe : VestingSafe slot ledger → VestingSafe slot ledger'
  kept : ∀ (accountId : AccountId) (a : Account), ledger[accountId]? = some a →
    ∃ a', ledger'[accountId]? = some a' ∧ minBalance slot a.timing ≤ minBalance slot a'.timing

namespace VestingStep

variable {slot : GlobalSlot} {ledger ledger₁ ledger' : Ledger}

theorem refl (slot : GlobalSlot) (ledger : Ledger) : VestingStep slot ledger ledger where
  safe := id
  kept _ a ha := ⟨a, ha, le_rfl⟩

theorem trans (h₁ : VestingStep slot ledger ledger₁) (h₂ : VestingStep slot ledger₁ ledger') :
    VestingStep slot ledger ledger' where
  safe hsafe := h₂.safe (h₁.safe hsafe)
  kept accountId a ha := by
    obtain ⟨a₁, ha₁, hle₁⟩ := h₁.kept accountId a ha
    obtain ⟨a', ha', hle⟩ := h₂.kept accountId a₁ ha₁
    exact ⟨a', ha', hle₁.trans hle⟩

theorem insert (accountId : AccountId) {a' : Account}
    (hkept : ∀ a, ledger[accountId]? = some a → minBalance slot a.timing ≤ minBalance slot a'.timing)
    (hsafe : VestingSafe slot ledger → minBalance slot a'.timing ≤ a'.balance) :
    VestingStep slot ledger (ledger.insert accountId a') where
  safe h i a ha := by
    rw [ExtTreeMap.getElem?_insert] at ha
    split at ha
    · cases ha
      exact hsafe h
    · exact h i a ha
  kept i a ha := by
    rw [ExtTreeMap.getElem?_insert]
    split
    · rename_i heq
      obtain rfl := LawfulEqOrd.compare_eq_iff_eq.1 heq
      exact ⟨a', rfl, hkept a ha⟩
    · exact ⟨a, ha, le_rfl⟩

theorem unspent (h : VestingStep slot ledger ledger') (hsafe : VestingSafe slot ledger)
    {accountId : AccountId} {a : Account} (ha : ledger[accountId]? = some a) :
    ∃ a', ledger'[accountId]? = some a' ∧ minBalance slot a.timing ≤ a'.balance := by
  obtain ⟨a', ha', hle⟩ := h.kept accountId a ha
  exact ⟨a', ha', hle.trans (h.safe hsafe accountId a' ha')⟩

end VestingStep

/-! ### The kinds of transactions -/

section Kinds

variable {config : Config} {slot : GlobalSlot} {ledger ledger' : Ledger} {accountId : AccountId}
  {newAccounts : List AccountId} {index : UInt32} {amount burned : Nat} {w' w : Working} {env : Env}

theorem vestingStep_receive {balance : Nat} {location : Location} {account : Account} {timing : AccountTiming}
    (hread : getWithLocation config.digests ledger accountId = (location, account))
    (hbalance : balance + (if location = .new then config.accountCreationFee else 0) = account.balance + amount)
    (htiming : minBalance slot timing = minBalance slot account.timing) :
    VestingStep slot ledger (ledger.insert accountId { account with balance, timing }) := by
  cases hget : ledger[accountId]? with
  | some a =>
    rw [getWithLocation_of_some hget] at hread
    cases hread
    refine .insert accountId (fun a' ha' => ?_) fun hsafe => ?_
    · rw [hget] at ha'
      cases ha'
      exact htiming.ge
    · have hle := hsafe accountId account hget
      rw [if_neg nofun] at hbalance
      dsimp only
      rw [htiming]
      omega
  | none =>
    rw [getWithLocation_of_none hget] at hread
    cases hread
    refine .insert accountId (fun a' ha' => ?_) fun _ => ?_
    · rw [hget] at ha'
      cases ha'
    · dsimp only
      rw [htiming]
      exact Nat.zero_le _

theorem Credited.vestingStep (h : Credited config slot accountId amount ledger ledger' newAccounts burned) :
    VestingStep slot ledger ledger' := by
  cases h with
  | burned => exact .refl slot ledger
  | received location account balance timing hread hbalance htiming =>
    refine vestingStep_receive hread hbalance ?_
    rcases htiming with rfl | rfl
    · rfl
    · exact minBalance_timingAfter (UInt32.le_refl slot) account.timing

theorem Credits.vestingStep {credits : List (AccountId × Nat)}
    (h : Credits config slot credits ledger ledger' newAccounts burned) : VestingStep slot ledger ledger' := by
  induction h with
  | nil ledger => exact .refl slot ledger
  | cons hcredited _ ih => exact hcredited.vestingStep.trans ih

theorem vestingStep_checked {a a' : Account} (hget : ledger[accountId]? = some a)
    (htiming : a'.timing = timingAfter slot a.timing) (hmin : minBalance slot a.timing ≤ a'.balance) :
    VestingStep slot ledger (ledger.insert accountId a') := by
  have hmin' : minBalance slot a'.timing = minBalance slot a.timing := by
    rw [htiming, minBalance_timingAfter (UInt32.le_refl slot)]
  refine .insert accountId (fun b hb => ?_) fun _ => hmin'.trans_le hmin
  rw [hget] at hb
  cases hb
  exact hmin'.ge

theorem CommandEffect.vestingStep {command : SignedCommand} {paid : Account} {status : TransactionStatus}
    {body : SignedCommandAppliedBody} (h : CommandEffect config slot command paid ledger ledger' status body)
    (hpaid : ledger[command.feePayer]? = some paid) : VestingStep slot ledger ledger' := by
  cases h with
  | failed failure => exact .refl slot ledger
  | stakeDelegation newDelegate hbody hmin => exact vestingStep_checked hpaid rfl hmin
  | selfPayment amount hbody hmin =>
    exact vestingStep_checked hpaid rfl (hmin.trans (Nat.sub_le _ _))
  | payment receiverPk amount balance location account hbody hne hamount hmin hread hbalance =>
    have hne' : command.receiver ≠ command.feePayer := by
      unfold SignedCommand.receiver SignedCommand.receiverPk
      rw [hbody]
      exact fun heq => hne (congrArg AccountId.publicKey heq)
    have hreceiver : VestingStep slot ledger _ := vestingStep_receive hread hbalance rfl
    refine hreceiver.trans (vestingStep_checked ?_ rfl hmin)
    rw [ExtTreeMap.getElem?_insert, if_neg]
    · exact hpaid
    · exact fun heq => hne' (LawfulEqOrd.compare_eq_iff_eq.1 heq)

theorem HasEffect.vestingStep {isStart : Bool} {u : AccountUpdate}
    {callerId : Nat} (h : HasEffect config env isStart index u callerId w w')
    (hslot : env.globalSlot ≤ slot) : VestingStep slot w.ledger w'.ledger := by
  obtain ⟨location, before, after, h⟩ := h
  have hfunds := h.updatedBy.funds
  have hmin : minBalance slot after.account.timing = minBalance slot (timingSet u before.timing) := by
    rw [hfunds.timing]
    exact minBalance_timingAfter hslot _
  rw [h.ledger]
  refine .insert u.accountId (fun a ha => ?_) fun _ => ?_
  · have hread := h.read
    rw [getWithLocation_of_some ha] at hread
    cases hread
    rw [hmin]
    cases hset : u.timing.isSet with
    | true =>
      -- the timing is set only on an account that has none
      rw [(hfunds.timingPermitted hset).1]
      exact Nat.zero_le _
    | false => rw [timingSet_of_keep hset]
  · rw [hmin]
    exact (minBalance_antitone hslot _).trans hfunds.minBalance

theorem Effects.vestingStep {order : List Visit}
    (h : Effects config env index order w w') (hslot : env.globalSlot ≤ slot) :
    VestingStep slot w.ledger w'.ledger := by
  induction h with
  | nil => exact .refl _ _
  | cons heffect _ ih => exact (heffect.vestingStep hslot).trans ih

theorem TransactionFirstPassed.vestingStep {view : ProtocolStateView} {t : Transaction}
    {c : TransactionPartiallyApplied} (h : TransactionFirstPassed config slot view ledger t ledger' c) :
    VestingStep slot ledger ledger' := by
  cases h with
  | signedCommand hget hcan heffect =>
    refine VestingStep.trans ?_ (heffect.vestingStep ExtTreeMap.getElem?_insert_self)
    exact vestingStep_checked hget rfl hcan.minBalance
  | zkappCommand hfirst =>
    obtain ⟨w, heffect, rfl⟩ := hfirst.feePayer
    exact heffect.vestingStep (UInt32.le_refl slot)
  | feeTransfer hcredits _ _ => exact hcredits.vestingStep
  | coinbase hcredits _ _ => exact hcredits.vestingStep

end Kinds

/-! ### Whole runs -/

/-- The slots of the first passes do not decrease. -/
def Nondecreasing : GlobalSlot → List Pass → Prop
  | _, [] => True
  | slot, .first slot' _ _ _ :: passes => slot ≤ slot' ∧ Nondecreasing slot' passes
  | slot, .second _ _ :: passes => Nondecreasing slot passes

/-- The slot of the last first pass. -/
def lastSlot : GlobalSlot → List Pass → GlobalSlot
  | slot, [] => slot
  | _, .first slot' _ _ _ :: passes => lastSlot slot' passes
  | slot, .second _ _ :: passes => lastSlot slot passes

theorem nondecreasing_append {passes₁ passes₂ : List Pass} : Nondecreasing slot (passes₁ ++ passes₂) ↔
      Nondecreasing slot passes₁ ∧ Nondecreasing (lastSlot slot passes₁) passes₂ := by
  induction passes₁ generalizing slot with
  | nil => simp [Nondecreasing, lastSlot]
  | cons p passes ih =>
    cases p with
    | first slot' _ _ _ => simp [Nondecreasing, lastSlot, ih, and_assoc]
    | second _ _ => simp [Nondecreasing, lastSlot, ih]

theorem lastSlot_append (slot : GlobalSlot) (passes₁ passes₂ : List Pass) :
    lastSlot slot (passes₁ ++ passes₂) = lastSlot (lastSlot slot passes₁) passes₂ := by
  induction passes₁ generalizing slot with
  | nil => rfl
  | cons p passes ih =>
    cases p with
    | first slot' _ _ _ => exact ih slot'
    | second _ _ => exact ih slot

/-- The ledger is safe at the slot, and what waits is not from a later slot. -/
structure RunSafe (config : Config) (slot : GlobalSlot) (s : RunState) : Prop where
  ledger : VestingSafe slot s.ledger
  waiting : ∀ c ∈ s.waiting, ∃ slot' ≤ slot, PassedFirst config slot' c

theorem TransactionSecondPassed.vestingStep
    {ledger' : Ledger} {c : TransactionPartiallyApplied} {applied : TransactionApplied}
    (h : TransactionSecondPassed config slot' ledger c ledger' applied) (hle : slot' ≤ slot) :
    VestingStep slot ledger ledger' := by
  cases h with
  | signedCommand _ => exact .refl slot ledger
  | zkappCommandFailed _ _ _ => exact .refl slot ledger
  | zkappCommandApplied _ _ heffects _ => exact heffects.vestingStep hle
  | feeTransfer _ => exact .refl slot ledger
  | coinbase _ => exact .refl slot ledger

/-- **A pass is safe.** -/
theorem step_vesting {p : Pass}
    (h : Step config s p s') (hsafe : RunSafe config slot s) (hslot : Nondecreasing slot [p]) :
    RunSafe config (lastSlot slot [p]) s' ∧ VestingSafe (lastSlot slot [p]) s.ledger
      ∧ VestingStep (lastSlot slot [p]) s.ledger s'.ledger := by
  cases h with
  | @first ledger slot' view t c hpass =>
    obtain ⟨hle, -⟩ := hslot
    have hfirst := applyTransactionFirstPass_ok hpass
    have hledger := hsafe.ledger.mono hle
    refine ⟨⟨hfirst.vestingStep.safe hledger, fun c' hc' => ?_⟩, hledger, hfirst.vestingStep⟩
    rcases List.mem_cons.1 hc' with rfl | hc'
    · exact ⟨slot', UInt32.le_refl slot', hfirst.passedFirst⟩
    · obtain ⟨slot'', hle', hpassed⟩ := hsafe.waiting c' hc'
      exact ⟨slot'', UInt32.le_trans hle' hle, hpassed⟩
  | @second ledger c rest applied hperm hpass =>
    obtain ⟨slot', hle, hpassed⟩ := hsafe.waiting c (hperm.mem_iff.2 (.head rest))
    have hstep := (applyTransactionSecondPass_ok hpassed hpass).vestingStep hle
    exact ⟨⟨hstep.safe hsafe.ledger, fun c' hc' => hsafe.waiting c' (hperm.mem_iff.2 (.tail c hc'))⟩,
      hsafe.ledger, hstep⟩

theorem run_vesting {passes : List Pass}
    (h : Run config s passes s') (hsafe : RunSafe config slot s) (hslots : Nondecreasing slot passes) :
    RunSafe config (lastSlot slot passes) s' := by
  induction h generalizing slot with
  | nil s => exact hsafe
  | @cons s s₁ s' p passes hstep _ ih =>
    have hsplit : Nondecreasing slot [p] ∧ Nondecreasing (lastSlot slot [p]) passes :=
      nondecreasing_append.1 hslots
    have hlast := lastSlot_append slot [p] passes
    rw [List.singleton_append] at hlast
    rw [hlast]
    exact ih (step_vesting hstep hsafe hsplit.1).1 hsplit.2

theorem liquidBalanceAtSlot_isSome {a : Account}
    (h : minBalance slot a.timing ≤ a.balance) : (a.liquidBalanceAtSlot slot).isSome = true := by
  unfold Account.liquidBalanceAtSlot
  unfold minBalance at h
  split
  · rfl
  · rename_i t htiming
    rw [htiming] at h
    unfold Amount.sub
    rw [if_pos h]
    rfl

/-- **Vesting is safe.** In every run from a ledger in which each account has its minimum balance,
with slots that do not decrease, each account has its minimum balance after each pass, from the
slot of the pass on; so its liquid balance can be computed. No pass leaves an account with less
than was locked in it before. -/
theorem vesting_safe (config : Config) (slot₀ : GlobalSlot) (ledger : Ledger) (passes : List Pass) (p : Pass)
    (s s' : RunState) (hsafe : VestingSafe slot₀ ledger) (hrun : Run config ⟨ledger, []⟩ passes s)
    (hstep : Step config s p s') (hslots : Nondecreasing slot₀ (passes ++ [p])) :
    (∀ (slot : GlobalSlot) (accountId : AccountId) (a : Account), lastSlot slot₀ (passes ++ [p]) ≤ slot →
        s'.ledger[accountId]? = some a → (∀ t, a.timing = .timed t → Account.minBalanceAtSlot slot t ≤ a.balance)
          ∧ (a.liquidBalanceAtSlot slot).isSome = true)
      ∧ ∀ (accountId : AccountId) (a : Account) (t : TimingInfo), s.ledger[accountId]? = some a →
        a.timing = .timed t → ∃ a', s'.ledger[accountId]? = some a'
          ∧ Account.minBalanceAtSlot (lastSlot slot₀ (passes ++ [p])) t ≤ a'.balance := by
  obtain ⟨hslots₁, hslots₂⟩ := nondecreasing_append.1 hslots
  have hstart : RunSafe config slot₀ ⟨ledger, []⟩ := ⟨hsafe, nofun⟩
  obtain ⟨hsafe', hbefore, hvesting⟩ := step_vesting hstep (run_vesting hrun hstart hslots₁) hslots₂
  rw [lastSlot_append]
  refine ⟨fun slot accountId a hle ha => ?_, fun accountId a t ha htiming => ?_⟩
  · have hmin := hsafe'.ledger.mono hle accountId a ha
    refine ⟨fun t htiming => ?_, liquidBalanceAtSlot_isSome hmin⟩
    rw [htiming] at hmin
    exact hmin
  · obtain ⟨a', ha', hmin⟩ := hvesting.unspent hbefore ha
    rw [htiming] at hmin
    exact ⟨a', ha', hmin⟩

/-! ### A payment from a timed account -/

/-- The first account has 50 of its 100 locked until the cliff. -/
def timedLedger : Ledger :=
  sampleLedger.insert (sampleId 1)
    { Account.create sampleDigests (sampleId 1) 100 with timing := .timed ⟨50, 10, 20, 1, 1⟩ }

/-- The first account pays a fee of 5 and gives 10 to the second. -/
def samplePayment : SignedPayload where
  payload := ⟨5, ⟨1, false⟩, 0, maxValue, .payment ⟨2, false⟩ 10⟩
  signer := ⟨1, false⟩

theorem timedLedger_safe : VestingSafe 0 timedLedger := by
  intro accountId a ha
  unfold timedLedger sampleLedger at ha
  rw [ExtTreeMap.getElem?_insert, ExtTreeMap.getElem?_insert, ExtTreeMap.getElem?_insert] at ha
  split at ha
  · cases ha
    decide
  · split at ha
    · cases ha
      decide
    · rw [ExtTreeMap.getElem?_empty] at ha
      cases ha

theorem samplePayment_applied : (do
      let (ledger, _) ← applyTransactionFirstPass sampleConfig 3 sampleView timedLedger
        (.signedCommand samplePayment)
      Outcome.assert (ledger[sampleId 1]?.map (·.balance) = some 85)) = Outcome.ok () := by
  decide

/-- After the payment the account has 85, and 50 of it are still locked. -/
theorem vesting_safe_payment :
    ∃ c s' a, Step sampleConfig ⟨timedLedger, []⟩ (.first 3 sampleView (.signedCommand samplePayment) c) s'
      ∧ s'.ledger[sampleId 1]? = some a ∧ a.balance = 85 ∧ (a.liquidBalanceAtSlot 3).isSome = true
      ∧ Account.minBalanceAtSlot 3 ⟨50, 10, 20, 1, 1⟩ ≤ a.balance := by
  obtain ⟨⟨ledger', c⟩, hpass, hassert⟩ := Outcome.bind_eq_ok.1 samplePayment_applied
  obtain ⟨a, ha, hbalance⟩ :=
    Option.map_eq_some_iff.1 (of_decide_eq_true (Outcome.assert_eq_ok.1 hassert))
  have hstep : Step sampleConfig ⟨timedLedger, []⟩ (.first 3 sampleView (.signedCommand samplePayment) c)
      ⟨ledger', [c]⟩ := .first hpass
  obtain ⟨hafter, hunspent⟩ := vesting_safe sampleConfig 0 timedLedger [] _ _ _ timedLedger_safe (.nil _) hstep
    ⟨by decide, trivial⟩
  obtain ⟨a', ha', hmin⟩ := hunspent (sampleId 1) _ ⟨50, 10, 20, 1, 1⟩ ExtTreeMap.getElem?_insert_self rfl
  obtain rfl : a = a' := Option.some.inj (ha.symm.trans ha')
  exact ⟨c, _, a, hstep, ha, hbalance, (hafter 3 (sampleId 1) a (UInt32.le_refl 3) ha).2, hmin⟩

end MinaProtocol.TransactionLogic
