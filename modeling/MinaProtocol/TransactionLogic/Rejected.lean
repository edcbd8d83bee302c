import MinaProtocol.TransactionLogic.AllOrNothing
import MinaProtocol.TransactionLogic.Placed

/-!
# TransactionLogic.Rejected

What transactions leave that are rejected in the first pass. Most writes come after the last check, so that a call is
all or nothing; a fee that is charged stays, and so does an account that was created before the second one was read.
-/

namespace MinaProtocol.TransactionLogic

open Std

namespace Placed

/-! ### Which calls are all or nothing -/

section Atomic

open InPlace

variable {A B : Type} {s s₁ : Placed} {config : Config} {slot : GlobalSlot} {digests : Digests} {accountId : AccountId}
  {x : Outcome LedgerError A} {action : AccountState} {canReceive : Bool} {failed received : FailureCollection}
  {fee : Nat} {update : Account → Account} {cb : Coinbase} {location : Location}
  {userCommand : SignedPayload} {first : FeeTransferred} {f : A → OnLedger B} {account : Account} {ledger : Ledger} {e : PlacedError}

theorem logic_bind (hf : ∀ a, x = .ok a → Atomic (f a) s) : Atomic (logic x >>= f) s :=
  Atomic.lift_bind fun a ha => hf a (Outcome.mapError_eq_ok.1 ha)

theorem atomic_logic : Atomic (logic x) s := atomic_lift _

theorem atomic_nextLocation : Atomic nextLocation s := fun _ => rfl

theorem atomic_getOrCreate : Atomic (getOrCreate digests accountId) s := by
  cases h : s.accounts[accountId]? with
  | some account =>
    intro hstop
    rw [getOrCreate_of_some h]
  | none =>
    unfold Atomic
    rw [getOrCreate_of_none h]
    split
    · exact fun hstop => Bool.noConfusion hstop
    · exact fun _ => rfl

theorem atomic_setOrBurn : Atomic (setOrBurn digests accountId fee action canReceive update received failed) s := by
  unfold setOrBurn
  cases canReceive with
  | true => exact atomic_getOrCreate.bind fun a s₁ _ => .inl rfl
  | false => exact atomic_pure

/-- What `setOrBurn` has done when it goes through. -/
theorem setOrBurn_ok {r : Processed}
    (h : setOrBurn digests accountId fee action canReceive update received failed s = (.ok r, s₁)) :
    canReceive = false ∧ s₁ = s ∧ r.burnedTokens = fee ∨
      canReceive = true ∧ r.burnedTokens = 0 ∧ s₁.leaves = s.leaves ∧ s₁.locations.length ≤ s.locations.length + 1 ∧
        ∀ other, other ≠ accountId → s₁.accounts[other]? = s.accounts[other]? := by
  unfold setOrBurn at h
  cases canReceive with
  | false =>
    obtain ⟨hr, rfl⟩ := Prod.mk.inj h
    obtain rfl := Outcome.ok.inj hr
    exact .inl ⟨rfl, rfl, rfl⟩
  | true =>
    obtain ⟨a, s₂, hget, hset⟩ := bind_eq_ok.1 h
    obtain ⟨hr, rfl⟩ := Prod.mk.inj (show (Outcome.ok (Processed.mk _ received 0), s₂.write accountId (update a)) = _ from hset)
    obtain rfl := Outcome.ok.inj hr
    refine .inr ⟨rfl, rfl, ?_⟩
    have hwrite : ∀ (t : Placed) (other : AccountId), other ≠ accountId →
        (t.write accountId (update a)).accounts[other]? = t.accounts[other]? := by
      intro t other hne
      simp [write, ExtTreeMap.getElem?_insert, hne.symm]
    cases hfind : s.accounts[accountId]? with
    | some account =>
      rw [getOrCreate_of_some hfind] at hget
      obtain ⟨-, rfl⟩ := Prod.mk.inj hget
      exact ⟨rfl, Nat.le_succ _, hwrite s⟩
    | none =>
      rw [getOrCreate_of_none hfind] at hget
      split at hget
      · obtain ⟨-, rfl⟩ := Prod.mk.inj hget
        refine ⟨rfl, by simp [write, add], fun other hne => ?_⟩
        rw [hwrite _ other hne]
        simp [add, ExtTreeMap.getElem?_insert, hne.symm]
      · cases hget

theorem atomic_processForOne {modifyBalance : AccountState → AccountId → Nat → Nat → Outcome LedgerError Nat}
    {modifyTiming : Account → Outcome LedgerError AccountTiming} {failures : FailureCollection} :
    Atomic (processForOne digests modifyBalance modifyTiming accountId fee failures) s := by
  refine logic_bind (s := s) fun timing _ => ?_
  exact logic_bind fun balance _ => atomic_setOrBurn

theorem setOrBurn_goes (hroom : s.accounts[accountId]? ≠ none ∨ s.locations.length < s.leaves) :
    ∃ r s₁, setOrBurn digests accountId fee action canReceive update received failed s = (.ok r, s₁) := by
  unfold setOrBurn
  cases canReceive with
  | false => exact ⟨_, _, rfl⟩
  | true =>
    cases hfind : s.accounts[accountId]? with
    | some account => exact ⟨_, _, bind_of_ok (getOrCreate_of_some hfind)⟩
    | none =>
      have hleaf := hroom.resolve_left fun h => h hfind
      have hget : getOrCreate digests accountId s = _ := getOrCreate_of_none hfind
      rw [if_pos hleaf] at hget
      exact ⟨_, _, bind_of_ok hget⟩

theorem burned_lt {balance : Nat} (hcan : (hasPermissionToReceive digests ledger accountId).2.2 = false)
    (h : receive config (hasPermissionToReceive digests ledger accountId).2.1
      (hasPermissionToReceive digests ledger accountId).1.balance fee = .ok balance) : fee < 2 ^ 64 := by
  cases hfind : ledger[accountId]? with
  | none =>
    simp only [hasPermissionToReceive, hfind] at hcan
    cases hcan
  | some account =>
    simp only [hasPermissionToReceive, hfind] at h
    obtain ⟨amount, hamount, hadd⟩ := Outcome.bind_eq_ok.1 h
    obtain rfl := Outcome.ok.inj hamount
    obtain ⟨hsum, hlt⟩ := Amount.add_eq_some.1 (Outcome.okOr_eq_ok.1 hadd)
    omega

/-- **A fee transfer for two** writes nothing unless it goes through, while there are two leaves. -/
theorem atomic_processForTwo {ft₁ ft₂ : FeeTransferSingle} (hne : ft₁.receiver ≠ ft₂.receiver)
    (hroom : s.accounts[ft₂.receiver]? ≠ none ∨ s.locations.length + 2 ≤ s.leaves) :
    Atomic (processForTwo digests (fun action _ b f => receive config action b f) (updateTimingWhenNoDeduction slot) ft₁ ft₂) s := by
  refine logic_bind (s := s) fun balance₁ hbalance₁ => ?_
  refine logic_bind fun timing₂ _ => logic_bind fun balance₂ hbalance₂ => ?_
  refine atomic_setOrBurn.bind fun first s₁ hfirst => ?_
  rcases setOrBurn_ok hfirst with ⟨hcan₁, rfl, hburned₁⟩ | ⟨-, hburned₁, hleaves, hlocations, hothers⟩
  · refine .inr ⟨rfl, atomic_setOrBurn.bind fun second s₂ hsecond => ?_⟩
    rcases setOrBurn_ok hsecond with ⟨-, rfl, -⟩ | ⟨-, hburned₂, -⟩
    · exact .inr ⟨rfl, atomic_logic.bind_pure⟩
    · have hlt := burned_lt hcan₁ hbalance₁
      have hadd : Amount.add first.burnedTokens second.burnedTokens = some ft₁.fee :=
        Amount.add_eq_some.2 ⟨by omega, hlt⟩
      exact .inl (by rw [hadd]; rfl)
  · have hroom₁ : s₁.accounts[ft₂.receiver]? ≠ none ∨ s₁.locations.length < s₁.leaves := by
      rw [hothers _ hne.symm, hleaves]
      exact hroom.imp_right fun h => by omega
    obtain ⟨second, s₂, hsecond⟩ := setOrBurn_goes hroom₁
    refine .inl ?_
    rw [bind_of_ok hsecond]
    have hlt : second.burnedTokens < 2 ^ 64 := by
      rcases setOrBurn_ok hsecond with ⟨hcan₂, -, hburned₂⟩ | ⟨-, hburned₂, -⟩
      · rw [hburned₂]
        exact burned_lt hcan₂ hbalance₂
      · omega
    have hadd : Amount.add first.burnedTokens second.burnedTokens = some second.burnedTokens :=
      Amount.add_eq_some.2 ⟨by omega, hlt⟩
    rw [hadd]
    rfl

/-- A fee transfer for two different accounts, of which the second has no account yet and no leaf for one. -/
def LacksLeaf (s : Placed) : FeeTransfer → Prop
  | .one _ => False
  | .two ft₁ ft₂ => ft₁.receiver ≠ ft₂.receiver ∧ s.accounts[ft₂.receiver]? = none ∧ s.leaves < s.locations.length + 2

/-- **Fee transfers** write nothing unless they go through, where there are leaves for their accounts. -/
theorem atomic_applyFeeTransfer {transfer : FeeTransfer} (hroom : ¬ LacksLeaf s transfer) :
    Atomic (applyFeeTransfer config slot transfer) s := by
  refine Atomic.bind_pure (logic_bind fun u _ => ?_)
  cases transfer with
  | one ft => exact atomic_processForOne
  | two ft₁ ft₂ =>
    dsimp only
    split
    · exact logic_bind fun fee _ => atomic_processForOne
    · rename_i hne
      refine atomic_processForTwo hne ?_
      by_contra hnot
      obtain ⟨hmissing, hfull⟩ := not_or.1 hnot
      exact hroom ⟨hne, not_not.1 hmissing, by omega⟩

/-- The account of the transferee of a coinbase, if it is not in the ledger. -/
def NewTransferee (s : Placed) (cb : Coinbase) : Prop := ∃ ft, cb.feeTransfer = some ft ∧ s.accounts[ft.receiver]? = none

theorem atomic_applyCoinbaseFeeTransfer : Atomic (applyCoinbaseFeeTransfer config slot cb) s := by
  unfold applyCoinbaseFeeTransfer
  cases cb.feeTransfer with
  | none => exact atomic_pure
  | some ft =>
    refine logic_bind fun u _ => logic_bind fun reward _ => ?_
    refine logic_bind (s := s) fun timing _ => logic_bind fun balance _ => ?_
    split
    · exact atomic_getOrCreate.bind_pure
    · exact atomic_pure

/-- After the fee transfer of a coinbase at most the account of the transferee is new; and what is burned fits,
and goes with nothing that is left to write. -/
theorem applyCoinbaseFeeTransfer_ok (h : applyCoinbaseFeeTransfer config slot cb s = (.ok first, s₁)) :
    (s₁ = s ∨ ∃ ft, cb.feeTransfer = some ft ∧ s.accounts[ft.receiver]? = none ∧
        s₁ = s.add ft.receiver ( Account.initialize config.digests ft.receiver)) ∧
      (first.burnedTokens = 0 ∨ first.transfereeUpdate = none ∧ first.burnedTokens < 2 ^ 64) := by
  unfold applyCoinbaseFeeTransfer at h
  cases hft : cb.feeTransfer with
  | none =>
    rw [hft] at h
    obtain ⟨hr, rfl⟩ := Prod.mk.inj h
    obtain rfl := Outcome.ok.inj hr
    exact ⟨.inl rfl, .inl rfl⟩
  | some ft =>
    rw [hft] at h
    obtain ⟨u, s₂, hu, h⟩ := bind_eq_ok.1 h
    obtain ⟨-, rfl⟩ := Prod.mk.inj hu
    obtain ⟨reward, s₃, hreward, h⟩ := bind_eq_ok.1 h
    obtain ⟨-, rfl⟩ := Prod.mk.inj hreward
    rw [get_bind] at h
    obtain ⟨timing, s₄, htiming, h⟩ := bind_eq_ok.1 h
    obtain ⟨-, rfl⟩ := Prod.mk.inj htiming
    obtain ⟨balance, s₅, hbalance, h⟩ := bind_eq_ok.1 h
    obtain ⟨hreceive, rfl⟩ := Prod.mk.inj hbalance
    have hfits := Outcome.mapError_eq_ok.1 hreceive
    split at h
    · obtain ⟨account, s₆, hget, h⟩ := bind_eq_ok.1 h
      obtain ⟨hr, rfl⟩ := Prod.mk.inj h
      obtain rfl := Outcome.ok.inj hr
      refine ⟨?_, .inl rfl⟩
      cases hfind : s.accounts[ft.receiver]? with
      | some found =>
        rw [getOrCreate_of_some hfind] at hget
        exact .inl (Prod.mk.inj hget).2.symm
      | none =>
        rw [getOrCreate_of_none hfind] at hget
        split at hget
        · exact .inr ⟨ft, rfl, hfind, (Prod.mk.inj hget).2.symm⟩
        · cases hget
    · rename_i hcan
      obtain ⟨hr, rfl⟩ := Prod.mk.inj h
      obtain rfl := Outcome.ok.inj hr
      exact ⟨.inl rfl, .inr ⟨rfl, burned_lt (Bool.eq_false_iff.2 hcan) hfits⟩⟩

theorem atomic_applyCoinbaseReward
    (hburned : first.burnedTokens = 0 ∨ first.transfereeUpdate = none ∧ first.burnedTokens < 2 ^ 64) :
    Atomic (applyCoinbaseReward config slot cb first) s := by
  refine logic_bind (s := s) fun timing _ => logic_bind fun balance hbalance => ?_
  -- once something is written, one of the two has burned nothing
  have hgoes : ∀ (second : Processed) (s₂ : Placed) (newAccounts : List AccountId),
      first.burnedTokens + second.burnedTokens < 2 ^ 64 →
      ((setTransferee first.transfereeUpdate >>= fun _ =>
        logic (Outcome.okOr (Amount.add first.burnedTokens second.burnedTokens) .burnedTokensOverflow) >>= fun burnedTokens =>
          pure (CoinbaseApplied.mk cb (statusOf second.failures) newAccounts burnedTokens)) s₂).1.isOk = true := by
    intro second s₂ newAccounts hlt
    rw [Amount.add_eq_some.2 ⟨rfl, hlt⟩]
    cases first.transfereeUpdate <;> rfl
  refine atomic_setOrBurn.bind fun second s₁ hsecond => ?_
  rcases setOrBurn_ok hsecond with ⟨hcan, rfl, hsecondBurned⟩ | ⟨-, hsecondBurned, -⟩
  · rcases hburned with hzero | ⟨hnone, -⟩
    · have hlt := burned_lt hcan hbalance
      exact .inl (hgoes second _ _ (by omega))
    · refine .inr ⟨rfl, ?_⟩
      rw [hnone]
      exact logic_bind fun _ _ => atomic_pure
  · exact .inl (hgoes second _ _ (by omega))

/-- **Coinbases** write nothing unless they go through, where no account is new for the fee transfer. -/
theorem atomic_applyCoinbase (hold : ¬ NewTransferee s cb) : Atomic (applyCoinbase config slot cb) s := by
  refine atomic_applyCoinbaseFeeTransfer.bind fun first s₁ hfirst => ?_
  obtain ⟨hs, hburned⟩ := applyCoinbaseFeeTransfer_ok hfirst
  rcases hs with rfl | ⟨ft, hft, hnone, -⟩
  · exact .inr ⟨rfl, atomic_applyCoinbaseReward hburned⟩
  · exact absurd ⟨ft, hft, hnone⟩ hold

theorem atomic_takeLocation : Atomic (takeLocation location) s := by
  unfold takeLocation
  split
  · exact atomic_nextLocation
  · exact atomic_pure

theorem takeLocation_ok {u : Unit} (h : takeLocation location s = (.ok u, s₁)) : s₁ = s := by
  unfold takeLocation at h
  split at h
  · exact (nextLocation_eq_ok h).1
  · exact (Prod.mk.inj h).2.symm

theorem assert_willSucceed {l : LocalState} {f : Unit → OnLedger A} (h : l.willSucceed = true) :
    (logic (Outcome.assert (!l.isLastAccountUpdate || l.willSucceed || !l.success)) >>= f) s = f () s := by
  rw [h, Bool.or_true, Bool.true_or]
  rfl

theorem atomic_settleFeePayer {popped : Popped} {a : Account} {globalState : GlobalState} {localState : LocalState}
    (hwill : localState.willSucceed = true) : Atomic (settleFeePayer popped a globalState localState) s := by
  refine logic_bind fun delta hdelta => ?_
  obtain ⟨excess, b, rfl, -⟩ := addLocalDelta_ok hdelta
  refine atomic_takeLocation.bind fun u s₁ hu => .inr ⟨takeLocation_ok hu, ?_⟩
  refine logic_bind fun l hset => logic_bind fun u _ => ?_
  obtain ⟨newLedger, b', tc, ftc, -, rfl, -⟩ := setAccount_ok hset
  refine atomic_modify.bind fun u s₂ _ => .inl ?_
  rw [assert_willSucceed]
  · rfl
  · exact hwill

/-- **zkApp commands** write nothing in the first pass unless the fee payer goes through. -/
theorem atomic_applyZkappCommandFirstPass {view : ProtocolStateView} {feeExcess supplyIncrease : Signed} {command : ZkappCommand} :
    Atomic (applyZkappCommandFirstPass config slot view feeExcess supplyIncrease command) s := by
  refine Atomic.bind_pure (s := s) (Atomic.tryWith (Atomic.bind_pure ?_))
  refine logic_bind fun popped hpopped => logic_bind fun run hrun => ?_
  obtain ⟨next, -, -, -, -, hpop⟩ := popAccountUpdate_start hpopped
  obtain ⟨after, checks, -, -, -, hran⟩ := runAccountUpdate_ok hrun
  obtain ⟨tbl, hchecks⟩ := popped.localState.addNewFailureStatusBucket.addChecks_eq checks
  refine atomic_settleFeePayer ?_
  rw [hran, hchecks]
  change popped.localState.willSucceed = true
  rw [hpop]
  rfl

/-! ### Signed commands -/

theorem setAll_goes {located : List (Location × Account)} (h : ∀ p ∈ located, ∃ id, p.1 = .existing id) :
    (setAll located s).1.isOk = true := by
  induction located generalizing s with
  | nil => rfl
  | cons p located ih =>
    obtain ⟨location, account⟩ := p
    obtain ⟨id, hid⟩ := h _ List.mem_cons_self
    obtain rfl : location = .existing id := hid
    exact ih fun q hq => h q (List.mem_cons_of_mem _ hq)

theorem atomic_setWithLocation : Atomic (setWithLocation location account) s := by
  cases location with
  | existing id => exact atomic_modify
  | new =>
    refine logic_bind (s := s) fun u _ => ?_
    exact atomic_nextLocation.bind fun u s₁ h => .inl rfl

theorem atomic_setAll {rest : List (Location × Account)}
    (h : ∀ p ∈ rest, ∃ id, p.1 = .existing id) : Atomic (setAll ((location, account) :: rest)) s :=
  atomic_setWithLocation.bind fun _ _ _ => .inl (setAll_goes h)

theorem atomic_finishUserCommand {feePayer : AccountId} {paid : Account} :
    Atomic (finishUserCommand userCommand (computeUpdates config slot ledger userCommand.payload (.existing feePayer) paid)) s := by
  cases hupdates : computeUpdates config slot ledger userCommand.payload (.existing feePayer) paid with
  | raise => exact atomic_logic
  | error e => cases e with
    | reject err => exact atomic_logic
    | failure f => exact atomic_pure
  | ok p =>
    obtain ⟨located, body⟩ := p
    refine Atomic.bind_pure ?_
    unfold computeUpdates at hupdates
    cases hbody : userCommand.payload.body with
    | stakeDelegation newDelegate =>
      rw [hbody] at hupdates
      obtain ⟨-, rfl, -⟩ := computeStakeDelegation_eq_ok hupdates
      exact atomic_setAll fun p hp => absurd hp List.not_mem_nil
    | payment receiverPk amount =>
      rw [hbody] at hupdates
      obtain ⟨-, -, balance, -, rfl, -⟩ := computePayment_eq_ok hupdates
      split
      · exact atomic_setAll fun p hp => absurd hp List.not_mem_nil
      · refine atomic_setAll fun p hp => ⟨feePayer, ?_⟩
        rw [List.mem_singleton.1 hp]

/-- **The fee of a signed command is charged**: its time has not run out, the fee payer has signed and can pay, and
may send and use its nonce. The account is that of the fee payer after it has paid. -/
structure Charges (config : Config) (slot : GlobalSlot) (ledger : Ledger) (userCommand : SignedPayload) (paid : Account) : Prop where
  time : validateTime userCommand.payload.validUntil slot = .ok ()
  fee : payFee config userCommand.payload userCommand.signer ledger slot = .ok (.existing userCommand.payload.feePayer, paid)
  send : paid.hasPermissionToSend = true
  nonce : paid.hasPermissionToIncrementNonce = true

theorem logic_bind_error
    (h : (logic x >>= f) s = (.error e, s₁)) : (∀ a, x ≠ .ok a) ∧ s₁ = s ∨ ∃ a, x = .ok a ∧ f a s = (.error e, s₁) := by
  rcases lift_bind_eq_error.1 h with ⟨hx, rfl⟩ | ⟨a, hx, hf⟩
  · refine .inl ⟨fun a ha => ?_, rfl⟩
    rw [ha] at hx
    cases hx
  · exact .inr ⟨a, Outcome.mapError_eq_ok.1 hx, hf⟩

/-- **A signed command that is rejected** leaves the ledger alone, but for the fee if it is charged. -/
theorem applyUserCommandUnchecked_error (h : applyUserCommandUnchecked config slot userCommand s = (.error e, s₁)) :
    (∀ paid, ¬ Charges config slot s.accounts userCommand paid) ∧ s₁ = s ∨
      ∃ paid, Charges config slot s.accounts userCommand paid ∧ s₁ = s.write userCommand.payload.feePayer paid := by
  rcases logic_bind_error h with ⟨hnot, rfl⟩ | ⟨u, htime, h⟩
  · exact .inl ⟨fun paid hcharges => hnot _ hcharges.time, rfl⟩
  rcases logic_bind_error (s := s) h with ⟨hnot, rfl⟩ | ⟨⟨location, paid⟩, hfee, h⟩
  · exact .inl ⟨fun paid hcharges => hnot _ hcharges.fee, rfl⟩
  obtain ⟨account, -, rfl, -⟩ := payFee_eq_ok hfee
  have hpaid : ∀ paid', Charges config slot s.accounts userCommand paid' → paid' = paid := by
    intro paid' hcharges
    exact (Prod.mk.inj (Outcome.ok.inj (hcharges.fee.symm.trans hfee))).2
  rcases logic_bind_error h with ⟨hnot, rfl⟩ | ⟨v, hsend, h⟩
  · refine .inl ⟨fun paid' hcharges => hnot () ?_, rfl⟩
    rw [← hpaid paid' hcharges, hcharges.send, Outcome.okIfTrue_true]
  rcases logic_bind_error h with ⟨hnot, rfl⟩ | ⟨w, hnonce, h⟩
  · refine .inl ⟨fun paid' hcharges => hnot () ?_, rfl⟩
    rw [← hpaid paid' hcharges, hcharges.nonce, Outcome.okIfTrue_true]
  exact .inr ⟨paid, ⟨htime, hfee, Outcome.okIfTrue_eq_ok.1 hsend, Outcome.okIfTrue_eq_ok.1 hnonce⟩, atomic_finishUserCommand.error h⟩

/-- **What a rejected transaction leaves.** A signed command may have been charged the fee; a coinbase whose fee
transfer is to a new account has changed no account that was there. -/
def AfterRejection (config : Config) (slot : GlobalSlot) (s s' : Placed) : Transaction → Prop
  | .signedCommand txn =>
    (∀ paid, Charges config slot s.accounts txn paid → s' = s.write txn.payload.feePayer paid) ∧
      ((∀ paid, ¬ Charges config slot s.accounts txn paid) → s' = s)
  | .zkappCommand _ => s' = s
  | .feeTransfer t => ¬ LacksLeaf s t → s' = s
  | .coinbase cb =>
    (¬ NewTransferee s cb → s' = s) ∧
      s.locations <+: s'.locations ∧
        ∀ (id : AccountId) (account : Account), s.accounts[id]? = some account → s'.accounts[id]? = some account

end Atomic

/-- The sample ledger, with leaves for four accounts. -/
def sampleLedgerPlaced : Placed := ⟨sampleLedger, [sampleId 1, sampleId 2], 4⟩

/-- A payment of more than the first account has. -/
def samplePayment : SignedPayload := ⟨⟨5, ⟨1, false⟩, 0, 10, .payment ⟨2, false⟩ 1000⟩, ⟨1, false⟩⟩

theorem samplePayment_rejected :
    ∃ s', applyTransactionFirstPass sampleConfig 0 sampleView (.signedCommand samplePayment) sampleLedgerPlaced =
        (.error (.logic (.described .sourceInsufficientBalance)), s') ∧
      (s'.accounts[sampleId 1]?).map Account.balance = some 95 := ⟨_, rfl, rfl⟩

end Placed

end MinaProtocol.TransactionLogic
