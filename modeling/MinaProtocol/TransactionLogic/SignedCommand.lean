import MinaProtocol.Base.Transaction
import MinaProtocol.TransactionLogic.UpdateAccount

/-!
# TransactionLogic.SignedCommand

The application of a signed command. The fee is paid first; then the command has its effect,
or fails and leaves only the fee paid. A payment that the fee payer cannot make is rejected:
it is not applied at all.
-/

namespace MinaProtocol.TransactionLogic

open Std

/-- `Ledger_intf.account_state`. -/
inductive AccountState where
  | added
  | existed
deriving DecidableEq, Repr

/-- `add_amount`. -/
def addAmount (balance amount : Nat) : Outcome LedgerError Nat :=
  Outcome.okOr (Amount.add balance amount) .overflow

/-- `sub_amount`. -/
def subAmount (balance amount : Nat) : Outcome LedgerError Nat :=
  Outcome.okOr (Amount.sub balance amount) .insufficientFunds

/-- `sub_account_creation_fee`. -/
def subAccountCreationFee (config : Config) (action : AccountState) (amount : Nat) : Outcome LedgerError Nat :=
  let fee := config.accountCreationFee
  if action = .added then Outcome.okOr (Amount.sub amount fee) (.accountCreationFee fee amount)
  else .ok amount

/-- `validate_nonces`. -/
def validateNonces (txnNonce accountNonce : AccountNonce) : Outcome LedgerError Unit :=
  Outcome.okIfTrue (accountNonce = txnNonce) (.nonce accountNonce txnNonce)

/-- `validate_time`. -/
def validateTime (validUntil currentGlobalSlot : GlobalSlot) : Outcome LedgerError Unit :=
  Outcome.okIfTrue (currentGlobalSlot ≤ validUntil) (.expired currentGlobalSlot validUntil)

/-- `get_new_accounts`. -/
def getNewAccounts (action : AccountState) (accountId : AccountId) : List AccountId :=
  if action = .added then [accountId] else []

/-- `incr_balance`. -/
def incrBalance (acct : Account) (amt : Nat) : Outcome Failure Account := do
  let balance ← (addAmount acct.balance amt).mapError fun _ => Failure.overflow
  return { acct with balance }

/-- `pay_fee'`. -/
def payFee' (config : Config) (command : SignedCommand) (nonce : AccountNonce) (feePayer : AccountId)
    (fee : Nat) (ledger : Ledger) (currentGlobalSlot : GlobalSlot) : Outcome LedgerError (Location × Account) := do
  let (location, account) := getWithLocation config.digests ledger feePayer
  Outcome.okIfTrue (location ≠ .new) .feePayerDoesNotExist
  let balance ← subAmount account.balance fee
  validateNonces nonce account.nonce
  let timing ← (validateTiming account fee currentGlobalSlot).mapError LedgerError.timing
  return (location, { account with
      balance
      nonce := account.nonce.succ
      receiptChainHash := config.digests.consSignedCommandPayload command account.receiptChainHash
      timing })

/-- `pay_fee`. -/
def payFee (config : Config) (userCommand : SignedCommand) (signerPk : PublicKey) (ledger : Ledger)
    (currentGlobalSlot : GlobalSlot) : Outcome LedgerError (Location × Account) := do
  let nonce := userCommand.nonce
  let feePayer := userCommand.feePayer
  let feeToken := userCommand.feeToken
  Outcome.okIfTrue (feePayer.publicKey = signerPk) .feePayerDidNotSign
  Outcome.okIfTrue (feeToken = TokenId.default) .feeTokenNotDefault
  payFee' config userCommand nonce feePayer userCommand.fee ledger currentGlobalSlot

/-- `Signed_command_applied.Body.t`. -/
inductive SignedCommandAppliedBody where
  | payment (newAccounts : List AccountId)
  | stakeDelegation (previousDelegate : Option PublicKey)
  | failed
deriving DecidableEq, Repr

/-- `Signed_command_applied.t`. -/
structure SignedCommandApplied where
  userCommand : SignedPayload
  status : TransactionStatus
  body : SignedCommandAppliedBody
deriving DecidableEq, Repr

/-- `Signed_command_applied.new_accounts`. -/
def SignedCommandApplied.newAccounts (t : SignedCommandApplied) : List AccountId :=
  match t.body with
  | .payment newAccounts => newAccounts
  | .stakeDelegation _ => []
  | .failed => []

/-- How `compute_updates` stops: with the exception `Reject`, or with a failure. -/
inductive UpdateError where
  | reject (err : LedgerError)
  | failure (f : Failure)
deriving DecidableEq, Repr

/-- `compute_updates` for `Stake_delegation`. -/
def computeStakeDelegation (config : Config) (currentGlobalSlot : GlobalSlot) (ledger : Ledger)
    (feePayerLocation : Location) (feePayerAccount : Account) (receiver : AccountId) :
    Outcome UpdateError (List (Location × Account) × SignedCommandAppliedBody) := do
  let (receiverLocation, _) := getWithLocation config.digests ledger receiver
  Outcome.okIfTrue (receiverLocation ≠ .new) (.failure .receiverNotPresent)
  Outcome.okIfTrue feePayerAccount.hasPermissionToSetDelegate (.failure .updateNotPermittedDelegate)
  let previousDelegate := feePayerAccount.delegate
  let timing ← (validateTiming feePayerAccount 0 currentGlobalSlot).mapError fun tag =>
    UpdateError.failure (timingErrorToUserCommandStatus tag)
  return ([(feePayerLocation, { feePayerAccount with delegate := some receiver.publicKey, timing })],
    .stakeDelegation previousDelegate)

/-- `compute_updates` for `Payment`. -/
def computePayment (config : Config) (currentGlobalSlot : GlobalSlot) (ledger : Ledger)
    (feePayer : AccountId) (feePayerLocation : Location) (feePayerAccount : Account)
    (receiver : AccountId) (amount : Nat) :
    Outcome UpdateError (List (Location × Account) × SignedCommandAppliedBody) := do
  -- what the fee payer cannot pay is rejected
  let balance ← (subAmount feePayerAccount.balance amount).mapError fun _ =>
    UpdateError.reject (.described .sourceInsufficientBalance)
  let timing ← (validateTiming feePayerAccount amount currentGlobalSlot).mapError fun tag =>
    UpdateError.reject (.described (timingErrorToUserCommandStatus tag))
  let feePayerAccount := { feePayerAccount with balance, timing }
  let (receiverLocation, receiverAccount) :=
    if feePayer = receiver then (feePayerLocation, feePayerAccount)
    else getWithLocation config.digests ledger receiver
  Outcome.okIfTrue feePayerAccount.hasPermissionToSend (.failure .updateNotPermittedBalance)
  Outcome.okIfTrue receiverAccount.hasPermissionToReceive (.failure .updateNotPermittedBalance)
  let action := if receiverLocation = .new then AccountState.added else .existed
  let receiverAmount ← (subAccountCreationFee config action amount).mapError fun _ =>
    UpdateError.failure .amountInsufficientToCreateAccount
  let receiverAccount ← (incrBalance receiverAccount receiverAmount).mapError UpdateError.failure
  let newAccounts := if receiverLocation = .new then [receiver] else []
  let updatedAccounts :=
    if feePayer = receiver then [(receiverLocation, receiverAccount)]
    else [(receiverLocation, receiverAccount), (feePayerLocation, feePayerAccount)]
  return (updatedAccounts, .payment newAccounts)

/-- `compute_updates`. -/
def computeUpdates (config : Config) (currentGlobalSlot : GlobalSlot) (ledger : Ledger)
    (payload : SignedCommand) (feePayerLocation : Location) (feePayerAccount : Account) :
    Outcome UpdateError (List (Location × Account) × SignedCommandAppliedBody) :=
  match payload.body with
  | .stakeDelegation _ =>
    computeStakeDelegation config currentGlobalSlot ledger feePayerLocation feePayerAccount payload.receiver
  | .payment _ amount =>
    computePayment config currentGlobalSlot ledger payload.feePayer feePayerLocation feePayerAccount
      payload.receiver amount

/-- `set_with_location` for one account after the other. -/
def setAll (ledger : Ledger) : List (Location × Account) → Outcome LedgerError Ledger
  | [] => .ok ledger
  | (location, account) :: rest => do
    let ledger ← setWithLocation ledger location account
    setAll ledger rest

/-- The end of `apply_user_command_unchecked`, on the ledger in which the fee is paid. -/
def finishUserCommand (ledger : Ledger) (userCommand : SignedPayload) :
    Outcome UpdateError (List (Location × Account) × SignedCommandAppliedBody) →
      Outcome LedgerError (Ledger × SignedCommandApplied)
  | .ok (locatedAccounts, body) => do
    let ledger ← setAll ledger locatedAccounts
    return (ledger, { userCommand, status := .applied, body })
  | .error (.failure failure) =>
    .ok (ledger, { userCommand, status := .failed (FailureCollection.ofSingleFailure failure), body := .failed })
  | .error (.reject err) => .error err
  | .raise => .raise

/-- `apply_user_command_unchecked`. -/
def applyUserCommandUnchecked (config : Config) (txnGlobalSlot : GlobalSlot) (ledger : Ledger)
    (userCommand : SignedPayload) : Outcome LedgerError (Ledger × SignedCommandApplied) := do
  let payload := userCommand.payload
  validateTime payload.validUntil txnGlobalSlot
  let (feePayerLocation, feePayerAccount) ← payFee config payload userCommand.signer ledger txnGlobalSlot
  Outcome.okIfTrue feePayerAccount.hasPermissionToSend (.described .updateNotPermittedBalance)
  Outcome.okIfTrue feePayerAccount.hasPermissionToIncrementNonce (.described .updateNotPermittedNonce)
  -- the fee is charged whether or not the command succeeds
  let ledger ← setWithLocation ledger feePayerLocation feePayerAccount
  finishUserCommand ledger userCommand
    (computeUpdates config txnGlobalSlot ledger payload feePayerLocation feePayerAccount)

/-! ### What it does -/

variable {config : Config} {ledger : Ledger} {location : Location} {paid : Account} {slot : GlobalSlot}
  {located : List (Location × Account)} {body : SignedCommandAppliedBody} {applied : SignedCommandApplied} {userCommand : SignedPayload} {receiver : AccountId} {ledger' : Ledger} {amount : Nat}

theorem subAccountCreationFee_eq_ok {action : AccountState} {rest : Nat} :
    subAccountCreationFee config action amount = .ok rest ↔
      amount = rest + (if action = .added then config.accountCreationFee else 0) := by
  unfold subAccountCreationFee
  dsimp only
  split
  · rw [Outcome.okOr_eq_ok, Amount.sub_eq_some]
  · rw [Outcome.ok.injEq, Nat.add_zero]

/-- The account of the fee payer once the fee is paid. -/
def feePaid (digests : Digests) (slot : GlobalSlot) (command : SignedCommand) (account : Account) : Account :=
  { account with
    balance := account.balance - command.fee
    nonce := account.nonce.succ
    receiptChainHash := digests.consSignedCommandPayload command account.receiptChainHash
    timing := timingAfter slot account.timing }

/-- The fee payer can pay, and it is the turn of the command. -/
structure CanPayFee (slot : GlobalSlot) (command : SignedCommand) (account : Account) : Prop where
  nonce : account.nonce = command.nonce
  fee : command.fee ≤ account.balance
  minBalance : minBalance slot account.timing ≤ account.balance - command.fee

theorem payFee_eq_ok {command : SignedCommand} {signerPk : PublicKey}
    (h : payFee config command signerPk ledger slot = .ok (location, paid)) :
    ∃ account, ledger[command.feePayer]? = some account ∧ location = .existing command.feePayer
      ∧ CanPayFee slot command account ∧ paid = feePaid config.digests slot command account := by
  unfold payFee payFee' at h
  dsimp only at h
  cases hget : ledger[command.feePayer]? with
  | none =>
    rw [getWithLocation_of_none hget] at h
    simp only [Outcome.bind_eq_ok, Outcome.okIfTrue_eq_ok, ne_eq, not_true_eq_false, decide_false,
      Bool.false_eq_true, false_and, and_false, exists_false] at h
  | some account =>
    rw [getWithLocation_of_some hget] at h
    simp only [Outcome.bind_eq_ok, Outcome.okIfTrue_eq_ok, subAmount, Outcome.okOr_eq_ok, validateNonces,
      Outcome.mapError_eq_ok, Outcome.pure_eq, Outcome.ok.injEq, Prod.mk.injEq, decide_eq_true_eq] at h
    obtain ⟨-, -, -, -, -, -, balance, hbalance, -, hnonce, timing, htiming, rfl, rfl⟩ := h
    obtain ⟨hfee, hmin, rfl⟩ := validateTiming_eq_ok.1 htiming
    have hsub := Amount.sub_eq_some.1 hbalance
    refine ⟨account, rfl, rfl, ⟨hnonce, hfee, hmin⟩, ?_⟩
    unfold feePaid
    congr 1
    omega

/-- **The effect of a signed command** after the fee is paid by the account `paid`. -/
inductive CommandEffect (config : Config) (slot : GlobalSlot) (command : SignedCommand) (paid : Account)
    (ledger : Ledger) : Ledger → TransactionStatus → SignedCommandAppliedBody → Prop where
  | failed (failure : Failure) :
      CommandEffect config slot command paid ledger ledger (.failed (.ofSingleFailure failure)) .failed
  | stakeDelegation (newDelegate : PublicKey) :
      command.body = .stakeDelegation newDelegate →
      minBalance slot paid.timing ≤ paid.balance →
      CommandEffect config slot command paid ledger
        (ledger.insert command.feePayer
          { paid with delegate := some newDelegate, timing := timingAfter slot paid.timing })
        .applied (.stakeDelegation paid.delegate)
  | selfPayment (amount : Nat) :
      command.body = .payment command.feePayerPk amount →
      minBalance slot paid.timing ≤ paid.balance - amount →
      CommandEffect config slot command paid ledger
        (ledger.insert command.feePayer { paid with timing := timingAfter slot paid.timing })
        .applied (.payment [])
  | payment (receiverPk : PublicKey) (amount balance : Nat) (location : Location) (account : Account) :
      command.body = .payment receiverPk amount →
      receiverPk ≠ command.feePayerPk →
      amount ≤ paid.balance →
      minBalance slot paid.timing ≤ paid.balance - amount →
      getWithLocation config.digests ledger command.receiver = (location, account) →
      balance + (if location = .new then config.accountCreationFee else 0) = account.balance + amount →
      CommandEffect config slot command paid ledger
        ((ledger.insert command.receiver { account with balance }).insert command.feePayer
          { paid with balance := paid.balance - amount, timing := timingAfter slot paid.timing })
        .applied (.payment (if location = .new then [command.receiver] else []))

theorem computeStakeDelegation_eq_ok
    (h : computeStakeDelegation config slot ledger location paid receiver = .ok (located, body)) :
    minBalance slot paid.timing ≤ paid.balance
      ∧ located = [(location,
        { paid with delegate := some receiver.publicKey, timing := timingAfter slot paid.timing })]
      ∧ body = .stakeDelegation paid.delegate := by
  unfold computeStakeDelegation at h
  simp only [Outcome.bind_eq_ok, Outcome.okIfTrue_eq_ok, Outcome.mapError_eq_ok, Outcome.pure_eq,
    Outcome.ok.injEq, Prod.mk.injEq] at h
  obtain ⟨-, -, -, -, timing, htiming, rfl, rfl⟩ := h
  obtain ⟨-, hmin, rfl⟩ := validateTiming_eq_ok.1 htiming
  exact ⟨hmin, rfl, rfl⟩

theorem computePayment_eq_ok {feePayer : AccountId}
    (h : computePayment config slot ledger feePayer location paid receiver amount = .ok (located, body)) :
    let sender := { paid with balance := paid.balance - amount, timing := timingAfter slot paid.timing }
    let got := if feePayer = receiver then (location, sender) else getWithLocation config.digests ledger receiver
    amount ≤ paid.balance ∧ minBalance slot paid.timing ≤ paid.balance - amount
      ∧ ∃ balance, balance + (if got.1 = .new then config.accountCreationFee else 0) = got.2.balance + amount
        ∧ located = (if feePayer = receiver then [(got.1, { got.2 with balance })]
          else [(got.1, { got.2 with balance }), (location, sender)])
        ∧ body = .payment (if got.1 = .new then [receiver] else []) := by
  intro sender got
  unfold computePayment at h
  simp only [Outcome.bind_eq_ok, Outcome.mapError_eq_ok] at h
  obtain ⟨balance, hbalance, timing, htiming, h⟩ := h
  obtain ⟨hamount, hmin, rfl⟩ := validateTiming_eq_ok.1 htiming
  obtain rfl : balance = paid.balance - amount := by
    have hsub := Amount.sub_eq_some.1 (Outcome.okOr_eq_ok.1 hbalance)
    omega
  refine ⟨hamount, hmin, ?_⟩
  obtain ⟨-, -, -, -, rest, hrest, received, hreceived, h⟩ := h
  simp only [incrBalance, addAmount, Outcome.bind_eq_ok, Outcome.mapError_eq_ok, Outcome.okOr_eq_ok,
    Outcome.pure_eq, Outcome.ok.injEq] at hreceived
  obtain ⟨balance', hbalance', rfl⟩ := hreceived
  obtain ⟨hlocated, hbody⟩ := Prod.mk.inj (Outcome.ok.inj h)
  have hrest := subAccountCreationFee_eq_ok.1 hrest
  obtain ⟨hadd, -⟩ := Amount.add_eq_some.1 hbalance'
  refine ⟨balance', ?_, hlocated.symm, hbody.symm⟩
  have hadd : got.2.balance + rest = balance' := hadd
  change amount = rest + if (if got.1 = .new then AccountState.added else .existed) = .added then
    config.accountCreationFee else 0 at hrest
  by_cases hnew : got.1 = .new
  · simp only [hnew, if_true] at hrest ⊢
    omega
  · simp only [hnew, if_false, reduceCtorEq] at hrest ⊢
    omega

/-- `compute_updates` and setting the accounts, together. -/
theorem finishUserCommand_ok
    (h : finishUserCommand ledger userCommand (computeUpdates config slot ledger userCommand.payload
      (.existing userCommand.payload.feePayer) paid) = .ok (ledger', applied)) :
    applied.userCommand = userCommand
      ∧ CommandEffect config slot userCommand.payload paid ledger ledger' applied.status applied.body := by
  obtain ⟨command, signer⟩ := userCommand
  unfold finishUserCommand at h
  split at h
  · rename_i located body hupdates
    obtain ⟨ledger'', hset, h⟩ := Outcome.bind_eq_ok.1 h
    cases h
    refine ⟨rfl, ?_⟩
    unfold computeUpdates at hupdates
    cases hbody : command.body with
    | stakeDelegation newDelegate =>
      rw [hbody] at hupdates
      obtain ⟨hmin, rfl, rfl⟩ := computeStakeDelegation_eq_ok hupdates
      have hreceiver : command.receiver.publicKey = newDelegate := by
        unfold SignedCommand.receiver SignedCommand.receiverPk
        rw [hbody]
      obtain rfl := Outcome.ok.inj hset
      rw [hreceiver]
      exact .stakeDelegation newDelegate hbody hmin
    | payment receiverPk amount =>
      rw [hbody] at hupdates
      obtain ⟨hamount, hmin, balance, hbalance, rfl, rfl⟩ := computePayment_eq_ok hupdates
      have hreceiver : command.receiver = ⟨receiverPk, TokenId.default⟩ := by
        unfold SignedCommand.receiver SignedCommand.receiverPk SignedCommand.token
        rw [hbody]
      by_cases hself : receiverPk = command.feePayerPk
      · subst hself
        have heq : command.feePayer = command.receiver := hreceiver.symm
        rw [if_pos heq] at hset hbalance ⊢
        rw [if_pos heq] at hset
        obtain rfl := Outcome.ok.inj hset
        dsimp only at hbalance ⊢
        obtain rfl : balance = paid.balance := by
          simp only [reduceCtorEq, if_false] at hbalance
          omega
        exact .selfPayment amount hbody hmin
      · have hne : command.feePayer ≠ command.receiver := by
          intro heq
          rw [hreceiver] at heq
          exact hself (congrArg AccountId.publicKey heq).symm
        rw [if_neg hne] at hset hbalance ⊢
        rw [if_neg hne] at hset
        obtain ⟨ledger₁, hset₁, hset⟩ := Outcome.bind_eq_ok.1 hset
        obtain rfl := Outcome.ok.inj hset
        rw [setWithLocation_getWithLocation ?_ hset₁]
        · exact .payment receiverPk amount balance _ _ hbody hself hamount hmin rfl hbalance
        · intro hnone
          rw [getWithLocation_of_none hnone]
          rfl
  · cases h
    exact ⟨rfl, .failed _⟩
  · cases h
  · cases h

/-- **What applying a signed command does**: the fee payer pays the fee with the right nonce,
and then the command has its effect. -/
theorem applyUserCommandUnchecked_ok
    (h : applyUserCommandUnchecked config slot ledger userCommand = .ok (ledger', applied)) :
    applied.userCommand = userCommand ∧ ∃ account,
      ledger[userCommand.payload.feePayer]? = some account
        ∧ CanPayFee slot userCommand.payload account
        ∧ CommandEffect config slot userCommand.payload (feePaid config.digests slot userCommand.payload account)
          (ledger.insert userCommand.payload.feePayer (feePaid config.digests slot userCommand.payload account))
          ledger' applied.status applied.body := by
  unfold applyUserCommandUnchecked at h
  simp only [Outcome.bind_eq_ok] at h
  obtain ⟨-, -, ⟨location, paid⟩, hpay, -, -, -, -, ledger₁, hset, h⟩ := h
  obtain ⟨account, hget, rfl, hcan, rfl⟩ := payFee_eq_ok hpay
  obtain rfl := Outcome.ok.inj hset
  obtain ⟨hcommand, heffect⟩ := finishUserCommand_ok h
  exact ⟨hcommand, account, hget, hcan, heffect⟩

end MinaProtocol.TransactionLogic
