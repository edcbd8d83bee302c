import MinaProtocol.Lib.Checked
import MinaProtocol.TransactionLogic.Ledger

/-!
# TransactionLogic.UpdateAccount

What one account update of a zkApp command does to its account: the part of `apply` in
`zkapp_command_logic.ml` that reads and writes nothing but the account, the local fee excess
and the local supply increase. Every field has its own definition, in the order of the
source, which matters twice: the fields of a zkApp are written between `makeZkapp` and
`unmakeZkapp`, and the permissions come last, so that every check reads the old ones.
-/

namespace MinaProtocol

namespace Account

/-- `Account.delegate_opt`. -/
def delegateOpt (delegate : Option PublicKey) : PublicKey := delegate.getD PublicKey.empty

/-- `Inputs.Account.set_delegate`. -/
def setDelegate (delegate : PublicKey) (a : Account) : Account :=
  { a with delegate := if delegate = PublicKey.empty then none else some delegate }

/-- `Inputs.Account.is_timed`. -/
def isTimed (a : Account) : Bool :=
  match a.timing with
  | .untimed => false
  | .timed _ => true

/-- `Inputs.Account.make_zkapp`. -/
def makeZkapp (digests : Digests) (a : Account) : Account :=
  { a with zkapp := some (a.zkapp.getD (ZkappAccount.default digests)) }

/-- `Inputs.Account.unmake_zkapp`. -/
def unmakeZkapp (digests : Digests) (a : Account) : Account :=
  match a.zkapp with
  | none => { a with zkapp := none }
  | some zkapp =>
    { a with zkapp := if ZkappAccount.default digests = zkapp then none else some zkapp }

/-- `Inputs.Account.set_zkapp`. -/
def setZkapp (f : ZkappAccount → ZkappAccount) (a : Account) : Account :=
  { a with zkapp := a.zkapp.map f }

/-- `Inputs.Account.verification_key_hash`. -/
def verificationKeyHash (a : Account) : Option Nat :=
  match a.zkapp with
  | none => none
  | some zkapp => zkapp.verificationKey

end Account

/-- `Timing.vesting_period`, for the timing as an account has it. -/
def AccountTiming.vestingPeriod : AccountTiming → GlobalSlot
  | .untimed => 1
  | .timed t => t.vestingPeriod

namespace AccountUpdate

/-- `check_authorization`: whether a proof and whether a signature verifies. Both were
checked before. -/
def checkAuthorization (u : AccountUpdate) : Bool × Bool :=
  match u.authorization with
  | .signature => (false, true)
  | .proof => (true, false)
  | .noneGiven => (false, false)

/-- `Controller.check`, for the authorization of the account update. -/
def controllerCheck (u : AccountUpdate) (perm : AuthRequired) : Bool :=
  let (proofVerifies, signatureVerifies) := u.checkAuthorization
  perm.check (if proofVerifies then .proof else if signatureVerifies then .signature else .noneGiven)

theorem controllerCheck_eq (u : AccountUpdate) (perm : AuthRequired) :
    u.controllerCheck perm = perm.check u.authorization := by
  unfold controllerCheck checkAuthorization
  cases u.authorization <;> rfl

end AccountUpdate

namespace TransactionLogic

/-- What the transaction logic is given once and for all. -/
structure Config where
  digests : Digests
  /-- `constraint_constants.account_creation_fee`, which every profile sets to an amount. -/
  accountCreationFee : Nat
  accountCreationFee_pos : 0 < accountCreationFee

/-- What an account update reads besides its account. -/
structure UpdateContext where
  isStart : Bool
  accountIsNew : Bool
  globalSlot : GlobalSlot
  protocolState : ProtocolStateView
  fullTransactionCommitment : Nat
  accountUpdateIndex : UInt32
deriving DecidableEq, Repr

/-- What an account update leaves. -/
structure Updated where
  account : Account
  excess : Signed
  supplyIncrease : Signed
deriving DecidableEq, Repr

open Checked (check checkAll assert)

/-! ### The account before its fields are written -/

/-- A new account for the default token delegates to its public key. -/
def selfDelegate (accountIsNew : Bool) (u : AccountUpdate) (a : Account) : Account :=
  let selfDelegate := accountIsNew && u.tokenId = TokenId.default
  a.setDelegate (if selfDelegate then u.publicKey else Account.delegateOpt a.delegate)

/-- The preconditions of the account update. -/
def checkPreconditions (digests : Digests) (context : UpdateContext) (u : AccountUpdate) (a : Account) :
    Checked Failure Unit := do
  check .unexpectedVerificationKeyHash (!u.isProved || a.verificationKeyHash = u.verificationKeyHash)
  checkAll (u.accountPrecondition.checks context.accountIsNew a (a.zkapp.getD (ZkappAccount.default digests)))
  check .protocolStatePreconditionUnsatisfied (u.networkPrecondition.check context.protocolState)
  check .validWhilePreconditionUnsatisfied (u.validWhile.check context.globalSlot)

/-- The authorization of the account update, and that it cannot be replayed. -/
def checkAuthorized (isStart : Bool) (u : AccountUpdate) : Checked Failure Unit := do
  let (proofVerifies, signatureVerifies) := u.checkAuthorization
  assert (proofVerifies == u.isProved)
  assert (signatureVerifies == u.isSigned)
  -- the fee payer must increment its nonce
  check .feePayerNonceMustIncrease (u.incrementNonce || !isStart)
  check .feePayerMustBeSigned (signatureVerifies || !isStart)
  let precondHasConstantNonce := u.accountPrecondition.nonce.isConstant
  let incrementsNonceAndConstrainsItsOldValue := u.incrementNonce && precondHasConstantNonce
  let dependsOnTheFeePayersNonceAndIsntTheFeePayer := u.useFullCommitment && !isStart
  let doesNotUseASignature := !signatureVerifies
  check .zkappCommandReplayCheckFailed
    (incrementsNonceAndConstrainsItsOldValue || dependsOnTheFeePayersNonceAndIsntTheFeePayer
      || doesNotUseASignature)

/-! ### Timing and balance -/

variable (u : AccountUpdate)

variable (a : Account)

/-- Set the timing. -/
def updateTiming : Checked Failure Account := do
  let accountIsUntimed := !a.isTimed
  let hasPermission := u.controllerCheck a.permissions.setTiming
  check .updateNotPermittedTiming (u.timing.isKeep || (accountIsUntimed && hasPermission))
  let timing := (u.timing.map AccountTiming.timed).setOrKeep a.timing
  assert (0 < timing.vestingPeriod)
  return { a with timing }

variable (config : Config)

/-- The balance change after the creation fee, and whether that overflowed. -/
def balanceChangeAfterFee (accountIsNew : Bool) (u : AccountUpdate) : Signed × Bool :=
  let negCreationFee := (Signed.ofUnsigned config.accountCreationFee).negate
  let (balanceChangeForCreation, creationOverflow) := Signed.addFlagged u.balanceChange negCreationFee
  let payCreationFee := accountIsNew && u.implicitAccountCreationFee
  (if payCreationFee then balanceChangeForCreation else u.balanceChange,
    payCreationFee && creationOverflow)

/-- Take the fee for a new account from the balance change. -/
def payCreationFee (config : Config) (accountIsNew : Bool) (u : AccountUpdate) : Checked Failure Signed := do
  check .cannotPayCreationFeeInToken
    (!u.implicitAccountCreationFee || u.tokenId = TokenId.default)
  let (balanceChange, creationOverflow) := balanceChangeAfterFee config accountIsNew u
  let payCreationFee := accountIsNew && u.implicitAccountCreationFee
  check .amountInsufficientToCreateAccount
    (!(payCreationFee && (creationOverflow || balanceChange.sgn = Sgn.neg)))
  return balanceChange

/-- Take the fee for a new account from the local excess or supply increase, where it is to
be taken from there. -/
def subCreationFee (failure : Failure) (pays : Bool) (amount : Signed) : Checked Failure Signed := do
  let (amountMinusCreationFee, updateFailed) :=
    Signed.addFlagged amount (Signed.ofUnsigned config.accountCreationFee).negate
  check failure (!(pays && updateFailed))
  return if pays then amountMinusCreationFee else amount

/-- Apply the balance change. -/
def applyBalanceChange (accountIsNew : Bool) (u : AccountUpdate)
    (actualBalanceChange : Signed) (t : Updated) : Checked Failure Updated := do
  let a := t.account
  let payCreationFeeFromExcess := accountIsNew && !u.implicitAccountCreationFee
  let (balance, failed1) := Amount.addSignedFlagged a.balance actualBalanceChange
  check .overflow (!failed1)
  let excess ← subCreationFee config .localExcessOverflow payCreationFeeFromExcess t.excess
  let supplyIncrease ← subCreationFee config .localSupplyIncreaseOverflow accountIsNew t.supplyIncrease
  let isReceiver := actualBalanceChange.sgn = Sgn.pos
  let controller := if isReceiver then a.permissions.receive else a.permissions.send
  let hasPermission := u.controllerCheck controller
  check .updateNotPermittedBalance
    (hasPermission || Signed.equal (Signed.ofUnsigned 0) actualBalanceChange)
  return ⟨{ a with balance }, excess, supplyIncrease⟩

/-- Check the timing with the new balance. -/
def checkTiming (txnGlobalSlot : GlobalSlot) (a : Account) : Checked Failure Account := do
  let (possiblyError, timing, _) := validateTimingWithMinBalance' a 0 txnGlobalSlot
  -- it cannot say `insufficientBalance`, as no amount is taken
  let invalidTiming ← Checked.ofOption
    (match possiblyError with
      | .insufficientBalance _ => none
      | .invalidTiming invalidTiming => some invalidTiming)
  check .sourceMinimumBalanceViolation (!invalidTiming)
  return { a with timing }

/-! ### The fields -/

/-- A field that may be set when the permission is satisfied. -/
def setField {A : Type} (failure : Failure) (u : AccountUpdate) (perm : AuthRequired)
    (field : SetOrKeep A) (old : A) : Checked Failure A := do
  check failure (field.isKeep || u.controllerCheck perm)
  return field.setOrKeep old

/-- Check that the account can be accessed. -/
def checkAccess : Checked Failure Unit :=
  check .updateNotPermittedAccess (u.controllerCheck a.permissions.access)

/-- Update the app state. The state is proved when a proof has set all of it. -/
def updateAppState : Checked Failure Account := do
  let zkapp ← Checked.ofOption a.zkapp
  let keepingAppState := u.appState.toList.all SetOrKeep.isKeep
  let changingEntireAppState := u.appState.toList.all SetOrKeep.isSet
  let provedState :=
    if keepingAppState then zkapp.provedState
    else if u.checkAuthorization.1 then
      if changingEntireAppState then true else zkapp.provedState
    else false
  let a := a.setZkapp fun zkapp => { zkapp with provedState }
  check .updateNotPermittedAppState (keepingAppState || u.controllerCheck a.permissions.editState)
  let appState := (u.appState.zip zkapp.appState).map fun (field, old) => field.setOrKeep old
  return a.setZkapp fun zkapp => { zkapp with appState }

/-- Set the verification key. Where the permission is of an older version, a signature
is enough. -/
def updateVerificationKey : Checked Failure Account := do
  let zkapp ← Checked.ofOption a.zkapp
  let (originalAuth, txnVersion) := a.permissions.setVerificationKey
  let auth :=
    if TxnVersion.olderThanCurrent txnVersion then
      originalAuth.verificationKeyPermFallbackToSignatureWithOlderVersion
    else originalAuth
  let verificationKey ← setField .updateNotPermittedVerificationKey u auth
    (u.verificationKey.map some) zkapp.verificationKey
  return a.setZkapp fun zkapp => { zkapp with verificationKey }

/-- `update_action_state`. -/
def updateActionState (digests : Digests) (actionState : Vector Nat 5) (actions : List (List Nat))
    (txnGlobalSlot lastActionSlot : GlobalSlot) : Vector Nat 5 × GlobalSlot :=
  let isEmpty := actions.isEmpty
  let s1 := if isEmpty then actionState[0] else digests.pushEvents actionState[0] actions
  -- shift along if not empty and the last update was not this slot
  let isThisSlot := txnGlobalSlot = lastActionSlot
  let isEmptyOrThisSlot := isEmpty || isThisSlot
  let s5 := if isEmptyOrThisSlot then actionState[4] else actionState[3]
  let s4 := if isEmptyOrThisSlot then actionState[3] else actionState[2]
  let s3 := if isEmptyOrThisSlot then actionState[2] else actionState[1]
  let s2 := if isEmptyOrThisSlot then actionState[1] else actionState[0]
  (#v[s1, s2, s3, s4, s5], if isEmpty then lastActionSlot else txnGlobalSlot)

/-- Update the action state. -/
def updateActions (digests : Digests) (txnGlobalSlot : GlobalSlot) (u : AccountUpdate) (a : Account) :
    Checked Failure Account := do
  let zkapp ← Checked.ofOption a.zkapp
  let (actionState, lastActionSlot) :=
    updateActionState digests zkapp.actionState u.actions txnGlobalSlot zkapp.lastActionSlot
  check .updateNotPermittedActionState
    (u.actions.isEmpty || u.controllerCheck a.permissions.editActionState)
  return (a.setZkapp fun zkapp => { zkapp with actionState }).setZkapp fun zkapp =>
    { zkapp with lastActionSlot }

/-- Update the zkApp URI. -/
def updateZkappUri : Checked Failure Account := do
  let zkappUri ← setField .updateNotPermittedZkappUri u a.permissions.setZkappUri u.zkappUri
    ((a.zkapp.map ZkappAccount.zkappUri).getD "")
  return a.setZkapp fun zkapp => { zkapp with zkappUri }

/-- Update the token symbol. -/
def updateTokenSymbol : Checked Failure Account := do
  let tokenSymbol ← setField .updateNotPermittedTokenSymbol u a.permissions.setTokenSymbol
    u.tokenSymbol a.tokenSymbol
  return { a with tokenSymbol }

/-- Update the delegate. Only accounts for the default token can delegate. -/
def updateDelegate : Checked Failure Account := do
  let baseDelegate := Account.delegateOpt a.delegate
  let hasPermission := u.controllerCheck a.permissions.setDelegate
  check .updateNotPermittedDelegate
    (u.delegate.isKeep || (hasPermission && u.tokenId = TokenId.default))
  return a.setDelegate (u.delegate.setOrKeep baseDelegate)

/-- Update the nonce. -/
def updateNonce : Checked Failure Account := do
  let nonce := if u.incrementNonce then AccountNonce.succ a.nonce else a.nonce
  check .updateNotPermittedNonce (!u.incrementNonce || u.controllerCheck a.permissions.incrementNonce)
  return { a with nonce }

/-- Update voting-for. -/
def updateVotingFor : Checked Failure Account := do
  let votingFor ← setField .updateNotPermittedVotingFor u a.permissions.setVotingFor u.votingFor
    a.votingFor
  return { a with votingFor }

/-- Update the receipt chain hash. -/
def updateReceiptChainHash (digests : Digests) (context : UpdateContext) (u : AccountUpdate) (a : Account) : Account :=
  let (proofVerifies, signatureVerifies) := u.checkAuthorization
  { a with
    receiptChainHash :=
      if signatureVerifies || proofVerifies then
        digests.consZkappCommandCommitment context.accountUpdateIndex
          context.fullTransactionCommitment a.receiptChainHash
      else a.receiptChainHash }

/-- Update the permissions. -/
def updatePermissions : Checked Failure Account := do
  let permissions ← setField .updateNotPermittedPermissions u a.permissions.setPermissions
    u.permissions a.permissions
  return { a with permissions }

/-! ### All of it -/

variable (context : UpdateContext)

/-- The timing and the balance. -/
def updateFunds (u : AccountUpdate) (t : Updated) : Checked Failure Updated := do
  let a ← updateTiming u t.account
  let actualBalanceChange ← payCreationFee config context.accountIsNew u
  let t ← applyBalanceChange config context.accountIsNew u actualBalanceChange { t with account := a }
  let a ← checkTiming context.globalSlot t.account
  return { t with account := a }

/-- The fields of the zkApp. -/
def updateZkapp (u : AccountUpdate) (a : Account) : Checked Failure Account := do
  let a := a.makeZkapp config.digests
  checkAccess u a
  let a ← updateAppState u a
  let a ← updateVerificationKey u a
  let a ← updateActions config.digests context.globalSlot u a
  let a ← updateZkappUri u a
  return a.unmakeZkapp config.digests

/-- The other fields. The permissions are last. -/
def updateFields (u : AccountUpdate) (a : Account) : Checked Failure Account := do
  let a ← updateTokenSymbol u a
  let a ← updateDelegate u a
  let a ← updateNonce u a
  let a ← updateVotingFor u a
  let a := updateReceiptChainHash config.digests context u a
  updatePermissions u a

/-- What `apply` does to the account of an account update. -/
def updateAccount (u : AccountUpdate) (t : Updated) : Checked Failure Updated := do
  let a := selfDelegate context.accountIsNew u t.account
  checkPreconditions config.digests context u a
  checkAuthorized context.isStart u
  let a := { a with tokenId := u.tokenId }
  let t ← updateFunds config context u { t with account := a }
  let a ← updateZkapp config context u t.account
  let a ← updateFields config context u a
  return { t with account := a }

end TransactionLogic

end MinaProtocol
