import MinaProtocol.Base.UserCommand
import MinaProtocol.TransactionLogic.Timing

/-!
# TransactionLogic.Ledger

The ledger as the transaction logic uses it: accounts by their ids, of which any number
fits. Hash functions are parameters.
-/

namespace MinaProtocol

/-- The hash functions of ledgers and commands, and the digests that are not of anything. -/
structure Digests where
  /-- `Receipt.Chain_hash.empty`. -/
  emptyReceiptChainHash : Nat
  /-- `Zkapp_account.Actions.empty_state_element`. -/
  emptyStateElement : Nat
  /-- `Account_id.derive_token_id`. -/
  deriveTokenId : AccountId → Nat
  /-- `Receipt.Chain_hash.cons_signed_command_payload`. -/
  consSignedCommandPayload : SignedCommand → Nat → Nat
  /-- `Receipt.Chain_hash.cons_zkapp_command_commitment`. -/
  consZkappCommandCommitment : UInt32 → Nat → Nat → Nat
  /-- `Account_update.Actions.push_events`. -/
  pushEvents : Nat → List (List Nat) → Nat
  /-- `Signed_command_memo.hash`. -/
  memoHash : String → Nat
  /-- `Call_forest.hash`, of which `Transaction_commitment.create` makes the commitment. -/
  forestHash : CallForest AccountUpdate → Nat
  /-- `Digest.Account_update.create`. -/
  accountUpdateDigest : AccountUpdate → Nat
  /-- `Transaction_commitment.create_complete`, of the commitment, the hash of the memo and
  that of the fee payer. -/
  completeCommitment : Nat → Nat → Nat → Nat

/-- `Zkapp_account.default`. -/
def ZkappAccount.default (digests : Digests) : ZkappAccount where
  appState := Vector.replicate 8 0
  verificationKey := none
  zkappVersion := 0
  actionState := Vector.replicate 5 digests.emptyStateElement
  lastActionSlot := 0
  provedState := false
  zkappUri := ""

/-- The zkApp of an account, which is the default one when it has none. -/
def Account.zkappOrDefault (digests : Digests) (a : Account) : ZkappAccount :=
  a.zkapp.getD (ZkappAccount.default digests)

/-- `Account.create`. -/
def Account.create (digests : Digests) (accountId : AccountId) (balance : Nat) : Account where
  publicKey := accountId.publicKey
  tokenId := accountId.tokenId
  tokenSymbol := ""
  balance
  nonce := 0
  receiptChainHash := digests.emptyReceiptChainHash
  -- only accounts for the default token delegate
  delegate := if accountId.tokenId = TokenId.default then some accountId.publicKey else none
  votingFor := 0
  timing := .untimed
  permissions := .userDefault
  zkapp := none

/-- `Account.initialize`. -/
def Account.initialize (digests : Digests) (accountId : AccountId) : Account :=
  Account.create digests accountId 0

namespace TransactionLogic

open Std

/-- `Ledger.t`. -/
abbrev Ledger := ExtTreeMap AccountId Account

/-- `Existing` with the location, for which the id stands, or `New`. -/
inductive Location where
  | existing (accountId : AccountId)
  | new
deriving DecidableEq, Repr

/-- The errors of the transaction logic, where the source has texts. -/
inductive LedgerError where
  | accountAlreadyExists (accountId : AccountId)
  | overflow
  | insufficientFunds
  | accountCreationFee (fee amount : Nat)
  | nonce (account transaction : AccountNonce)
  | expired (currentGlobalSlot validUntil : GlobalSlot)
  | feePayerDoesNotExist
  | feePayerDidNotSign
  | feeTokenNotDefault
  | timing (tag : TimingTag)
  | described (failure : Failure)
  | feesInNonDefaultTokens
  | burnedTokensOverflow
  | coinbaseFeeTransferTooLarge
  | raised
  | failedCommandChangedLedger
deriving DecidableEq, Repr

/-- `get_with_location`. -/
def getWithLocation (digests : Digests) (ledger : Ledger) (accountId : AccountId) : Location × Account :=
  match ledger[accountId]? with
  | some account => (.existing accountId, account)
  | none => (.new, Account.create digests accountId 0)

/-- `set_with_location`. -/
def setWithLocation (ledger : Ledger) (location : Location) (account : Account) : Outcome LedgerError Ledger :=
  match location with
  | .existing accountId => .ok (ledger.insert accountId account)
  | .new =>
    if ledger.contains account.identifier then .error (.accountAlreadyExists account.identifier)
    else .ok (ledger.insert account.identifier account)

variable {accountId : AccountId} {digests : Digests} {ledger : Ledger} {account : Account}

theorem getWithLocation_of_some (h : ledger[accountId]? = some account) :
    getWithLocation digests ledger accountId = (.existing accountId, account) := by
  unfold getWithLocation
  rw [h]

theorem getWithLocation_of_none (h : ledger[accountId]? = none) :
    getWithLocation digests ledger accountId = (.new, Account.create digests accountId 0) := by
  unfold getWithLocation
  rw [h]

theorem setWithLocation_getWithLocation {ledger' : Ledger}
    (ha : ledger[accountId]? = none → account.identifier = accountId)
    (h : setWithLocation ledger (getWithLocation digests ledger accountId).1 account = .ok ledger') :
    ledger' = ledger.insert accountId account := by
  unfold getWithLocation at h
  split at h
  · exact (Outcome.ok.inj h).symm
  · rename_i hnone
    unfold setWithLocation at h
    dsimp only at h
    split at h
    · cases h
    · rw [ha hnone] at h
      exact (Outcome.ok.inj h).symm

end TransactionLogic

end MinaProtocol
