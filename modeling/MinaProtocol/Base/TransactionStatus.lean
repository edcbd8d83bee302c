import Mathlib

/-!
# Base.TransactionStatus

Why a transaction or an account update fails, and the status of a transaction in a block.
-/

namespace MinaProtocol

/-- `Transaction_status.Failure.t`. -/
inductive Failure where
  | predicate
  | sourceNotPresent
  | receiverNotPresent
  | amountInsufficientToCreateAccount
  | cannotPayCreationFeeInToken
  | sourceInsufficientBalance
  | sourceMinimumBalanceViolation
  | receiverAlreadyExists
  | tokenOwnerNotCaller
  | overflow
  | globalExcessOverflow
  | localExcessOverflow
  | localSupplyIncreaseOverflow
  | globalSupplyIncreaseOverflow
  | signedCommandOnZkappAccount
  | zkappAccountNotPresent
  | updateNotPermittedBalance
  | updateNotPermittedAccess
  | updateNotPermittedTiming
  | updateNotPermittedDelegate
  | updateNotPermittedAppState
  | updateNotPermittedVerificationKey
  | updateNotPermittedActionState
  | updateNotPermittedZkappUri
  | updateNotPermittedTokenSymbol
  | updateNotPermittedPermissions
  | updateNotPermittedNonce
  | updateNotPermittedVotingFor
  | zkappCommandReplayCheckFailed
  | feePayerNonceMustIncrease
  | feePayerMustBeSigned
  | accountBalancePreconditionUnsatisfied
  | accountNoncePreconditionUnsatisfied
  | accountReceiptChainHashPreconditionUnsatisfied
  | accountDelegatePreconditionUnsatisfied
  | accountActionStatePreconditionUnsatisfied
  | accountAppStatePreconditionUnsatisfied (i : Nat)
  | accountProvedStatePreconditionUnsatisfied
  | accountIsNewPreconditionUnsatisfied
  | protocolStatePreconditionUnsatisfied
  | unexpectedVerificationKeyHash
  | validWhilePreconditionUnsatisfied
  | incorrectNonce
  | invalidFeeExcess
  | cancelled
deriving DecidableEq, Repr

/-- `Transaction_status.Failure.Collection.t`: a bucket for each account update or single. -/
abbrev FailureCollection := List (List Failure)

namespace FailureCollection

variable (t : FailureCollection)

/-- `Collection.is_empty`. -/
def isEmpty : Bool := t.flatten.isEmpty

/-- `Collection.of_single_failure`. -/
def ofSingleFailure (f : Failure) : FailureCollection := [[f]]

theorem isEmpty_iff : isEmpty t = true ↔ ∀ l ∈ t, l = [] := by
  unfold isEmpty
  rw [List.isEmpty_iff, List.flatten_eq_nil_iff]

theorem isEmpty_reverse : isEmpty t.reverse = isEmpty t := by
  rw [Bool.eq_iff_iff, isEmpty_iff, isEmpty_iff]
  simp

end FailureCollection

/-- `Transaction_status.t`. -/
inductive TransactionStatus where
  | applied
  | failed (failures : FailureCollection)
deriving DecidableEq, Repr

/-- `With_status.t`. -/
structure WithStatus (α : Type) where
  data : α
  status : TransactionStatus
deriving DecidableEq, Repr

namespace WithStatus

variable {α β : Type}

/-- `With_status.map`. -/
def map (f : α → β) (t : WithStatus α) : WithStatus β := ⟨f t.data, t.status⟩

end WithStatus

end MinaProtocol
