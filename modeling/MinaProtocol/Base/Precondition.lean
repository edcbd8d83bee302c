import MinaProtocol.Base.Account
import MinaProtocol.Base.TransactionStatus

/-!
# Base.Precondition

The preconditions of account updates: a range for a number, a value for a digest, or
nothing. A check says whether the precondition holds; the text of its error is not read.
-/

namespace MinaProtocol

namespace Consensus

/-- `Epoch_ledger.t`. -/
structure EpochLedger where
  hash : Nat
  totalCurrency : Nat
deriving DecidableEq, Repr

/-- `Epoch_data.Staking.Value.t` and `Epoch_data.Next.Value.t`. -/
structure EpochData where
  ledger : EpochLedger
  seed : Nat
  startCheckpoint : Nat
  lockCheckpoint : Nat
  epochLength : UInt32
deriving DecidableEq, Repr

end Consensus

/-- `Zkapp_basic.Or_ignore.t`. -/
inductive OrIgnore (A : Type) where
  | check (a : A)
  | ignore
deriving DecidableEq, Repr

/-- `Zkapp_precondition.Closed_interval.t`. -/
structure ClosedInterval (A : Type) where
  lower : A
  upper : A
deriving DecidableEq, Repr

/-- `Zkapp_precondition.Numeric.t`. -/
abbrev Numeric (A : Type) := OrIgnore (ClosedInterval A)

/-- `Numeric.check`. -/
def Numeric.check {A : Type} [LE A] [DecidableLE A] (t : Numeric A) (x : A) : Bool :=
  match t with
  | .ignore => true
  | OrIgnore.check ⟨lower, upper⟩ => lower ≤ x && x ≤ upper

/-- `Numeric.is_constant`. -/
def Numeric.isConstant {A : Type} [DecidableEq A] (t : Numeric A) : Bool :=
  match t with
  | .ignore => false
  | OrIgnore.check ⟨lower, upper⟩ => lower = upper

/-- `Eq_data.check`. -/
def EqData.check {A : Type} [DecidableEq A] (t : OrIgnore A) (x : A) : Bool :=
  match t with
  | .ignore => true
  | .check y => x = y

/-- `Zkapp_precondition.Account.t`. -/
structure AccountPrecondition where
  balance : Numeric Nat
  nonce : Numeric AccountNonce
  receiptChainHash : OrIgnore Nat
  delegate : OrIgnore PublicKey
  state : Vector (OrIgnore Nat) 8
  actionState : OrIgnore Nat
  provedState : OrIgnore Bool
  isNew : OrIgnore Bool
deriving DecidableEq, Repr

namespace AccountPrecondition

/-- `Zkapp_precondition.Account.nonce`: nothing but the nonce. -/
def ofNonce (n : AccountNonce) : AccountPrecondition where
  balance := .ignore
  nonce := OrIgnore.check ⟨n, n⟩
  receiptChainHash := .ignore
  delegate := .ignore
  state := Vector.replicate 8 .ignore
  actionState := .ignore
  provedState := .ignore
  isNew := .ignore

/-- `Zkapp_precondition.Account.checks`, for an account whose zkApp part is `zkapp`. -/
def checks (newAccount : Bool) (t : AccountPrecondition) (a : Account) (zkapp : ZkappAccount) : List (Failure × Bool) :=
  [(.accountBalancePreconditionUnsatisfied, t.balance.check a.balance),
    (.accountNoncePreconditionUnsatisfied, t.nonce.check a.nonce),
    (.accountReceiptChainHashPreconditionUnsatisfied, EqData.check t.receiptChainHash a.receiptChainHash),
    (.accountDelegatePreconditionUnsatisfied, EqData.check t.delegate (a.delegate.getD PublicKey.empty))]
  ++ [(.accountActionStatePreconditionUnsatisfied,
      zkapp.actionState.toList.any fun state => EqData.check t.actionState state)]
  ++ (t.state.zip zkapp.appState).toList.mapIdx (fun i (c, v) =>
      (.accountAppStatePreconditionUnsatisfied i, EqData.check c v))
  ++ [(.accountProvedStatePreconditionUnsatisfied, EqData.check t.provedState zkapp.provedState)]
  ++ [(.accountIsNewPreconditionUnsatisfied, EqData.check t.isNew newAccount)]

end AccountPrecondition

/-- `Zkapp_precondition.Protocol_state.Epoch_data.t`. -/
structure EpochDataPrecondition where
  ledgerHash : OrIgnore Nat
  ledgerTotalCurrency : Numeric Nat
  seed : OrIgnore Nat
  startCheckpoint : OrIgnore Nat
  lockCheckpoint : OrIgnore Nat
  epochLength : Numeric UInt32
deriving DecidableEq, Repr

/-- `epoch_data` of `Protocol_state.check`. It ignores the seed. -/
def EpochDataPrecondition.check (p : EpochDataPrecondition) (t : Consensus.EpochData) : Bool :=
  EqData.check p.ledgerHash t.ledger.hash && p.ledgerTotalCurrency.check t.ledger.totalCurrency
    && EqData.check p.startCheckpoint t.startCheckpoint
    && EqData.check p.lockCheckpoint t.lockCheckpoint && p.epochLength.check t.epochLength

/-- `Zkapp_precondition.Protocol_state.t`. -/
structure ProtocolStatePrecondition where
  snarkedLedgerHash : OrIgnore Nat
  blockchainLength : Numeric UInt32
  minWindowDensity : Numeric UInt32
  totalCurrency : Numeric Nat
  globalSlotSinceGenesis : Numeric GlobalSlot
  stakingEpochData : EpochDataPrecondition
  nextEpochData : EpochDataPrecondition
deriving DecidableEq, Repr

/-- `Zkapp_precondition.Protocol_state.View.t`. -/
structure ProtocolStateView where
  snarkedLedgerHash : Nat
  blockchainLength : UInt32
  minWindowDensity : UInt32
  totalCurrency : Nat
  globalSlotSinceGenesis : GlobalSlot
  stakingEpochData : Consensus.EpochData
  nextEpochData : Consensus.EpochData
deriving DecidableEq, Repr

namespace ProtocolStatePrecondition

/-- `Zkapp_precondition.Protocol_state.Epoch_data.accept`. -/
def acceptEpochData : EpochDataPrecondition := ⟨.ignore, .ignore, .ignore, .ignore, .ignore, .ignore⟩

/-- `Zkapp_precondition.Protocol_state.accept`. -/
def accept : ProtocolStatePrecondition where
  snarkedLedgerHash := .ignore
  blockchainLength := .ignore
  minWindowDensity := .ignore
  totalCurrency := .ignore
  globalSlotSinceGenesis := .ignore
  stakingEpochData := acceptEpochData
  nextEpochData := acceptEpochData

/-- `Zkapp_precondition.Protocol_state.check`. -/
def check (p : ProtocolStatePrecondition) (s : ProtocolStateView) : Bool :=
  EqData.check p.snarkedLedgerHash s.snarkedLedgerHash
    && p.blockchainLength.check s.blockchainLength && p.minWindowDensity.check s.minWindowDensity
    && p.totalCurrency.check s.totalCurrency
    && p.globalSlotSinceGenesis.check s.globalSlotSinceGenesis
    && p.stakingEpochData.check s.stakingEpochData && p.nextEpochData.check s.nextEpochData

end ProtocolStatePrecondition

end MinaProtocol
