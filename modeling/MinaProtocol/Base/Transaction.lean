import MinaProtocol.Base.FeeExcess
import MinaProtocol.Base.UserCommand

/-!
# Base.Transaction

The transactions of a block: the commands of users, and what pays block producers and snark
workers.
-/

namespace MinaProtocol

namespace OneOrTwo

variable {α : Type}

/-- `One_or_two.to_list`. -/
def toList : OneOrTwo α → List α
  | .one a => [a]
  | .two a b => [a, b]

end OneOrTwo

/-- `Signed_command.t`: what is signed, and the key it is signed with. -/
structure SignedPayload where
  payload : SignedCommand
  signer : PublicKey
deriving DecidableEq, Repr

namespace SignedCommand

/-- `Signed_command.fee_payer`. -/
def feePayer (t : SignedCommand) : AccountId := ⟨t.feePayerPk, TokenId.default⟩

/-- `Signed_command.fee_token`. -/
def feeToken (_ : SignedCommand) : Nat := TokenId.default

/-- `Signed_command.token`. -/
def token (_ : SignedCommand) : Nat := TokenId.default

/-- `Signed_command.receiver_pk`. -/
def receiverPk (t : SignedCommand) : PublicKey :=
  match t.body with
  | .payment receiverPk _ => receiverPk
  | .stakeDelegation newDelegate => newDelegate

/-- `Signed_command.receiver`. -/
def receiver (t : SignedCommand) : AccountId := ⟨t.receiverPk, t.token⟩

end SignedCommand

/-- `Fee_transfer.Single.t`. -/
structure FeeTransferSingle where
  receiverPk : PublicKey
  fee : Nat
  feeToken : Nat
deriving DecidableEq, Repr

/-- `Fee_transfer.Single.receiver`. -/
def FeeTransferSingle.receiver (t : FeeTransferSingle) : AccountId := ⟨t.receiverPk, t.feeToken⟩

/-- `Fee_transfer.t`. -/
abbrev FeeTransfer := OneOrTwo FeeTransferSingle

/-- `Coinbase_fee_transfer.t`. -/
structure CoinbaseFeeTransfer where
  receiverPk : PublicKey
  fee : Nat
deriving DecidableEq, Repr

/-- `Coinbase_fee_transfer.receiver`. -/
def CoinbaseFeeTransfer.receiver (t : CoinbaseFeeTransfer) : AccountId := ⟨t.receiverPk, TokenId.default⟩

/-- `Coinbase.t`. -/
structure Coinbase where
  receiver : PublicKey
  amount : Nat
  feeTransfer : Option CoinbaseFeeTransfer
deriving DecidableEq, Repr

/-- `Coinbase.expected_supply_increase`, where `none` is `"Coinbase underflow"`. -/
def Coinbase.expectedSupplyIncrease (t : Coinbase) : Option Nat :=
  match t.feeTransfer with
  | none => some t.amount
  | some ft => (Amount.sub t.amount ft.fee).map fun _ => t.amount

/-- `Transaction.t`, with the two kinds of commands apart. -/
inductive Transaction where
  | signedCommand (c : SignedPayload)
  | zkappCommand (c : ZkappCommand)
  | feeTransfer (t : FeeTransfer)
  | coinbase (t : Coinbase)
deriving DecidableEq, Repr

namespace Transaction

/-- `Transaction.expected_supply_increase`. -/
def expectedSupplyIncrease : Transaction → Option Nat
  | .signedCommand _ => some 0
  | .zkappCommand _ => some 0
  | .feeTransfer _ => some 0
  | .coinbase t => t.expectedSupplyIncrease

end Transaction

end MinaProtocol
