import MinaProtocol.StagedLedger.ScanState

/-!
# StagedLedger.PreDiffInfo

Staged ledger diffs, and the transactions that a diff stands for: its commands, and the
coinbases and fee transfers that pay for the completed work. A diff has a part for the tree of
the scan state that is being filled, and one for the tree after it.
-/

namespace MinaProtocol

namespace StagedLedger

open Std

/-- The constants of the protocol, which are amounts of currency where they are said to be. -/
structure ConstraintConstants where
  transactionCapacityLog2 : Nat
  workDelay : Nat
  pendingCoinbaseDepth : Nat
  coinbaseAmount : Nat
  coinbaseAmount_lt : coinbaseAmount < 2 ^ 64
  superchargedCoinbaseFactor : Nat
  accountCreationFee : Nat
  accountCreationFee_pos : 0 < accountCreationFee

/-! ### Diffs -/

/-- `User_command.t`, with the signer of a signed command. -/
inductive Command where
  | signedCommand (c : SignedPayload)
  | zkappCommand (c : ZkappCommand)
deriving DecidableEq, Repr

namespace Command

/-- `User_command.fee`. -/
def fee : Command → Nat
  | .signedCommand c => c.payload.fee
  | .zkappCommand c => c.feePayer.fee

/-- `Transaction.Command`. -/
def transaction : Command → Transaction
  | .signedCommand c => .signedCommand c
  | .zkappCommand c => .zkappCommand c

end Command

/-- `At_most_two.t`. -/
inductive AtMostTwo (α : Type) where
  | zero
  | one (a : Option α)
  | two (a : Option (α × Option α))
deriving DecidableEq, Repr

/-- `At_most_one.t`. -/
inductive AtMostOne (α : Type) where
  | zero
  | one (a : Option α)
deriving DecidableEq, Repr

/-- The parts of a coinbase, of which a second pre-diff has at most one. -/
def AtMostOne.toAtMostTwo {α : Type} : AtMostOne α → AtMostTwo α
  | .zero => .zero
  | .one a => .one a

/-- `Pre_diff_two.t`, and `Pre_diff_one.t` with the other `C`. -/
structure PreDiff (C : Type) where
  completedWorks : List TransactionSnarkWork
  commands : List (WithStatus Command)
  coinbase : C
  internalCommandStatuses : List TransactionStatus
deriving DecidableEq, Repr

/-- `Staged_ledger_diff.t`. -/
structure Diff where
  first : PreDiff (AtMostTwo CoinbaseFeeTransfer)
  second : Option (PreDiff (AtMostOne CoinbaseFeeTransfer))
deriving DecidableEq, Repr

namespace Diff

/-- `Staged_ledger_diff.commands`. -/
def commands (t : Diff) : List (WithStatus Command) :=
  t.first.commands ++ (t.second.map PreDiff.commands).getD []

/-- `Staged_ledger_diff.completed_works`. -/
def completedWorks (t : Diff) : List TransactionSnarkWork :=
  t.first.completedWorks ++ (t.second.map PreDiff.completedWorks).getD []

/-- The coinbase of the second pre-diff. -/
def secondCoinbase (t : Diff) : AtMostOne CoinbaseFeeTransfer := (t.second.map PreDiff.coinbase).getD .zero

/-- `coinbase_amount`. -/
def coinbaseAmount (constants : ConstraintConstants) (superchargeCoinbase : Bool) : Option Nat :=
  if superchargeCoinbase then
    -- `Currency.Amount.scale`
    if constants.coinbaseAmount * constants.superchargedCoinbaseFactor < 2 ^ 64 then
      some (constants.coinbaseAmount * constants.superchargedCoinbaseFactor)
    else none
  else some constants.coinbaseAmount

/-- `Staged_ledger_diff.coinbase`. -/
def coinbaseOf (constants : ConstraintConstants) (superchargeCoinbase : Bool) (t : Diff) : Option Nat :=
  match t.first.coinbase, t.secondCoinbase with
  | .zero, .zero => some 0
  | _, _ => coinbaseAmount constants superchargeCoinbase

variable {constants : ConstraintConstants} {superchargeCoinbase : Bool} {amount : Nat}

theorem coinbaseAmount_lt (h : coinbaseAmount constants superchargeCoinbase = some amount) : amount < 2 ^ 64 := by
  unfold coinbaseAmount at h
  split at h
  · split at h
    · rename_i hlt
      obtain rfl := Option.some.inj h
      exact hlt
    · cases h
  · obtain rfl := Option.some.inj h
    exact constants.coinbaseAmount_lt

theorem coinbaseOf_lt {t : Diff} (h : coinbaseOf constants superchargeCoinbase t = some amount) : amount < 2 ^ 64 := by
  unfold coinbaseOf at h
  split at h
  · obtain rfl := Option.some.inj h
    exact Nat.two_pow_pos 64
  · exact coinbaseAmount_lt h

end Diff

namespace PreDiffInfo

/-- What is wrong with a coinbase. -/
inductive CoinbaseError where
  /-- `"underflow when splitting coinbase"`. -/
  | underflow (minuend subtrahend : Nat)
  /-- `"Coinbase.create: invalid coinbase"`. -/
  | invalidCoinbase
  /-- `"Overflow when trying to add account_creation_fee"`. -/
  | overflowFeeTransfer (accountCreationFee fee : Nat)
  /-- `"Invalid coinbase value in staged ledger prediffs"`. -/
  | invalidParts (first : AtMostTwo CoinbaseFeeTransfer) (second : AtMostOne CoinbaseFeeTransfer)
  /-- `"Overflow when calculating coinbase amount"`. -/
  | overflowAmount (superchargedCoinbaseFactor coinbaseAmount : Nat)
  /-- `"More than two coinbase parts"`. -/
  | moreThanTwoParts
deriving DecidableEq, Repr

/-- What the verifier says of a command that is not valid. -/
inductive InvalidCommand where
  | invalidKeys
  | invalidSignature
  | invalidProof
  | missingVerificationKey
  | unexpectedVerificationKey
  | mismatchedAuthorizationKind
  /-- `"batch verification failed"`. -/
  | validAssuming
deriving DecidableEq, Repr

/-- `Pre_diff_info.Error.t`. -/
inductive Error where
  | verificationFailed (e : InvalidCommand)
  | coinbaseError (e : CoinbaseError)
  | insufficientFee (fees workFees : Nat)
  | internalCommandStatusMismatch
  /-- `Unexpected`, when the verifier cannot check the commands. -/
  | verifier
  /-- `Unexpected`, with `"Fee overflow"`. -/
  | feeOverflow
  /-- `Unexpected`, when the fees of the provers do not add up. -/
  | feeTransfers
deriving DecidableEq, Repr

/-- `Coinbase.create`. -/
def createOneCoinbase (amount : Nat) (receiver : PublicKey) (feeTransfer : Option CoinbaseFeeTransfer) :
    Outcome Error Coinbase :=
  let isValid : Bool :=
    match feeTransfer with
    | none => true
    | some ft => ft.fee ≤ amount
  if isValid then .ok ⟨receiver, amount, feeTransfer.filter fun ft => receiver ≠ ft.receiverPk⟩
  else .error (.coinbaseError .invalidCoinbase)

/-- `underflow_err`. -/
def underflowErr (a1 a2 : Nat) : Outcome Error Nat :=
  Outcome.okOr (Amount.sub a1 a2) (.coinbaseError (.underflow a1 a2))

/-- `two_parts`. -/
def twoParts (coinbaseAmount : Nat) (receiver : PublicKey) (amt : Nat)
    (ft1 ft2 : Option CoinbaseFeeTransfer) : Outcome Error (List Coinbase) := do
  let remCoinbase ← underflowErr coinbaseAmount amt
  let _ ← underflowErr remCoinbase ((ft2.map CoinbaseFeeTransfer.fee).getD 0)
  let cb1 ← createOneCoinbase amt receiver ft1
  let cb2 ← createOneCoinbase remCoinbase receiver ft2
  return [cb1, cb2]

variable (constants : ConstraintConstants)

variable (coinbaseParts : AtMostTwo CoinbaseFeeTransfer)

variable (receiver : PublicKey)

/-- `create_coinbase`. -/
def createCoinbase (coinbaseAmount : Nat) : Outcome Error (List Coinbase) :=
  match coinbaseParts with
  | .zero => .ok []
  | .one x => do
    let cb ← createOneCoinbase coinbaseAmount receiver x
    return [cb]
  | .two none => twoParts coinbaseAmount receiver constants.accountCreationFee none none
  | .two (some (ft1, ft2)) => do
    let amount ← Outcome.okOr (Amount.add constants.accountCreationFee ft1.fee)
      (.coinbaseError (.overflowFeeTransfer constants.accountCreationFee ft1.fee))
    twoParts coinbaseAmount receiver amount (some ft1) ft2

/-- `sum_fees`, where `none` is `"Fee overflow"`. -/
def sumFees (fees : List Nat) : Option Nat := fees.foldlM Amount.add 0

/-- `fee_remainder`. -/
def feeRemainder (commands : List (WithStatus Command)) (completedWorks : List TransactionSnarkWork)
    (coinbaseFee : Nat) : Outcome Error Nat := do
  let budget ← Outcome.okOr (sumFees (commands.map fun t => t.data.fee)) .feeOverflow
  let workFee ← Outcome.okOr (sumFees (completedWorks.map TransactionSnarkWork.fee)) .feeOverflow
  let totalWorkFee := (Amount.sub workFee coinbaseFee).getD 0
  Outcome.okOr (Amount.sub budget totalWorkFee) (.insufficientFee budget totalWorkFee)

/-- `Map.of_alist_reduce` with the sum of fees. -/
def singlesMap (singles : List (PublicKey × Nat)) : Option (ExtTreeMap PublicKey Nat) :=
  singles.foldlM (fun accum p =>
    match accum[p.1]? with
    | none => some (accum.insert p.1 p.2)
    | some fee => (Amount.add fee p.2).map (accum.insert p.1)) ∅

/-- The fold over the fee transfers of the coinbases in `create_fee_transfers`. -/
def deductCoinbaseFee (accum : ExtTreeMap PublicKey Nat) (ft : CoinbaseFeeTransfer) :
    Option (ExtTreeMap PublicKey Nat) :=
  match accum[ft.receiverPk]? with
  | none => some accum
  | some fee =>
    (Amount.sub fee ft.fee).map fun newFee =>
      if 0 < newFee then accum.insert ft.receiverPk newFee else accum.erase ft.receiverPk

/-- `create_fee_transfers`. -/
def createFeeTransfers (completedWorks : List TransactionSnarkWork) (delta : Nat) (publicKey : PublicKey)
    (coinbaseFts : List CoinbaseFeeTransfer) : Outcome Error (List FeeTransfer) := do
  let singles :=
    (if delta = 0 then [] else [(publicKey, delta)])
      ++ completedWorks.filterMap fun w => if w.fee = 0 then none else some (w.prover, w.fee)
  let singlesMap ← Outcome.okOr (singlesMap singles) .feeTransfers
  -- the fees that the coinbase pays are part of it already
  let remaining ← Outcome.okOr (coinbaseFts.foldlM deductCoinbaseFee singlesMap) .feeTransfers
  -- all singles have the default token, so `Fee_transfer.of_singles` makes no error
  return OneOrTwo.groupList (remaining.toList.map fun p => ⟨p.1, p.2, TokenId.default⟩)

/-- `Transaction_data.t`. -/
structure TransactionData where
  commands : List (WithStatus Command)
  coinbases : List Coinbase
  feeTransfers : List FeeTransfer

/-- `get_transaction_data`. -/
def getTransactionData (coinbaseAmount : Nat) (commands : List (WithStatus Command))
    (completedWorks : List TransactionSnarkWork) : Outcome Error TransactionData := do
  let coinbases ← createCoinbase constants coinbaseParts receiver coinbaseAmount
  let coinbaseFts := coinbases.filterMap Coinbase.feeTransfer
  -- `Or_error.ok_exn`
  let coinbaseWorkFees ← Outcome.ofOption (sumFees (coinbaseFts.map CoinbaseFeeTransfer.fee))
  let txnWorksOthers := completedWorks.filter fun w => receiver ≠ w.prover
  let delta ← feeRemainder commands txnWorksOthers coinbaseWorkFees
  let feeTransfers ← createFeeTransfers txnWorksOthers delta receiver coinbaseFts
  return ⟨commands, coinbases, feeTransfers⟩

/-- `Pre_diff_info.t`. -/
structure Info where
  transactions : List (WithStatus Transaction)
  work : List TransactionSnarkWork
  commandsCount : Nat
  coinbases : List Nat
deriving DecidableEq, Repr

/-- `get_individual_info`. -/
def getIndividualInfo (coinbaseAmount : Nat) (commands : List (WithStatus Command))
    (completedWorks : List TransactionSnarkWork) (internalCommandStatuses : List TransactionStatus) :
    Outcome Error Info := do
  let data ← getTransactionData constants coinbaseParts receiver coinbaseAmount commands completedWorks
  let internalCommands :=
    data.coinbases.map Transaction.coinbase ++ data.feeTransfers.map Transaction.feeTransfer
  Outcome.okIfTrue (internalCommands.length = internalCommandStatuses.length)
    .internalCommandStatusMismatch
  let internalCommandsWithStatuses := internalCommands.zipWith WithStatus.mk internalCommandStatuses
  return {
    transactions := data.commands.map (WithStatus.map Command.transaction) ++ internalCommandsWithStatuses
    work := completedWorks
    commandsCount := data.commands.length
    coinbases := data.coinbases.map Coinbase.amount }

/-- `check_coinbase`. -/
def checkCoinbase (diff : Diff) : Outcome Error Unit :=
  match diff.first.coinbase, diff.secondCoinbase with
  | .zero, .zero => .ok ()
  | .zero, .one _ => .ok ()
  | .one _, .zero => .ok ()
  | .two _, .zero => .ok ()
  | x, y => .error (.coinbaseError (.invalidParts x y))

variable (coinbaseReceiver : PublicKey)

/-- The second pre-diff in `get'`. -/
def getSecondInfo (coinbaseAmount : Nat) : Option (PreDiff (AtMostOne CoinbaseFeeTransfer)) → Outcome Error Info
  | none => .ok ⟨[], [], 0, []⟩
  | some t2 => getIndividualInfo constants t2.coinbase.toAtMostTwo coinbaseReceiver coinbaseAmount t2.commands
      t2.completedWorks t2.internalCommandStatuses

/-- `get'`. -/
def get' (coinbaseAmount : Option Nat) (diff : Diff) : Outcome Error Info := do
  let coinbaseAmount ← Outcome.okOr coinbaseAmount
    (.coinbaseError (.overflowAmount constants.superchargedCoinbaseFactor constants.coinbaseAmount))
  checkCoinbase diff
  let p1 ← getIndividualInfo constants diff.first.coinbase coinbaseReceiver coinbaseAmount
    diff.first.commands diff.first.completedWorks diff.first.internalCommandStatuses
  let p2 ← getSecondInfo constants coinbaseReceiver coinbaseAmount diff.second
  return {
    transactions := p1.transactions ++ p2.transactions
    work := p1.work ++ p2.work
    commandsCount := p1.commandsCount + p2.commandsCount
    coinbases := p1.coinbases ++ p2.coinbases }

/-- `get`, where `check` returns what is wrong with one of the commands, if it can tell, and else
how many it has found valid. A valid command is the one that was checked. -/
def get (superchargeCoinbase : Bool)
    (check : List (WithStatus Command) → Option (Except InvalidCommand Nat)) (t : Diff) : Outcome Error Info :=
  match check t.commands with
  | none => .error .verifier
  | some (.error e) => .error (.verificationFailed e)
  | some (.ok n) => do
    -- `List.map2_exn`
    Outcome.assert (n = t.commands.length)
    get' constants coinbaseReceiver (t.coinbaseOf constants superchargeCoinbase) t

end PreDiffInfo

end StagedLedger

end MinaProtocol
