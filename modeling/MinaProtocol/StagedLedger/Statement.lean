import MinaProtocol.StagedLedger.PendingCoinbase

/-!
# StagedLedger.Statement

What a transaction snark states: the ledgers, the pending coinbase stack and the local state
before and after, the fee excess and the supply increase. Statements of neighbours are merged
when their ends fit together. Proofs and the work of snark workers carry such statements.
-/

namespace MinaProtocol

namespace OneOrTwo

variable {α β : Type}

/-- `One_or_two.length`. -/
def length : OneOrTwo α → Nat
  | .one _ => 1
  | .two _ _ => 2

/-- `One_or_two.map`. -/
def map (f : α → β) : OneOrTwo α → OneOrTwo β
  | .one a => .one (f a)
  | .two a b => .two (f a) (f b)

/-- `One_or_two.zip`, where `none` is `"One_or_two.zip mismatched"`. -/
def zip : OneOrTwo α → OneOrTwo β → Option (OneOrTwo (α × β))
  | .one a, .one b => some (.one (a, b))
  | .two a₁ a₂, .two b₁ b₂ => some (.two (a₁, b₁) (a₂, b₂))
  | _, _ => none

/-- `One_or_two.group_list`. -/
def groupList : List α → List (OneOrTwo α)
  | [] => []
  | [a] => [.one a]
  | a :: b :: rest => .two a b :: groupList rest

/-- `One_or_two.map` in a monad of results, the first one before the second. -/
def mapM {m : Type → Type} [Monad m] (f : α → m β) : OneOrTwo α → m (OneOrTwo β)
  | .one a => do return .one (← f a)
  | .two a b => do
    let a' ← f a
    let b' ← f b
    return .two a' b'

theorem zip_isSome_iff {a : OneOrTwo α} {b : OneOrTwo β} : (zip a b).isSome = true ↔ a.length = b.length := by
  cases a <;> cases b <;> simp [zip, length]

end OneOrTwo

namespace StagedLedger

/-- `Ledger_hash.t` and `Frozen_ledger_hash.t`. -/
abbrev LedgerHash := Nat

/-- `Mina_state.Local_state.t`. -/
structure LocalState where
  stackFrame : Nat
  callStack : Nat
  transactionCommitment : Nat
  fullTransactionCommitment : Nat
  excess : Signed
  supplyIncrease : Signed
  ledger : LedgerHash
  success : Bool
  accountUpdateIndex : UInt32
  failureStatusTbl : FailureCollection
  willSucceed : Bool
deriving DecidableEq, Repr

/-- The hashes that statements are made of. -/
structure StatementDigests extends StackDigests where
  /-- `Ledger_hash.empty_hash`. -/
  emptyLedgerHash : LedgerHash
  /-- The digest of `Stack_frame.empty`. -/
  emptyStackFrame : Nat
  /-- `Call_stack_digest.empty`. -/
  emptyCallStack : Nat

/-- `Local_state.empty`. -/
def LocalState.empty (digests : StatementDigests) : LocalState where
  stackFrame := digests.emptyStackFrame
  callStack := digests.emptyCallStack
  transactionCommitment := 0
  fullTransactionCommitment := 0
  excess := Signed.ofUnsigned 0
  supplyIncrease := Signed.ofUnsigned 0
  ledger := digests.emptyLedgerHash
  success := true
  accountUpdateIndex := 0
  failureStatusTbl := []
  willSucceed := true

/-- `Mina_state.Registers.t`. -/
structure Registers where
  firstPassLedger : LedgerHash
  secondPassLedger : LedgerHash
  pendingCoinbaseStack : Stack
  localState : LocalState
deriving DecidableEq, Repr

/-- `Transaction_snark.Statement.t`, of which `sok_digest` is `()`. -/
structure Statement where
  source : Registers
  target : Registers
  connectingLedgerLeft : LedgerHash
  connectingLedgerRight : LedgerHash
  feeExcess : FeeExcess
  supplyIncrease : Signed
deriving DecidableEq, Repr

namespace Statement

/-- The reasons for which statements do not merge. -/
inductive Error where
  /-- `"Constraints failed: "`, with the numbers of the rules. -/
  | constraintsFailed (rules : List Nat)
  /-- `"Pending coinbase stacks are not connected"`. -/
  | pendingCoinbaseStacks
  /-- `"Local states are not connected"`. -/
  | localStates
  | feeExcess (e : FeeExcess.Error)
  /-- `"Error adding supply_increase"`. -/
  | supplyIncrease
deriving DecidableEq, Repr

/-- `validate_ledgers_at_merge`: the rules that fail. -/
def validateLedgersAtMerge (s1 s2 : Statement) : List Nat :=
  -- the first statement ends and the second one starts in the same block
  let isSameBlockAtSharedBoundary : Bool := s1.connectingLedgerRight = s2.connectingLedgerLeft
  let l1 :=
    if isSameBlockAtSharedBoundary then s2.source.firstPassLedger else s1.connectingLedgerRight
  let res1 : Bool := s1.target.firstPassLedger = l1
  let l2 :=
    if isSameBlockAtSharedBoundary then s1.target.secondPassLedger else s2.connectingLedgerLeft
  let res2 : Bool := s2.source.secondPassLedger = l2
  let l3 :=
    if isSameBlockAtSharedBoundary then s1.target.secondPassLedger else s2.source.firstPassLedger
  let res3 : Bool := s1.target.secondPassLedger = l3
  let localStateLedgerEqual : Bool := s2.source.localState.ledger = s1.target.localState.ledger
  let localStateLedgerTransitions : Bool :=
    s2.source.localState.ledger = s2.source.secondPassLedger
      && s1.target.localState.ledger = s1.target.firstPassLedger
  let res4 := localStateLedgerEqual || localStateLedgerTransitions
  ([(res1, 1), (res2, 2), (res3, 3), (res4, 4)].filter fun p => !p.1).map Prod.snd

/-- `Fee_excess.combine`, as an outcome. -/
def combineFeeExcess (e1 e2 : FeeExcess) : Outcome Error FeeExcess :=
  match FeeExcess.combine e1 e2 with
  | .ok e => .ok e
  | .error e => .error (.feeExcess e)

/-- `Transaction_snark.Statement.merge`. -/
def merge (digests : StatementDigests) (s1 s2 : Statement) : Outcome Error Statement := do
  let failed := validateLedgersAtMerge s1 s2
  Outcome.okIfTrue failed.isEmpty (.constraintsFailed failed)
  Outcome.okIfTrue (Stack.connected digests.toStackDigests none s1.target.pendingCoinbaseStack
    s2.source.pendingCoinbaseStack) .pendingCoinbaseStacks
  -- the ledgers of the local states have been checked above
  Outcome.okIfTrue ({ s1.target.localState with ledger := digests.emptyLedgerHash }
    = { s2.source.localState with ledger := digests.emptyLedgerHash }) .localStates
  let feeExcess ← combineFeeExcess s1.feeExcess s2.feeExcess
  let supplyIncrease ← Outcome.okOr (Signed.add s1.supplyIncrease s2.supplyIncrease) .supplyIncrease
  return {
    source := s1.source
    target := s2.target
    connectingLedgerLeft := s1.connectingLedgerLeft
    connectingLedgerRight := s2.connectingLedgerRight
    feeExcess
    supplyIncrease }

end Statement

/-- `Ledger_proof.t`. -/
structure LedgerProof where
  statement : Statement
  sokDigest : Nat
  underlyingProof : Nat
deriving DecidableEq, Repr

/-- `Sok_message.t`. -/
structure SokMessage where
  fee : Nat
  prover : PublicKey
deriving DecidableEq, Repr

/-- `Transaction_snark_work.t`. -/
structure TransactionSnarkWork where
  fee : Nat
  proofs : OneOrTwo LedgerProof
  prover : PublicKey
deriving DecidableEq, Repr

namespace TransactionSnarkWork

/-- `Transaction_snark_work.statement`. -/
def statement (t : TransactionSnarkWork) : OneOrTwo Statement := t.proofs.map LedgerProof.statement

end TransactionSnarkWork

end StagedLedger

end MinaProtocol
