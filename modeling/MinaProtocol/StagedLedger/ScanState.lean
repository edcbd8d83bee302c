import MinaProtocol.ParallelScan.State
import MinaProtocol.StagedLedger.Statement
import MinaProtocol.TransactionLogic.Transactions

/-!
# StagedLedger.ScanState

The transaction snark scan state: a parallel scan whose data are transactions with what their
snarks need, and whose results are ledger proofs. Beside it stand the transactions of the
proof emitted before the last one whose second pass the last one is still to have.
-/

namespace MinaProtocol

namespace TransactionLogic.TransactionApplied

/-- `Transaction_applied.transaction_status`. -/
def transactionStatus : TransactionApplied → TransactionStatus
  | .signedCommand c => c.status
  | .zkappCommand c => c.status
  | .feeTransfer f => f.status
  | .coinbase c => c.status

/-- `Transaction_applied.transaction`. -/
def transactionWithStatus (t : TransactionApplied) : WithStatus Transaction :=
  ⟨t.transaction, t.transactionStatus⟩

end TransactionLogic.TransactionApplied

namespace StagedLedger

open TransactionLogic (Ledger TransactionApplied LedgerError)
open ParallelScan (AvailableJob)

/-- `Sparse_ledger.t`: the root of a ledger, and the accounts at some ids. -/
structure SparseLedger where
  merkleRoot : LedgerHash
  accounts : List (AccountId × Option Account)
deriving DecidableEq, Repr

/-- `Pending_coinbase_stack_state.Init_stack.t`. -/
inductive InitStack where
  | base (stack : Stack)
  | merge
deriving DecidableEq, Repr

/-- `Transaction_with_witness.t`. -/
structure TransactionWithWitness where
  transactionWithInfo : TransactionApplied
  /-- the hashes of the protocol state and of its body -/
  stateHash : Nat × Nat
  statement : Statement
  initStack : InitStack
  firstPassLedgerWitness : SparseLedger
  secondPassLedgerWitness : SparseLedger
  blockGlobalSlot : GlobalSlot

/-- `Ledger_proof_with_sok_message.t`. -/
abbrev LedgerProofWithSokMessage := LedgerProof × SokMessage

/-- `Transaction_snark_scan_state.job`. -/
abbrev Job := AvailableJob LedgerProofWithSokMessage TransactionWithWitness

/-- `Transaction_snark_scan_state.t`. -/
structure ScanState where
  scanState : ParallelScan.State LedgerProofWithSokMessage TransactionWithWitness
  previousIncompleteZkappUpdates : List TransactionWithWitness
  borderBlockContinuedInTheNextTree : Bool

/-! ### Transactions in the order in which they are applied -/

/-- `Transactions_ordered.Poly.t`. -/
structure TransactionsOrdered (α : Type) where
  firstPass : List α
  secondPass : List α
  previousIncomplete : List α
  currentIncomplete : List α

namespace TransactionsOrdered

/-- `Transactions_ordered.map`. -/
def map {α β : Type} (f : α → β) (t : TransactionsOrdered α) : TransactionsOrdered β where
  firstPass := t.firstPass.map f
  secondPass := t.secondPass.map f
  previousIncomplete := t.previousIncomplete.map f
  currentIncomplete := t.currentIncomplete.map f

/-- Whether a transaction has something to do in the second pass. -/
def isZkapp (t : TransactionWithWitness) : Bool :=
  match t.transactionWithInfo.transaction with
  | .zkappCommand _ => true
  | _ => false

/-- The second passes of a block in a tree, or those that the next tree is to have: a second
pass that starts where the first passes end is made in this tree. -/
def secondPassOrIncomplete (targetFirstPassLedger : LedgerHash) (secondPassTxns : List TransactionWithWitness) :
    List TransactionWithWitness × List TransactionWithWitness :=
  match secondPassTxns with
  | [] => ([], [])
  | t :: _ =>
    if t.statement.source.secondPassLedger = targetFirstPassLedger then (secondPassTxns, [])
    else ([], secondPassTxns)

/-- `complete_and_incomplete_transactions`, of the transactions of one block. -/
def completeAndIncompleteTransactions (previousIncomplete : List TransactionWithWitness) :
    List TransactionWithWitness → Option (TransactionsOrdered TransactionWithWitness)
  | [] => none
  | h :: ts =>
    let txns := h :: ts
    let targetFirstPassLedger :=
      txns.foldl (fun _ t => t.statement.target.firstPassLedger) h.statement.source.firstPassLedger
    let passes := secondPassOrIncomplete targetFirstPassLedger (txns.filter isZkapp)
    some {
      firstPass := txns
      secondPass := passes.1
      currentIncomplete := passes.2
      previousIncomplete :=
        match previousIncomplete with
        | [] => []
        | t :: _ => if t.stateHash.1 = h.stateHash.1 then previousIncomplete else [] }

/-- `txns_by_block`. -/
def txnsByBlock (txnsPerTree : List TransactionWithWitness) : List (List TransactionWithWitness) :=
  txnsPerTree.splitBy fun t1 t2 => t1.stateHash.1 = t2.stateHash.1

/-- `first_and_second_pass_transactions_per_tree`. -/
def firstAndSecondPassTransactionsPerTree (previousIncomplete txnsPerTree : List TransactionWithWitness) :
    List (TransactionsOrdered TransactionWithWitness) :=
  (txnsByBlock txnsPerTree).filterMap (completeAndIncompleteTransactions previousIncomplete)

end TransactionsOrdered

/-- A transaction, the protocol state of its block and the slot of it. -/
abbrev TxnAndGlobalSlot := WithStatus Transaction × Nat × GlobalSlot

/-- `extract_txn_and_global_slot`. -/
def extractTxnAndGlobalSlot (t : TransactionWithWitness) : TxnAndGlobalSlot :=
  (t.transactionWithInfo.transactionWithStatus, t.stateHash.1, t.blockGlobalSlot)

namespace ScanState

/-- `empty`. -/
def empty (workDelay transactionCapacityLog2 : Nat) : ScanState where
  scanState := ParallelScan.empty (2 ^ transactionCapacityLog2) workDelay
  previousIncompleteZkappUpdates := []
  borderBlockContinuedInTheNextTree := false

variable (t : ScanState)

/-- `latest_ledger_proof'`. -/
def latestLedgerProof' : Option (LedgerProofWithSokMessage × List (TransactionsOrdered TransactionWithWitness)) :=
  (ParallelScan.lastEmittedValue t.scanState).map fun (proof, txnsWithWitnesses) =>
    let previousIncomplete := t.previousIncompleteZkappUpdates
    let perTree := TransactionsOrdered.firstAndSecondPassTransactionsPerTree
    let txns :=
      if t.borderBlockContinuedInTheNextTree then perTree previousIncomplete txnsWithWitnesses
      else if previousIncomplete.isEmpty then perTree [] txnsWithWitnesses
      else
        { firstPass := [], secondPass := [], previousIncomplete, currentIncomplete := [] }
          :: perTree [] txnsWithWitnesses
    (proof, txns)

/-- `latest_ledger_proof`. -/
def latestLedgerProof : Option (LedgerProofWithSokMessage × List (TransactionsOrdered TxnAndGlobalSlot)) :=
  t.latestLedgerProof'.map fun (p, txns) => (p, txns.map (TransactionsOrdered.map extractTxnAndGlobalSlot))

/-- `incomplete_txns_from_recent_proof_tree`. -/
def incompleteTxnsFromRecentProofTree : Option (LedgerProofWithSokMessage × List TransactionWithWitness × Bool) :=
  t.latestLedgerProof'.map fun (proof, txnsPerBlock) =>
    match txnsPerBlock.getLast? with
    | none => (proof, [], false)
    | some txnsInLastBlock =>
      -- the ledger after the first passes is the snarked one, so second passes are left for later
      if !txnsInLastBlock.secondPass.isEmpty then (proof, txnsInLastBlock.secondPass, false)
      else (proof, txnsInLastBlock.currentIncomplete, true)

/-! ### Work -/

/-- `free_space`. -/
def freeSpace : Nat := ParallelScan.freeSpace t.scanState

/-- `next_on_new_tree`. -/
def nextOnNewTree : Bool := ParallelScan.nextOnNewTree t.scanState

/-- `partition_if_overflowing`. -/
def partitionIfOverflowing : ParallelScan.SpacePartition :=
  let bundleCount (workCount : Nat) : Nat := (workCount + 1) / 2
  let p := ParallelScan.partitionIfOverflowing t.scanState
  { first := (p.first.1, bundleCount p.first.2)
    second := p.second.map fun (slots, jobCount) => (slots, bundleCount jobCount) }

variable (digests : StatementDigests)

/-- `statement_of_job`. -/
def statementOfJob : Job → Option Statement
  | .base d => some d.statement
  | .merge p1 p2 =>
    match Statement.merge digests p1.1.statement p2.1.statement with
    | .ok s => some s
    | _ => none

/-- The statements of a list of lists of jobs, in pairs; `none` where a job has no statement and
the source asserts that it has. -/
def pairedStatements (workSeqs : List (List Job)) : Option (List (OneOrTwo Statement)) :=
  (workSeqs.mapM fun (workSeq : List Job) =>
    (workSeq.mapM (statementOfJob digests)).map OneOrTwo.groupList).map List.flatten

/-- `all_work_statements_exn`. -/
def allWorkStatementsExn (t : ScanState) : Option (List (OneOrTwo Statement)) :=
  pairedStatements digests (ParallelScan.allJobs t.scanState)

/-- `work_statements_for_new_diff`. -/
def workStatementsForNewDiff (t : ScanState) : Option (List (OneOrTwo Statement)) :=
  pairedStatements digests (ParallelScan.jobsForNextUpdate t.scanState)

/-- The pairs of jobs of the next update. -/
def workPairsForNewDiff : List (OneOrTwo Job) :=
  (ParallelScan.jobsForNextUpdate t.scanState).flatMap OneOrTwo.groupList

/-- `k_work_pairs_for_new_diff`. -/
def kWorkPairsForNewDiff (k : Nat) : List (OneOrTwo Job) := t.workPairsForNewDiff.take k

/-! ### The next scan state -/

/-- The errors of this module. -/
inductive Error where
  /-- `"Length mismatch"`. -/
  | lengthMismatch
  | statement (e : Statement.Error)
  | parallelScan (e : ParallelScan.Error)
  /-- `"The new final statement does not connect to the previous proof's statement"`. -/
  | finalStatement (e : Statement.Error)
deriving DecidableEq, Repr

/-- `map2_or_error`. -/
def map2OrError {α β γ : Type} (f : α → β → Outcome Error γ) : List α → List β → Outcome Error (List γ)
  | [], [] => .ok []
  | x :: xs, y :: ys => do
    let z ← f x y
    let zs ← map2OrError f xs ys
    return z :: zs
  | _, _ => .error .lengthMismatch

/-- `completed_work_to_scanable_work`. -/
def completedWorkToScanableWork (job : Job)
    (work : Nat × LedgerProof × PublicKey) : Outcome Error LedgerProofWithSokMessage :=
  let (fee, currentProof, prover) := work
  match job with
  | .base d => .ok (⟨d.statement, currentProof.sokDigest, currentProof.underlyingProof⟩, ⟨fee, prover⟩)
  | .merge p p' => do
    let statement ← Outcome.mapError .statement (Statement.merge digests p.1.statement p'.1.statement)
    return (⟨statement, currentProof.sokDigest, currentProof.underlyingProof⟩, ⟨fee, prover⟩)

/-- `total_proofs`. -/
def totalProofs (works : List TransactionSnarkWork) : Nat := (works.map fun w => w.proofs.length).sum

/-- `fill_in_transaction_snark_work`. -/
def fillInTransactionSnarkWork (t : ScanState)
    (works : List TransactionSnarkWork) : Outcome Error (List LedgerProofWithSokMessage) :=
  let nextJobs := (ParallelScan.jobsForNextUpdate t.scanState).flatten.take (totalProofs works)
  map2OrError (completedWorkToScanableWork digests) nextJobs
    (works.flatMap fun w => (w.proofs.map fun proof => (w.fee, proof, w.prover)).toList)

/-- `Parallel_scan.update`, as an outcome. -/
def updateScan (data : List TransactionWithWitness) (completedJobs : List LedgerProofWithSokMessage) :
    Outcome Error (Option (LedgerProofWithSokMessage × List TransactionWithWitness)
      × ParallelScan.State LedgerProofWithSokMessage TransactionWithWitness) :=
  match ParallelScan.update data completedJobs t.scanState with
  | .ok r => .ok r
  | .error e => .error (.parallelScan e)

/-- The statement of an emitted proof connects to that of the one before it. -/
def stmtsConnect (prevStmt currStmt : Statement) : Outcome Error Unit :=
  if prevStmt = currStmt then .ok ()
  else do
    let _ ← Outcome.mapError .finalStatement (Statement.merge digests prevStmt currStmt)
    return ()

/-- The statement of the last proof, or of this one if there is none, and what the last proof
left for the next. -/
def prevStmtAndIncomplete (currStmt : Statement) :
    Option (LedgerProofWithSokMessage × List TransactionWithWitness × Bool) →
    Statement × List TransactionWithWitness × Bool
  | none => (currStmt, [], false)
  | some (p', incomplete) => (p'.1.statement, incomplete)

/-- The scan state once the parallel scan is updated and has emitted a proof. -/
def withEmittedProof (proof : LedgerProof)
    (old : Option (LedgerProofWithSokMessage × List TransactionWithWitness × Bool))
    (updatedScanState : ParallelScan.State LedgerProofWithSokMessage TransactionWithWitness) :
    Outcome Error (Option (LedgerProof × List (TransactionsOrdered TxnAndGlobalSlot)) × ScanState) :=
  let prev := prevStmtAndIncomplete proof.statement old
  (stmtsConnect digests prev.1 proof.statement).bind fun _ =>
  let scanState' : ScanState := ⟨updatedScanState, prev.2.1, prev.2.2⟩
  -- a proof is emitted, so there is one
  (Outcome.ofOption scanState'.latestLedgerProof).bind fun latest =>
  .ok (some (latest.1.1, latest.2), scanState')

/-- `fill_work_and_enqueue_transactions`. -/
def fillWorkAndEnqueueTransactions (t : ScanState)
    (transactions : List TransactionWithWitness) (work : List TransactionSnarkWork) :
    Outcome Error (Option (LedgerProof × List (TransactionsOrdered TxnAndGlobalSlot)) × ScanState) :=
  let oldProofAndIncompleteZkappUpdates := t.incompleteTxnsFromRecentProofTree
  (t.fillInTransactionSnarkWork digests work).bind fun workList =>
  (t.updateScan transactions workList).bind fun (proofOpt, updatedScanState) =>
  match proofOpt with
  | none => .ok (none, { t with scanState := updatedScanState })
  | some ((proof, _), _) =>
    withEmittedProof digests proof oldProofAndIncompleteZkappUpdates updatedScanState

/-! ### The invariants of a scan state -/

/-- The errors of the statement scanner. -/
inductive InvariantError where
  /-- `"Bad merge proof"`. -/
  | badMergeProof (e : Statement.Error)
  | merge (e : Statement.Error)
  /-- `"Base merge proof: invalid pending coinbase transition"`. -/
  | pendingCoinbaseTransition
  /-- `"Bad base statement"`. -/
  | badBaseStatement (e : InvariantError)
  /-- With the name of the register that `"did not connect"`. -/
  | didNotConnect (register : String)
  /-- `"nonzero fee excess"`. -/
  | nonzeroFeeExcess
  /-- `"nondefault fee token"`. -/
  | nondefaultFeeToken
deriving DecidableEq, Repr

/-- The accumulator of `scan_statement`: the statement merged so far and its proofs, and the
statement of the base job before. -/
structure ScanAcc where
  statement : Option (Statement × List LedgerProofWithSokMessage)
  pc : Option Statement

/-- `merge_acc`. -/
def mergeAcc (proofs : List LedgerProofWithSokMessage) (acc : ScanAcc)
    (s2 : Statement) : Outcome InvariantError ScanAcc :=
  match acc.statement with
  | none => .ok { acc with statement := some (s2, proofs) }
  | some (s1, ps) => do
    let mergedStatement ← Outcome.mapError .badMergeProof (Statement.merge digests s1 s2)
    return { acc with statement := some (mergedStatement, proofs ++ ps) }

/-- `merge_pc`. -/
def mergePc (acc : ScanAcc) (s2 : Statement) : Outcome InvariantError ScanAcc :=
  match acc.pc with
  | none => .ok { acc with pc := some s2 }
  | some s1 =>
    if Stack.connected digests.toStackDigests (some s1.source.pendingCoinbaseStack)
        s1.target.pendingCoinbaseStack s2.source.pendingCoinbaseStack then
      .ok { acc with pc := some s2 }
    else .error .pendingCoinbaseTransition

/-- `fold_step_a`. -/
def foldStepA (acc : ScanAcc) : ParallelScan.Merge.Job LedgerProofWithSokMessage → Outcome InvariantError ScanAcc
  | .part p => mergeAcc digests [p] acc p.1.statement
  | .empty => .ok acc
  | .full r =>
    match r.status with
    | .done => .ok acc
    | .todo => do
      let mergedStatement ←
        Outcome.mapError .merge (Statement.merge digests r.left.1.statement r.right.1.statement)
      mergeAcc digests [r.left, r.right] acc mergedStatement

/-- `fold_step_d`, with the partial check, in which a statement is as expected. -/
def foldStepD (acc : ScanAcc) : ParallelScan.Base.Job TransactionWithWitness → Outcome InvariantError ScanAcc
  | .empty => .ok acc
  | .full r =>
    match r.status with
    | .done => mergePc digests acc r.job.statement
    | .todo => Outcome.mapError .badBaseStatement do
      let acc ← mergeAcc digests [] acc r.job.statement
      mergePc digests acc r.job.statement

/-- Go on with what a step of the fold returns, or stop. -/
def continueOrStop (r : Outcome InvariantError ScanAcc) :
    ParallelScan.Tree.ContinueOrStop ScanAcc (Outcome InvariantError ScanAcc) :=
  match r with
  | .ok next => .continue next
  | e => .stop e

/-- `scan_statement`, with the partial check and without verification of proofs; `none` stands
for `` `Empty ``. -/
def scanStatement (t : ScanState) : Outcome InvariantError (Option Statement) := do
  let acc ← ParallelScan.foldChronologicalUntil t.scanState (⟨none, none⟩ : ScanAcc)
    (fun acc node => continueOrStop (foldStepA digests acc node.2))
    (fun acc node => continueOrStop (foldStepD digests acc node.2)) .ok
  return acc.statement.map Prod.fst

/-- `check_registers`. -/
def checkRegisters (reg1 reg2 : Registers) : Outcome InvariantError Unit := do
  Outcome.okIfTrue (reg1.firstPassLedger = reg2.firstPassLedger)
    (.didNotConnect "snarked fee payment ledger hash")
  Outcome.okIfTrue (reg1.secondPassLedger = reg2.secondPassLedger)
    (.didNotConnect "snarked parties ledger hash")
  Outcome.okIfTrue (Stack.connected digests.toStackDigests none reg1.pendingCoinbaseStack
    reg2.pendingCoinbaseStack) (.didNotConnect "pending-coinbase stack")
  Outcome.okIfTrue (reg1.localState = reg2.localState) (.didNotConnect "local state")

/-- The merge of the last proof's statement with that of the scan state, of which only the
success counts. -/
def connectsToLastProof (lastProofStatement : Option Statement) (t : Statement) : Outcome InvariantError Unit :=
  match lastProofStatement with
  | none => .ok ()
  | some statement => do
    let _ ← Outcome.mapError .merge (Statement.merge digests statement t)
    return ()

/-- `check_invariants`. -/
def checkInvariants (t : ScanState) (lastProofStatement : Option Statement)
    (registersEnd : Registers) : Outcome InvariantError Unit := do
  match ← scanStatement digests t with
  | none =>
    match lastProofStatement with
    | none => return ()
    | some statement => checkRegisters digests statement.target registersEnd
  | some s => do
    connectsToLastProof digests lastProofStatement s
    checkRegisters digests registersEnd s.target
    Outcome.okIfTrue (Signed.equal Signed.zero s.feeExcess.feeExcessL) .nonzeroFeeExcess
    Outcome.okIfTrue (Signed.equal Signed.zero s.feeExcess.feeExcessR) .nonzeroFeeExcess
    Outcome.okIfTrue (s.feeExcess.feeTokenL = TokenId.default) .nondefaultFeeToken
    Outcome.okIfTrue (s.feeExcess.feeTokenR = TokenId.default) .nondefaultFeeToken

end ScanState

end StagedLedger

end MinaProtocol
