import MinaProtocol.StagedLedger.PreDiffInfo

/-!
# StagedLedger.Apply

The application of a diff to a staged ledger. The transactions of the diff are applied to a new
mask, which is registered on the mask of the staged ledger; the caller gets the new mask inside
the new staged ledger, when there is one. What is registered on the old mask is part of the
state that the application leaves.
-/

namespace MinaProtocol

open TransactionLogic (Ledger TransactionApplied TransactionPartiallyApplied LedgerError
  applyTransactionFirstPass applyTransactionSecondPass)

namespace Transaction

/-- `Transaction.accounts_referenced`. -/
def accountsReferenced : Transaction → List AccountId
  | .signedCommand c => [c.payload.feePayer, c.payload.receiver]
  | .zkappCommand c => c.accountsReferenced
  | .feeTransfer t => t.toList.map FeeTransferSingle.receiver
  -- in the order in which the accounts are created
  | .coinbase t =>
    ((⟨t.receiver, TokenId.default⟩ : AccountId) :: t.feeTransfer.toList.map CoinbaseFeeTransfer.receiver).reverse

/-- `Transaction.public_keys`. -/
def publicKeys (t : Transaction) : List PublicKey := t.accountsReferenced.map AccountId.publicKey

/-- `is_zkapp`. -/
def isZkapp : Transaction → Bool
  | .zkappCommand _ => true
  | _ => false

end Transaction

/-- `Ledger.attached_mask`: the accounts it shows, the depth of the tree, and the ids of the masks
that are registered on it. -/
structure AttachedMask where
  depth : Nat
  accounts : Ledger
  registeredMasks : List Nat

/-- `Staged_ledger.t`. -/
structure StagedLedger where
  scanState : StagedLedger.ScanState
  ledger : AttachedMask
  constraintConstants : StagedLedger.ConstraintConstants
  pendingCoinbaseCollection : StagedLedger.PendingCoinbase

namespace StagedLedger

/-- `create_exn`. -/
def createExn (digests : StatementDigests) (constraintConstants : ConstraintConstants)
    (ledger : AttachedMask) : StagedLedger where
  scanState := ScanState.empty constraintConstants.workDelay constraintConstants.transactionCapacityLog2
  ledger
  constraintConstants
  pendingCoinbaseCollection :=
    PendingCoinbase.create digests.toStackDigests constraintConstants.pendingCoinbaseDepth

/-! ### What the application takes from elsewhere -/

/-- The process that verifies signatures and proofs. -/
structure Verifier where
  /-- `User_command.Applied_sequence.to_all_verifiable`, with the verification keys of the ledger,
  and `Verifier.verify_commands`; `none` for an error that concerns no command. -/
  verifyCommands : Ledger → List (WithStatus Command) → Option (List (Except PreDiffInfo.InvalidCommand Unit))
  /-- There is an answer for each command. -/
  length_verifyCommands : ∀ {ledger : Ledger} {cs : List (WithStatus Command)}
    {xs : List (Except PreDiffInfo.InvalidCommand Unit)},
    verifyCommands ledger cs = some xs → xs.length = cs.length
  /-- `Verifier.verify_transaction_snarks`, where `none` is an error of the verifier. -/
  verifyTransactionSnarks : List (LedgerProof × SokMessage) → Option Bool

/-- The constants, the hash functions and the verifier. -/
structure Config where
  constraintConstants : ConstraintConstants
  digests : Digests
  statementDigests : StatementDigests
  /-- `Ledger.merkle_root`. -/
  merkleRoot : Ledger → LedgerHash
  /-- `Public_key.decompress` returns a key. -/
  decompresses : PublicKey → Bool
  verifier : Verifier
  /-- `get_completed_work`, of the snark pool. -/
  getCompletedWork : OneOrTwo Statement → Option TransactionSnarkWork

variable (config : Config)

/-- What the transaction logic needs. -/
def Config.transactionLogic : TransactionLogic.Config :=
  ⟨config.digests, config.constraintConstants.accountCreationFee, config.constraintConstants.accountCreationFee_pos⟩

/-- The block that the diff belongs to. -/
structure Block where
  globalSlot : GlobalSlot
  currentStateView : ProtocolStateView
  stateAndBodyHash : Nat × Nat
  coinbaseReceiver : PublicKey
  superchargeCoinbase : Bool
  zkappCmdLimitHardcap : Nat
  /-- the id of the mask that is created for it -/
  newMask : Nat

/-- The values of `skip_verification`. -/
inductive SkipVerification where
  | all
  | proofs
deriving DecidableEq, Repr

/-! ### Errors -/

/-- The errors that are wrapped in `Unexpected`. -/
inductive UnexpectedError where
  /-- `"Error creating statement from job"`. -/
  | creatingStatement
  | feeExcess (e : FeeExcess.Error)
  /-- `"Coinbase underflow"`. -/
  | coinbaseUnderflow
  | ledger (e : LedgerError)
  | supplyIncrease
  | scanState (e : ScanState.Error)
  | pendingCoinbase (e : PendingCoinbase.Error)
  /-- `"Pending coinbase stack of the ledger proof did not match the oldest stack in the pending
  coinbase tree."` -/
  | oldestStack
  | invariants (e : ScanState.InvariantError)

/-- `Staged_ledger_error.t`. -/
inductive Error where
  | nonZeroFeeExcess (partition : ParallelScan.SpacePartition) (txns : List (WithStatus Transaction))
  | invalidProofs (proofs : List (LedgerProof × Statement × SokMessage))
  /-- `Couldn't_reach_verifier`, also when a `"Statement and proof do not match"`. -/
  | couldntReachVerifier
  | preDiff (e : PreDiffInfo.Error)
  | insufficientWork (slots required got : Nat)
  | mismatchedStatuses (transaction : WithStatus Transaction) (status : TransactionStatus)
  | invalidPublicKey (pk : PublicKey)
  | zkappsExceedLimit (count limit : Nat)
  | unexpected (e : UnexpectedError)

/-! ### Completed works -/

/-- `work_already_verified_check`: `First`, or `Second` with the reason. -/
def workAlreadyVerifiedCheck (jobs : OneOrTwo Job) (work : TransactionSnarkWork) : Except String Unit :=
  match jobs.mapM (ScanState.statementOfJob config.statementDigests) with
  | none => .error "statement_of_job_failure"
  | some jobStatements =>
    match decide (jobStatements = work.statement), config.getCompletedWork work.statement with
    | true, some completedWork =>
      if completedWork.fee ≠ work.fee then .error "fee_not_equal"
      else if completedWork.prover ≠ work.prover then .error "prover_account_not_equal"
      else if completedWork.proofs ≠ work.proofs then .error "proof_not_equal"
      else .ok ()
    | _, _ => .error "not_found_in_pool"

/-- The jobs, messages and proofs that are left to verify for a piece of work. -/
def jobsOfWork (jobs : OneOrTwo Job) (work : TransactionSnarkWork) :
    Outcome Error (List (Job × SokMessage × LedgerProof)) :=
  match workAlreadyVerifiedCheck config jobs work with
  | .ok () => .ok []
  | .error _ => do
    -- `One_or_two.zip_exn`
    let zipped ← Outcome.ofOption (OneOrTwo.zip jobs work.proofs)
    return (zipped.map fun p => (p.1, ⟨work.fee, work.prover⟩, p.2)).toList

/-- `List.concat_map` with `jobs_of_work`. -/
def jobsToVerify (config : Config) : List (OneOrTwo Job × TransactionSnarkWork) →
    Outcome Error (List (Job × SokMessage × LedgerProof))
  | [] => .ok []
  | (jobs, work) :: rest => do
    let jmps ← jobsOfWork config jobs work
    let jmps' ← jobsToVerify config rest
    return jmps ++ jmps'

/-- `verify_proofs`, with what its callers make of the result. -/
def verifyProofs (proofs : List (LedgerProof × Statement × SokMessage)) : Outcome Error Unit :=
  if proofs.any fun p => p.1.statement ≠ p.2.1 then .error .couldntReachVerifier
  else
    match config.verifier.verifyTransactionSnarks (proofs.map fun p => (p.1, p.2.2)) with
    | some true => .ok ()
    | some false => .error (.invalidProofs proofs)
    | none => .error .couldntReachVerifier

/-- `verify`. -/
def verify (jobMsgProofs : List (Job × SokMessage × LedgerProof)) : Outcome Error Unit :=
  match jobMsgProofs.mapM fun (jmp : Job × SokMessage × LedgerProof) =>
      (ScanState.statementOfJob config.statementDigests jmp.1).map fun s => (jmp.2.2, s, jmp.2.1) with
  | none => .error (.unexpected .creatingStatement)
  | some proofStatementMsgs => verifyProofs config proofStatementMsgs

/-- `check_completed_works`. -/
def checkCompletedWorks (scanState : ScanState) (completedWorks : List TransactionSnarkWork) : Outcome Error Unit := do
  let workCount := completedWorks.length
  let jobPairs := scanState.kWorkPairsForNewDiff workCount
  -- `List.zip_exn`
  Outcome.assert (jobPairs.length = completedWorks.length)
  let jmps ← jobsToVerify config (jobPairs.zip completedWorks)
  if jmps.isEmpty then return () else verify config jmps

/-! ### Transactions -/

/-- `Transaction.fee_excess`. -/
def feeExcess : Transaction → Outcome Error FeeExcess
  | .signedCommand c =>
    Outcome.ofOption (FeeExcess.ofSingle (c.payload.feeToken, Signed.ofUnsigned c.payload.fee))
  | .zkappCommand c => Outcome.ofOption (FeeExcess.ofSingle (TokenId.default, Signed.ofUnsigned c.feePayer.fee))
  | .feeTransfer t =>
    match FeeExcess.ofOneOrTwo (t.map fun s => (s.feeToken, (Signed.ofUnsigned s.fee).negate)) with
    | .ok e => .ok e
    | .error e => .error (.unexpected (.feeExcess e))
  | .coinbase t =>
    match t.expectedSupplyIncrease with
    | some _ => .ok FeeExcess.zero
    | none => .error (.unexpected .coinbaseUnderflow)

/-- `Sparse_ledger.of_ledger_subset_exn`: accounts that do not exist take the next free leaves, and
there must be leaves for them. -/
def ofLedgerSubsetExn (depth : Nat) (ledger : Ledger) (keys : List AccountId) : Outcome Error SparseLedger := do
  let numNewAccounts := keys.countP fun id => !ledger.contains id
  Outcome.assert (numNewAccounts = 0 || ledger.size + numNewAccounts ≤ 2 ^ depth)
  return ⟨config.merkleRoot ledger, keys.map fun id => (id, ledger[id]?)⟩

/-- `Stack_state_with_init_stack.t`. -/
structure StackStateWithInitStack where
  source : Stack
  target : Stack
  initStack : Stack

/-- `push_coinbase`. -/
def pushCoinbase (currentStack : Stack) : Transaction → Stack
  | .coinbase c => currentStack.pushCoinbase config.statementDigests.toStackDigests c
  | _ => currentStack

/-- `Pre_statement.t`. -/
structure PreStatement where
  partiallyAppliedTransaction : TransactionPartiallyApplied
  expectedStatus : TransactionStatus
  accountsAccessed : List AccountId
  feeExcess : FeeExcess
  firstPassLedgerWitness : SparseLedger
  firstPassLedgerSourceHash : LedgerHash
  firstPassLedgerTargetHash : LedgerHash
  pendingCoinbaseStackSource : Stack
  pendingCoinbaseStackTarget : Stack
  initStack : InitStack

variable (block : Block)

/-- `apply_single_transaction_first_pass`. -/
def applySingleTransactionFirstPass (depth : Nat) (ledger : Ledger)
    (stackState : StackStateWithInitStack) (txnWithStatus : WithStatus Transaction) :
    Outcome Error (Ledger × PreStatement × StackStateWithInitStack) := do
  let txn := txnWithStatus.data
  let accountsAccessed := txn.accountsReferenced
  let feeExcess ← feeExcess txn
  let ledgerWitness ← ofLedgerSubsetExn config depth ledger accountsAccessed
  let pendingCoinbaseTarget := pushCoinbase config stackState.target txn
  let newInitStack := pushCoinbase config stackState.initStack txn
  let (ledger', partiallyAppliedTransaction) ←
    Outcome.mapError (fun e => Error.unexpected (.ledger e))
      (applyTransactionFirstPass config.transactionLogic block.globalSlot block.currentStateView ledger txn)
  return (ledger',
    { partiallyAppliedTransaction
      expectedStatus := txnWithStatus.status
      accountsAccessed
      feeExcess
      firstPassLedgerWitness := ledgerWitness
      firstPassLedgerSourceHash := config.merkleRoot ledger
      firstPassLedgerTargetHash := config.merkleRoot ledger'
      pendingCoinbaseStackSource := stackState.source
      pendingCoinbaseStackTarget := pendingCoinbaseTarget
      initStack := .base stackState.initStack },
    ⟨pendingCoinbaseTarget, pendingCoinbaseTarget, newInitStack⟩)

/-- `apply_single_transaction_second_pass`. -/
def applySingleTransactionSecondPass (depth : Nat)
    (connectingLedger : LedgerHash) (ledger : Ledger) (preStmt : PreStatement) :
    Outcome Error (Ledger × TransactionWithWitness) := do
  let emptyLocalState := LocalState.empty config.statementDigests
  let ledgerWitness ← ofLedgerSubsetExn config depth ledger preStmt.accountsAccessed
  let (ledger', appliedTxn) ←
    Outcome.mapError (fun e => Error.unexpected (.ledger e))
      (applyTransactionSecondPass config.transactionLogic ledger preStmt.partiallyAppliedTransaction)
  let supplyIncrease ←
    Outcome.okOr (appliedTxn.supplyIncrease config.transactionLogic) (.unexpected .supplyIncrease)
  Outcome.okIfTrue (preStmt.expectedStatus = appliedTxn.transactionStatus)
    (.mismatchedStatuses ⟨appliedTxn.transaction, preStmt.expectedStatus⟩ appliedTxn.transactionStatus)
  let statement : Statement :=
    { source :=
        { firstPassLedger := preStmt.firstPassLedgerSourceHash
          secondPassLedger := config.merkleRoot ledger
          pendingCoinbaseStack := preStmt.pendingCoinbaseStackSource
          localState := emptyLocalState }
      target :=
        { firstPassLedger := preStmt.firstPassLedgerTargetHash
          secondPassLedger := config.merkleRoot ledger'
          pendingCoinbaseStack := preStmt.pendingCoinbaseStackTarget
          localState := emptyLocalState }
      connectingLedgerLeft := connectingLedger
      connectingLedgerRight := connectingLedger
      feeExcess := preStmt.feeExcess
      supplyIncrease }
  return (ledger',
    { transactionWithInfo := appliedTxn
      stateHash := block.stateAndBodyHash
      statement
      initStack := preStmt.initStack
      firstPassLedgerWitness := preStmt.firstPassLedgerWitness
      secondPassLedgerWitness := ledgerWitness
      blockGlobalSlot := block.globalSlot })

/-- `apply_transactions_first_pass`. -/
def applyTransactionsFirstPass (config : Config) (block : Block) (depth : Nat) :
    Ledger → StackStateWithInitStack → List (WithStatus Transaction) →
    Outcome Error (Ledger × List PreStatement × StackStateWithInitStack)
  | ledger, stackState, [] => .ok (ledger, [], stackState)
  | ledger, stackState, t :: ts =>
    match t.data.publicKeys.find? fun pk => !config.decompresses pk with
    | some pk => .error (.invalidPublicKey pk)
    | none => do
      let (ledger, preStmt, stackState) ←
        applySingleTransactionFirstPass config block depth ledger stackState t
      let (ledger, preStmts, stackState) ← applyTransactionsFirstPass config block depth ledger stackState ts
      return (ledger, preStmt :: preStmts, stackState)

/-- `Deferred.Result.List.map` with the second pass of each transaction. -/
def mapSecondPass (config : Config) (block : Block) (depth : Nat) (connectingLedger : LedgerHash) :
    Ledger → List PreStatement → Outcome Error (Ledger × List TransactionWithWitness)
  | ledger, [] => .ok (ledger, [])
  | ledger, preStmt :: preStmts => do
    let (ledger, txn) ←
      applySingleTransactionSecondPass config block depth connectingLedger ledger preStmt
    let (ledger, txns) ← mapSecondPass config block depth connectingLedger ledger preStmts
    return (ledger, txn :: txns)

/-- `apply_transactions_second_pass`. -/
def applyTransactionsSecondPass (depth : Nat) (ledger : Ledger)
    (preStmts : List PreStatement) : Outcome Error (Ledger × List TransactionWithWitness) :=
  mapSecondPass config block depth (config.merkleRoot ledger) ledger preStmts

/-- `apply_first_pass` in `update_ledger_and_get_statements`. -/
def applyFirstPass (depth : Nat) (ledger : Ledger) (workingStack : Stack)
    (ts : List (WithStatus Transaction)) : Outcome Error (Ledger × List PreStatement × Stack) := do
  let workingStackWithState :=
    workingStack.pushState config.statementDigests.toStackDigests block.stateAndBodyHash.2 block.globalSlot
  let (ledger, preStmts, stackState) ← applyTransactionsFirstPass config block depth ledger
    ⟨workingStack, workingStackWithState, workingStack⟩ ts
  return (ledger, preStmts, stackState.target)

/-- The first pass over the transactions of the second partition. -/
def applyFirstPassOpt (depth : Nat) (ledger : Ledger)
    (currentStack updatedStack1 : Stack) (tsOpt : Option (List (WithStatus Transaction))) :
    Outcome Error (Ledger × List PreStatement × Stack) :=
  match tsOpt with
  | none => .ok (ledger, [], updatedStack1)
  | some ts => applyFirstPass config block depth ledger
      (Stack.createWith config.statementDigests.toStackDigests currentStack) ts

/-- What `update_ledger_and_get_statements` returns, with the ledger that it changes. -/
structure LedgerUpdate where
  ledger : Ledger
  data : List TransactionWithWitness
  updatedStack1 : Stack
  updatedStack2 : Stack
  firstPassLedgerEnd : LedgerHash

/-- `update_ledger_and_get_statements`. -/
def updateLedgerAndGetStatements (depth : Nat) (ledger : Ledger)
    (currentStack : Stack) (ts : List (WithStatus Transaction))
    (tsOpt : Option (List (WithStatus Transaction))) : Outcome Error LedgerUpdate := do
  let (ledger, preStmts1, updatedStack1) ← applyFirstPass config block depth ledger currentStack ts
  let (ledger, preStmts2, updatedStack2) ←
    applyFirstPassOpt config block depth ledger currentStack updatedStack1 tsOpt
  let firstPassLedgerEnd := config.merkleRoot ledger
  let (ledger, data) ← applyTransactionsSecondPass config block depth ledger (preStmts1 ++ preStmts2)
  return ⟨ledger, data, updatedStack1, updatedStack2, firstPassLedgerEnd⟩

/-! ### Pending coinbases -/

/-- `Update.Action.t`. -/
inductive Action where
  | updateNone
  | updateOne
  | updateTwoCoinbaseInFirst
  | updateTwoCoinbaseInSecond
deriving DecidableEq, Repr

/-- The update of the stacks that belongs to an action. -/
inductive StackUpdate where
  | updateNone
  | updateOne (stack : Stack)
  | updateTwo (stack1 stack2 : Stack)
deriving DecidableEq, Repr

/-- What `update_coinbase_stack_and_get_data` returns, with the ledger that it changes. -/
structure CoinbaseStackData where
  ledger : Ledger
  isNewStack : Bool
  data : List TransactionWithWitness
  stackUpdateInSnark : Action
  stackUpdate : StackUpdate
  firstPassLedgerEnd : LedgerHash

/-- `coinbase_exists`. -/
def coinbaseExists (txns : List (WithStatus Transaction)) : Bool :=
  txns.any fun t =>
    match t.data with
    | .coinbase _ => true
    | _ => false

/-- `working_stack`. -/
def workingStack (pendingCoinbaseCollection : PendingCoinbase) (isNewStack : Bool) : Outcome Error Stack :=
  Outcome.mapError (fun e => Error.unexpected (.pendingCoinbase e))
    (pendingCoinbaseCollection.latestStack isNewStack)

/-- The action and the update when there are two partitions. -/
def stackUpdateOfPartitions (coinbaseInFirstPartition secondHasData : Bool) (u : LedgerUpdate) : Action × StackUpdate :=
  match coinbaseInFirstPartition, secondHasData with
  | true, true => (.updateTwoCoinbaseInFirst, .updateTwo u.updatedStack1 u.updatedStack2)
  | true, false => (.updateOne, .updateOne u.updatedStack1)
  | false, true => (.updateTwoCoinbaseInSecond, .updateTwo u.updatedStack1 u.updatedStack2)
  -- not even a coinbase
  | false, false => (.updateNone, .updateNone)

/-- `update_coinbase_stack_and_get_data`. -/
def updateCoinbaseStackAndGetData (scanState : ScanState)
    (ledger : AttachedMask) (pendingCoinbaseCollection : PendingCoinbase)
    (transactions : List (WithStatus Transaction)) : Outcome Error CoinbaseStackData :=
  let partitions := scanState.partitionIfOverflowing
  if transactions.isEmpty then
    .ok ⟨ledger.accounts, false, [], .updateNone, .updateNone, config.merkleRoot ledger.accounts⟩
  else
    match partitions.second with
    | none => do
      let isNewStack := scanState.nextOnNewTree
      let stack ← workingStack pendingCoinbaseCollection isNewStack
      let u ← updateLedgerAndGetStatements config block ledger.depth ledger.accounts stack transactions none
      return ⟨u.ledger, isNewStack, u.data, .updateOne, .updateOne u.updatedStack1, u.firstPassLedgerEnd⟩
    | some _ => do
      let txnsForPartition1 := ParallelScan.takeInt transactions partitions.first.1
      let stack1 ← workingStack pendingCoinbaseCollection false
      let txnsForPartition2 := ParallelScan.dropInt transactions partitions.first.1
      let u ← updateLedgerAndGetStatements config block ledger.depth ledger.accounts stack1
        txnsForPartition1 (some txnsForPartition2)
      let update := stackUpdateOfPartitions (coinbaseExists txnsForPartition1) (!txnsForPartition2.isEmpty) u
      return ⟨u.ledger, false, u.data, update.1, update.2, u.firstPassLedgerEnd⟩

/-- The pending coinbases once the oldest stack is removed, if a proof was emitted. -/
def removeOldestStack (depth : Nat) (pendingCoinbaseCollection : PendingCoinbase)
    (ledgerProof : Option LedgerProof) : Outcome Error PendingCoinbase :=
  match ledgerProof with
  | none => .ok pendingCoinbaseCollection
  | some proof => do
    let (oldestStack, updated) ←
      Outcome.mapError (fun e => Error.unexpected (.pendingCoinbase e))
        (pendingCoinbaseCollection.removeCoinbaseStack config.statementDigests.toStackDigests depth)
    Outcome.okIfTrue (oldestStack = proof.statement.target.pendingCoinbaseStack) (.unexpected .oldestStack)
    return updated

/-- `update_pending_coinbase_collection`. -/
def updatePendingCoinbaseCollection (depth : Nat)
    (pendingCoinbaseCollection : PendingCoinbase) (stackUpdate : StackUpdate) (isNewStack : Bool)
    (ledgerProof : Option LedgerProof) : Outcome Error PendingCoinbase := do
  let updated1 ← removeOldestStack config depth pendingCoinbaseCollection ledgerProof
  match stackUpdate with
  | .updateNone => return updated1
  | .updateOne stack1 =>
    Outcome.mapError (fun e => Error.unexpected (.pendingCoinbase e))
      (updated1.updateCoinbaseStack depth stack1 isNewStack)
  | .updateTwo stack1 stack2 =>
    Outcome.mapError (fun e => Error.unexpected (.pendingCoinbase e)) do
      -- some of the transactions go to the old tree and the others to a new one
      let update1 ← updated1.updateCoinbaseStack depth stack1 false
      update1.updateCoinbaseStack depth stack2 true

/-- `coinbase_for_blockchain_snark`. -/
def coinbaseForBlockchainSnark : List Nat → Outcome Error Nat
  | [] => .ok 0
  | [amount] => .ok amount
  | [amount1, _] => .ok amount1
  | _ => .error (.preDiff (.coinbaseError .moreThanTwoParts))

/-! ### Checks -/

/-- The check that a block has not more zkApp commands than the hard cap. -/
def checkZkappLimit (transactions : List (WithStatus Transaction)) : Outcome Error Unit :=
  let zkAppCount := transactions.countP fun t => t.data.isZkapp
  Outcome.okIfTrue (zkAppCount ≤ block.zkappCmdLimitHardcap)
    (.zkappsExceedLimit zkAppCount block.zkappCmdLimitHardcap)

/-- The check for sufficient snark work. -/
def checkSufficientWork (scanState : ScanState) (required workCount slots : Nat) : Outcome Error Unit :=
  Outcome.okIfTrue
    (!(workCount < required && (slots : Int) > (scanState.freeSpace : Int) - required + workCount))
    (.insufficientWork slots required workCount)

/-- `total_fee_excess`. -/
def totalFeeExcess (txns : List (WithStatus Transaction)) : Outcome Error FeeExcess :=
  txns.foldlM (fun acc txn => do
    let e ← feeExcess txn.data
    match FeeExcess.combine acc e with
    | .ok total => .ok total
    | .error e => .error (.unexpected (.feeExcess e))) FeeExcess.zero

/-- `check` in `check_zero_fee_excess`. -/
def checkZeroFeeExcessOf (partitions : ParallelScan.SpacePartition) (data : List TransactionWithWitness) :
    Outcome Error Unit := do
  let txns := data.map fun d => d.transactionWithInfo.transactionWithStatus
  let total ← totalFeeExcess txns
  -- `Fee_excess.is_zero`
  Outcome.okIfTrue (total.feeExcessL.magnitude = 0 && total.feeExcessR.magnitude = 0)
    (.nonZeroFeeExcess partitions txns)

/-- `check_zero_fee_excess`. -/
def checkZeroFeeExcess (scanState : ScanState) (data : List TransactionWithWitness) : Outcome Error Unit := do
  let partitions := scanState.partitionIfOverflowing
  checkZeroFeeExcessOf partitions (ParallelScan.takeInt data partitions.first.1)
  if partitions.second.isSome then
    checkZeroFeeExcessOf partitions (ParallelScan.dropInt data partitions.first.1)
  else return ()

variable (skipVerification : Bool)

/-- `verify_scan_state_after_apply`, unless it is to be skipped. -/
def verifyScanStateAfterApply (d : CoinbaseStackData)
    (pendingCoinbaseStack : Stack) (scanState : ScanState) : Outcome Error Unit :=
  if skipVerification || d.data.isEmpty then .ok ()
  else
    Outcome.mapError (fun e => Error.unexpected (.invariants e))
      (scanState.checkInvariants config.statementDigests
        (scanState.latestLedgerProof.map fun p => p.1.1.statement)
        { firstPassLedger := d.firstPassLedgerEnd
          secondPassLedger := config.merkleRoot d.ledger
          pendingCoinbaseStack
          localState := LocalState.empty config.statementDigests })

/-! ### Application -/

/-- What `apply` returns, without the hash of the new staged ledger. -/
structure Applied where
  ledgerProof : Option (LedgerProof × List (TransactionsOrdered TxnAndGlobalSlot))
  stagedLedger : StagedLedger
  isNewStack : Bool
  action : Action
  coinbaseAmount : Nat

variable (t : StagedLedger)

/-- `Ledger.register_mask`: the masks on a ledger with one more. -/
def registerMask (mask : Nat) : StagedLedger :=
  { t with ledger := { t.ledger with registeredMasks := mask :: t.ledger.registeredMasks } }

variable (preDiffInfo : PreDiffInfo.Info)

/-- The first half of `apply_diff` on the new mask: the transactions are applied, and there must
be work for them and no fee excess. -/
def applyTransactions : Outcome Error CoinbaseStackData := do
  -- preloading the accounts into the new mask does not change what it shows
  checkZkappLimit block preDiffInfo.transactions
  let d ← updateCoinbaseStackAndGetData config block t.scanState t.ledger t.pendingCoinbaseCollection
    preDiffInfo.transactions
  -- the statements are asserted to exist
  let requiredPairs ← Outcome.ofOption (t.scanState.workStatementsForNewDiff config.statementDigests)
  checkSufficientWork t.scanState requiredPairs.length preDiffInfo.work.length d.data.length
  checkZeroFeeExcess t.scanState d.data
  return d

/-- The second half of `apply_diff` on the new mask: the work fills the scan state, the
transactions are enqueued, and the pending coinbases are updated. -/
def enqueueTransactions (d : CoinbaseStackData) : Outcome Error Applied :=
  (Outcome.mapError (fun e => Error.unexpected (.scanState e))
    (t.scanState.fillWorkAndEnqueueTransactions config.statementDigests d.data preDiffInfo.work)).bind
      fun (resOpt, scanState') =>
  (updatePendingCoinbaseCollection config t.constraintConstants.pendingCoinbaseDepth
    t.pendingCoinbaseCollection d.stackUpdate d.isNewStack (resOpt.map Prod.fst)).bind
      fun updatedPendingCoinbaseCollection =>
  (coinbaseForBlockchainSnark preDiffInfo.coinbases).bind fun coinbaseAmount =>
  (workingStack updatedPendingCoinbaseCollection false).bind fun latestPendingCoinbaseStack =>
  (verifyScanStateAfterApply config skipVerification d latestPendingCoinbaseStack scanState').bind fun _ =>
  .ok {
    ledgerProof := resOpt
    stagedLedger :=
      { scanState := scanState'
        ledger := ⟨t.ledger.depth, d.ledger, []⟩
        constraintConstants := t.constraintConstants
        pendingCoinbaseCollection := updatedPendingCoinbaseCollection }
    isNewStack := d.isNewStack
    action := d.stackUpdateInSnark
    coinbaseAmount }

/-- `apply_diff` once the new mask is registered. -/
def applyDiffOnMask : Outcome Error Applied :=
  (applyTransactions config block t preDiffInfo).bind fun d =>
  enqueueTransactions config skipVerification t preDiffInfo d

/-- `apply_diff`, with the staged ledger that it leaves. -/
def applyDiff : StagedLedger × Outcome Error Applied :=
  match t.scanState.allWorkStatementsExn config.statementDigests with
  | none => (t, .raise)
  | some _ => (registerMask t block.newMask, applyDiffOnMask config block skipVerification t preDiffInfo)

/-- `check_commands`: `Result.all` of what the verifier says of each command. -/
def checkCommands (ledger : Ledger) (cs : List (WithStatus Command)) : Option (Except PreDiffInfo.InvalidCommand Nat) :=
  (config.verifier.verifyCommands ledger cs).map fun xs => (xs.mapM id).map List.length

/-- The check of completed works in `apply`, unless it is to be skipped. -/
def checkWorks (skipVerification : Option SkipVerification) (t : StagedLedger)
    (work : List TransactionSnarkWork) : Outcome Error Unit :=
  match skipVerification with
  | some _ => .ok ()
  | none => checkCompletedWorks config t.scanState work

/-- `Pre_diff_info.get` in `apply`. -/
def getPreDiffInfo (diff : Diff) : Outcome Error PreDiffInfo.Info :=
  Outcome.mapError .preDiff
    (PreDiffInfo.get config.constraintConstants block.coinbaseReceiver block.superchargeCoinbase
      (checkCommands config t.ledger.accounts) diff)

/-- The first part of `apply`, in which the diff alone is checked. -/
def checkDiff (skipVerification : Option SkipVerification)
    (t : StagedLedger) (diff : Diff) : Outcome Error PreDiffInfo.Info := do
  checkWorks config skipVerification t diff.completedWorks
  getPreDiffInfo config block t diff

/-- `apply`, with the staged ledger that it leaves. -/
def apply (skipVerification : Option SkipVerification)
    (t : StagedLedger) (diff : Diff) : StagedLedger × Outcome Error Applied :=
  match checkDiff config block skipVerification t diff with
  | .raise => (t, .raise)
  | .error e => (t, .error e)
  | .ok preDiffInfo => applyDiff config block (skipVerification = some .all) t preDiffInfo

end StagedLedger

end MinaProtocol
