import MinaProtocol.TransactionLogic.CallStack
import MinaProtocol.TransactionLogic.UpdateAccount

/-!
# TransactionLogic.ZkappCommand

The application of a zkApp command, in two passes. The first runs the fee payer, the second
all other account updates, on a mask of the ledger that is committed when all of them have
succeeded. A mask is a value here: writing to it leaves the ledger below it as it is.
-/

namespace MinaProtocol.TransactionLogic

open Std

/-- `Zkapp_command_logic.Start_data.t`. -/
structure StartData where
  accountUpdates : CallForest AccountUpdate
  memoHash : Nat
  willSucceed : Bool
deriving DecidableEq, Repr

/-- `Global_state.t`. -/
structure GlobalState where
  firstPassLedger : Ledger
  secondPassLedger : Ledger
  feeExcess : Signed
  supplyIncrease : Signed
  protocolState : ProtocolStateView
  blockGlobalSlot : GlobalSlot

/-- `Local_state.t`. -/
structure LocalState where
  stackFrame : StackFrame
  callStack : CallStack
  transactionCommitment : Nat
  fullTransactionCommitment : Nat
  excess : Signed
  supplyIncrease : Signed
  ledger : Ledger
  success : Bool
  accountUpdateIndex : UInt32
  failureStatusTbl : FailureCollection
  willSucceed : Bool

namespace LocalState

variable (t : LocalState)

/-- `Local_state.add_check`. Without a bucket there is nowhere to note the failure. -/
def addCheck (failure : Failure) (b : Bool) : LocalState :=
  { t with
    failureStatusTbl :=
      match t.failureStatusTbl, b with
      | hd :: tl, false => (failure :: hd) :: tl
      | oldFailureStatusTbl, _ => oldFailureStatusTbl
    success := t.success && b }

/-- `add_check` for one check after the other. -/
def addChecks (checks : List (Failure × Bool)) : LocalState :=
  checks.foldl (fun t c => t.addCheck c.1 c.2) t

/-- `Local_state.add_new_failure_status_bucket`. -/
def addNewFailureStatusBucket : LocalState :=
  { t with failureStatusTbl := [] :: t.failureStatusTbl }

/-- `is_last_account_update`, once the local state holds the frame that remains. -/
def isLastAccountUpdate : Bool := t.stackFrame.calls.isEmpty

/-- `is_successful_last_party`: whether the ledger is to be committed. -/
def isSuccessfulLastParty : Bool := t.isLastAccountUpdate && t.success

end LocalState

/-! ### One account update -/

/-- The account update that is to run, its account, and the local state with the frame that
remains. -/
structure Popped where
  accountUpdate : AccountUpdate
  callerId : Nat
  localState : LocalState
  location : Location
  account : Account

variable (config : Config)

/-- The first part of `apply`: get the next account update and its account. -/
def popAccountUpdate (isStart : Option StartData) (globalState : GlobalState)
    (localState : LocalState) : Outcome LedgerError Popped := do
  let isEmptyCallForest := localState.stackFrame.calls.isEmpty
  Outcome.assert (if isStart.isSome then isEmptyCallForest else !isEmptyCallForest)
  let localState :=
    { localState with
      ledger := if isStart.isSome then globalState.firstPassLedger else localState.ledger
      willSucceed := (isStart.map StartData.willSucceed).getD localState.willSucceed }
  let toPop := (isStart.map fun startData => startFrame startData.accountUpdates).getD localState.stackFrame
  let callStack := if isStart.isSome then [] else localState.callStack
  let next ← Outcome.ofOption (getNextAccountUpdate config.digests.deriveTokenId toPop callStack)
  let accountUpdate := next.accountUpdate
  let localState := localState.addCheck .tokenOwnerNotCaller
    (accountUpdate.tokenId = TokenId.default || accountUpdate.tokenId = next.callerId)
  let (location, account) := getWithLocation config.digests localState.ledger accountUpdate.accountId
  let (transactionCommitment, fullTransactionCommitment) :=
    match isStart with
    | none => (localState.transactionCommitment, localState.fullTransactionCommitment)
    | some startData =>
      let txCommitmentOnStart := config.digests.forestHash next.newFrame.calls
      (txCommitmentOnStart, config.digests.completeCommitment txCommitmentOnStart startData.memoHash
        (config.digests.accountUpdateDigest accountUpdate))
  let localState :=
    { localState with
      transactionCommitment
      fullTransactionCommitment
      stackFrame := next.newFrame
      callStack := next.newCallStack }
  return ⟨accountUpdate, next.callerId, localState, location, account⟩

variable (isStart : Bool)

/-- The second part of `apply`: update the account. -/
def runAccountUpdate (globalState : GlobalState) (popped : Popped) : Outcome LedgerError (Account × LocalState) := do
  let localState := popped.localState.addNewFailureStatusBucket
  -- `check_account`
  Outcome.assert (popped.accountUpdate.publicKey = popped.account.publicKey)
  Outcome.assert (popped.accountUpdate.tokenId = popped.account.tokenId)
  let context : UpdateContext :=
    { isStart
      accountIsNew := popped.location = .new
      globalSlot := globalState.blockGlobalSlot
      protocolState := globalState.protocolState
      fullTransactionCommitment := localState.fullTransactionCommitment
      accountUpdateIndex := localState.accountUpdateIndex }
  let (updated, checks) ← Outcome.ofOption (updateAccount config context popped.accountUpdate
    ⟨popped.account, localState.excess, localState.supplyIncrease⟩)
  return (updated.account, { localState.addChecks checks with
      excess := updated.excess
      supplyIncrease := updated.supplyIncrease })

/-- The change of balance leaves or enters the local fee excess. Only the default token pays
fees. -/
def addLocalDelta (u : AccountUpdate) (localState : LocalState) : Outcome LedgerError LocalState := do
  let localDelta := u.balanceChange.negate
  let accountUpdateTokenIsDefault : Bool := u.tokenId = TokenId.default
  Outcome.assert (!isStart || (accountUpdateTokenIsDefault && localDelta.sgn = Sgn.pos))
  let (newLocalFeeExcess, overflow) := Signed.addFlagged localState.excess localDelta
  let localState :=
    { localState with
      excess := if accountUpdateTokenIsDefault then newLocalFeeExcess else localState.excess }
  return localState.addCheck .localExcessOverflow (!(accountUpdateTokenIsDefault && overflow))

/-- The account goes to the ledger, and the fee excess must be settled in the end. -/
def setAccount (location : Location) (a : Account) (localState : LocalState) : Outcome LedgerError LocalState := do
  let newLedger ← setWithLocation localState.ledger location a
  let isLastAccountUpdate := localState.isLastAccountUpdate
  let localState :=
    { localState with
      ledger := newLedger
      transactionCommitment := if isLastAccountUpdate then 0 else localState.transactionCommitment
      fullTransactionCommitment :=
        if isLastAccountUpdate then 0 else localState.fullTransactionCommitment }
  let deltaSettled := Signed.equal localState.excess (Signed.ofUnsigned 0)
  return localState.addCheck .invalidFeeExcess (isStart || !isLastAccountUpdate || deltaSettled)

/-- The local fee excess goes to the global one, after the fee payer and in the end. -/
def settleExcess (globalState : GlobalState) (localState : LocalState) : GlobalState × LocalState :=
  let isStartOrLast := isStart || localState.isLastAccountUpdate
  let updateGlobalStateFeeExcess := isStartOrLast && localState.success
  let (res, overflow) := Signed.addFlagged globalState.feeExcess localState.excess
  let globalExcessUpdateFailed := updateGlobalStateFeeExcess && overflow
  ({ globalState with feeExcess := if updateGlobalStateFeeExcess then res else globalState.feeExcess },
    ({ localState with
      excess := if isStartOrLast then Signed.ofUnsigned 0 else localState.excess }).addCheck
        .globalExcessOverflow (!globalExcessUpdateFailed))

/-- The third part of `apply`: the fee excess, the ledger and the supply increase. The new
global supply increase comes with the states. -/
def settle (popped : Popped) (a : Account) (globalState : GlobalState)
    (localState : LocalState) : Outcome LedgerError (Signed × GlobalState × LocalState) := do
  let localState ← addLocalDelta isStart popped.accountUpdate localState
  let localState ← setAccount isStart popped.location a localState
  let (globalState, localState) := settleExcess isStart globalState localState
  let (newGlobalSupplyIncrease, globalSupplyIncreaseUpdateFailed) :=
    Signed.addFlagged globalState.supplyIncrease localState.supplyIncrease
  let localState := localState.addCheck .globalSupplyIncreaseOverflow (!globalSupplyIncreaseUpdateFailed)
  -- the first account update must succeed
  Outcome.assert (!isStart || localState.success)
  -- the fee payer's ledger is the one after the first pass, and its children start on the other
  let globalState :=
    { globalState with
      firstPassLedger := if isStart then localState.ledger else globalState.firstPassLedger }
  let localState :=
    { localState with
      ledger := if isStart then globalState.secondPassLedger else localState.ledger }
  Outcome.assert
    (!localState.isLastAccountUpdate || localState.willSucceed || !localState.success)
  return (newGlobalSupplyIncrease, globalState, localState)

/-- The last part of `apply`: after the last account update, when all have succeeded, the
ledger is committed. Then the local state is reset. -/
def commit (newGlobalSupplyIncrease : Signed) (globalState : GlobalState) (localState : LocalState) :
    GlobalState × LocalState :=
  let isLastAccountUpdate := localState.isLastAccountUpdate
  let isSuccessfulLastParty := localState.isSuccessfulLastParty
  ({ globalState with
      supplyIncrease :=
        if isSuccessfulLastParty then newGlobalSupplyIncrease else globalState.supplyIncrease
      secondPassLedger :=
        if isSuccessfulLastParty then localState.ledger else globalState.secondPassLedger }, { localState with
      ledger := if isLastAccountUpdate then ∅ else localState.ledger
      success := if isLastAccountUpdate then true else localState.success
      accountUpdateIndex := if isLastAccountUpdate then 0 else localState.accountUpdateIndex + 1
      supplyIncrease := if isLastAccountUpdate then Signed.ofUnsigned 0 else localState.supplyIncrease
      willSucceed := if isLastAccountUpdate then true else localState.willSucceed })

/-- `apply` up to the commit. -/
def beforeCommit (isStart : Option StartData) (globalState : GlobalState)
    (localState : LocalState) : Outcome LedgerError (Signed × GlobalState × LocalState) := do
  let popped ← popAccountUpdate config isStart globalState localState
  let (a, localState) ← runAccountUpdate config isStart.isSome globalState popped
  settle isStart.isSome popped a globalState localState

/-- `Zkapp_command_logic.apply`. The start data is that of `start`; `step` has none. -/
def apply (isStart : Option StartData) (state : GlobalState × LocalState) :
    Outcome LedgerError (GlobalState × LocalState) := do
  let (newGlobalSupplyIncrease, globalState, localState) ← beforeCommit config isStart state.1 state.2
  return commit newGlobalSupplyIncrease globalState localState

/-- `Zkapp_command_logic.step`. -/
def step (config : Config) (state : GlobalState × LocalState) :
    Outcome LedgerError (GlobalState × LocalState) := apply config none state

/-- `Zkapp_command_logic.start`. -/
def start (startData : StartData) (state : GlobalState × LocalState) :
    Outcome LedgerError (GlobalState × LocalState) := apply config (some startData) state

/-! ### The passes -/

/-- `Zkapp_command_partially_applied.t`. -/
structure ZkappCommandPartiallyApplied where
  command : ZkappCommand
  originalFirstPassAccountStates : List (AccountId × Option Account)
  globalState : GlobalState
  localState : LocalState

/-- `Zkapp_command_applied.t`. -/
structure ZkappCommandApplied where
  accounts : List (AccountId × Option Account)
  command : ZkappCommand
  status : TransactionStatus
  newAccounts : List AccountId
deriving DecidableEq, Repr

variable (globalSlot : GlobalSlot)

variable (stateView : ProtocolStateView)

/-- The initial state of the first pass. -/
def initialState (feeExcess supplyIncrease : Signed) (ledger : Ledger) : GlobalState × LocalState :=
  ({ protocolState := stateView
     firstPassLedger := ledger
     -- a stub: the second pass puts the ledger here
     secondPassLedger := ∅
     feeExcess
     supplyIncrease
     blockGlobalSlot := globalSlot },
   { stackFrame := stackFrameDefault
     callStack := []
     transactionCommitment := 0
     fullTransactionCommitment := 0
     excess := Signed.ofUnsigned 0
     supplyIncrease := Signed.ofUnsigned 0
     ledger := ∅
     success := true
     accountUpdateIndex := 0
     failureStatusTbl := []
     willSucceed := true })

/-- What `start` is given for a command. -/
def startData (digests : Digests) (command : ZkappCommand) : StartData where
  accountUpdates := command.allAccountUpdates
  memoHash := digests.memoHash command.memo
  willSucceed := true

/-- `apply_zkapp_command_first_pass_aux`, which leaves the ledger. The states go to `f`. -/
def applyZkappCommandFirstPassAux {B : Type} (f : B → GlobalState × LocalState → B) (init : B)
    (feeExcess supplyIncrease : Signed) (ledger : Ledger) (command : ZkappCommand) :
    Outcome LedgerError (Ledger × ZkappCommandPartiallyApplied × B) := do
  let id := command.feePayerId
  let originalFirstPassAccountStates := [(id, ledger[id]?)]
  let initialState := initialState globalSlot stateView feeExcess supplyIncrease ledger
  let userAcc := f init initialState
  let (globalState, localState) ← Outcome.tryWith .raised
    (start config (startData config.digests command) initialState)
  return (globalState.firstPassLedger, { command, originalFirstPassAccountStates, globalState, localState }, userAcc)

/-- `apply_zkapp_command_first_pass`. -/
def applyZkappCommandFirstPass (feeExcess supplyIncrease : Signed) (ledger : Ledger) (command : ZkappCommand) :
    Outcome LedgerError (Ledger × ZkappCommandPartiallyApplied) := do
  let (ledger, c, _) ← applyZkappCommandFirstPassAux config globalSlot stateView (fun acc _ => acc) ()
    feeExcess supplyIncrease ledger command
  return (ledger, c)

/-- The account updates that a frame and a stack still hold. -/
def pending (frame : StackFrame) (stack : CallStack) : Nat :=
  frame.calls.toList.length + (stack.map fun f => f.calls.toList.length).sum

/-- `step_all`. The fuel is the number of account updates that are left. -/
def stepAll {B : Type} (config : Config) (f : B → GlobalState × LocalState → B) :
    Nat → B → GlobalState × LocalState → Outcome LedgerError (B × FailureCollection × GlobalState)
  | fuel, userAcc, (gState, lState) =>
    if lState.stackFrame.calls.isEmpty then .ok (userAcc, lState.failureStatusTbl, gState)
    else
      match fuel with
      | 0 => .raise
      | fuel + 1 => do
        let states ← Outcome.tryWith .raised (step config (gState, lState))
        stepAll config f fuel (f userAcc states) states

variable (ledger : Ledger)

variable (c : ZkappCommandPartiallyApplied)

/-- The accounts of the command before any of its account updates, the fee payer's before
the first pass. -/
def originalAccountStates : ExtTreeMap AccountId (Option Account) :=
  (c.originalFirstPassAccountStates ++ c.command.accountsReferenced.map fun id => (id, ledger[id]?)).foldl
    (fun accountStates p => accountStates.insertIfNew p.1 p.2) ∅

/-- The state with which the second pass begins. -/
def secondPassStart : GlobalState × LocalState :=
  let globalState := { c.globalState with secondPassLedger := ledger }
  let localState :=
    -- the transaction is finished when the fee payer was all of it
    if c.localState.stackFrame.calls.isEmpty then c.localState
    else { c.localState with ledger := globalState.secondPassLedger }
  (globalState, localState)

/-- The end of the second pass, after `step_all`: the status, and that a command that failed
has left the ledger as it was. -/
def finishSecondPass (reversedFailureStatusTbl : FailureCollection) (ledger' : Ledger) :
    Outcome LedgerError ZkappCommandApplied := do
  let originalAccountStates := (originalAccountStates ledger c).toList
  let accountStatesAfterFeePayer := c.command.accountsReferenced.map fun id => (id, ledger[id]?)
  let failureStatusTbl := reversedFailureStatusTbl.reverse
  let accountIdsOriginallyNotInLedger :=
    originalAccountStates.filterMap fun (acctId, acct) => if acct.isNone then some acctId else none
  let successfullyApplied := FailureCollection.isEmpty failureStatusTbl
  -- when one account update fails, the others but the fee payer are cancelled
  let failureStatusTbl :=
    if successfullyApplied then failureStatusTbl
    else failureStatusTbl.mapIdx fun idx fs => if 0 < idx && fs.isEmpty then [Failure.cancelled] else fs
  let newAccounts := accountIdsOriginallyNotInLedger.filter fun acctId => ledger'[acctId]?.isSome
  let validResult : ZkappCommandApplied :=
    { accounts := originalAccountStates
      command := c.command
      status := if successfullyApplied then .applied else .failed failureStatusTbl
      newAccounts }
  if successfullyApplied then return validResult
  else
    let otherAccountUpdateAccountsUnchanged := accountStatesAfterFeePayer.all fun (id, acct) =>
      match acct, ledger'[id]? with
      | some a, some a' => a = a'
      | _, _ => true
    Outcome.okIfTrue (newAccounts.isEmpty && otherAccountUpdateAccountsUnchanged)
      .failedCommandChangedLedger
    return validResult

/-- `apply_zkapp_command_second_pass_aux`, which leaves the ledger. The states go to `f`. -/
def applyZkappCommandSecondPassAux {B : Type} (f : B → GlobalState × LocalState → B)
    (init : B) (ledger : Ledger) (c : ZkappCommandPartiallyApplied) :
    Outcome LedgerError (Ledger × ZkappCommandApplied × B) := do
  let start := secondPassStart ledger c
  let (userAcc, reversedFailureStatusTbl, globalState) ← stepAll config f
    (pending start.2.stackFrame start.2.callStack) (f init start) start
  let applied ← finishSecondPass ledger c reversedFailureStatusTbl globalState.secondPassLedger
  return (globalState.secondPassLedger, applied, userAcc)

/-- `apply_zkapp_command_second_pass`. -/
def applyZkappCommandSecondPass : Outcome LedgerError (Ledger × ZkappCommandApplied) := do
  let (ledger, applied, _) ← applyZkappCommandSecondPassAux config (fun acc _ => acc) () ledger c
  return (ledger, applied)

end MinaProtocol.TransactionLogic
