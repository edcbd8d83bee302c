import MinaProtocol.Lib.InPlace
import MinaProtocol.TransactionLogic.Transactions

/-!
# TransactionLogic.Placed

The first pass of transactions on a ledger that is changed in place, with each write where the source has it.
An account has a location, and there are only so many. What is written when an error comes stays in the
ledger: the fee of a signed command is charged before its effects are computed, and the second account of a
coinbase or a fee transfer is fetched after the first. `Transaction_validator` works on a mask for that reason,
and commits it when there is no error.
-/

namespace MinaProtocol.TransactionLogic

open Std

/-- A ledger with the account at each location, and the number of locations that its tree has leaves for. -/
structure Placed where
  accounts : Ledger
  locations : List AccountId
  leaves : Nat

inductive PlacedError where
  | logic (e : LedgerError)
  | outOfLeaves
deriving DecidableEq

namespace Placed

abbrev OnLedger (A : Type) := InPlace Placed PlacedError A

/-- A computation that does not touch the ledger. -/
def logic {A : Type} (x : Outcome LedgerError A) : OnLedger A := InPlace.lift (x.mapError .logic)

/-! ### The ledger -/

/-- The ledger with the account at a location that exists. -/
def write (s : Placed) (accountId : AccountId) (account : Account) : Placed :=
  { s with accounts := s.accounts.insert accountId account }

/-- The ledger with a new account at the next location. -/
def add (s : Placed) (accountId : AccountId) (account : Account) : Placed :=
  { s with accounts := s.accounts.insert accountId account, locations := s.locations ++ [accountId] }

/-- `set`. -/
def set (accountId : AccountId) (account : Account) : OnLedger Unit := InPlace.modify fun s => s.write accountId account

/-- There is a leaf for the next location. -/
def nextLocation : OnLedger Unit := do
  let s ← InPlace.get
  InPlace.lift (Outcome.okIfTrue (s.locations.length < s.leaves) .outOfLeaves)

/-- `get_or_create_account` of an account that is not there. -/
def createAccount (accountId : AccountId) (account : Account) : OnLedger Unit := do
  nextLocation
  InPlace.modify fun s => s.add accountId account

/-- `get_or_create`, of which the location is the id. -/
def getOrCreate (digests : Digests) (accountId : AccountId) : OnLedger Account := do
  let s ← InPlace.get
  match s.accounts[accountId]? with
  | some account => pure account
  | none => do
    createAccount accountId ( Account.initialize digests accountId)
    pure ( Account.initialize digests accountId)

/-- `set_with_location`. -/
def setWithLocation (location : Location) (account : Account) : OnLedger Unit :=
  match location with
  | .existing accountId => set accountId account
  | .new => do
    let s ← InPlace.get
    logic (Outcome.okIfTrue (!s.accounts.contains account.identifier) (.accountAlreadyExists account.identifier))
    createAccount account.identifier account

/-- `set_with_location` for one account after the other. -/
def setAll : List (Location × Account) → OnLedger Unit
  | [] => pure ()
  | (location, account) :: rest => do
    setWithLocation location account
    setAll rest

/-! ### Signed commands -/

/-- The end of `apply_user_command_unchecked`, after the fee is charged. -/
def finishUserCommand (userCommand : SignedPayload) :
    Outcome UpdateError (List (Location × Account) × SignedCommandAppliedBody) → OnLedger SignedCommandApplied
  | .ok (locatedAccounts, body) => do
    setAll locatedAccounts
    pure { userCommand, status := .applied, body }
  | .error (.failure failure) =>
    pure { userCommand, status := .failed (FailureCollection.ofSingleFailure failure), body := .failed }
  | .error (.reject err) => logic (.error err)
  | .raise => logic .raise

variable (config : Config)

variable (txnGlobalSlot : GlobalSlot)

/-- `apply_user_command_unchecked`. -/
def applyUserCommandUnchecked (userCommand : SignedPayload) : OnLedger SignedCommandApplied := do
  let payload := userCommand.payload
  logic (validateTime payload.validUntil txnGlobalSlot)
  let s ← InPlace.get
  let feePayer ← logic (payFee config payload userCommand.signer s.accounts txnGlobalSlot)
  logic (Outcome.okIfTrue feePayer.2.hasPermissionToSend (.described .updateNotPermittedBalance))
  logic (Outcome.okIfTrue feePayer.2.hasPermissionToIncrementNonce (.described .updateNotPermittedNonce))
  -- the fee is charged whether or not the command succeeds
  setWithLocation feePayer.1 feePayer.2
  let s ← InPlace.get
  finishUserCommand userCommand (computeUpdates config txnGlobalSlot s.accounts payload feePayer.1 feePayer.2)

/-! ### Fee transfers -/

/-- What `process_fee_transfer` returns. -/
structure Processed where
  newAccounts : List AccountId
  failures : FailureCollection
  burnedTokens : Nat

/-- Set the account that can receive, with the entry for success; what it cannot receive is burned, with the
entry for failure. -/
def setOrBurn (digests : Digests) (accountId : AccountId) (fee : Nat) (action : AccountState) (canReceive : Bool)
    (update : Account → Account) (received failed : FailureCollection) : OnLedger Processed :=
  if canReceive then do
    let a ← getOrCreate digests accountId
    set accountId (update a)
    pure ⟨getNewAccounts action accountId, received, 0⟩
  else pure ⟨[], failed, fee⟩

section ProcessFeeTransfer

variable (digests : Digests)
  (modifyBalance : AccountState → AccountId → Nat → Nat → Outcome LedgerError Nat)
  (modifyTiming : Account → Outcome LedgerError AccountTiming)

/-- A fee for one account: one single, or two for the same receiver. -/
def processForOne (accountId : AccountId) (fee : Nat) (failures : FailureCollection) : OnLedger Processed := do
  let s ← InPlace.get
  let read := hasPermissionToReceive digests s.accounts accountId
  let timing ← logic (modifyTiming read.1)
  let balance ← logic (modifyBalance read.2.1 accountId read.1.balance fee)
  setOrBurn digests accountId fee read.2.1 read.2.2 (fun a => { a with balance, timing }) [] failures

/-- Two singles for different receivers. The timing of the first is not updated. -/
def processForTwo (ft₁ ft₂ : FeeTransferSingle) : OnLedger Processed := do
  let s ← InPlace.get
  let read₁ := hasPermissionToReceive digests s.accounts ft₁.receiver
  let read₂ := hasPermissionToReceive digests s.accounts ft₂.receiver
  let balance₁ ← logic (modifyBalance read₁.2.1 ft₁.receiver read₁.1.balance ft₁.fee)
  let timing₂ ← logic (modifyTiming read₂.1)
  let balance₂ ← logic (modifyBalance read₂.2.1 ft₂.receiver read₂.1.balance ft₂.fee)
  let first ← setOrBurn digests ft₁.receiver ft₁.fee read₁.2.1 read₁.2.2
    (fun a₁ => { a₁ with balance := balance₁ }) (appendEntry noFailure []) singleFailure
  let second ← setOrBurn digests ft₂.receiver ft₂.fee read₂.2.1 read₂.2.2
    (fun a₂ => { a₂ with balance := balance₂, timing := timing₂ }) (appendEntry noFailure first.failures)
    (appendEntry updateFailed first.failures)
  let burnedTokens ← logic (Outcome.okOr (Amount.add first.burnedTokens second.burnedTokens) .burnedTokensOverflow)
  pure ⟨first.newAccounts ++ second.newAccounts, second.failures, burnedTokens⟩

/-- `process_fee_transfer`. -/
def processFeeTransfer (transfer : FeeTransfer) : OnLedger Processed := do
  logic (Outcome.okIfTrue (transfer.toList.all fun ft => ft.feeToken = TokenId.default) .feesInNonDefaultTokens)
  match transfer with
  | .one ft => processForOne digests modifyBalance modifyTiming ft.receiver ft.fee singleFailure
  | .two ft₁ ft₂ =>
    if ft₁.receiver = ft₂.receiver then do
      let fee ← logic (Outcome.okOr (Amount.add ft₁.fee ft₂.fee) .overflow)
      processForOne digests modifyBalance modifyTiming ft₁.receiver fee (appendEntry updateFailed singleFailure)
    else processForTwo digests modifyBalance modifyTiming ft₁ ft₂

end ProcessFeeTransfer

/-- `apply_fee_transfer`. -/
def applyFeeTransfer (transfer : FeeTransfer) : OnLedger FeeTransferApplied := do
  let processed ← processFeeTransfer config.digests (fun action _ b f => receive config action b f)
    (updateTimingWhenNoDeduction txnGlobalSlot) transfer
  pure ⟨transfer, statusOf processed.failures, processed.newAccounts, processed.burnedTokens⟩

/-! ### Coinbases -/

/-- What the fee transfer of a coinbase leaves to be done. -/
structure FeeTransferred where
  receiverReward : Nat
  newAccounts : List AccountId
  transfereeUpdate : Option (AccountId × Account)
  transfereeTimingPrev : Option AccountTiming
  failures : FailureCollection
  burnedTokens : Nat

/-- The first part of `apply_coinbase`: the fee transfer. The account of the transferee is created here, and
written in the end. -/
def applyCoinbaseFeeTransfer (cb : Coinbase) : OnLedger FeeTransferred :=
  match cb.feeTransfer with
  | none => pure ⟨cb.amount, [], none, none, [], 0⟩
  | some ft => do
    logic (Outcome.assert (ft.receiverPk ≠ cb.receiver))
    let transfereeId := ft.receiver
    let receiverReward ← logic (Outcome.okOr (Amount.sub cb.amount ft.fee) .coinbaseFeeTransferTooLarge)
    let s ← InPlace.get
    let read := hasPermissionToReceive config.digests s.accounts transfereeId
    let timing ← logic (updateTimingWhenNoDeduction txnGlobalSlot read.1)
    let balance ← logic (receive config read.2.1 read.1.balance ft.fee)
    if read.2.2 then do
      let transfereeAccount ← getOrCreate config.digests transfereeId
      pure ⟨receiverReward, getNewAccounts read.2.1 transfereeId,
        some (transfereeId, { transfereeAccount with balance, timing }), some transfereeAccount.timing,
        appendEntry noFailure [], 0⟩
    else pure ⟨receiverReward, [], none, none, singleFailure, ft.fee⟩

/-- `Option.iter` of the update of the transferee. -/
def setTransferee : Option (AccountId × Account) → OnLedger Unit
  | some (l, a) => set l a
  | none => pure ()

/-- The second part of `apply_coinbase`: the reward. -/
def applyCoinbaseReward (cb : Coinbase) (first : FeeTransferred) : OnLedger CoinbaseApplied := do
  let receiverId : AccountId := ⟨cb.receiver, TokenId.default⟩
  let s ← InPlace.get
  let read := hasPermissionToReceive config.digests s.accounts receiverId
  let timing ← logic (coinbaseReceiverTiming txnGlobalSlot first.transfereeTimingPrev read.1)
  let receiverBalance ← logic (receive config read.2.1 read.1.balance first.receiverReward)
  let second ← setOrBurn config.digests receiverId first.receiverReward read.2.1 read.2.2
    (fun receiverAccount => { receiverAccount with balance := receiverBalance, timing })
    (appendEntry noFailure first.failures) (appendEntry updateFailed first.failures)
  setTransferee first.transfereeUpdate
  let burnedTokens ← logic (Outcome.okOr (Amount.add first.burnedTokens second.burnedTokens) .burnedTokensOverflow)
  pure ⟨cb, statusOf second.failures, first.newAccounts ++ getNewAccounts read.2.1 receiverId, burnedTokens⟩

/-- `apply_coinbase`. -/
def applyCoinbase (cb : Coinbase) : OnLedger CoinbaseApplied := do
  let first ← applyCoinbaseFeeTransfer config txnGlobalSlot cb
  applyCoinbaseReward config txnGlobalSlot cb first

/-! ### zkApp commands -/

/-- `apply_mask` of the mask on which the fee payer has run. -/
def applyMask (location : Location) (a : Account) (masked : Ledger) : OnLedger Unit :=
  InPlace.modify fun s =>
    { s with
      accounts := masked
      locations := if location = .new then s.locations ++ [a.identifier] else s.locations }

/-- A new account takes the next location. -/
def takeLocation (location : Location) : OnLedger Unit := if location = .new then nextLocation else pure ()

/-- `settle` for the fee payer, whose account is set in a mask. -/
def settleFeePayer (popped : Popped) (a : Account) (globalState : GlobalState) (localState : LocalState) :
    OnLedger (Signed × GlobalState × LocalState) := do
  let localState ← logic (addLocalDelta true popped.accountUpdate localState)
  takeLocation popped.location
  let localState ← logic (setAccount true popped.location a localState)
  let settled := settleExcess true globalState localState
  let increased := Signed.addFlagged settled.1.supplyIncrease settled.2.supplyIncrease
  let localState := settled.2.addCheck .globalSupplyIncreaseOverflow (!increased.2)
  logic (Outcome.assert localState.success)
  applyMask popped.location a localState.ledger
  let globalState := { settled.1 with firstPassLedger := localState.ledger }
  let localState := { localState with ledger := globalState.secondPassLedger }
  logic (Outcome.assert (!localState.isLastAccountUpdate || localState.willSucceed || !localState.success))
  pure (increased.1, globalState, localState)

/-- `apply` of the fee payer up to the commit. -/
def beforeCommit (startData : StartData) (globalState : GlobalState) (localState : LocalState) :
    OnLedger (Signed × GlobalState × LocalState) := do
  let popped ← logic (popAccountUpdate config (some startData) globalState localState)
  let run ← logic (runAccountUpdate config true globalState popped)
  settleFeePayer popped run.1 globalState run.2

/-- `Zkapp_command_logic.start`. -/
def start (startData : StartData) (state : GlobalState × LocalState) : OnLedger (GlobalState × LocalState) := do
  let settled ← beforeCommit config startData state.1 state.2
  pure (commit settled.1 settled.2.1 settled.2.2)

variable (globalSlot : GlobalSlot)

/-- `apply_zkapp_command_first_pass`. -/
def applyZkappCommandFirstPass (stateView : ProtocolStateView)
    (feeExcess supplyIncrease : Signed) (command : ZkappCommand) : OnLedger ZkappCommandPartiallyApplied := do
  let s ← InPlace.get
  let id := command.feePayerId
  let state ← InPlace.tryWith (.logic .raised) (start config (startData config.digests command)
    (initialState globalSlot stateView feeExcess supplyIncrease s.accounts))
  pure { command, originalFirstPassAccountStates := [(id, s.accounts[id]?)], globalState := state.1, localState := state.2 }

/-! ### Transactions -/

/-- `apply_transaction_first_pass`. -/
def applyTransactionFirstPass (txnStateView : ProtocolStateView) : Transaction → OnLedger TransactionPartiallyApplied
  | .signedCommand txn => do
    let applied ← applyUserCommandUnchecked config globalSlot txn
    pure (.signedCommand applied)
  | .zkappCommand txn => do
    let partiallyApplied ← applyZkappCommandFirstPass config globalSlot txnStateView Signed.zero Signed.zero txn
    pure (.zkappCommand partiallyApplied)
  | .feeTransfer t => do
    let applied ← applyFeeTransfer config globalSlot t
    pure (.feeTransfer applied)
  | .coinbase t => do
    let applied ← applyCoinbase config globalSlot t
    pure (.coinbase applied)

/-- `Transaction_validator.apply_transaction_first_pass`, which works within a mask. -/
def validateTransactionFirstPass (txnStateView : ProtocolStateView)
    (txn : Transaction) : OnLedger TransactionPartiallyApplied :=
  InPlace.onCopy (applyTransactionFirstPass config globalSlot txnStateView txn)

/-! ### What the operations return -/

variable {s : Placed} {digests : Digests} {accountId : AccountId} {account : Account}

section Operations

open InPlace

variable {s₁ : Placed}

theorem nextLocation_eq_ok (h : nextLocation s = (.ok (), s₁)) : s₁ = s ∧ s.locations.length < s.leaves := by
  obtain ⟨hok, hs⟩ := Prod.mk.inj (show (Outcome.okIfTrue _ _, s) = _ from h)
  exact ⟨hs.symm, of_decide_eq_true (Outcome.okIfTrue_eq_ok.1 hok)⟩

theorem createAccount_eq : createAccount accountId account s =
      if s.locations.length < s.leaves then (.ok (), s.add accountId account) else (.error .outOfLeaves, s) := by
  by_cases hroom : s.locations.length < s.leaves <;>
    simp [createAccount, nextLocation, bind_apply, InPlace.bind, hroom]

theorem getOrCreate_of_some (h : s.accounts[accountId]? = some account) :
    getOrCreate digests accountId s = (.ok account, s) := by
  simp [getOrCreate, h]

theorem getOrCreate_of_none (h : s.accounts[accountId]? = none) : getOrCreate digests accountId s =
      if s.locations.length < s.leaves then
        (.ok ( Account.initialize digests accountId), s.add accountId ( Account.initialize digests accountId))
      else (.error .outOfLeaves, s) := by
  by_cases hroom : s.locations.length < s.leaves <;>
    simp [getOrCreate, h, bind_apply, InPlace.bind, createAccount_eq, hroom]

end Operations

/-! ### The same as on accounts alone -/

section Agrees

open InPlace

variable {A B C D : Type} {config : Config} {slot : GlobalSlot}

/-- The outcome is that of the computation on accounts alone, unless there is no leaf for an account. -/
def Agrees (view : C → Ledger × A) (x : Outcome PlacedError A × Placed) (y : Outcome LedgerError C) : Prop :=
  match x with
  | (.ok a, s) => ∃ c, y = .ok c ∧ view c = (s.accounts, a)
  | (.error (.logic e), _) => y = .error e
  | (.error .outOfLeaves, _) => True
  | (.raise, _) => y = .raise

variable {view : C → Ledger × A} {view' : D → Ledger × B} {f : A → OnLedger B}
  {modifyBalance : AccountState → AccountId → Nat → Nat → Outcome LedgerError Nat}
  {modifyTiming : Account → Outcome LedgerError AccountTiming} {location : Location} {y : Outcome LedgerError C}
  {transfer : FeeTransfer} {x : OnLedger A} {a : Account} {cb : Coinbase} {fee : Nat}

theorem Agrees.logic_bind {x : Outcome LedgerError A} {g : A → Outcome LedgerError D}
    (h : ∀ a, x = .ok a → Agrees view' (f a s) (g a)) : Agrees view' ((logic x >>= f) s) (x >>= g) := by
  cases x with
  | raise => rfl
  | error e => rfl
  | ok a => exact h a rfl

theorem Agrees.bind {g : C → Outcome LedgerError D} (hx : Agrees view (x s) y)
    (h : ∀ a s₁ c, x s = (.ok a, s₁) → view c = (s₁.accounts, a) → Agrees view' (f a s₁) (g c)) :
    Agrees view' ((x >>= f) s) (y >>= g) := by
  rw [bind_apply, InPlace.bind]
  cases hs : x s with
  | mk o s₁ =>
    rw [hs] at hx
    cases o with
    | raise => rw [show y = .raise from hx]; rfl
    | error e => cases e with
      | logic e => rw [show y = .error e from hx]; rfl
      | outOfLeaves => trivial
    | ok a =>
      obtain ⟨c, rfl, hc⟩ := hx
      exact h a s₁ c hs hc

theorem Agrees.bind_ok {c : C} {y : Outcome LedgerError D} (hx : Agrees view (x s) (.ok c))
    (h : ∀ a s₁, view c = (s₁.accounts, a) → Agrees view' (f a s₁) y) : Agrees view' ((x >>= f) s) y :=
  hx.bind (g := fun _ => y) fun a s₁ c' hs hc => h a s₁ (by
    rw [hs] at hx
    obtain ⟨c'', hc'', hview⟩ := hx
    rwa [Outcome.ok.inj hc''])

theorem agrees_getOrCreate :
    Agrees id (getOrCreate digests accountId s) (.ok (TransactionLogic.getOrCreate digests s.accounts accountId)) := by
  unfold TransactionLogic.getOrCreate
  cases hfind : s.accounts[accountId]? with
  | some account =>
    rw [getOrCreate_of_some hfind]
    exact ⟨_, rfl, rfl⟩
  | none =>
    rw [getOrCreate_of_none hfind]
    split
    · exact ⟨_, rfl, rfl⟩
    · trivial

/-- A result with the ledger apart. -/
def apart (r : ProcessedFeeTransfer) : Ledger × Processed := (r.ledger, ⟨r.newAccounts, r.failures, r.burnedTokens⟩)

theorem agrees_setOrBurn {action : AccountState} {canReceive : Bool} {update : Account → Account}
    {received failed : FailureCollection} :
    Agrees apart (setOrBurn digests accountId fee action canReceive update received failed s)
      (.ok (TransactionLogic.setOrBurn digests s.accounts accountId fee action canReceive update received failed)) := by
  unfold setOrBurn TransactionLogic.setOrBurn
  cases canReceive with
  | true =>
    refine agrees_getOrCreate.bind_ok fun a s₁ hview => ⟨_, rfl, ?_⟩
    have hget : TransactionLogic.getOrCreate digests s.accounts accountId = (s₁.accounts, a) := hview
    simp [apart, write, hget]
  | false => exact ⟨_, rfl, rfl⟩

theorem agrees_processForOne {failures : FailureCollection} :
    Agrees apart (processForOne digests modifyBalance modifyTiming accountId fee failures s)
      (TransactionLogic.processForOne digests s.accounts modifyBalance modifyTiming accountId fee failures) := by
  refine Agrees.logic_bind (s := s) fun timing _ => Agrees.logic_bind fun balance _ => ?_
  exact agrees_setOrBurn

theorem agrees_processForTwo {ft₁ ft₂ : FeeTransferSingle} :
    Agrees apart (processForTwo digests modifyBalance modifyTiming ft₁ ft₂ s)
      (TransactionLogic.processForTwo digests s.accounts modifyBalance modifyTiming ft₁ ft₂) := by
  unfold processForTwo TransactionLogic.processForTwo
  rw [get_bind]
  generalize hasPermissionToReceive digests s.accounts ft₁.receiver = read₁
  generalize hasPermissionToReceive digests s.accounts ft₂.receiver = read₂
  obtain ⟨a₁, action₁, canReceive₁⟩ := read₁
  obtain ⟨a₂, action₂, canReceive₂⟩ := read₂
  refine Agrees.logic_bind fun balance₁ _ => Agrees.logic_bind fun timing₂ _ => Agrees.logic_bind fun balance₂ _ => ?_
  refine agrees_setOrBurn.bind_ok fun first s₁ hfirst => ?_
  dsimp only at hfirst ⊢
  generalize TransactionLogic.setOrBurn digests s.accounts ft₁.receiver _ _ _ _ _ _ = first' at hfirst ⊢
  obtain ⟨ledger, newAccounts, failures, burnedTokens⟩ := first'
  obtain ⟨rfl, rfl⟩ := Prod.mk.inj hfirst
  refine agrees_setOrBurn.bind_ok fun second s₂ hsecond => ?_
  dsimp only at hsecond ⊢
  generalize TransactionLogic.setOrBurn digests s₁.accounts ft₂.receiver _ _ _ _ _ _ = second' at hsecond ⊢
  obtain ⟨ledger₂, newAccounts₂, failures₂, burnedTokens₂⟩ := second'
  obtain ⟨rfl, rfl⟩ := Prod.mk.inj hsecond
  refine Agrees.logic_bind fun burned _ => ?_
  exact ⟨_, rfl, rfl⟩

theorem agrees_processFeeTransfer : Agrees apart (processFeeTransfer digests modifyBalance modifyTiming transfer s)
      (TransactionLogic.processFeeTransfer digests s.accounts modifyBalance modifyTiming transfer) := by
  refine Agrees.logic_bind fun u _ => ?_
  cases transfer with
  | one ft => exact agrees_processForOne
  | two ft₁ ft₂ =>
    dsimp only
    split
    · exact Agrees.logic_bind fun fee _ => agrees_processForOne
    · exact agrees_processForTwo

theorem agrees_applyFeeTransfer :
    Agrees id (applyFeeTransfer config slot transfer s) (TransactionLogic.applyFeeTransfer config slot s.accounts transfer) := by
  refine agrees_processFeeTransfer.bind fun r s₁ r' _ hview => ?_
  obtain ⟨ledger, newAccounts, failures, burnedTokens⟩ := r'
  obtain ⟨rfl, rfl⟩ := Prod.mk.inj hview
  exact ⟨_, rfl, rfl⟩

theorem agrees_createAccount :
    Agrees (fun ledger => (ledger, ())) (createAccount accountId account s) (.ok (s.accounts.insert accountId account)) := by
  rw [createAccount_eq]
  split
  · exact ⟨_, rfl, rfl⟩
  · trivial

theorem agrees_setWithLocation : Agrees (fun ledger => (ledger, ())) (setWithLocation location account s)
      (TransactionLogic.setWithLocation s.accounts location account) := by
  cases location with
  | existing id => exact ⟨_, rfl, rfl⟩
  | new =>
    change Agrees _ ((logic _ >>= fun _ => createAccount account.identifier account) s) _
    unfold TransactionLogic.setWithLocation
    dsimp only
    cases s.accounts.contains account.identifier with
    | true => rfl
    | false => exact agrees_createAccount

theorem agrees_setAll {located : List (Location × Account)} :
    Agrees (fun ledger => (ledger, ())) (setAll located s) (TransactionLogic.setAll s.accounts located) := by
  induction located generalizing s with
  | nil => exact ⟨_, rfl, rfl⟩
  | cons p located ih =>
    refine agrees_setWithLocation.bind fun u s₁ ledger _ hview => ?_
    obtain rfl := (Prod.mk.inj hview).1
    exact ih

theorem agrees_applyUserCommandUnchecked {userCommand : SignedPayload} :
    Agrees id (applyUserCommandUnchecked config slot userCommand s)
      (TransactionLogic.applyUserCommandUnchecked config slot s.accounts userCommand) := by
  refine Agrees.logic_bind fun u _ => Agrees.logic_bind (s := s) fun feePayer _ => ?_
  refine Agrees.logic_bind fun v _ => Agrees.logic_bind fun w _ => ?_
  refine agrees_setWithLocation.bind fun u s₁ ledger _ hview => ?_
  obtain rfl := (Prod.mk.inj hview).1
  change Agrees id (finishUserCommand userCommand _ s₁) (TransactionLogic.finishUserCommand s₁.accounts userCommand _)
  cases computeUpdates config slot s₁.accounts userCommand.payload feePayer.1 feePayer.2 with
  | raise => rfl
  | error e => cases e with
    | reject err => rfl
    | failure f => exact ⟨_, rfl, rfl⟩
  | ok p =>
    refine agrees_setAll.bind fun u s₂ ledger _ hview => ?_
    obtain rfl := (Prod.mk.inj hview).1
    exact ⟨_, rfl, rfl⟩

/-- The result of the fee transfer of a coinbase with the ledger apart. -/
def feeApart (r : CoinbaseFeeTransferred) : Ledger × FeeTransferred :=
  (r.ledger, ⟨r.receiverReward, r.newAccounts, r.transfereeUpdate, r.transfereeTimingPrev, r.failures, r.burnedTokens⟩)

theorem agrees_applyCoinbaseFeeTransfer :
    Agrees feeApart (applyCoinbaseFeeTransfer config slot cb s) (TransactionLogic.applyCoinbaseFeeTransfer config slot s.accounts cb) := by
  unfold applyCoinbaseFeeTransfer TransactionLogic.applyCoinbaseFeeTransfer
  cases cb.feeTransfer with
  | none => exact ⟨_, rfl, rfl⟩
  | some ft =>
    refine Agrees.logic_bind fun u _ => Agrees.logic_bind fun reward _ => ?_
    rw [get_bind]
    generalize hasPermissionToReceive config.digests s.accounts ft.receiver = read
    obtain ⟨account, action, canReceive⟩ := read
    refine Agrees.logic_bind fun timing _ => Agrees.logic_bind fun balance _ => ?_
    dsimp only
    cases canReceive with
    | true =>
      refine agrees_getOrCreate.bind_ok fun account s₁ hview => ⟨_, rfl, ?_⟩
      have hget : TransactionLogic.getOrCreate config.digests s.accounts ft.receiver = (s₁.accounts, account) := hview
      simp [feeApart, hget]
    | false => exact ⟨_, rfl, rfl⟩

theorem agrees_setTransferee {update : Option (AccountId × Account)} :
    Agrees (fun ledger => (ledger, ())) (setTransferee update s)
      (.ok (match update with
        | some (l, a) => s.accounts.insert l a
        | none => s.accounts)) := by
  cases update <;> exact ⟨_, rfl, rfl⟩

theorem agrees_applyCoinbase :
    Agrees id (applyCoinbase config slot cb s) (TransactionLogic.applyCoinbase config slot s.accounts cb) := by
  refine agrees_applyCoinbaseFeeTransfer.bind fun first s₁ first' _ hfirst => ?_
  obtain ⟨ledger, reward, newAccounts, update, timingPrev, failures, burnedTokens⟩ := first'
  obtain ⟨rfl, rfl⟩ := Prod.mk.inj hfirst
  unfold applyCoinbaseReward
  rw [get_bind]
  dsimp only
  generalize hasPermissionToReceive config.digests s₁.accounts ⟨cb.receiver, TokenId.default⟩ = read
  obtain ⟨account, action, canReceive⟩ := read
  refine Agrees.logic_bind fun timing _ => Agrees.logic_bind fun balance _ => ?_
  refine agrees_setOrBurn.bind_ok fun second s₂ hsecond => ?_
  refine agrees_setTransferee.bind_ok fun u s₃ hthird => ?_
  obtain ⟨hthird, -⟩ := Prod.mk.inj hthird
  cases canReceive with
  | true =>
    obtain ⟨hledger, rfl⟩ := Prod.mk.inj hsecond
    refine Agrees.logic_bind fun burned _ => ?_
    refine ⟨_, rfl, ?_⟩
    rw [← hledger] at hthird
    exact congrArg (fun ledger => (ledger, _)) hthird
  | false =>
    obtain ⟨hledger, rfl⟩ := Prod.mk.inj hsecond
    refine Agrees.logic_bind fun burned _ => ?_
    refine ⟨_, rfl, ?_⟩
    rw [← hledger] at hthird
    exact congrArg (fun ledger => (ledger, _)) hthird

theorem Agrees.tryWith {e : LedgerError} (h : Agrees view (x s) y) :
    Agrees view (InPlace.tryWith (.logic e) x s) (Outcome.tryWith e y) := by
  unfold InPlace.tryWith
  cases hs : x s with
  | mk o s₁ =>
    rw [hs] at h
    cases o with
    | raise => rw [show y = .raise from h]; rfl
    | error e' => cases e' with
      | logic e' => rw [show y = .error e' from h]; rfl
      | outOfLeaves => trivial
    | ok a =>
      obtain ⟨c, rfl, hc⟩ := h
      exact ⟨c, rfl, hc⟩

theorem agrees_takeLocation : Agrees (fun ledger => (ledger, ())) (takeLocation location s) (.ok s.accounts) := by
  unfold takeLocation
  split
  · by_cases hroom : s.locations.length < s.leaves
    · have htake : nextLocation s = (.ok (), s) := by simp [nextLocation, hroom]
      rw [htake]
      exact ⟨_, rfl, rfl⟩
    · have hfull : nextLocation s = (.error .outOfLeaves, s) := by simp [nextLocation, hroom]
      rw [hfull]
      trivial
  · exact ⟨_, rfl, rfl⟩

theorem agrees_applyMask {masked : Ledger} :
    Agrees (fun ledger => (ledger, ())) (applyMask location a masked s) (.ok masked) := ⟨_, rfl, rfl⟩

theorem agrees_settleFeePayer {popped : Popped} {globalState : GlobalState} {localState : LocalState} :
    Agrees (fun r => (r.2.1.firstPassLedger, r)) (settleFeePayer popped a globalState localState s)
      (settle true popped a globalState localState) := by
  refine Agrees.logic_bind fun delta _ => agrees_takeLocation.bind_ok fun u s₁ _ => ?_
  refine Agrees.logic_bind fun l _ => Agrees.logic_bind fun v _ => ?_
  refine agrees_applyMask.bind_ok fun w s₂ hmask => ?_
  refine Agrees.logic_bind fun w _ => ?_
  exact ⟨_, rfl, congrArg (fun p => (p.1, _)) hmask⟩

theorem agrees_applyZkappCommandFirstPass {stateView : ProtocolStateView} {feeExcess supplyIncrease : Signed} {command : ZkappCommand} :
    Agrees id (applyZkappCommandFirstPass config slot stateView feeExcess supplyIncrease command s)
      (TransactionLogic.applyZkappCommandFirstPass config slot stateView feeExcess supplyIncrease s.accounts command) := by
  have hbefore : ∀ globalState localState, Agrees (fun r => (r.2.1.firstPassLedger, r))
      (beforeCommit config (startData config.digests command) globalState localState s)
      (TransactionLogic.beforeCommit config (some (startData config.digests command)) globalState localState) := by
    intro globalState localState
    refine Agrees.logic_bind fun popped _ => Agrees.logic_bind fun run _ => ?_
    exact agrees_settleFeePayer
  have hstart : ∀ state, Agrees (fun r => (r.1.firstPassLedger, r)) (start config (startData config.digests command) state s)
      (TransactionLogic.start config (startData config.digests command) state) := by
    intro state
    refine (hbefore state.1 state.2).bind fun settled s₁ settled' _ hview => ?_
    obtain ⟨hledger, rfl⟩ := Prod.mk.inj hview
    exact ⟨_, rfl, congrArg (fun ledger => (ledger, _)) hledger⟩
  have hassoc : ∀ {A B C : Type} (x : Outcome LedgerError A) (f : A → Outcome LedgerError B) (g : B → Outcome LedgerError C),
      (x >>= f >>= g) = (x >>= fun a => f a >>= g) := by
    intro A B C x f g
    cases x <;> rfl
  unfold TransactionLogic.applyZkappCommandFirstPass applyZkappCommandFirstPassAux
  rw [hassoc]
  refine (hstart _).tryWith.bind fun state s₁ state' _ hview => ?_
  obtain ⟨hledger, rfl⟩ := Prod.mk.inj hview
  exact ⟨_, rfl, congrArg (fun ledger => (ledger, _)) hledger⟩

/-- **The first pass** on a ledger in place is that on its accounts, unless there is no leaf for an account. -/
theorem agrees_applyTransactionFirstPass {view : ProtocolStateView} (t : Transaction) :
    Agrees id (applyTransactionFirstPass config slot view t s)
      (TransactionLogic.applyTransactionFirstPass config slot view s.accounts t) := by
  cases t with
  | signedCommand txn =>
    refine agrees_applyUserCommandUnchecked.bind fun applied s₁ c _ hview => ?_
    rw [show c = (s₁.accounts, applied) from hview]
    exact ⟨_, rfl, rfl⟩
  | zkappCommand txn =>
    refine agrees_applyZkappCommandFirstPass.bind fun applied s₁ c _ hview => ?_
    rw [show c = (s₁.accounts, applied) from hview]
    exact ⟨_, rfl, rfl⟩
  | feeTransfer t =>
    refine agrees_applyFeeTransfer.bind fun applied s₁ c _ hview => ?_
    rw [show c = (s₁.accounts, applied) from hview]
    exact ⟨_, rfl, rfl⟩
  | coinbase cb =>
    refine agrees_applyCoinbase.bind fun applied s₁ c _ hview => ?_
    rw [show c = (s₁.accounts, applied) from hview]
    exact ⟨_, rfl, rfl⟩

end Agrees

end Placed

end MinaProtocol.TransactionLogic
