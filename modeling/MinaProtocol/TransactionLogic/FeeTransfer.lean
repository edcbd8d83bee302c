import MinaProtocol.TransactionLogic.SignedCommand

/-!
# TransactionLogic.FeeTransfer

Fee transfers and coinbases, which give to one or two accounts. What an account may not
receive is burned; an account that does not exist is created, and pays for it from what it
is given. `Credits` is what they have in common.
-/

namespace MinaProtocol.TransactionLogic

open Std

/-- `update_timing_when_no_deduction`. -/
def updateTimingWhenNoDeduction (txnGlobalSlot : GlobalSlot) (account : Account) : Outcome LedgerError AccountTiming :=
  (validateTiming account 0 txnGlobalSlot).mapError LedgerError.timing

/-- `has_permission_to_receive`. -/
def hasPermissionToReceive (digests : Digests) (ledger : Ledger) (receiverAccountId : AccountId) :
    Account × AccountState × Bool :=
  let initAccount := Account.initialize digests receiverAccountId
  match ledger[receiverAccountId]? with
  | none => (initAccount, .added, initAccount.hasPermissionToReceive)
  | some receiverAccount => (receiverAccount, .existed, receiverAccount.hasPermissionToReceive)

/-- `get_or_create`, of which the location is the id. -/
def getOrCreate (digests : Digests) (ledger : Ledger) (accountId : AccountId) : Ledger × Account :=
  match ledger[accountId]? with
  | some account => (ledger, account)
  | none =>
    let account := Account.initialize digests accountId
    (ledger.insert accountId account, account)

/-- `no_failure`. -/
def noFailure : List Failure := []

/-- `update_failed`. -/
def updateFailed : List Failure := [.updateNotPermittedBalance]

/-- `single_failure`. -/
def singleFailure : FailureCollection := FailureCollection.ofSingleFailure .updateNotPermittedBalance

/-- `append_entry`. -/
def appendEntry (f : List Failure) : FailureCollection → FailureCollection
  | [] => [f]
  | h :: t => h :: f :: t

/-- The ledger and the result of `process_fee_transfer`. -/
structure ProcessedFeeTransfer where
  ledger : Ledger
  newAccounts : List AccountId
  failures : FailureCollection
  burnedTokens : Nat

/-- Set the account that can receive, with the entry for success; what it cannot receive is
burned, with the entry for failure. -/
def setOrBurn (digests : Digests) (t : Ledger) (accountId : AccountId) (fee : Nat) (action : AccountState)
    (canReceive : Bool) (update : Account → Account) (received failed : FailureCollection) : ProcessedFeeTransfer :=
  if canReceive then
    let (t, a) := getOrCreate digests t accountId
    ⟨t.insert accountId (update a), getNewAccounts action accountId, received, 0⟩
  else ⟨t, [], failed, fee⟩

section ProcessFeeTransfer

variable (digests : Digests) (t : Ledger)
  (modifyBalance : AccountState → AccountId → Nat → Nat → Outcome LedgerError Nat)
  (modifyTiming : Account → Outcome LedgerError AccountTiming)

/-- A fee for one account: one single, or two for the same receiver. -/
def processForOne (accountId : AccountId) (fee : Nat) (failures : FailureCollection) :
    Outcome LedgerError ProcessedFeeTransfer := do
  let (a, action, canReceive) := hasPermissionToReceive digests t accountId
  let timing ← modifyTiming a
  let balance ← modifyBalance action accountId a.balance fee
  return setOrBurn digests t accountId fee action canReceive (fun a => { a with balance, timing }) [] failures

/-- Two singles for different receivers. The timing of the first is not updated. -/
def processForTwo (ft₁ ft₂ : FeeTransferSingle) : Outcome LedgerError ProcessedFeeTransfer := do
  let (a₁, action₁, canReceive₁) := hasPermissionToReceive digests t ft₁.receiver
  let (a₂, action₂, canReceive₂) := hasPermissionToReceive digests t ft₂.receiver
  let balance₁ ← modifyBalance action₁ ft₁.receiver a₁.balance ft₁.fee
  let timing₂ ← modifyTiming a₂
  let balance₂ ← modifyBalance action₂ ft₂.receiver a₂.balance ft₂.fee
  let first := setOrBurn digests t ft₁.receiver ft₁.fee action₁ canReceive₁
    (fun a₁ => { a₁ with balance := balance₁ }) (appendEntry noFailure []) singleFailure
  let second := setOrBurn digests first.ledger ft₂.receiver ft₂.fee action₂ canReceive₂
    (fun a₂ => { a₂ with balance := balance₂, timing := timing₂ }) (appendEntry noFailure first.failures)
    (appendEntry updateFailed first.failures)
  let burnedTokens ← Outcome.okOr (Amount.add first.burnedTokens second.burnedTokens) .burnedTokensOverflow
  return { second with newAccounts := first.newAccounts ++ second.newAccounts, burnedTokens }

/-- `process_fee_transfer`. -/
def processFeeTransfer (transfer : FeeTransfer) : Outcome LedgerError ProcessedFeeTransfer := do
  Outcome.okIfTrue (transfer.toList.all fun ft => ft.feeToken = TokenId.default) .feesInNonDefaultTokens
  match transfer with
  | .one ft => processForOne digests t modifyBalance modifyTiming ft.receiver ft.fee singleFailure
  | .two ft₁ ft₂ =>
    if ft₁.receiver = ft₂.receiver then do
      let fee ← Outcome.okOr (Amount.add ft₁.fee ft₂.fee) .overflow
      processForOne digests t modifyBalance modifyTiming ft₁.receiver fee
        (appendEntry updateFailed singleFailure)
    else processForTwo digests t modifyBalance modifyTiming ft₁ ft₂

end ProcessFeeTransfer

variable (config : Config)

/-- The balance once an account has received the amount, less the fee for its creation. -/
def receive (action : AccountState) (balance amount : Nat) : Outcome LedgerError Nat := do
  let amount ← subAccountCreationFee config action amount
  addAmount balance amount

/-- The status of a transaction with these failures. -/
def statusOf (failures : FailureCollection) : TransactionStatus :=
  if FailureCollection.isEmpty failures then .applied else .failed failures

/-- `Fee_transfer_applied.t`. -/
structure FeeTransferApplied where
  feeTransfer : FeeTransfer
  status : TransactionStatus
  newAccounts : List AccountId
  burnedTokens : Nat
deriving DecidableEq, Repr

/-- `apply_fee_transfer`. -/
def applyFeeTransfer (txnGlobalSlot : GlobalSlot) (t : Ledger) (transfer : FeeTransfer) :
    Outcome LedgerError (Ledger × FeeTransferApplied) := do
  let processed ← processFeeTransfer config.digests t
    (fun action _ b f => receive config action b f) (updateTimingWhenNoDeduction txnGlobalSlot) transfer
  return (processed.ledger, ⟨transfer, statusOf processed.failures, processed.newAccounts, processed.burnedTokens⟩)

/-- `Coinbase_applied.t`. -/
structure CoinbaseApplied where
  coinbase : Coinbase
  status : TransactionStatus
  newAccounts : List AccountId
  burnedTokens : Nat
deriving DecidableEq, Repr

/-- What the fee transfer of a coinbase leaves to be done. -/
structure CoinbaseFeeTransferred where
  ledger : Ledger
  receiverReward : Nat
  newAccounts : List AccountId
  transfereeUpdate : Option (AccountId × Account)
  transfereeTimingPrev : Option AccountTiming
  failures : FailureCollection
  burnedTokens : Nat

/-- The first part of `apply_coinbase`: the fee transfer. -/
def applyCoinbaseFeeTransfer (txnGlobalSlot : GlobalSlot) (t : Ledger) (cb : Coinbase) :
    Outcome LedgerError CoinbaseFeeTransferred :=
  match cb.feeTransfer with
  | none => .ok ⟨t, cb.amount, [], none, none, [], 0⟩
  | some ft => do
    Outcome.assert (ft.receiverPk ≠ cb.receiver)
    let transfereeId := ft.receiver
    let receiverReward ← Outcome.okOr (Amount.sub cb.amount ft.fee) .coinbaseFeeTransferTooLarge
    let (transfereeAccount, action, canReceive) := hasPermissionToReceive config.digests t transfereeId
    let newAccounts := getNewAccounts action transfereeId
    let timing ← updateTimingWhenNoDeduction txnGlobalSlot transfereeAccount
    let balance ← receive config action transfereeAccount.balance ft.fee
    if canReceive then
      let (t, transfereeAccount) := getOrCreate config.digests t transfereeId
      return ⟨t, receiverReward, newAccounts, some (transfereeId, { transfereeAccount with balance, timing }),
        some transfereeAccount.timing, appendEntry noFailure [], 0⟩
    else return ⟨t, receiverReward, [], none, none, singleFailure, ft.fee⟩

/-- The timing of the receiver of a coinbase, which is updated only when there is no fee transfer. -/
def coinbaseReceiverTiming (txnGlobalSlot : GlobalSlot) (transfereeTimingPrev : Option AccountTiming)
    (receiverAccount : Account) : Outcome LedgerError AccountTiming :=
  match transfereeTimingPrev with
  | none => updateTimingWhenNoDeduction txnGlobalSlot receiverAccount
  | some _ => .ok receiverAccount.timing

/-- `apply_coinbase`. -/
def applyCoinbase (txnGlobalSlot : GlobalSlot) (t : Ledger) (cb : Coinbase) :
    Outcome LedgerError (Ledger × CoinbaseApplied) := do
  let first ← applyCoinbaseFeeTransfer config txnGlobalSlot t cb
  let receiverId : AccountId := ⟨cb.receiver, TokenId.default⟩
  let (receiverAccount, action₂, canReceive) := hasPermissionToReceive config.digests first.ledger receiverId
  let newAccounts₂ := getNewAccounts action₂ receiverId
  let timing ← coinbaseReceiverTiming txnGlobalSlot first.transfereeTimingPrev receiverAccount
  let receiverBalance ← receive config action₂ receiverAccount.balance first.receiverReward
  let (ledger, failures, burnedTokens₂) :=
    if canReceive then
      let (t, receiverAccount) := getOrCreate config.digests first.ledger receiverId
      (t.insert receiverId { receiverAccount with balance := receiverBalance, timing },
        appendEntry noFailure first.failures, 0)
    else (first.ledger, appendEntry updateFailed first.failures, first.receiverReward)
  let ledger :=
    match first.transfereeUpdate with
    | some (l, a) => ledger.insert l a
    | none => ledger
  let burnedTokens ← Outcome.okOr (Amount.add first.burnedTokens burnedTokens₂) .burnedTokensOverflow
  return (ledger, ⟨cb, statusOf failures, first.newAccounts ++ newAccounts₂, burnedTokens⟩)

/-! ### What they do -/

/-- **An account is given an amount**, or it is burned. The timing of the account may be
updated on the way. -/
inductive Credited (config : Config) (slot : GlobalSlot) (accountId : AccountId) (amount : Nat)
    (ledger : Ledger) : Ledger → List AccountId → Nat → Prop where
  | burned : Credited config slot accountId amount ledger ledger [] amount
  | received (location : Location) (account : Account) (balance : Nat) (timing : AccountTiming) :
      getWithLocation config.digests ledger accountId = (location, account) →
      balance + (if location = .new then config.accountCreationFee else 0) = account.balance + amount →
      timing = account.timing ∨ timing = timingAfter slot account.timing →
      Credited config slot accountId amount ledger
        (ledger.insert accountId { account with balance, timing })
        (if location = .new then [accountId] else []) 0

/-- One account after the other is given an amount. -/
inductive Credits (config : Config) (slot : GlobalSlot) :
    List (AccountId × Nat) → Ledger → Ledger → List AccountId → Nat → Prop where
  | nil (ledger : Ledger) : Credits config slot [] ledger ledger [] 0
  | cons {accountId : AccountId} {amount burned burned' : Nat} {rest : List (AccountId × Nat)}
      {ledger ledger₁ ledger₂ : Ledger} {newAccounts newAccounts' : List AccountId} :
      Credited config slot accountId amount ledger ledger₁ newAccounts burned →
      Credits config slot rest ledger₁ ledger₂ newAccounts' burned' →
      Credits config slot ((accountId, amount) :: rest) ledger ledger₂ (newAccounts ++ newAccounts')
        (burned + burned')

theorem Credits.one {config : Config} {slot : GlobalSlot} {accountId : AccountId} {amount burned : Nat}
    {ledger ledger' : Ledger} {newAccounts : List AccountId}
    (h : Credited config slot accountId amount ledger ledger' newAccounts burned) :
    Credits config slot [(accountId, amount)] ledger ledger' newAccounts burned := by
  have hcons := Credits.cons h (.nil ledger')
  rwa [List.append_nil, Nat.add_zero] at hcons

section Credit

variable {config : Config} {slot : GlobalSlot} {ledger : Ledger} {accountId : AccountId} {amount : Nat}
  {other : AccountId} {ledger' : Ledger} {r : ProcessedFeeTransfer}

variable (digests : Digests)
  {newAccounts : List AccountId} {applied : CoinbaseApplied} {timing : AccountTiming} {transfer : FeeTransfer} {location : Location} {account : Account} {balance burned : Nat} {cb : Coinbase}

/-- The account that `has_permission_to_receive` reads. A new account can receive. -/
theorem hasPermissionToReceive_eq (ledger : Ledger) (accountId : AccountId) : ∃ location account,
      getWithLocation digests ledger accountId = (location, account)
        ∧ hasPermissionToReceive digests ledger accountId
          = (account, if location = .new then .added else .existed, account.hasPermissionToReceive)
        ∧ (location = .new → account.hasPermissionToReceive = true) := by
  cases hget : ledger[accountId]? with
  | some account =>
    refine ⟨_, _, getWithLocation_of_some hget, ?_, nofun⟩
    unfold hasPermissionToReceive
    rw [hget]
    rfl
  | none =>
    refine ⟨_, _, getWithLocation_of_none hget, ?_, fun _ => rfl⟩
    unfold hasPermissionToReceive
    rw [hget]
    rfl

theorem getOrCreate_snd (ledger : Ledger) (accountId : AccountId) :
    (getOrCreate digests ledger accountId).2 = (getWithLocation digests ledger accountId).2 := by
  unfold getOrCreate getWithLocation
  cases ledger[accountId]? with
  | some account => rfl
  | none => rfl

theorem insert_insert_self (ledger : Ledger) (accountId : AccountId) (a a' : Account) :
    (ledger.insert accountId a).insert accountId a' = ledger.insert accountId a' := by
  refine ExtTreeMap.ext_getElem? fun i => ?_
  rw [ExtTreeMap.getElem?_insert, ExtTreeMap.getElem?_insert, ExtTreeMap.getElem?_insert]
  split
  · rfl
  · rfl

theorem getOrCreate_insert (ledger : Ledger) (accountId : AccountId) (a : Account) :
    (getOrCreate digests ledger accountId).1.insert accountId a = ledger.insert accountId a := by
  unfold getOrCreate
  cases ledger[accountId]? with
  | some account => rfl
  | none => exact insert_insert_self ledger accountId _ a

theorem receive_eq_ok {action : AccountState} {rest : Nat} (h : receive config action balance amount = .ok rest) :
    rest + (if action = .added then config.accountCreationFee else 0) = balance + amount := by
  unfold receive addAmount at h
  simp only [Outcome.bind_eq_ok, Outcome.okOr_eq_ok] at h
  obtain ⟨left, hleft, hadd⟩ := h
  have hleft := subAccountCreationFee_eq_ok.1 hleft
  obtain ⟨hadd, -⟩ := Amount.add_eq_some.1 hadd
  omega

theorem updateTimingWhenNoDeduction_eq_ok
    (h : updateTimingWhenNoDeduction slot account = .ok timing) : timing = timingAfter slot account.timing :=
  (validateTiming_eq_ok.1 (Outcome.mapError_eq_ok.1 h)).2.2

theorem action_eq_added : (if location = .new then AccountState.added else .existed) = .added ↔ location = .new := by
  split
  · rename_i h
    simp [h]
  · rename_i h
    simp [h]

theorem getNewAccounts_action (location : Location) (accountId : AccountId) :
    getNewAccounts (if location = .new then .added else .existed) accountId
      = if location = .new then [accountId] else [] := by
  unfold getNewAccounts
  simp only [action_eq_added]

theorem setOrBurn_credited (canReceive : Bool) (update : Account → Account) (received failed : FailureCollection)
    (hread : getWithLocation config.digests ledger accountId = (location, account))
    (hbalance : receive config (if location = .new then .added else .existed) account.balance amount = .ok balance)
    (htiming : timing = account.timing ∨ timing = timingAfter slot account.timing)
    (hupdate : update account = { account with balance, timing }) :
    let r := setOrBurn config.digests ledger accountId amount (if location = .new then .added else .existed)
      canReceive update received failed
    Credited config slot accountId amount ledger r.ledger r.newAccounts r.burnedTokens := by
  intro r
  have hreceive := receive_eq_ok hbalance
  simp only [action_eq_added] at hreceive
  cases canReceive with
  | false => exact .burned
  | true =>
    change Credited config slot accountId amount ledger
      ((getOrCreate config.digests ledger accountId).1.insert accountId
        (update (getOrCreate config.digests ledger accountId).2)) (getNewAccounts _ accountId) 0
    rw [getOrCreate_insert, getOrCreate_snd, hread, hupdate, getNewAccounts_action]
    exact .received location account balance timing hread hreceive htiming

theorem getWithLocation_insert_of_ne {ledger : Ledger} {accountId : AccountId} (h : other ≠ accountId) (a : Account) :
    getWithLocation digests (ledger.insert accountId a) other = getWithLocation digests ledger other := by
  unfold getWithLocation
  rw [ExtTreeMap.getElem?_insert, if_neg]
  intro heq
  exact h (LawfulEqOrd.compare_eq_iff_eq.1 heq).symm

variable (h : Credited config slot accountId amount ledger ledger' newAccounts burned)

include h in
theorem Credited.getWithLocation_of_ne (digests : Digests) (hne : other ≠ accountId) :
    getWithLocation digests ledger' other = getWithLocation digests ledger other := by
  cases h with
  | burned => rfl
  | received _ _ _ _ _ _ _ => exact getWithLocation_insert_of_ne digests hne _

/-- The balance that `apply_fee_transfer` computes. -/
abbrev receiveFor (config : Config) : AccountState → AccountId → Nat → Nat → Outcome LedgerError Nat :=
  fun action _ b f => receive config action b f

theorem processForOne_ok {failures : FailureCollection}
    (h : processForOne config.digests ledger (receiveFor config) (updateTimingWhenNoDeduction slot) accountId
      amount failures = .ok r) :
    Credited config slot accountId amount ledger r.ledger r.newAccounts r.burnedTokens := by
  unfold processForOne at h
  obtain ⟨location, account, hread, hperm, -⟩ := hasPermissionToReceive_eq config.digests ledger accountId
  rw [hperm] at h
  simp only [Outcome.bind_eq_ok] at h
  obtain ⟨timing, htiming, balance, hbalance, h⟩ := h
  cases h
  exact setOrBurn_credited _ _ _ _ hread hbalance (.inr (updateTimingWhenNoDeduction_eq_ok htiming)) rfl

theorem processForTwo_ok {ft₁ ft₂ : FeeTransferSingle} (hne : ft₁.receiver ≠ ft₂.receiver)
    (h : processForTwo config.digests ledger (receiveFor config) (updateTimingWhenNoDeduction slot) ft₁ ft₂ = .ok r) :
    Credits config slot [(ft₁.receiver, ft₁.fee), (ft₂.receiver, ft₂.fee)] ledger r.ledger r.newAccounts
      r.burnedTokens := by
  unfold processForTwo at h
  obtain ⟨location₁, account₁, hread₁, hperm₁, -⟩ :=
    hasPermissionToReceive_eq config.digests ledger ft₁.receiver
  obtain ⟨location₂, account₂, hread₂, hperm₂, -⟩ :=
    hasPermissionToReceive_eq config.digests ledger ft₂.receiver
  rw [hperm₁, hperm₂] at h
  simp only [Outcome.bind_eq_ok, Outcome.okOr_eq_ok] at h
  obtain ⟨balance₁, hbalance₁, timing₂, htiming₂, balance₂, hbalance₂, burned, hburned, h⟩ := h
  obtain ⟨rfl, -⟩ := Amount.add_eq_some.1 hburned
  cases h
  have hfirst : Credited config slot ft₁.receiver ft₁.fee ledger _ _ _ :=
    setOrBurn_credited account₁.hasPermissionToReceive (fun a₁ => { a₁ with balance := balance₁ })
      (appendEntry noFailure []) singleFailure hread₁ hbalance₁ (.inl rfl) rfl
  have hread₂' := (hfirst.getWithLocation_of_ne config.digests hne.symm).trans hread₂
  exact .cons hfirst
    (.one (setOrBurn_credited _ _ _ _ hread₂' hbalance₂ (.inr (updateTimingWhenNoDeduction_eq_ok htiming₂)) rfl))

theorem processFeeTransfer_ok
    (h : processFeeTransfer config.digests ledger (receiveFor config) (updateTimingWhenNoDeduction slot)
      transfer = .ok r) :
    ∃ credits, Credits config slot credits ledger r.ledger r.newAccounts r.burnedTokens
      ∧ (∀ c ∈ credits, c.1.tokenId = TokenId.default)
      ∧ (credits.map Prod.snd).sum = (transfer.toList.map FeeTransferSingle.fee).sum := by
  unfold processFeeTransfer at h
  simp only [Outcome.bind_eq_ok, Outcome.okIfTrue_eq_ok, List.all_eq_true, decide_eq_true_eq] at h
  obtain ⟨-, htokens, h⟩ := h
  cases transfer with
  | one ft =>
    refine ⟨_, .one (processForOne_ok h), ?_, rfl⟩
    intro c hc
    obtain rfl := List.mem_singleton.1 hc
    exact htokens ft (.head _)
  | two ft₁ ft₂ =>
    have htoken₁ := htokens ft₁ (.head _)
    dsimp only at h
    split at h
    · obtain ⟨fee, hfee, h⟩ := Outcome.bind_eq_ok.1 h
      obtain ⟨rfl, -⟩ := Amount.add_eq_some.1 (Outcome.okOr_eq_ok.1 hfee)
      refine ⟨_, .one (processForOne_ok h), ?_, ?_⟩
      · intro c hc
        obtain rfl := List.mem_singleton.1 hc
        exact htoken₁
      · simp [OneOrTwo.toList]
    · rename_i hne
      refine ⟨_, processForTwo_ok hne h, ?_, rfl⟩
      intro c hc
      rcases List.mem_cons.1 hc with rfl | hc
      · exact htoken₁
      · obtain rfl := List.mem_singleton.1 hc
        exact htokens ft₂ (.tail _ (.head _))

/-- **What a fee transfer does**: its receivers are credited with the fees. -/
theorem applyFeeTransfer_ok {applied : FeeTransferApplied}
    (h : applyFeeTransfer config slot ledger transfer = .ok (ledger', applied)) :
    applied.feeTransfer = transfer ∧ ∃ credits,
      Credits config slot credits ledger ledger' applied.newAccounts applied.burnedTokens
        ∧ (∀ c ∈ credits, c.1.tokenId = TokenId.default)
        ∧ (credits.map Prod.snd).sum = (transfer.toList.map FeeTransferSingle.fee).sum := by
  unfold applyFeeTransfer at h
  obtain ⟨r, hr, h⟩ := Outcome.bind_eq_ok.1 h
  cases h
  exact ⟨rfl, processFeeTransfer_ok hr⟩

theorem insert_comm (ledger : Ledger) {i j : AccountId} (h : i ≠ j) (a b : Account) :
    (ledger.insert i a).insert j b = (ledger.insert j b).insert i a := by
  refine ExtTreeMap.ext_getElem? fun k => ?_
  rw [ExtTreeMap.getElem?_insert, ExtTreeMap.getElem?_insert, ExtTreeMap.getElem?_insert, ExtTreeMap.getElem?_insert]
  simp only [LawfulEqOrd.compare_eq_iff_eq]
  split
  · rename_i hj
    rw [if_neg fun hi => h (hi.trans hj.symm)]
  · rfl

include h in
theorem Credited.insert_of_ne (hne : accountId ≠ other) (a : Account) :
    Credited config slot accountId amount (ledger.insert other a) (ledger'.insert other a) newAccounts
      burned := by
  cases h with
  | burned => exact .burned
  | received location account balance timing hread hbalance htiming =>
    rw [insert_comm ledger hne]
    exact .received location account balance timing
      ((getWithLocation_insert_of_ne config.digests hne a).trans hread) hbalance htiming

/-- The second part of `apply_coinbase`: the receiver is credited with the reward. -/
theorem applyCoinbase_receiver (h : applyCoinbase config slot ledger cb = .ok (ledger', applied)) :
    applied.coinbase = cb ∧ ∃ first ledger₂ newAccounts burned,
      applyCoinbaseFeeTransfer config slot ledger cb = .ok first
        ∧ Credited config slot ⟨cb.receiver, TokenId.default⟩ first.receiverReward first.ledger ledger₂
          newAccounts burned
        ∧ applied.newAccounts = first.newAccounts ++ newAccounts
        ∧ applied.burnedTokens = first.burnedTokens + burned
        ∧ ledger' = (match first.transfereeUpdate with
          | some (l, a) => ledger₂.insert l a
          | none => ledger₂) := by
  unfold applyCoinbase at h
  obtain ⟨first, hfirst, h⟩ := Outcome.bind_eq_ok.1 h
  obtain ⟨location, account, hread, hperm, hnew⟩ :=
    hasPermissionToReceive_eq config.digests first.ledger ⟨cb.receiver, TokenId.default⟩
  dsimp only at h
  rw [hperm] at h
  simp only [Outcome.bind_eq_ok, Outcome.okOr_eq_ok] at h
  obtain ⟨timing, htiming, balance, hbalance, burned, hburned, h⟩ := h
  obtain ⟨rfl, -⟩ := Amount.add_eq_some.1 hburned
  cases h
  have htiming : timing = account.timing ∨ timing = timingAfter slot account.timing := by
    unfold coinbaseReceiverTiming at htiming
    split at htiming
    · exact .inr (updateTimingWhenNoDeduction_eq_ok htiming)
    · exact .inl (Outcome.ok.inj htiming).symm
  refine ⟨rfl, first, ?_⟩
  cases hcan : account.hasPermissionToReceive with
  | true =>
    have hcredited : Credited config slot ⟨cb.receiver, TokenId.default⟩ first.receiverReward first.ledger _ _ _ :=
      setOrBurn_credited true (fun a => { a with balance, timing }) [] [] hread hbalance htiming rfl
    exact ⟨_, _, _, hfirst, hcredited, rfl, rfl, rfl⟩
  | false =>
    have hne : location ≠ .new := by
      intro heq
      rw [hnew heq] at hcan
      cases hcan
    refine ⟨_, [], _, hfirst, .burned, ?_, rfl, rfl⟩
    dsimp only
    rw [getNewAccounts_action, if_neg hne]

/-- **What a coinbase does**: its receivers are credited with its amount. -/
theorem applyCoinbase_ok (h : applyCoinbase config slot ledger cb = .ok (ledger', applied)) :
    applied.coinbase = cb ∧ ∃ credits,
      Credits config slot credits ledger ledger' applied.newAccounts applied.burnedTokens
        ∧ (∀ c ∈ credits, c.1.tokenId = TokenId.default)
        ∧ (credits.map Prod.snd).sum = cb.amount := by
  obtain ⟨hcb, first, ledger₂, newAccounts, burned, hfirst, hcredited, hnew, hburned, hledger⟩ :=
    applyCoinbase_receiver h
  refine ⟨hcb, ?_⟩
  rw [hnew, hburned, hledger]
  unfold applyCoinbaseFeeTransfer at hfirst
  split at hfirst
  · cases hfirst
    refine ⟨[(⟨cb.receiver, TokenId.default⟩, cb.amount)], ?_, ?_, rfl⟩
    · rw [List.nil_append, Nat.zero_add]
      exact .one hcredited
    · intro c hc
      obtain rfl := List.mem_singleton.1 hc
      rfl
  · rename_i ft hft
    obtain ⟨location, account, hread, hperm, -⟩ := hasPermissionToReceive_eq config.digests ledger ft.receiver
    dsimp only at hfirst
    rw [hperm] at hfirst
    simp only [Outcome.bind_eq_ok, Outcome.assert_eq_ok, Outcome.okOr_eq_ok, decide_eq_true_eq] at hfirst
    obtain ⟨-, hne, reward, hreward, timing, htiming, balance, hbalance, hfirst⟩ := hfirst
    have hreward := Amount.sub_eq_some.1 hreward
    have hne' : (⟨cb.receiver, TokenId.default⟩ : AccountId) ≠ ft.receiver :=
      fun heq => hne (congrArg AccountId.publicKey heq).symm
    have htokens : ∀ c ∈ [(ft.receiver, ft.fee), ((⟨cb.receiver, TokenId.default⟩ : AccountId), reward)],
        c.1.tokenId = TokenId.default := by
      intro c hc
      rcases List.mem_cons.1 hc with rfl | hc
      · rfl
      · obtain rfl := List.mem_singleton.1 hc
        rfl
    refine ⟨[(ft.receiver, ft.fee), (⟨cb.receiver, TokenId.default⟩, reward)], ?_, htokens, ?_⟩
    · split at hfirst
      · cases hfirst
        -- the receiver is credited before the transferee is set
        have htransferee : Credited config slot ft.receiver ft.fee ledger _ _ _ :=
          setOrBurn_credited true (fun a => { a with balance, timing }) [] [] hread hbalance
            (.inr (updateTimingWhenNoDeduction_eq_ok htiming)) rfl
        exact .cons htransferee (.one (hcredited.insert_of_ne hne' _))
      · cases hfirst
        exact .cons .burned (.one hcredited)
    · simp only [List.map_cons, List.map_nil, List.sum_cons, List.sum_nil]
      omega

end Credit

end MinaProtocol.TransactionLogic
