import MinaProtocol.Lib.MapSet
import MinaProtocol.Lib.Outcome
import MinaProtocol.Base.UserCommand

/-!
# IndexedPool.Pool

The transaction pool of `indexed_pool.ml`: user commands waiting for a block, filed
by sender, by fee, by hash and by expiration. The functions follow the source in the
order of their checks. Where the source raises, an `Option` is `none` and an
`Outcome` is `raise`.

Commands are compared by hash, so that two commands with one hash are one command.
`H` says which command a hash belongs to: no two commands here have the same hash.
-/

namespace MinaProtocol.IndexedPool

open Std

/-- `replace_fee`: the fee increase required to replace a transaction. -/
def replaceFee : Nat := 1

/-- `Transaction_hash.User_command_with_valid_signature.t`. Its fee per weight unit
can be formed (`Fee_rate.make_exn`). -/
structure Command (H : Nat → Option UserCommand) where
  hash : Nat
  command : UserCommand
  hash_eq : H hash = some command
  weight_lt : command.weight < 2 ^ 31

variable {H : Nat → Option UserCommand}

namespace Command

theorem hash_injective : Function.Injective (hash : Command H → Nat) := by
  rintro ⟨h, c, hc, _⟩ ⟨h', c', hc', _⟩ (rfl : h = h')
  obtain rfl : c = c' := Option.some.inj (hc.symm.trans hc')
  rfl

instance : LinearOrder (Command H) := LinearOrder.lift' hash hash_injective

-- the orders of the keys and of the commands, as constants of their own
instance : TransOrd (Command H) := inferInstance

instance : TransOrd ℚ := inferInstance

instance : TransOrd GlobalSlot := inferInstance

variable (cmd : Command H)

/-- `User_command.applicable_at_nonce`. -/
def nonce : AccountNonce := cmd.command.applicableAtNonce

/-- `User_command.fee_per_wu`. -/
def feePerWu : ℚ := cmd.command.feePerWu

/-- `User_command.fee`. -/
def fee : Nat := cmd.command.fee

/-- `User_command.valid_until`. -/
def validUntil : GlobalSlot := cmd.command.validUntil

/-- `User_command.fee_payer`. -/
def sender : AccountId := cmd.command.feePayer

end Command

/-- `Config.t`, with the slot (since the hard fork) that the consensus constants give
for the present time. -/
structure Config where
  forkSlot : Option GlobalSlot
  slotTxEnd : Option GlobalSlot
  currentSlot : GlobalSlot
deriving DecidableEq

/-- `Indexed_pool.t`. -/
structure Pool (H : Nat → Option UserCommand) where
  applicableByFee : MapSet ℚ (Command H)
  allBySender : ExtTreeMap AccountId (List (Command H) × Nat)
  allByFee : MapSet ℚ (Command H)
  allByHash : ExtTreeMap Nat (Command H)
  transactionsWithExpiration : MapSet GlobalSlot (Command H)
  size : Int
  config : Config

/-- `Command_error.t`. The error of a nonce has the nonces that would have been right. -/
inductive CommandError where
  | invalidNonceExpected (expected nonce : AccountNonce)
  | invalidNonceBetween (low high nonce : AccountNonce)
  | insufficientFunds (balance consumed : Nat)
  | insufficientReplaceFee (replaceFee fee : Nat)
  | overflow
  | badToken
  | expired (validUntil globalSlotSinceGenesis : GlobalSlot)
  | unwantedFeeToken (token : Nat)
  | afterSlotTxEnd
deriving DecidableEq

/-- The amount that a command takes from its sender besides the fee. -/
def amountSent : UserCommand → Nat
  | .signedCommand c =>
    match c.body with
    | .payment _ amount => amount
    | .stakeDelegation _ => 0
  | .zkappCommand _ => 0

/-- `currency_consumed`. -/
def currencyConsumed (cmd : Command H) : Option Nat :=
  Amount.add cmd.fee (amountSent cmd.command)

/-- The step of the sums over a queue: `consumed + acc`. -/
def addConsumed (acc : Nat) (cmd : Command H) : Option Nat := do
  let consumed ← currencyConsumed cmd
  Amount.add consumed acc

/-- `Indexed_pool.empty`. -/
def empty (config : Config) : Pool H where
  applicableByFee := ∅
  allBySender := ∅
  allByFee := ∅
  allByHash := ∅
  transactionsWithExpiration := ∅
  size := 0
  config := config

variable (t : Pool H)

/-- `Indexed_pool.member`. -/
def member (cmd : Command H) : Bool := (t.allByHash[cmd.hash]?).isSome

/-- `global_slot_since_genesis`. -/
def globalSlotSinceGenesis (conf : Config) : GlobalSlot :=
  match conf.forkSlot with
  | some forkSlot => forkSlot + conf.currentSlot
  | none => conf.currentSlot

/-- `check_expiry`, as a condition. -/
def expired (conf : Config) (cmd : Command H) : Bool :=
  cmd.validUntil < globalSlotSinceGenesis conf

/-- The current slot is before `slot_tx_end`. -/
def beforeSlotTxEnd (conf : Config) : Bool :=
  match conf.slotTxEnd with
  | some slotTxEnd => conf.currentSlot < slotTxEnd
  | none => true

/-! ### Indexes -/

/-- `add_to_expiration`. -/
def addToExpiration (m : MapSet GlobalSlot (Command H)) (cmd : Command H) : MapSet GlobalSlot (Command H) :=
  if cmd.validUntil ≠ maxValue then m.insert cmd.validUntil cmd else m

/-- `remove_from_expiration_exn`. -/
def removeFromExpirationExn (m : MapSet GlobalSlot (Command H)) (cmd : Command H) :
    Option (MapSet GlobalSlot (Command H)) :=
  if cmd.validUntil ≠ maxValue then m.removeExn cmd.validUntil cmd else some m

/-- `remove_applicable_exn`. -/
def removeApplicableExn (cmd : Command H) : Option (Pool H) := do
  let applicableByFee ← t.applicableByFee.removeExn cmd.feePerWu cmd
  some { t with applicableByFee }

/-- `remove_all_by_fee_and_hash_and_expiration_exn`. -/
def removeAllByFeeAndHashAndExpirationExn (cmd : Command H) : Option (Pool H) := do
  let allByFee ← t.allByFee.removeExn cmd.feePerWu cmd
  let transactionsWithExpiration ← removeFromExpirationExn t.transactionsWithExpiration cmd
  some { t with
    allByFee
    allByHash := t.allByHash.erase cmd.hash
    transactionsWithExpiration
    size := t.size - 1 }

/-- `Sender_local_state.t`. -/
structure SenderLocalState (H : Nat → Option UserCommand) where
  sender : AccountId
  data : Option (List (Command H) × Nat)

/-- `set_sender_local_state`. -/
def setSenderLocalState (s : SenderLocalState H) : Pool H :=
  { t with allBySender := t.allBySender.alter s.sender (fun _ => s.data) }

/-- `get_sender_local_state`. -/
def getSenderLocalState (sender : AccountId) : SenderLocalState H :=
  ⟨sender, t.allBySender[sender]?⟩

/-- `Update.single`. -/
inductive Update (H : Nat → Option UserCommand) where
  | add (command : Command H) (feePerWu : ℚ) (addToApplicableByFee : Bool)
  | removeAllByFeeAndHashAndExpiration (commands : List (Command H))
  | removeFromApplicableByFee (feePerWu : ℚ) (command : Command H)

/-- `Update.apply` for one update. -/
def Update.apply (acc : Pool H) : Update H → Option (Pool H)
  | .add cmd feePerWu addToApplicableByFee =>
    let acc :=
      if addToApplicableByFee then
        { acc with applicableByFee := acc.applicableByFee.insert feePerWu cmd }
      else acc
    some { acc with
      allByFee := acc.allByFee.insert feePerWu cmd
      allByHash := acc.allByHash.insert cmd.hash cmd
      transactionsWithExpiration := addToExpiration acc.transactionsWithExpiration cmd
      size := acc.size + 1 }
  | .removeAllByFeeAndHashAndExpiration cmds =>
    cmds.foldlM removeAllByFeeAndHashAndExpirationExn acc
  | .removeFromApplicableByFee feePerWu cmd => do
    let applicableByFee ← acc.applicableByFee.removeExn feePerWu cmd
    some { acc with applicableByFee }

/-- What a computation of the writer monad returns: its value, the updates that it
wrote, and the sender's state when it ends. -/
abbrev Written (H : Nat → Option UserCommand) (α : Type) := α × List (Update H) × SenderLocalState H

/-- `run`, once the computation has returned. -/
def applyWritten {α : Type} (w : Written H α) : Option (α × Pool H) := do
  let t ← w.2.1.foldlM Update.apply (setSenderLocalState t w.2.2)
  some (w.1, t)

/-! ### Removal -/

/-- `remove_with_dependents_exn`. -/
def removeWithDependentsExn (cmd : Command H) (state : SenderLocalState H) : Option (Written H (List (Command H))) := do
  let (senderQueue, reservedCurrency) ← state.data
  guard (senderQueue ≠ [])
  let cmdIndex ← senderQueue.findIdx? (fun cmd' => cmd'.nonce = cmd.nonce)
  let keepQueue := senderQueue.take cmdIndex
  let dropQueue := senderQueue.drop cmdIndex
  guard (dropQueue ≠ [])
  let currencyToRemove ← dropQueue.foldlM addConsumed 0
  let reservedCurrency' ← Amount.sub reservedCurrency currencyToRemove
  guard (keepQueue ≠ [] ∨ reservedCurrency' = 0)
  some (dropQueue, .removeAllByFeeAndHashAndExpiration dropQueue ::
      (if cmdIndex = 0 then [.removeFromApplicableByFee cmd.feePerWu cmd] else []),
    { state with data := if keepQueue ≠ [] then some (keepQueue, reservedCurrency') else none })

/-- `remove_with_dependents_exn'`. -/
def removeWithDependentsExn' (cmd : Command H) : Option (List (Command H) × Pool H) := do
  let w ← removeWithDependentsExn cmd (getSenderLocalState t cmd.sender)
  applyWritten t w

/-- `expired`: the commands that have expired, by expiration and hash. -/
def expiredCommands : List (Command H) :=
  (t.transactionsWithExpiration.toList.filter
    (fun p => p.1 < globalSlotSinceGenesis t.config)).flatMap (fun p => p.2.toList)

/-- The step of `remove_expired`. -/
def removeExpiredStep (acc : List (Command H) × Pool H) (cmd : Command H) : Option (List (Command H) × Pool H) :=
  -- `cmd` is not in the pool any more if it depended on an expired command
  if member acc.2 cmd then do
    let (removed, t') ← removeWithDependentsExn' acc.2 cmd
    some (acc.1 ++ removed, t')
  else some acc

/-- `remove_expired`. -/
def removeExpired : Option (List (Command H) × Pool H) :=
  (expiredCommands t).foldlM removeExpiredStep ([], t)

/-- `remove_lowest_fee`. -/
def removeLowestFee : Option (List (Command H) × Pool H) :=
  match t.allByFee.toList.head? with
  | none => some ([], t)
  | some (_, minFeeSet) => do
    let cmd ← minFeeSet.toList.head?
    removeWithDependentsExn' t cmd

/-! ### Revalidation -/

/-- `drop_until_sufficient_balance`, on the queue from its end: the commands that stay
(from the end), their currency, and the dropped commands. -/
def dropUntilSufficientBalance (currentBalance : Nat) :
    List (Command H) → Nat → List (Command H) → Option (List (Command H) × Nat × List (Command H))
  | queue, reserved, dropped =>
    if reserved ≤ currentBalance then some (queue, reserved, dropped)
    else
      match queue with
      | [] => none
      | last :: rest => do
        let consumed ← currencyConsumed last
        let reserved' ← Amount.sub reserved consumed
        dropUntilSufficientBalance currentBalance rest reserved' (dropped ++ [last])

/-- What `revalidate` is asked to look at. -/
inductive Scope where
  | entirePool
  | subset (subset : List AccountId)

/-- `requires_revalidation`. -/
def Scope.requiresRevalidation : Scope → AccountId → Bool
  | .entirePool, _ => true
  | .subset s, a => a ∈ s

/-- The part of the step of `revalidate` after the queue of the sender has been split:
`keepQueue` stays, with `reserved`, and `toDrop` goes. -/
def replaceQueue (sender : AccountId) (keepQueue : List (Command H)) (reserved : Nat)
    (toDrop : List (Command H)) (acc : Pool H × List (Command H)) : Option (Pool H × List (Command H)) :=
  match toDrop with
  | [] => some acc
  | head :: tail => do
    let t ← removeApplicableExn acc.1 head
    let t ← removeAllByFeeAndHashAndExpirationExn t head
    let t ← tail.foldlM removeAllByFeeAndHashAndExpirationExn t
    let t :=
      match keepQueue with
      | [] => { t with allBySender := t.allBySender.erase sender }
      | firstKept :: _ =>
        { t with
          allBySender := t.allBySender.insert sender (keepQueue, reserved)
          applicableByFee := t.applicableByFee.insert firstKept.feePerWu firstKept }
    some (t, acc.2 ++ toDrop)

/-- The step of `revalidate` for one sender. `t` is the pool before revalidation. -/
def revalidateStep (scope : Scope) (f : AccountId → Account)
    (acc : Pool H × List (Command H)) (entry : AccountId × List (Command H) × Nat) :
    Option (Pool H × List (Command H)) := do
  let (sender, queue, currencyReserved) := entry
  if !scope.requiresRevalidation sender then some acc
  else
    let account := f sender
    let currentBalance ← account.liquidBalanceAtSlot (globalSlotSinceGenesis t.config)
    let firstCmd ← queue.head?
    if !(account.hasPermissionToSend && account.hasPermissionToIncrementNonce) then do
      let (dropped, t'') ← removeWithDependentsExn' t firstCmd
      some (t'', acc.2 ++ dropped)
    else if account.nonce < firstCmd.nonce then do
      let (dropped, t'') ← removeWithDependentsExn' t firstCmd
      some (t'', acc.2 ++ dropped)
    else
      let index := (queue.findIdx? (fun cmd' => cmd'.nonce = account.nonce)).getD queue.length
      let currencyReserved' ← (queue.take index).foldlM
        (fun c cmd => do Amount.sub c (← currencyConsumed cmd)) currencyReserved
      let (keepQueue, currencyReserved'', droppedForBalance) ←
        dropUntilSufficientBalance currentBalance (queue.drop index).reverse currencyReserved' []
      replaceQueue sender keepQueue.reverse currencyReserved''
        (queue.take index ++ droppedForBalance) acc

/-- `revalidate`. -/
def revalidate (scope : Scope) (f : AccountId → Account) : Option (Pool H × List (Command H)) :=
  t.allBySender.toList.foldlM (revalidateStep t scope f) (t, [])

/-! ### Adding commands -/

/-- The checks of `add_from_gossip_exn` that do not depend on the sender's queue. They
give the currency that the command consumes. -/
def checkCommand (config : Config) (cmd : Command H) : Outcome CommandError Nat := do
  Outcome.okIfTrue (beforeSlotTxEnd config) .afterSlotTxEnd
  Outcome.okIfTrue (!expired config cmd)
    (.expired cmd.validUntil (globalSlotSinceGenesis config))
  let consumed ← match currencyConsumed cmd with
    | none => .error .overflow
    | some consumed => .ok consumed
  Outcome.okIfTrue (cmd.command.feeToken = TokenId.default)
    (.unwantedFeeToken cmd.command.feeToken)
  return consumed

/-- The second mode of the loop `go` of `add_from_gossip_exn`: the fees of the commands
that are not added again are taken from the fee increase. -/
def chargeDropped : Nat → List (Command H) → Outcome CommandError Nat
  | increment, [] => .ok increment
  | increment, cmd :: dropped =>
    match Amount.sub increment cmd.fee with
    | some increment => chargeDropped increment dropped
    | none => .error (.insufficientReplaceFee cmd.fee increment)

/-- What adding a command returns: the command and the dropped commands. -/
abbrev Added (H : Nat → Option UserCommand) :=
  Outcome CommandError (Written H (Command H × List (Command H)))

/-- The loop `go` of `add_from_gossip_exn`: the dropped commands are added again until
one cannot be. The result has the remaining fee increase and the dropped commands. -/
def readdDropped (add : Command H → AccountNonce → SenderLocalState H → Added H)
    (increment : Nat) : List (Command H) → AccountNonce → List (Update H) → SenderLocalState H →
      Outcome CommandError (Written H (Nat × List (Command H)))
  | [], _, ups, bySender => .ok ((increment, []), ups, bySender)
  | cmd :: dropped', currentNonce, ups, bySender =>
    match add cmd (AccountNonce.succ currentNonce) bySender with
    | .raise => .raise
    | .ok ((_, dropped), ups', bySender') =>
      if dropped = [] then
        readdDropped add increment dropped' (AccountNonce.succ currentNonce) (ups ++ ups') bySender'
      else .raise
    | .error _ => do
      let increment' ← chargeDropped increment (cmd :: dropped')
      return ((increment', dropped'), ups, bySender)

/-- The branch of `add_from_gossip_exn` for a sender without queue. -/
def addToEmpty (cmd : Command H) (consumed : Nat) (currentNonce : AccountNonce) (balance : Nat)
    (bySender : SenderLocalState H) : Added H := do
  Outcome.okIfTrue (currentNonce = cmd.nonce) (.invalidNonceExpected currentNonce cmd.nonce)
  Outcome.okIfTrue (consumed ≤ balance) (.insufficientFunds balance consumed)
  return ((cmd, []), [.add cmd cmd.feePerWu true], { bySender with data := some ([cmd], consumed) })

/-- The branch of `add_from_gossip_exn` for a command that goes on the end. -/
def addToEnd (cmd : Command H) (consumed : Nat) (balance : Nat) (queuedCmds : List (Command H))
    (reservedCurrency : Nat) (bySender : SenderLocalState H) : Added H := do
  let reservedCurrency' ← match Amount.add consumed reservedCurrency with
    | none => .error .overflow
    | some r => .ok r
  Outcome.okIfTrue (reservedCurrency' ≤ balance) (.insufficientFunds balance reservedCurrency')
  return ((cmd, []), [.add cmd cmd.feePerWu false],
    { bySender with data := some (queuedCmds ++ [cmd], reservedCurrency') })

/-- The branch of `add_from_gossip_exn` for a command that replaces another. -/
def replaceCommand (add : Command H → AccountNonce → SenderLocalState H → Added H)
    (cmd : Command H) (currentNonce queueApplicableAtNonce queueTargetNonce : AccountNonce)
    (queuedCmds : List (Command H)) (bySender : SenderLocalState H) : Added H := do
  Outcome.okIfTrue (queueApplicableAtNonce ≤ cmd.nonce && cmd.nonce ≤ queueTargetNonce)
    (.invalidNonceBetween queueApplicableAtNonce queueTargetNonce cmd.nonce)
  let replacementIndex ← Outcome.ofOption (queuedCmds.findIdx? (fun cmd' => cmd.nonce ≤ cmd'.nonce))
  let dropQueue := queuedCmds.drop replacementIndex
  let toDrop ← Outcome.ofOption dropQueue.head?
  Outcome.assert (cmd.nonce ≤ toDrop.nonce)
  Outcome.okIfTrue (toDrop.fee ≤ cmd.fee) (.insufficientReplaceFee toDrop.fee cmd.fee)
  let (dropped, ups, bySender) ← Outcome.ofOption (removeWithDependentsExn toDrop bySender)
  Outcome.assert (dropped = dropQueue)
  let ((cmd', dropped'), ups', bySender) ← add cmd currentNonce bySender
  Outcome.assert (dropped' = [])
  let dropHead ← Outcome.ofOption dropped.head?
  let increment ← Outcome.ofOption (Amount.sub cmd.fee toDrop.fee)
  let ((increment, dropped'), ups'', bySender) ←
    readdDropped add increment dropped.tail currentNonce [] bySender
  Outcome.okIfTrue (replaceFee ≤ increment) (.insufficientReplaceFee replaceFee increment)
  return ((cmd', dropHead :: dropped'), ups ++ ups' ++ ups'', bySender)

/-- The body of `Add_from_gossip_exn.add_from_gossip_exn`; `add` is the recursive call. -/
def addFromGossipBody (add : Command H → AccountNonce → SenderLocalState H → Added H)
    (config : Config) (balance : Nat) (cmd : Command H) (currentNonce : AccountNonce)
    (bySender : SenderLocalState H) : Added H := do
  let consumed ← checkCommand config cmd
  match bySender.data with
  | none => addToEmpty cmd consumed currentNonce balance bySender
  | some (queuedCmds, reservedCurrency) =>
    let first ← Outcome.ofOption queuedCmds.head?
    let last ← Outcome.ofOption queuedCmds.getLast?
    if last.command.expectedTargetNonce = cmd.nonce then
      addToEnd cmd consumed balance queuedCmds reservedCurrency bySender
    else if first.nonce = currentNonce then
      replaceCommand add cmd currentNonce first.nonce last.command.expectedTargetNonce
        queuedCmds bySender
    else .error (.invalidNonceExpected last.command.expectedTargetNonce cmd.nonce)

/-- `Add_from_gossip_exn.add_from_gossip_exn`. The replacement of a command adds it and
the commands after it through this function again; `depth` bounds these calls. -/
def addFromGossipRec (config : Config) (balance : Nat) : Nat → Command H → AccountNonce → SenderLocalState H → Added H
  | 0, _, _, _ => .raise
  | depth + 1, cmd, currentNonce, bySender =>
    addFromGossipBody (addFromGossipRec config balance depth) config balance cmd currentNonce bySender

/-- The number of commands in the sender's queue. -/
def SenderLocalState.length (s : SenderLocalState H) : Nat :=
  match s.data with
  | none => 0
  | some (queue, _) => queue.length

/-- `add_from_gossip_exn`. A replacement first shortens the queue and then adds one
command after the other, so every call within it works on a shorter queue. -/
def addFromGossipExn (cmd : Command H) (nonce : AccountNonce) (balance : Nat) :
    Outcome CommandError (Command H × Pool H × List (Command H)) := do
  let bySender := getSenderLocalState t cmd.sender
  let w ← addFromGossipRec t.config balance (bySender.length + 1) cmd nonce bySender
  let ((c, cs), t) ← Outcome.ofOption (applyWritten t w)
  return (c, t, cs)

/-- `add_from_backtrack`. -/
def addFromBacktrack (cmd : Command H) : Outcome CommandError (Pool H) := do
  Outcome.okIfTrue (beforeSlotTxEnd t.config) .afterSlotTxEnd
  Outcome.okIfTrue (!expired t.config cmd)
    (.expired cmd.validUntil (globalSlotSinceGenesis t.config))
  let consumed ← Outcome.ofOption (currencyConsumed cmd)
  match t.allBySender[cmd.sender]? with
  | none =>
    return { t with
      allBySender := t.allBySender.insert cmd.sender ([cmd], consumed)
      allByFee := t.allByFee.insert cmd.feePerWu cmd
      allByHash := t.allByHash.insert cmd.hash cmd
      applicableByFee := t.applicableByFee.insert cmd.feePerWu cmd
      transactionsWithExpiration := addToExpiration t.transactionsWithExpiration cmd
      size := t.size + 1 }
  | some (queue, currencyReserved) =>
    let firstQueued ← Outcome.ofOption queue.head?
    Outcome.assert (cmd.command.expectedTargetNonce = firstQueued.nonce)
    let t' ← Outcome.ofOption (removeApplicableExn t firstQueued)
    let currencyReserved' ← Outcome.ofOption (Amount.add currencyReserved consumed)
    return { t' with
      applicableByFee := t'.applicableByFee.insert cmd.feePerWu cmd
      allByFee := t'.allByFee.insert cmd.feePerWu cmd
      allByHash := t.allByHash.insert cmd.hash cmd
      allBySender := t'.allBySender.insert cmd.sender (cmd :: queue, currencyReserved')
      transactionsWithExpiration := addToExpiration t.transactionsWithExpiration cmd
      size := t.size + 1 }

end MinaProtocol.IndexedPool
