import MinaProtocol.TransactionLogic.AllOrNothing
import MinaProtocol.TransactionLogic.Transactions

/-!
# TransactionLogic.Replay

No command is applied twice (`no_replay`). Every pass adds to the nonce of an account exactly
the number of times it increments it (`step_nonce`), and a command has to name the nonce that
its fee payer has.
-/

namespace MinaProtocol.TransactionLogic

open Std

/-- The nonce of an account, which is zero until the account is there. -/
def nonceOf (ledger : Ledger) (accountId : AccountId) : AccountNonce :=
  (ledger[accountId]?.map Account.nonce).getD 0

variable {accountId : AccountId} {ledger : Ledger}

theorem nonceOf_of_some {a : Account} (h : ledger[accountId]? = some a) : nonceOf ledger accountId = a.nonce := by
  unfold nonceOf
  rw [h]
  rfl

variable (digests : Digests) {a' a : ZkappCommandApplied} {n : AccountNonce}

theorem nonceOf_getWithLocation (ledger : Ledger) (accountId : AccountId) :
    (getWithLocation digests ledger accountId).2.nonce = nonceOf ledger accountId := by
  unfold getWithLocation nonceOf
  cases ledger[accountId]? with
  | some a => rfl
  | none => rfl

theorem nonceOf_insert (ledger : Ledger) (accountId other : AccountId) (a : Account) :
    nonceOf (ledger.insert accountId a) other = if accountId = other then a.nonce else nonceOf ledger other := by
  unfold nonceOf
  rw [ExtTreeMap.getElem?_insert]
  simp only [LawfulEqOrd.compare_eq_iff_eq]
  split
  · rfl
  · rfl

theorem nonceOf_insert_of_eq {a : Account} (h : a.nonce = nonceOf ledger accountId) (other : AccountId) :
    nonceOf (ledger.insert accountId a) other = nonceOf ledger other := by
  rw [nonceOf_insert]
  split
  · rename_i heq
    rw [h, heq]
  · rfl

theorem nonceOf_insert_of_succ {a : Account} (h : a.nonce = (nonceOf ledger accountId).succ) (other : AccountId) :
    nonceOf (ledger.insert accountId a) other
      = nonceOf ledger other + UInt32.ofNat (if accountId = other then 1 else 0) := by
  rw [nonceOf_insert]
  split
  · rename_i heq
    rw [h, heq]
    rfl
  · exact (UInt32.add_zero _).symm

/-! ### Counting the increments -/

/-- How often the account updates increment the nonce of the account. -/
def updateIncrements (us : List AccountUpdate) (accountId : AccountId) : Nat :=
  us.countP fun u => u.accountId = accountId && u.incrementNonce

/-- The fee payer of a command and the nonce for it. -/
def feePayerNonce : Transaction → Option (AccountId × AccountNonce)
  | .signedCommand c => some (c.payload.feePayer, c.payload.nonce)
  | .zkappCommand c => some (c.feePayerId, c.feePayer.nonce)
  | .feeTransfer _ => none
  | .coinbase _ => none

/-- How often the pass increments the nonce of the account: once for the fee payer in the first,
and in the second as often as the account updates of a command that is applied say. -/
def Pass.increments (accountId : AccountId) : Pass → Nat
  | .first _ _ t _ =>
    match feePayerNonce t with
    | some (feePayer, _) => if feePayer = accountId then 1 else 0
    | none => 0
  | .second _ (.zkappCommand a) =>
    if a.status = .applied then updateIncrements a.command.accountUpdates.toList accountId else 0
  | .second _ _ => 0

theorem increments_feePayer (slot : GlobalSlot) (view : ProtocolStateView) {t : Transaction}
    (c : TransactionPartiallyApplied) {feePayer : AccountId}
    (h : feePayerNonce t = some (feePayer, n)) : Pass.increments feePayer (.first slot view t c) = 1 := by
  unfold Pass.increments
  dsimp only
  rw [h]
  exact if_pos rfl

variable {config : Config} {slot : GlobalSlot} {ledger' : Ledger} {c : TransactionPartiallyApplied}

section Counting

variable {view : ProtocolStateView} {ledger : Ledger} {newAccounts : List AccountId} {index : UInt32} {w' w : Working}
  {burned : Nat} {env : Env}

theorem HasEffect.nonceOf {isStart : Bool} {u : AccountUpdate}
    {callerId : Nat} (h : HasEffect config env isStart index u callerId w w') (accountId : AccountId) :
    nonceOf w'.ledger accountId
      = nonceOf w.ledger accountId + UInt32.ofNat (updateIncrements [u] accountId) := by
  obtain ⟨location, before, after, h⟩ := h
  have hbefore := nonceOf_getWithLocation config.digests w.ledger u.accountId
  rw [h.read] at hbefore
  have hnonce := h.updatedBy.nonce
  rw [h.ledger]
  unfold updateIncrements
  rw [List.countP_singleton]
  cases hinc : u.incrementNonce with
  | true =>
    rw [hinc, if_pos rfl] at hnonce
    have hsucc : after.account.nonce = (TransactionLogic.nonceOf w.ledger u.accountId).succ := by
      rw [hnonce, ← hbefore]
    rw [nonceOf_insert_of_succ hsucc]
    simp
  | false =>
    rw [hinc, if_neg nofun] at hnonce
    rw [nonceOf_insert_of_eq (hnonce.trans hbefore)]
    simp

theorem updateIncrements_cons (u : AccountUpdate) (us : List AccountUpdate) (accountId : AccountId) :
    updateIncrements (u :: us) accountId = updateIncrements [u] accountId + updateIncrements us accountId := by
  unfold updateIncrements
  rw [← List.countP_append]
  rfl

theorem Effects.nonceOf {order : List Visit} (h : Effects config env index order w w') (accountId : AccountId) :
    nonceOf w'.ledger accountId
      = nonceOf w.ledger accountId
        + UInt32.ofNat (updateIncrements (order.map Visit.accountUpdate) accountId) := by
  induction h with
  | nil => exact (UInt32.add_zero _).symm
  | @cons index v rest w w' w'' heffect _ ih =>
    rw [ih, heffect.nonceOf, List.map_cons,
      updateIncrements_cons v.accountUpdate (rest.map Visit.accountUpdate), UInt32.ofNat_add, UInt32.add_assoc]

theorem Credited.nonceOf {accountId : AccountId} {amount : Nat}
    (h : Credited config slot accountId amount ledger ledger' newAccounts burned) (other : AccountId) :
    nonceOf ledger' other = nonceOf ledger other := by
  cases h with
  | burned => rfl
  | received location account balance timing hread _ _ =>
    refine nonceOf_insert_of_eq ?_ other
    rw [← nonceOf_getWithLocation config.digests, hread]

theorem Credits.nonceOf {credits : List (AccountId × Nat)}
    (h : Credits config slot credits ledger ledger' newAccounts burned) (accountId : AccountId) :
    nonceOf ledger' accountId = nonceOf ledger accountId := by
  induction h with
  | nil ledger => rfl
  | cons hcredited _ ih => exact ih.trans (hcredited.nonceOf accountId)

theorem CommandEffect.nonceOf {command : SignedCommand} {paid : Account} {status : TransactionStatus}
    {body : SignedCommandAppliedBody} (h : CommandEffect config slot command paid ledger ledger' status body)
    (hpaid : ledger[command.feePayer]? = some paid) (accountId : AccountId) :
    nonceOf ledger' accountId = nonceOf ledger accountId := by
  have hnonce := (nonceOf_of_some hpaid).symm
  cases h with
  | failed failure => rfl
  | stakeDelegation _ _ _ =>
    refine nonceOf_insert_of_eq ?_ accountId
    exact hnonce
  | selfPayment _ _ _ =>
    refine nonceOf_insert_of_eq ?_ accountId
    exact hnonce
  | payment receiverPk amount balance location account _ _ _ _ hread _ =>
    have hreceiver : ∀ i, TransactionLogic.nonceOf (ledger.insert command.receiver { account with balance }) i
        = TransactionLogic.nonceOf ledger i := by
      intro i
      refine nonceOf_insert_of_eq ?_ i
      rw [← nonceOf_getWithLocation config.digests, hread]
    rw [nonceOf_insert_of_eq, hreceiver]
    rw [hreceiver]
    exact hnonce

theorem eq_of_check_ofNonce {n m : AccountNonce}
    (h : (AccountPrecondition.ofNonce n).nonce.check m = true) : m = n := by
  have h : (n ≤ m && m ≤ n) = true := h
  obtain ⟨hle, hge⟩ := Bool.and_eq_true_iff.1 h
  have hle := UInt32.le_iff_toNat_le.1 (of_decide_eq_true hle)
  have hge := UInt32.le_iff_toNat_le.1 (of_decide_eq_true hge)
  exact UInt32.toNat_inj.1 (Nat.le_antisymm hge hle)

theorem TransactionFirstPassed.nonceOf {t : Transaction}
    (h : TransactionFirstPassed config slot view ledger t ledger' c) : (∀ accountId, nonceOf ledger' accountId
        = nonceOf ledger accountId + UInt32.ofNat (Pass.increments accountId (.first slot view t c)))
      ∧ ∀ feePayer n, feePayerNonce t = some (feePayer, n) → nonceOf ledger feePayer = n := by
  cases h with
  | signedCommand hget hcan heffect =>
    have hbefore := nonceOf_of_some hget
    refine ⟨fun accountId => ?_, fun feePayer n hn => ?_⟩
    · rw [heffect.nonceOf ExtTreeMap.getElem?_insert_self]
      refine nonceOf_insert_of_succ ?_ accountId
      rw [hbefore]
      rfl
    · cases hn
      exact hbefore.trans hcan.nonce
  | @zkappCommand _ command c hfirst =>
    obtain ⟨w, heffect, rfl⟩ := hfirst.feePayer
    refine ⟨fun accountId => ?_, fun feePayer n hn => ?_⟩
    · rw [heffect.nonceOf]
      congr 2
      change updateIncrements [.ofFeePayer command.feePayer] accountId
        = if command.feePayerId = accountId then 1 else 0
      unfold updateIncrements
      rw [List.countP_singleton]
      change (if (decide (command.feePayerId = accountId) && true) = true then 1 else 0) = _
      rw [Bool.and_true]
      simp only [decide_eq_true_eq]
    · cases hn
      obtain ⟨location, before, after, heffect⟩ := heffect
      obtain ⟨-, hget⟩ := feePayer_existing heffect
      exact (nonceOf_of_some hget).trans (eq_of_check_ofNonce heffect.updatedBy.noncePrecondition)
  | feeTransfer hcredits _ _ =>
    exact ⟨fun accountId => (hcredits.nonceOf accountId).trans (UInt32.add_zero _).symm, nofun⟩
  | coinbase hcredits _ _ =>
    exact ⟨fun accountId => (hcredits.nonceOf accountId).trans (UInt32.add_zero _).symm, nofun⟩

theorem TransactionSecondPassed.nonceOf {applied : TransactionApplied}
    (h : TransactionSecondPassed config slot ledger c ledger' applied) (accountId : AccountId) :
    nonceOf ledger' accountId
      = nonceOf ledger accountId + UInt32.ofNat (Pass.increments accountId (.second c applied)) := by
  cases h with
  | signedCommand _ => exact (UInt32.add_zero _).symm
  | zkappCommandFailed _ hstatus _ =>
    unfold Pass.increments
    dsimp only
    rw [if_neg hstatus]
    exact (UInt32.add_zero _).symm
  | zkappCommandApplied hcommand hstatus heffects _ =>
    unfold Pass.increments
    dsimp only
    rw [if_pos hstatus, hcommand, heffects.nonceOf, visits_map_accountUpdate]
  | feeTransfer _ => exact (UInt32.add_zero _).symm
  | coinbase _ => exact (UInt32.add_zero _).symm

/-- **Every pass adds its increments to the nonces**, and the first pass of a command names the
nonce of its fee payer. -/
theorem step_nonce {s s' : RunState} {p : Pass} (h : Step config s p s') (hs : AllPassedFirst config s)
    (accountId : AccountId) :
    nonceOf s'.ledger accountId = nonceOf s.ledger accountId + UInt32.ofNat (p.increments accountId) := by
  cases h with
  | first hpass => exact (applyTransactionFirstPass_ok hpass).nonceOf.1 accountId
  | second hperm hpass =>
    obtain ⟨slot, hsecond⟩ := hs.secondPassed hperm hpass
    exact hsecond.nonceOf accountId

end Counting

/-! ### Runs in which no nonce wraps -/

/-- How often the passes increment the nonce of the account. -/
def increments (passes : List Pass) (accountId : AccountId) : Nat :=
  (passes.map (Pass.increments accountId)).sum

theorem increments_cons (p : Pass) (passes : List Pass) (accountId : AccountId) :
    increments (p :: passes) accountId = p.increments accountId + increments passes accountId := rfl

theorem increments_append (passes₁ passes₂ : List Pass) (accountId : AccountId) :
    increments (passes₁ ++ passes₂) accountId
      = increments passes₁ accountId + increments passes₂ accountId := by
  unfold increments
  rw [List.map_append, List.sum_append]

/-- No nonce wraps: with all its increments it is below 2³². -/
def NoWrap (ledger : Ledger) (passes : List Pass) : Prop :=
  ∀ accountId, (nonceOf ledger accountId).toNat + increments passes accountId < 2 ^ 32

theorem toNat_add_ofNat {k : Nat} (h : n.toNat + k < 2 ^ 32) : (n + UInt32.ofNat k).toNat = n.toNat + k := by
  rw [UInt32.toNat_add, UInt32.toNat_ofNat']
  omega

variable {s s' : RunState} {passes : List Pass}

section NoWrap

theorem step_nonce_toNat {p : Pass} (h : Step config s p s') (hs : AllPassedFirst config s)
    (hwrap : NoWrap s.ledger (p :: passes)) (accountId : AccountId) :
    (nonceOf s'.ledger accountId).toNat = (nonceOf s.ledger accountId).toNat + p.increments accountId := by
  rw [step_nonce h hs, toNat_add_ofNat]
  have hlt := hwrap accountId
  rw [increments_cons] at hlt
  omega

theorem NoWrap.step {p : Pass} (hwrap : NoWrap s.ledger (p :: passes)) (h : Step config s p s')
    (hs : AllPassedFirst config s) : NoWrap s'.ledger passes := by
  intro accountId
  rw [step_nonce_toNat h hs hwrap]
  have hlt := hwrap accountId
  rw [increments_cons] at hlt
  omega

/-- **In a run every nonce grows by its increments.** -/
theorem run_nonce {passes' : List Pass} (h : Run config s passes s') (hs : AllPassedFirst config s)
    (hwrap : NoWrap s.ledger (passes ++ passes')) (accountId : AccountId) :
    (nonceOf s'.ledger accountId).toNat = (nonceOf s.ledger accountId).toNat + increments passes accountId
      ∧ NoWrap s'.ledger passes' := by
  induction h with
  | nil s => exact ⟨rfl, hwrap⟩
  | cons hstep _ ih =>
    obtain ⟨hnonce, hrest⟩ := ih (hstep.allPassedFirst hs) (hwrap.step hstep hs)
    refine ⟨?_, hrest⟩
    rw [hnonce, step_nonce_toNat hstep hs hwrap, increments_cons]
    omega

/-- The transactions of the first passes. -/
def transactions (passes : List Pass) : List Transaction :=
  passes.filterMap fun
    | .first _ _ t _ => some t
    | .second _ _ => none

/-- The commands of the first passes, by their fee payers and nonces. -/
def firstCommands (passes : List Pass) : List (AccountId × AccountNonce) :=
  (transactions passes).filterMap feePayerNonce

theorem run_commands_ordered (h : Run config s passes s') (hs : AllPassedFirst config s)
    (hwrap : NoWrap s.ledger passes) : (firstCommands passes).Pairwise (fun k k' => k.1 = k'.1 → k.2.toNat < k'.2.toNat)
      ∧ ∀ k ∈ firstCommands passes, (nonceOf s.ledger k.1).toNat ≤ k.2.toNat := by
  induction h with
  | nil s => exact ⟨.nil, nofun⟩
  | @cons s s₁ s' p passes hstep _ ih =>
    obtain ⟨hpairwise, hle⟩ := ih (hstep.allPassedFirst hs) (hwrap.step hstep hs)
    have hgrow := step_nonce_toNat hstep hs hwrap
    have hle' : ∀ k ∈ firstCommands passes, (nonceOf s.ledger k.1).toNat ≤ k.2.toNat := by
      intro k hk
      have := hle k hk
      rw [hgrow] at this
      omega
    cases hstep with
    | second _ _ => exact ⟨hpairwise, hle'⟩
    | @first ledger slot view t c hpass =>
      have hfee := (applyTransactionFirstPass_ok hpass).nonceOf.2
      cases hkey : feePayerNonce t with
      | none =>
        have hfirst : firstCommands (.first slot view t c :: passes) = firstCommands passes :=
          List.filterMap_cons_none hkey
        rw [hfirst]
        exact ⟨hpairwise, hle'⟩
      | some key =>
        obtain ⟨feePayer, n⟩ := key
        have hfirst : firstCommands (.first slot view t c :: passes)
            = (feePayer, n) :: firstCommands passes := List.filterMap_cons_some hkey
        have hn := hfee feePayer n hkey
        rw [hfirst]
        refine ⟨.cons (fun k hk heq => ?_) hpairwise, fun k hk => ?_⟩
        · -- the fee payer has the next nonce when a later command comes
          have hlater := hle k hk
          rw [← heq, hgrow, increments_feePayer slot view c hkey, hn] at hlater
          exact hlater
        · rcases List.mem_cons.1 hk with rfl | hk
          · exact (congrArg UInt32.toNat hn).le
          · exact hle' k hk

/-- The transaction that waits, by its fee payer and nonce. -/
def waitingCommand : TransactionPartiallyApplied → Option (AccountId × AccountNonce)
  | .signedCommand a => feePayerNonce (.signedCommand a.userCommand)
  | .zkappCommand c => feePayerNonce (.zkappCommand c.command)
  | .feeTransfer _ => none
  | .coinbase _ => none

/-- The commands of the second passes. -/
def secondCommands (passes : List Pass) : List (AccountId × AccountNonce) :=
  passes.filterMap fun
    | .first _ _ _ _ => none
    | .second _ applied => feePayerNonce applied.transaction

theorem TransactionFirstPassed.waitingCommand {view : ProtocolStateView} {ledger : Ledger} {t : Transaction}
    (h : TransactionFirstPassed config slot view ledger t ledger' c) : waitingCommand c = feePayerNonce t := by
  cases h with
  | signedCommand _ _ _ => rfl
  | zkappCommand hfirst =>
    rw [← hfirst.command_eq]
    rfl
  | feeTransfer _ _ _ => rfl
  | coinbase _ _ _ => rfl

theorem TransactionSecondPassed.waitingCommand {ledger : Ledger} {applied : TransactionApplied}
    (h : TransactionSecondPassed config slot ledger c ledger' applied) :
    feePayerNonce applied.transaction = waitingCommand c := by
  cases h with
  | signedCommand _ => rfl
  | zkappCommandFailed hcommand _ _ => exact congrArg (fun t => feePayerNonce (.zkappCommand t)) hcommand
  | zkappCommandApplied hcommand _ _ _ => exact congrArg (fun t => feePayerNonce (.zkappCommand t)) hcommand
  | feeTransfer _ => rfl
  | coinbase _ => rfl

theorem run_commands_perm (h : Run config s passes s') (hs : AllPassedFirst config s) :
    (secondCommands passes ++ s'.waiting.filterMap waitingCommand).Perm
      (firstCommands passes ++ s.waiting.filterMap waitingCommand) := by
  induction h with
  | nil s => exact .refl _
  | @cons s s₁ s' p passes hstep _ ih =>
    have ih := ih (hstep.allPassedFirst hs)
    cases hstep with
    | @first ledger slot view t c hpass =>
      have hwaiting := (applyTransactionFirstPass_ok hpass).waitingCommand
      refine ih.trans ?_
      cases hkey : feePayerNonce t with
      | none =>
        have hfirst : firstCommands (.first slot view t c :: passes) = firstCommands passes :=
          List.filterMap_cons_none hkey
        rw [hfirst, List.filterMap_cons_none (hwaiting.trans hkey)]
      | some key =>
        have hfirst : firstCommands (.first slot view t c :: passes) = key :: firstCommands passes :=
          List.filterMap_cons_some hkey
        rw [hfirst, List.filterMap_cons_some (hwaiting.trans hkey)]
        exact List.perm_middle
    | @second ledger c rest applied hperm hpass =>
      obtain ⟨slot, hsecond⟩ := hs.secondPassed hperm hpass
      have hwaiting := hsecond.waitingCommand
      have hrest := hperm.filterMap waitingCommand
      cases hkey : waitingCommand c with
      | none =>
        have hcommands : secondCommands (.second c applied :: passes) = secondCommands passes :=
          List.filterMap_cons_none (hwaiting.trans hkey)
        rw [List.filterMap_cons_none hkey] at hrest
        rw [hcommands]
        exact ih.trans (hrest.symm.append_left _)
      | some key =>
        have hcommands : secondCommands (.second c applied :: passes) = key :: secondCommands passes :=
          List.filterMap_cons_some (hwaiting.trans hkey)
        rw [List.filterMap_cons_some hkey] at hrest
        rw [hcommands]
        exact ((ih.cons key).trans List.perm_middle.symm).trans (hrest.symm.append_left _)

theorem secondCommands_append (passes₁ passes₂ : List Pass) :
    secondCommands (passes₁ ++ passes₂) = secondCommands passes₁ ++ secondCommands passes₂ :=
  List.filterMap_append

theorem run_secondCommands_nodup (h : Run config s passes s') (hs : AllPassedFirst config s)
    (hnil : s.waiting = []) (hwrap : NoWrap s.ledger passes) : (secondCommands passes).Nodup := by
  obtain ⟨hpairwise, -⟩ := run_commands_ordered h hs hwrap
  have hnodup : (firstCommands passes).Nodup := by
    refine hpairwise.imp fun hlt heq => ?_
    subst heq
    exact Nat.lt_irrefl _ (hlt rfl)
  have hperm := run_commands_perm h hs
  rw [hnil, List.filterMap_nil, List.append_nil] at hperm
  exact (List.nodup_append.1 (hperm.nodup_iff.2 hnodup)).1

end NoWrap

/-! ### Signed account updates -/

/-- The commitment that the signature of an account update is for. -/
def signedCommitment (command : ZkappCommand) (u : AccountUpdate) : Nat :=
  if u.useFullCommitment then fullCommitment digests command else digests.forestHash command.accountUpdates

theorem eq_of_isConstant {t : Numeric AccountNonce} (h : t.isConstant = true) {m : AccountNonce}
    (hn : t.check n = true) (hm : t.check m = true) : n = m := by
  cases t with
  | ignore => cases h
  | check interval =>
    obtain ⟨lower, upper⟩ := interval
    obtain rfl : lower = upper := of_decide_eq_true h
    exact (eq_of_check_ofNonce hn).trans (eq_of_check_ofNonce hm).symm

/-- An account update of those that take effect finds a nonce between that before all of them
and that after. -/
theorem Effects.found {config : Config} {env : Env} {index : UInt32} {order : List Visit} {w w' : Working}
    (h : Effects config env index order w w') {u : AccountUpdate} (hu : u ∈ order.map Visit.accountUpdate) :
    ∃ k, k + updateIncrements [u] u.accountId
          ≤ updateIncrements (order.map Visit.accountUpdate) u.accountId
      ∧ u.accountPrecondition.nonce.check (TransactionLogic.nonceOf w.ledger u.accountId + UInt32.ofNat k) = true
      ∧ (u.authorization = .signature →
        u.incrementNonce = true ∧ u.accountPrecondition.nonce.isConstant = true ∨ u.useFullCommitment = true)
      ∧ u.authorization = u.authorizationKind.toControlTag := by
  induction h with
  | nil => cases hu
  | @cons index v rest w w' w'' heffect _ ih =>
    rw [List.map_cons, updateIncrements_cons v.accountUpdate (rest.map Visit.accountUpdate)]
    rcases List.mem_cons.1 hu with rfl | hu
    · obtain ⟨location, before, after, heffect⟩ := heffect
      have hupdated := heffect.updatedBy
      have hbefore := nonceOf_getWithLocation config.digests w.ledger v.accountUpdate.accountId
      rw [heffect.read] at hbefore
      refine ⟨0, by omega, ?_, fun hsigned => ?_, hupdated.authorization⟩
      · rw [← hbefore]
        exact (congrArg _ (UInt32.add_zero _)).trans hupdated.noncePrecondition
      · exact (hupdated.replay hsigned).imp id And.left
    · obtain ⟨k, hk, hcheck, hsigned⟩ := ih hu
      refine ⟨updateIncrements [v.accountUpdate] u.accountId + k, by omega, ?_, hsigned⟩
      rw [heffect.nonceOf] at hcheck
      rw [UInt32.ofNat_add, ← UInt32.add_assoc]
      exact hcheck

/-- The account update is signed in the command, with a signature for the commitment. -/
structure SignedIn (command : ZkappCommand) (u : AccountUpdate) (commitment : Nat) :
    Prop where
  mem : u ∈ command.accountUpdates.toList
  signature : u.authorizationKind = .signature
  commitment_eq : signedCommitment digests command u = commitment

/-- The zkApp command is applied in a second pass. -/
def AppliedIn (passes : List Pass) (command : ZkappCommand) : Prop :=
  ∃ c a, .second c (.zkappCommand a) ∈ passes ∧ a.status = .applied ∧ a.command = command

/-- The full commitments of the commands that are applied do not collide: they tell the fee
payers apart. -/
def CommitmentsBind (passes : List Pass) : Prop :=
  ∀ command command', AppliedIn passes command → AppliedIn passes command' →
    fullCommitment digests command = fullCommitment digests command' → command.feePayer = command'.feePayer

section Signed

variable {a : ZkappCommandApplied} {u : AccountUpdate}

variable (hs : AllPassedFirst config s)

include hs

theorem Step.found (h : Step config s (.second c (.zkappCommand a)) s')
    (hstatus : a.status = .applied) (hu : u ∈ a.command.accountUpdates.toList) :
    ∃ k, k + updateIncrements [u] u.accountId
          ≤ Pass.increments u.accountId (.second c (.zkappCommand a))
      ∧ u.accountPrecondition.nonce.check (nonceOf s.ledger u.accountId + UInt32.ofNat k) = true
      ∧ (u.authorization = .signature →
        u.incrementNonce = true ∧ u.accountPrecondition.nonce.isConstant = true ∨ u.useFullCommitment = true)
      ∧ u.authorization = u.authorizationKind.toControlTag := by
  cases h with
  | second hperm hpass =>
    obtain ⟨slot, hsecond⟩ := hs.secondPassed hperm hpass
    cases hsecond with
    | zkappCommandFailed _ hne _ => exact absurd hstatus hne
    | zkappCommandApplied hcommand _ heffects _ =>
      rw [hcommand] at hu
      rw [← visits_map_accountUpdate config.digests.deriveTokenId none] at hu
      have hfound := heffects.found hu
      rw [visits_map_accountUpdate, ← hcommand] at hfound
      unfold Pass.increments
      dsimp only
      rw [if_pos hstatus]
      exact hfound

theorem Step.replay_check (h : Step config s (.second c (.zkappCommand a)) s')
    (hstatus : a.status = .applied) (hu : u ∈ a.command.accountUpdates.toList)
    (hsigned : u.authorizationKind = .signature) :
    u.incrementNonce = true ∧ u.accountPrecondition.nonce.isConstant = true ∨ u.useFullCommitment = true := by
  obtain ⟨k, -, -, hreplay, hkind⟩ := h.found hs hstatus hu
  rw [hsigned] at hkind
  exact hreplay hkind

/-- **An account update that pins and increments its nonce takes effect once.** -/
theorem pinned_once {s₁ s₂ s₃ : RunState} {passes : List Pass} {c' : TransactionPartiallyApplied}
    {a' : ZkappCommandApplied}
    (h₁ : Step config s (.second c (.zkappCommand a)) s₁) (hrun : Run config s₁ passes s₂)
    (h₂ : Step config s₂ (.second c' (.zkappCommand a')) s₃) (hwrap : NoWrap s.ledger
      (.second c (.zkappCommand a) :: (passes ++ [.second c' (.zkappCommand a')])))
    (hstatus : a.status = .applied) (hstatus' : a'.status = .applied)
    (hpinned : u.incrementNonce = true ∧ u.accountPrecondition.nonce.isConstant = true)
    (hu : u ∈ a.command.accountUpdates.toList) : u ∉ a'.command.accountUpdates.toList := by
  intro hu'
  have hs₁ := h₁.allPassedFirst hs
  obtain ⟨k, hk, hcheck, -⟩ := h₁.found hs hstatus hu
  obtain ⟨k', hk', hcheck', -⟩ := h₂.found (hrun.allPassedFirst hs₁) hstatus' hu'
  have hgrow₁ := step_nonce_toNat h₁ hs hwrap u.accountId
  obtain ⟨hgrow₂, hwrap₂⟩ := run_nonce hrun hs₁ (hwrap.step h₁ hs) u.accountId
  have hinc : updateIncrements [u] u.accountId = 1 := by
    unfold updateIncrements
    rw [List.countP_singleton, hpinned.1]
    simp
  have hlt := hwrap u.accountId
  have hlt₂ := hwrap₂ u.accountId
  rw [increments_cons] at hlt hlt₂
  -- the nonce found first is below all later ones
  have heq := congrArg UInt32.toNat (eq_of_isConstant hpinned.2 hcheck hcheck')
  rw [toNat_add_ofNat (by omega), toNat_add_ofNat (by omega)] at heq
  omega

omit hs

end Signed

/-- A user made the transaction. -/
def isCommand (t : Transaction) : Bool := (feePayerNonce t).isSome

section NoReplay

variable {ledger : Ledger}

theorem allPassedFirst_start (config : Config) (ledger : Ledger) : AllPassedFirst config ⟨ledger, []⟩ := nofun

theorem pass_nonce {passes₁ passes₂ : List Pass} {p : Pass} {s₁ s₂ : RunState}
    (hwrap : NoWrap ledger (passes₁ ++ p :: passes₂)) (h₁ : Run config ⟨ledger, []⟩ passes₁ s₁)
    (hstep : Step config s₁ p s₂) : (∀ accountId, nonceOf s₁.ledger accountId ≤ nonceOf s₂.ledger accountId)
      ∧ ∀ slot view t c feePayer n, p = .first slot view t c → feePayerNonce t = some (feePayer, n) →
        nonceOf s₁.ledger feePayer = n ∧ n < nonceOf s₂.ledger feePayer := by
  have hstart := allPassedFirst_start config ledger
  have hgrow : ∀ accountId, (nonceOf s₂.ledger accountId).toNat
      = (nonceOf s₁.ledger accountId).toNat + p.increments accountId := by
    intro accountId
    exact step_nonce_toNat hstep (h₁.allPassedFirst hstart) (run_nonce h₁ hstart hwrap accountId).2 accountId
  refine ⟨fun accountId => ?_, ?_⟩
  · rw [UInt32.le_iff_toNat_le, hgrow]
    exact Nat.le_add_right _ _
  · intro slot view t c feePayer n hp hkey
    subst hp
    have hn : nonceOf s₁.ledger feePayer = n := by
      cases hstep with
      | first hpass => exact (applyTransactionFirstPass_ok hpass).nonceOf.2 feePayer n hkey
    refine ⟨hn, ?_⟩
    rw [UInt32.lt_iff_toNat_lt, hgrow, increments_feePayer slot view c hkey, hn]
    exact Nat.lt_succ_self _

theorem commands_nodup (hrun : Run config ⟨ledger, []⟩ passes s')
    (hwrap : NoWrap ledger passes) : ((transactions passes).filter isCommand).Nodup := by
  obtain ⟨hpairwise, -⟩ := run_commands_ordered hrun (allPassedFirst_start config ledger) hwrap
  refine List.pairwise_filter.2 ((List.pairwise_filterMap.1 hpairwise).imp ?_)
  intro t t' hlt hcommand _ heq
  subst heq
  obtain ⟨key, hkey⟩ := Option.isSome_iff_exists.1 hcommand
  exact Nat.lt_irrefl _ (hlt key hkey key hkey rfl)

theorem replay_check (hrun : Run config ⟨ledger, []⟩ passes s') {command : ZkappCommand}
    {u : AccountUpdate} (happlied : AppliedIn passes command) (hu : u ∈ command.accountUpdates.toList)
    (hsigned : u.authorizationKind = .signature) :
    u.incrementNonce = true ∧ u.accountPrecondition.nonce.isConstant = true ∨ u.useFullCommitment = true := by
  obtain ⟨c, a, hmem, hstatus, rfl⟩ := happlied
  obtain ⟨passes₁, passes₂, rfl⟩ := List.append_of_mem hmem
  obtain ⟨s₁, h₁, h₂⟩ := hrun.split
  cases h₂ with
  | cons hstep _ =>
    exact hstep.replay_check (h₁.allPassedFirst (allPassedFirst_start config ledger)) hstatus hu hsigned

section Twice

variable {passes₁ passes₂ passes₃ : List Pass} {c c' : TransactionPartiallyApplied}
  {a a' : ZkappCommandApplied}
  (hrun : Run config ⟨ledger, []⟩
    (passes₁ ++ .second c (.zkappCommand a) :: (passes₂ ++ .second c' (.zkappCommand a') :: passes₃)) s')
  (hwrap : NoWrap ledger
    (passes₁ ++ .second c (.zkappCommand a) :: (passes₂ ++ .second c' (.zkappCommand a') :: passes₃)))
  (hstatus : a.status = .applied) (hstatus' : a'.status = .applied)

include hrun hwrap

theorem feePayer_ne : a.command.feePayer ≠ a'.command.feePayer := by
  intro hfee
  have hnodup := run_secondCommands_nodup hrun (allPassedFirst_start config ledger) rfl hwrap
  rw [secondCommands_append] at hnodup
  refine (List.nodup_cons.1 (List.nodup_append.1 hnodup).2.1).1 ?_
  refine List.mem_filterMap.2 ⟨.second c' (.zkappCommand a'), ?_, ?_⟩
  · exact List.mem_append_right _ (.head _)
  · change some (a'.command.feePayerId, a'.command.feePayer.nonce)
      = some (a.command.feePayerId, a.command.feePayer.nonce)
    unfold ZkappCommand.feePayerId
    rw [hfee]

include hstatus hstatus'

theorem pinned_not_mem {u : AccountUpdate}
    (hpinned : u.incrementNonce = true ∧ u.accountPrecondition.nonce.isConstant = true)
    (hu : u ∈ a.command.accountUpdates.toList) : u ∉ a'.command.accountUpdates.toList := by
  have hstart := allPassedFirst_start config ledger
  obtain ⟨s₁, h₁, h₂⟩ := hrun.split
  cases h₂ with
  | cons hstep h₂ =>
    obtain ⟨s₃, h₃, h₄⟩ := h₂.split
    cases h₄ with
    | cons hstep' _ =>
      have hwrap₁ := (run_nonce h₁ hstart hwrap u.accountId).2
      refine pinned_once (h₁.allPassedFirst hstart) hstep h₃ hstep' (fun accountId => ?_) hstatus hstatus'
        hpinned hu
      have hlt := hwrap₁ accountId
      have hnil : increments [] accountId = 0 := rfl
      rw [increments_cons, increments_append, increments_cons] at hlt ⊢
      omega

end Twice

end NoReplay

/-- **No replay.** In every run in which no nonce wraps, no nonce ever decreases, and the fee payer
of a command has the nonce that the command names and then a greater one. So no command is applied
twice. A signed account update of a command that is applied pins and increments its nonce, or its
signature is for the full commitment. So it does not take effect again, with that signature, in
another command. -/
theorem no_replay (config : Config) (ledger : Ledger) (passes : List Pass) (s' : RunState)
    (hrun : Run config ⟨ledger, []⟩ passes s') (hwrap : NoWrap ledger passes)
    (hbind : CommitmentsBind config.digests passes) :
    (∀ passes₁ p passes₂ s₁ s₂, passes = passes₁ ++ p :: passes₂ → Run config ⟨ledger, []⟩ passes₁ s₁ →
        Step config s₁ p s₂ → (∀ accountId, nonceOf s₁.ledger accountId ≤ nonceOf s₂.ledger accountId)
          ∧ ∀ slot view t c feePayer n, p = .first slot view t c → feePayerNonce t = some (feePayer, n) →
            nonceOf s₁.ledger feePayer = n ∧ n < nonceOf s₂.ledger feePayer)
      ∧ ((transactions passes).filter isCommand).Nodup
      ∧ (∀ command u, AppliedIn passes command → u ∈ command.accountUpdates.toList → u.authorizationKind = .signature →
        u.incrementNonce = true ∧ u.accountPrecondition.nonce.isConstant = true ∨ u.useFullCommitment = true
            ∧ signedCommitment config.digests command u = fullCommitment config.digests command)
      ∧ ∀ passes₁ passes₂ passes₃ c c' a a' u commitment,
        passes = passes₁ ++ .second c (.zkappCommand a) :: (passes₂ ++ .second c' (.zkappCommand a') :: passes₃) →
        a.status = .applied → a'.status = .applied →
        SignedIn config.digests a.command u commitment → ¬ SignedIn config.digests a'.command u commitment := by
  refine ⟨?_, commands_nodup hrun hwrap, fun command u happlied hu hsigned => ?_, ?_⟩
  · intro passes₁ p passes₂ s₁ s₂ hpasses h₁ hstep
    rw [hpasses] at hwrap
    exact pass_nonce hwrap h₁ hstep
  · exact (replay_check hrun happlied hu hsigned).imp id fun hfull => ⟨hfull, if_pos hfull⟩
  · intro passes₁ passes₂ passes₃ c c' a a' u commitment hpasses hstatus hstatus' hsigned hsigned'
    have happlied : AppliedIn passes a.command := by
      refine ⟨c, a, ?_, hstatus, rfl⟩
      rw [hpasses]
      exact List.mem_append_right _ (.head _)
    have happlied' : AppliedIn passes a'.command := by
      refine ⟨c', a', ?_, hstatus', rfl⟩
      rw [hpasses]
      exact List.mem_append_right _ (.tail _ (List.mem_append_right _ (.head _)))
    have hfound := replay_check hrun happlied hsigned.mem hsigned.signature
    rw [hpasses] at hrun hwrap
    rcases hfound with hpinned | hfull
    · exact pinned_not_mem hrun hwrap hstatus hstatus' hpinned hsigned.mem hsigned'.mem
    · have hcommitment := hsigned.commitment_eq.trans hsigned'.commitment_eq.symm
      unfold signedCommitment at hcommitment
      rw [if_pos hfull, if_pos hfull] at hcommitment
      exact feePayer_ne hrun hwrap (hbind _ _ happlied happlied' hcommitment)

/-! ### The same transfer twice -/

/-- Hash functions that tell apart the fee payers and nonces of the transfers. -/
def replayDigests : Digests :=
  { sampleDigests with
    accountUpdateDigest := fun u =>
      match u.accountPrecondition.nonce with
      | OrIgnore.check interval => u.publicKey.x + 1000 * (interval.lower.toNat + 1)
      | .ignore => u.publicKey.x }

def replayConfig : Config := ⟨replayDigests, 1000000000, sampleFee_pos⟩

/-- The transfer with the nonce. -/
def sampleCommandAt (nonce : AccountNonce) : ZkappCommand :=
  { sampleCommand with feePayer := { sampleCommand.feePayer with nonce } }

/-- The zkApp command, if it is applied. -/
def appliedCommand : TransactionApplied → Option ZkappCommand
  | .zkappCommand a => if a.status = .applied then some a.command else none
  | _ => none

theorem appliedCommand_eq_some {applied : TransactionApplied} {command : ZkappCommand}
    (h : appliedCommand applied = some command) :
    ∃ a, applied = .zkappCommand a ∧ a.status = .applied ∧ a.command = command := by
  unfold appliedCommand at h
  split at h
  · rename_i a
    split at h
    · rename_i hstatus
      exact ⟨a, rfl, hstatus, Option.some.inj h⟩
    · cases h
  · cases h

theorem sampleCommands_applied : (do
      let (ledger, c) ← applyTransactionFirstPass replayConfig 0 sampleView sampleLedger
        (.zkappCommand (sampleCommandAt 0))
      let (ledger, applied) ← applyTransactionSecondPass replayConfig ledger c
      let (ledger, c') ← applyTransactionFirstPass replayConfig 1 sampleView ledger
        (.zkappCommand (sampleCommandAt 1))
      let (_, applied') ← applyTransactionSecondPass replayConfig ledger c'
      Outcome.assert (appliedCommand applied = some (sampleCommandAt 0)
        ∧ appliedCommand applied' = some (sampleCommandAt 1))) = Outcome.ok () := by
  decide +kernel

theorem nonceOf_sampleLedger (accountId : AccountId) : nonceOf sampleLedger accountId = 0 := by
  unfold sampleLedger
  rw [nonceOf_insert_of_eq, nonceOf_insert_of_eq]
  · rfl
  · rfl
  · rw [nonceOf_insert_of_eq]
    · rfl
    · rfl

/-- The passes of the two transfers. -/
def transferPasses (c c' : TransactionPartiallyApplied) (a a' : ZkappCommandApplied) : List Pass :=
  [.first 0 sampleView (.zkappCommand (sampleCommandAt 0)) c, .second c (.zkappCommand a),
    .first 1 sampleView (.zkappCommand (sampleCommandAt 1)) c', .second c' (.zkappCommand a')]

theorem transferPasses_noWrap (c c' : TransactionPartiallyApplied)
    (hcommand : a.command = sampleCommandAt 0) (hcommand' : a'.command = sampleCommandAt 1) :
    NoWrap sampleLedger (transferPasses c c' a a') := by
  have hfirst : ∀ accountId slot t c, Pass.increments accountId (.first slot sampleView t c) ≤ 1 := by
    intro accountId slot t c
    unfold Pass.increments
    dsimp only
    split
    · split
      · exact le_rfl
      · exact Nat.zero_le 1
    · exact Nat.zero_le 1
  have hsecond : ∀ accountId c (a : ZkappCommandApplied), a.command.accountUpdates.toList.length ≤ 2 →
      Pass.increments accountId (.second c (.zkappCommand a)) ≤ 2 := by
    intro accountId c a hlength
    unfold Pass.increments
    dsimp only
    split
    · exact List.countP_le_length.trans hlength
    · exact Nat.zero_le 2
  intro accountId
  rw [nonceOf_sampleLedger]
  have h₁ := hfirst accountId 0 (.zkappCommand (sampleCommandAt 0)) c
  have h₂ := hsecond accountId c a (by rw [hcommand]; decide)
  have h₃ := hfirst accountId 1 (.zkappCommand (sampleCommandAt 1)) c'
  have h₄ := hsecond accountId c' a' (by rw [hcommand']; decide)
  unfold transferPasses
  rw [increments_cons, increments_cons, increments_cons, increments_cons]
  have hnil : increments [] accountId = 0 := rfl
  have hzero : (0 : AccountNonce).toNat = 0 := rfl
  omega

theorem transferPasses_bind (c c' : TransactionPartiallyApplied)
    (hcommand : a.command = sampleCommandAt 0) (hcommand' : a'.command = sampleCommandAt 1) :
    CommitmentsBind replayDigests (transferPasses c c' a a') := by
  have happlied : ∀ command, AppliedIn (transferPasses c c' a a') command →
      command = sampleCommandAt 0 ∨ command = sampleCommandAt 1 := by
    intro command h
    obtain ⟨d, b, hmem, -, rfl⟩ := h
    simp only [transferPasses, List.mem_cons, List.not_mem_nil, reduceCtorEq, false_or, or_false,
      Pass.second.injEq, TransactionApplied.zkappCommand.injEq] at hmem
    rcases hmem with ⟨-, rfl⟩ | ⟨-, rfl⟩
    · exact .inl hcommand
    · exact .inr hcommand'
  intro command command' h h' heq
  rcases happlied command h with rfl | rfl
  · rcases happlied command' h' with rfl | rfl
    · rfl
    · exact absurd heq (by decide)
  · rcases happlied command' h' with rfl | rfl
    · exact absurd heq (by decide)
    · rfl

/-- The two transfers are applied one after the other, and no signature of the first is one for
the second. -/
theorem no_replay_transfers : ∃ c c' a a' s', Run replayConfig ⟨sampleLedger, []⟩ (transferPasses c c' a a') s'
      ∧ a.status = .applied ∧ a'.status = .applied
      ∧ a.command = sampleCommandAt 0 ∧ a'.command = sampleCommandAt 1
      ∧ ∀ u commitment, SignedIn replayDigests a.command u commitment →
        ¬ SignedIn replayDigests a'.command u commitment := by
  obtain ⟨⟨ledger₁, c⟩, h₁, h⟩ := Outcome.bind_eq_ok.1 sampleCommands_applied
  obtain ⟨⟨ledger₂, applied⟩, h₂, h⟩ := Outcome.bind_eq_ok.1 h
  obtain ⟨⟨ledger₃, c'⟩, h₃, h⟩ := Outcome.bind_eq_ok.1 h
  obtain ⟨⟨ledger₄, applied'⟩, h₄, h⟩ := Outcome.bind_eq_ok.1 h
  obtain ⟨happlied, happlied'⟩ := of_decide_eq_true (Outcome.assert_eq_ok.1 h)
  obtain ⟨a, rfl, hstatus, hcommand⟩ := appliedCommand_eq_some happlied
  obtain ⟨a', rfl, hstatus', hcommand'⟩ := appliedCommand_eq_some happlied'
  have hrun : Run replayConfig ⟨sampleLedger, []⟩ (transferPasses c c' a a') ⟨ledger₄, []⟩ :=
    .cons (.first h₁) (.cons (.second (.refl _) h₂) (.cons (.first h₃) (.cons (.second (.refl _) h₄) (.nil _))))
  obtain ⟨-, -, -, honce⟩ := no_replay replayConfig sampleLedger _ _ hrun
    (transferPasses_noWrap c c' hcommand hcommand') (transferPasses_bind c c' hcommand hcommand')
  refine ⟨c, c', a, a', _, hrun, hstatus, hstatus', hcommand, hcommand', fun u commitment => ?_⟩
  exact honce [_] [_] [] c c' a a' u commitment rfl hstatus hstatus'

end MinaProtocol.TransactionLogic
