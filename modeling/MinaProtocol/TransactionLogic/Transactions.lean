import MinaProtocol.TransactionLogic.FeeTransfer
import MinaProtocol.TransactionLogic.Passes

/-!
# TransactionLogic.Transactions

The application of transactions of all kinds, in two passes. Only zkApp commands have
something to do in the second. A `Run` is any sequence of passes in which every second pass
comes after the first of the same transaction; `apply_transactions`, which makes all first
passes before all second ones, is such a run (`applyTransactions_iff_run`).
-/

namespace MinaProtocol.TransactionLogic

open Std

/-- `Transaction_partially_applied.t`. -/
inductive TransactionPartiallyApplied where
  | signedCommand (applied : SignedCommandApplied)
  | zkappCommand (c : ZkappCommandPartiallyApplied)
  | feeTransfer (applied : FeeTransferApplied)
  | coinbase (applied : CoinbaseApplied)

/-- `Transaction_applied.Varying.t`, with the two kinds of commands apart. -/
inductive TransactionApplied where
  | signedCommand (applied : SignedCommandApplied)
  | zkappCommand (applied : ZkappCommandApplied)
  | feeTransfer (applied : FeeTransferApplied)
  | coinbase (applied : CoinbaseApplied)

namespace TransactionApplied

/-- `Transaction_applied.burned_tokens`. -/
def burnedTokens : TransactionApplied → Nat
  | .signedCommand _ => 0
  | .zkappCommand _ => 0
  | .feeTransfer f => f.burnedTokens
  | .coinbase c => c.burnedTokens

/-- `Transaction_applied.new_accounts`. -/
def newAccounts : TransactionApplied → List AccountId
  | .signedCommand sc => sc.newAccounts
  | .zkappCommand zc => zc.newAccounts
  | .feeTransfer f => f.newAccounts
  | .coinbase c => c.newAccounts

/-- `Transaction_applied.transaction`, without the status. -/
def transaction : TransactionApplied → Transaction
  | .signedCommand uc => .signedCommand uc.userCommand
  | .zkappCommand s => .zkappCommand s.command
  | .feeTransfer f => .feeTransfer f.feeTransfer
  | .coinbase c => .coinbase c.coinbase

/-- `process_decreases`. -/
def processDecreases (total : Signed) : List Signed → Option Signed
  | [] => some total
  | amt :: amts => do
    let sum ← Signed.add amt.negate total
    processDecreases sum amts

/-- `Transaction_applied.supply_increase`, where `none` stands for the errors. The fees for the
accounts are a product of integers, in which the source sees no danger of overflow. -/
def supplyIncrease (config : Config) (t : TransactionApplied) : Option Signed := do
  let burnedTokens := Signed.ofUnsigned t.burnedTokens
  let accountCreationFees := Signed.ofUnsigned (config.accountCreationFee * t.newAccounts.length)
  let expectedSupplyIncrease ← t.transaction.expectedSupplyIncrease
  processDecreases (Signed.ofUnsigned expectedSupplyIncrease) [burnedTokens, accountCreationFees]

end TransactionApplied

/-- `apply_transaction_first_pass`. -/
def applyTransactionFirstPass (config : Config) (globalSlot : GlobalSlot) (txnStateView : ProtocolStateView)
    (ledger : Ledger) : Transaction → Outcome LedgerError (Ledger × TransactionPartiallyApplied)
  | .signedCommand txn => do
    let (ledger, applied) ← applyUserCommandUnchecked config globalSlot ledger txn
    return (ledger, .signedCommand applied)
  | .zkappCommand txn => do
    let (ledger, partiallyApplied) ← applyZkappCommandFirstPass config globalSlot txnStateView Signed.zero
      Signed.zero ledger txn
    return (ledger, .zkappCommand partiallyApplied)
  | .feeTransfer t => do
    let (ledger, applied) ← applyFeeTransfer config globalSlot ledger t
    return (ledger, .feeTransfer applied)
  | .coinbase t => do
    let (ledger, applied) ← applyCoinbase config globalSlot ledger t
    return (ledger, .coinbase applied)

/-- `apply_transaction_second_pass`. -/
def applyTransactionSecondPass (config : Config) (ledger : Ledger) :
    TransactionPartiallyApplied → Outcome LedgerError (Ledger × TransactionApplied)
  | .signedCommand applied => .ok (ledger, .signedCommand applied)
  | .zkappCommand partiallyApplied => do
    let (ledger, applied) ← applyZkappCommandSecondPass config ledger partiallyApplied
    return (ledger, .zkappCommand applied)
  | .feeTransfer applied => .ok (ledger, .feeTransfer applied)
  | .coinbase applied => .ok (ledger, .coinbase applied)

/-- `Result.List.map`, with the ledger that `f` changes. -/
def mapLedger {A B : Type} (f : Ledger → A → Outcome LedgerError (Ledger × B)) (ledger : Ledger) :
    List A → Outcome LedgerError (Ledger × List B)
  | [] => .ok (ledger, [])
  | x :: xs => do
    let (ledger, y) ← f ledger x
    let (ledger, ys) ← mapLedger f ledger xs
    return (ledger, y :: ys)

/-- `apply_transactions`. -/
def applyTransactions (config : Config) (globalSlot : GlobalSlot) (txnStateView : ProtocolStateView)
    (ledger : Ledger) (txns : List Transaction) : Outcome LedgerError (Ledger × List TransactionApplied) := do
  let (ledger, partials) ← mapLedger (applyTransactionFirstPass config globalSlot txnStateView) ledger txns
  mapLedger (applyTransactionSecondPass config) ledger partials

theorem mapLedger_cons_eq_ok {A B : Type} {f : Ledger → A → Outcome LedgerError (Ledger × B)}
    {ledger ledger' : Ledger} {x : A} {xs : List A} {ys : List B} : mapLedger f ledger (x :: xs) = .ok (ledger', ys) ↔
      ∃ ledger₁ y ys', f ledger x = .ok (ledger₁, y) ∧ mapLedger f ledger₁ xs = .ok (ledger', ys')
        ∧ ys = y :: ys' := by
  rw [mapLedger, Outcome.bind_eq_ok]
  constructor
  · intro h
    obtain ⟨⟨ledger₁, y⟩, hy, h⟩ := h
    obtain ⟨⟨ledger₂, ys'⟩, hys, h⟩ := Outcome.bind_eq_ok.1 h
    cases h
    exact ⟨ledger₁, y, ys', hy, hys, rfl⟩
  · intro h
    obtain ⟨ledger₁, y, ys', hy, hys, rfl⟩ := h
    refine ⟨(ledger₁, y), hy, ?_⟩
    dsimp only
    rw [hys]
    rfl

/-! ### What the passes do -/

variable {config : Config} {slot : GlobalSlot} {view : ProtocolStateView} {ledger ledger' : Ledger}

section Inversion

variable {c : TransactionPartiallyApplied} {t : Transaction}

/-- **What the first pass of a transaction does.** -/
inductive TransactionFirstPassed (config : Config) (slot : GlobalSlot) (view : ProtocolStateView)
    (ledger : Ledger) : Transaction → Ledger → TransactionPartiallyApplied → Prop where
  | signedCommand {ledger' : Ledger} {applied : SignedCommandApplied} {account : Account} :
      ledger[applied.userCommand.payload.feePayer]? = some account →
      CanPayFee slot applied.userCommand.payload account →
      CommandEffect config slot applied.userCommand.payload
        (feePaid config.digests slot applied.userCommand.payload account)
        (ledger.insert applied.userCommand.payload.feePayer
          (feePaid config.digests slot applied.userCommand.payload account))
        ledger' applied.status applied.body →
      TransactionFirstPassed config slot view ledger (.signedCommand applied.userCommand) ledger'
        (.signedCommand applied)
  | zkappCommand {ledger' : Ledger} {command : ZkappCommand} {c : ZkappCommandPartiallyApplied} :
      FirstPassed config slot view ledger command ledger' c →
      TransactionFirstPassed config slot view ledger (.zkappCommand command) ledger' (.zkappCommand c)
  | feeTransfer {ledger' : Ledger} {applied : FeeTransferApplied} {credits : List (AccountId × Nat)} :
      Credits config slot credits ledger ledger' applied.newAccounts applied.burnedTokens →
      (∀ c ∈ credits, c.1.tokenId = TokenId.default) →
      (credits.map Prod.snd).sum = (applied.feeTransfer.toList.map FeeTransferSingle.fee).sum →
      TransactionFirstPassed config slot view ledger (.feeTransfer applied.feeTransfer) ledger'
        (.feeTransfer applied)
  | coinbase {ledger' : Ledger} {applied : CoinbaseApplied} {credits : List (AccountId × Nat)} :
      Credits config slot credits ledger ledger' applied.newAccounts applied.burnedTokens →
      (∀ c ∈ credits, c.1.tokenId = TokenId.default) →
      (credits.map Prod.snd).sum = applied.coinbase.amount →
      TransactionFirstPassed config slot view ledger (.coinbase applied.coinbase) ledger' (.coinbase applied)

theorem applyTransactionFirstPass_ok (h : applyTransactionFirstPass config slot view ledger t = .ok (ledger', c)) :
    TransactionFirstPassed config slot view ledger t ledger' c := by
  cases t with
  | signedCommand txn =>
    obtain ⟨⟨_, applied⟩, happly, h⟩ := Outcome.bind_eq_ok.1 h
    cases h
    obtain ⟨rfl, account, hget, hcan, heffect⟩ := applyUserCommandUnchecked_ok happly
    exact .signedCommand hget hcan heffect
  | zkappCommand txn =>
    obtain ⟨⟨_, c⟩, happly, h⟩ := Outcome.bind_eq_ok.1 h
    cases h
    exact .zkappCommand (applyZkappCommandFirstPass_ok happly)
  | feeTransfer t =>
    obtain ⟨⟨_, applied⟩, happly, h⟩ := Outcome.bind_eq_ok.1 h
    cases h
    obtain ⟨rfl, credits, hcredits, htokens, hsum⟩ := applyFeeTransfer_ok happly
    exact .feeTransfer hcredits htokens hsum
  | coinbase t =>
    obtain ⟨⟨_, applied⟩, happly, h⟩ := Outcome.bind_eq_ok.1 h
    cases h
    obtain ⟨rfl, credits, hcredits, htokens, hsum⟩ := applyCoinbase_ok happly
    exact .coinbase hcredits htokens hsum

/-- The zkApp command has been through the first pass at the slot. -/
def PassedFirst (config : Config) (slot : GlobalSlot) : TransactionPartiallyApplied → Prop
  | .zkappCommand c => ∃ view ledger ledger', FirstPassed config slot view ledger c.command ledger' c
  | _ => True

theorem TransactionFirstPassed.passedFirst
    (h : TransactionFirstPassed config slot view ledger t ledger' c) : PassedFirst config slot c := by
  cases h with
  | signedCommand _ _ _ => trivial
  | zkappCommand hfirst =>
    refine ⟨view, ledger, ledger', ?_⟩
    rw [hfirst.command_eq]
    exact hfirst
  | feeTransfer _ _ _ => trivial
  | coinbase _ _ _ => trivial

/-- **What the second pass of a transaction does**: nothing, unless it is that of a zkApp command
that is applied. -/
inductive TransactionSecondPassed (config : Config) (slot : GlobalSlot) (ledger : Ledger) :
    TransactionPartiallyApplied → Ledger → TransactionApplied → Prop where
  | signedCommand (applied : SignedCommandApplied) :
      TransactionSecondPassed config slot ledger (.signedCommand applied) ledger (.signedCommand applied)
  | zkappCommandFailed {c : ZkappCommandPartiallyApplied} {applied : ZkappCommandApplied} :
      applied.command = c.command → applied.status ≠ .applied → applied.newAccounts = [] →
      TransactionSecondPassed config slot ledger (.zkappCommand c) ledger (.zkappCommand applied)
  | zkappCommandApplied {c : ZkappCommandPartiallyApplied} {applied : ZkappCommandApplied}
      {view : ProtocolStateView} {supplyIncrease : Signed} {w : Working} :
      applied.command = c.command → applied.status = .applied →
      Effects config (commandEnv config slot view c.command) 1
        (visits config.digests.deriveTokenId none c.command.accountUpdates)
        ⟨ledger, Signed.ofUnsigned 0, supplyIncrease⟩ w →
      w.excess.toInt = 0 →
      TransactionSecondPassed config slot ledger (.zkappCommand c) w.ledger (.zkappCommand applied)
  | feeTransfer (applied : FeeTransferApplied) :
      TransactionSecondPassed config slot ledger (.feeTransfer applied) ledger (.feeTransfer applied)
  | coinbase (applied : CoinbaseApplied) :
      TransactionSecondPassed config slot ledger (.coinbase applied) ledger (.coinbase applied)

theorem applyTransactionSecondPass_ok {applied : TransactionApplied} (hc : PassedFirst config slot c)
    (h : applyTransactionSecondPass config ledger c = .ok (ledger', applied)) :
    TransactionSecondPassed config slot ledger c ledger' applied := by
  cases c with
  | signedCommand applied =>
    cases h
    exact .signedCommand applied
  | zkappCommand c =>
    obtain ⟨⟨_, applied⟩, happly, h⟩ := Outcome.bind_eq_ok.1 h
    cases h
    obtain ⟨view, ledger₀, ledger₁, hfirst⟩ := hc
    obtain ⟨happlied, hfailed⟩ := applyZkappCommandSecondPass_ok hfirst happly
    obtain ⟨_, -, -, hfinish⟩ := applyZkappCommandSecondPass_eq_ok.1 happly
    obtain ⟨hcommand, -⟩ := finishSecondPass_ok hfinish
    by_cases hstatus : applied.status = .applied
    · obtain ⟨supplyIncrease, w, heffects, hexcess, rfl⟩ := happlied hstatus
      exact .zkappCommandApplied hcommand hstatus heffects hexcess
    · obtain ⟨rfl, hnew⟩ := hfailed hstatus
      exact .zkappCommandFailed hcommand hstatus hnew
  | feeTransfer applied =>
    cases h
    exact .feeTransfer applied
  | coinbase applied =>
    cases h
    exact .coinbase applied

end Inversion

/-! ### Runs -/

/-- A pass of a transaction, with what it returns. -/
inductive Pass where
  | first (globalSlot : GlobalSlot) (stateView : ProtocolStateView) (t : Transaction)
      (c : TransactionPartiallyApplied)
  | second (c : TransactionPartiallyApplied) (applied : TransactionApplied)

/-- The ledger, and the transactions whose second pass is still to come. -/
structure RunState where
  ledger : Ledger
  waiting : List TransactionPartiallyApplied

/-- A pass that succeeds. -/
inductive Step (config : Config) : RunState → Pass → RunState → Prop where
  | first {s : RunState} {ledger : Ledger} {slot : GlobalSlot} {view : ProtocolStateView} {t : Transaction}
      {c : TransactionPartiallyApplied} :
      applyTransactionFirstPass config slot view s.ledger t = .ok (ledger, c) →
      Step config s (.first slot view t c) ⟨ledger, c :: s.waiting⟩
  | second {s : RunState} {ledger : Ledger} {c : TransactionPartiallyApplied}
      {rest : List TransactionPartiallyApplied} {applied : TransactionApplied} :
      s.waiting.Perm (c :: rest) →
      applyTransactionSecondPass config s.ledger c = .ok (ledger, applied) →
      Step config s (.second c applied) ⟨ledger, rest⟩

/-- **Runs of transactions**: passes that succeed, one after the other, in any order in which
the first pass of a transaction comes before its second. -/
inductive Run (config : Config) : RunState → List Pass → RunState → Prop where
  | nil (s : RunState) : Run config s [] s
  | cons {s s₁ s' : RunState} {p : Pass} {passes : List Pass} :
      Step config s p s₁ → Run config s₁ passes s' → Run config s (p :: passes) s'

section Runs

variable {s : RunState} {partials : List TransactionPartiallyApplied} {applied : List TransactionApplied}
  {txns : List Transaction} {passes₁ passes₂ : List Pass} {s' : RunState}

theorem Run.append {s₁ s₂ : RunState} (h₁ : Run config s passes₁ s₁) (h₂ : Run config s₁ passes₂ s₂) :
    Run config s (passes₁ ++ passes₂) s₂ := by
  induction h₁ with
  | nil s => exact h₂
  | cons hstep _ ih => exact .cons hstep (ih h₂)

theorem Run.split (h : Run config s (passes₁ ++ passes₂) s') :
    ∃ s₁, Run config s passes₁ s₁ ∧ Run config s₁ passes₂ s' := by
  induction passes₁ generalizing s with
  | nil => exact ⟨s, .nil s, h⟩
  | cons p passes₁ ih =>
    cases h with
    | cons hstep hrest =>
      obtain ⟨s₁, h₁, h₂⟩ := ih hrest
      exact ⟨s₁, .cons hstep h₁, h₂⟩

/-- What waits has been through its first pass. -/
def AllPassedFirst (config : Config) (s : RunState) : Prop :=
  ∀ c ∈ s.waiting, ∃ slot, PassedFirst config slot c

variable (hs : AllPassedFirst config s)

include hs

theorem Step.allPassedFirst {p : Pass} (h : Step config s p s')
    : AllPassedFirst config s' := by
  cases h with
  | first hpass =>
    intro c' hc'
    rcases List.mem_cons.1 hc' with rfl | hc'
    · exact ⟨_, (applyTransactionFirstPass_ok hpass).passedFirst⟩
    · exact hs c' hc'
  | second hperm _ => exact fun c' hc' => hs c' (hperm.mem_iff.2 (.tail _ hc'))

theorem Run.allPassedFirst {passes : List Pass} (h : Run config s passes s')
    : AllPassedFirst config s' := by
  induction h with
  | nil s => exact hs
  | cons hstep _ ih => exact ih (hstep.allPassedFirst hs)

theorem AllPassedFirst.secondPassed {c : TransactionPartiallyApplied}
    {rest : List TransactionPartiallyApplied} {applied : TransactionApplied}
    (hperm : s.waiting.Perm (c :: rest))
    (h : applyTransactionSecondPass config s.ledger c = .ok (ledger, applied)) :
    ∃ slot, TransactionSecondPassed config slot s.ledger c ledger applied := by
  obtain ⟨slot, hpassed⟩ := hs c (hperm.mem_iff.2 (.head rest))
  exact ⟨slot, applyTransactionSecondPass_ok hpassed h⟩

omit hs

variable {waiting waiting' : List TransactionPartiallyApplied}

/-- The first passes of `apply_transactions` are a run. -/
theorem mapLedger_firstPass_iff : mapLedger (applyTransactionFirstPass config slot view) ledger txns = .ok (ledger', partials) ∧
      waiting' = partials.reverse ++ waiting ↔ partials.length = txns.length ∧
        Run config ⟨ledger, waiting⟩ (List.zipWith (.first slot view) txns partials) ⟨ledger', waiting'⟩ := by
  induction txns generalizing ledger partials waiting with
  | nil =>
    constructor
    · rintro ⟨hok, rfl⟩
      cases hok
      exact ⟨rfl, .nil _⟩
    · rintro ⟨hlength, hrun⟩
      obtain rfl := List.length_eq_zero_iff.1 hlength
      cases hrun
      exact ⟨rfl, rfl⟩
  | cons t txns ih =>
    constructor
    · rintro ⟨hok, hwaiting⟩
      obtain ⟨ledger₁, c, partials', hc, hrest, rfl⟩ := mapLedger_cons_eq_ok.1 hok
      rw [List.reverse_cons, List.append_assoc, List.singleton_append] at hwaiting
      obtain ⟨hlength, hrun⟩ := ih.1 ⟨hrest, hwaiting⟩
      exact ⟨congrArg Nat.succ hlength, .cons (.first hc) hrun⟩
    · rintro ⟨hlength, hrun⟩
      obtain ⟨c, partials, rfl⟩ := List.exists_cons_of_length_eq_add_one hlength
      cases hrun with
      | cons hstep hrest =>
        cases hstep with
        | first hc =>
          obtain ⟨hok, hwaiting⟩ := ih.2 ⟨Nat.succ.inj hlength, hrest⟩
          exact ⟨mapLedger_cons_eq_ok.2 ⟨_, _, _, hc, hok, rfl⟩, by simp [hwaiting]⟩

/-- The second passes of `apply_transactions` are a run. -/
theorem mapLedger_secondPass_iff (hperm : waiting.Perm partials) :
    mapLedger (applyTransactionSecondPass config) ledger partials = .ok (ledger', applied) ∧ waiting' = [] ↔
      applied.length = partials.length ∧
        Run config ⟨ledger, waiting⟩ (List.zipWith .second partials applied) ⟨ledger', waiting'⟩ := by
  induction partials generalizing ledger applied waiting with
  | nil =>
    obtain rfl := hperm.eq_nil
    constructor
    · rintro ⟨hok, rfl⟩
      cases hok
      exact ⟨rfl, .nil _⟩
    · rintro ⟨hlength, hrun⟩
      obtain rfl := List.length_eq_zero_iff.1 hlength
      cases hrun
      exact ⟨rfl, rfl⟩
  | cons c partials ih =>
    constructor
    · rintro ⟨hok, hdone⟩
      obtain ⟨ledger₁, a, applied', ha, hrest, rfl⟩ := mapLedger_cons_eq_ok.1 hok
      obtain ⟨hlength, hrun⟩ := (ih (List.Perm.refl partials)).1 ⟨hrest, hdone⟩
      exact ⟨congrArg Nat.succ hlength, .cons (.second hperm ha) hrun⟩
    · rintro ⟨hlength, hrun⟩
      obtain ⟨a, applied, rfl⟩ := List.exists_cons_of_length_eq_add_one hlength
      cases hrun with
      | cons hstep hrest =>
        cases hstep with
        | second hwaits ha =>
          have hrest' := (List.perm_cons c).1 (hwaits.symm.trans hperm)
          obtain ⟨hok, hdone⟩ := (ih hrest').2 ⟨Nat.succ.inj hlength, hrest⟩
          exact ⟨mapLedger_cons_eq_ok.2 ⟨_, _, _, ha, hok, rfl⟩, hdone⟩

/-- **`apply_transactions` is a run**: the first passes of the transactions in their order, and then the second ones. -/
theorem applyTransactions_iff_run :
    applyTransactions config slot view ledger txns = .ok (ledger', applied) ↔ ∃ partials : List TransactionPartiallyApplied,
      partials.length = txns.length ∧ applied.length = txns.length ∧ Run config ⟨ledger, []⟩
        (List.zipWith (.first slot view) txns partials ++ List.zipWith .second partials applied) ⟨ledger', []⟩ := by
  rw [applyTransactions, Outcome.bind_eq_ok]
  constructor
  · rintro ⟨⟨ledger₁, partials⟩, hfirst, hsecond⟩
    obtain ⟨hlength, h₁⟩ := mapLedger_firstPass_iff.1 ⟨hfirst, rfl⟩
    rw [List.append_nil] at h₁
    obtain ⟨hlength', h₂⟩ := (mapLedger_secondPass_iff partials.reverse_perm).1 ⟨hsecond, rfl⟩
    exact ⟨partials, hlength, hlength'.trans hlength, h₁.append h₂⟩
  · rintro ⟨partials, hlength, hlength', hrun⟩
    obtain ⟨⟨ledger₁, waiting⟩, h₁, h₂⟩ := hrun.split
    obtain ⟨hfirst, rfl⟩ := mapLedger_firstPass_iff.2 ⟨hlength, h₁⟩
    rw [List.append_nil] at h₂
    obtain ⟨hsecond, -⟩ := (mapLedger_secondPass_iff partials.reverse_perm).2 ⟨hlength'.trans hlength.symm, h₂⟩
    exact ⟨(ledger₁, partials), hfirst, hsecond⟩

end Runs

end MinaProtocol.TransactionLogic
