import MinaProtocol.Lib.EntrySum
import MinaProtocol.TransactionLogic.AllOrNothing
import MinaProtocol.TransactionLogic.Transactions

/-!
# TransactionLogic.Conservation

Currency is neither lost nor made by transactions: what all accounts hold of the default token,
with the fees that the transactions pay, changes by the supply increases that they report. Each
kind of effect is a few writes, of which each changes the total by the difference of two
balances; an account update keeps `held`, which counts the fees for new accounts in.
-/

namespace MinaProtocol

/-- The fee excess of a transaction in the default token: what it leaves for others, or takes. -/
def Transaction.feeExcess : Transaction → Int
  | .signedCommand c => c.payload.fee
  | .zkappCommand c => c.feePayer.fee
  | .feeTransfer t => -((t.toList.map FeeTransferSingle.fee).sum : Nat)
  | .coinbase _ => 0

namespace TransactionLogic

open Std

/-- What an account holds of the default token. -/
def defaultBalance (accountId : AccountId) (account : Account) : Int :=
  if accountId.tokenId = TokenId.default then account.balance else 0

/-- What all accounts hold of the default token. -/
def totalBalance (ledger : Ledger) : Int := entrySum defaultBalance ledger

/-! ### Writing an account -/

variable {ledger : Ledger}

section Write

variable {digests : Digests} {accountId : AccountId} {location : Location} {account : Account}

variable (hread : getWithLocation digests ledger accountId = (location, account))

include hread

theorem totalBalance_insert (after : Account) : totalBalance (ledger.insert accountId after)
      = totalBalance ledger + defaultBalance accountId after - defaultBalance accountId account := by
  unfold totalBalance
  cases hget : ledger[accountId]? with
  | some a =>
    rw [getWithLocation_of_some hget] at hread
    cases hread
    exact EntrySum.insert_of_some _ _ _ hget
  | none =>
    rw [getWithLocation_of_none hget] at hread
    cases hread
    have hzero : defaultBalance accountId (Account.create digests accountId 0) = 0 := ite_self _
    rw [hzero, sub_zero]
    exact EntrySum.insert_of_none _ _ _ hget

theorem location_eq_new : location = .new ↔ accountId ∉ ledger := by
  rw [ExtTreeMap.mem_iff_isSome_getElem?]
  cases hget : ledger[accountId]? with
  | some a =>
    rw [getWithLocation_of_some hget] at hread
    cases hread
    simp
  | none =>
    rw [getWithLocation_of_none hget] at hread
    cases hread
    simp

theorem size_insert (after : Account) :
    (ledger.insert accountId after).size = ledger.size + (if location = .new then 1 else 0) := by
  have hnew := location_eq_new hread
  rw [ExtTreeMap.size_insert]
  by_cases hmem : accountId ∈ ledger
  · rw [if_pos (ExtTreeMap.contains_iff_mem.2 hmem), if_neg fun h => hnew.1 h hmem, Nat.add_zero]
  · rw [if_neg fun h => hmem (ExtTreeMap.contains_iff_mem.1 h), if_pos (hnew.2 hmem)]

omit hread

theorem mem_insert_iff {other : AccountId} {after : Account} :
    other ∈ ledger.insert accountId after ↔ other = accountId ∨ other ∈ ledger := by
  rw [ExtTreeMap.mem_insert, LawfulEqOrd.compare_eq_iff_eq, eq_comm]

end Write

/-! ### Account updates -/

variable {config : Config}

section Updates

variable {env : Env} {index : UInt32} {order : List Visit} {w' w : Working}

/-- What an account update works on, with what has been paid for accounts. -/
def held (config : Config) (w : Working) : Int :=
  totalBalance w.ledger + w.excess.toInt + config.accountCreationFee * w.ledger.size

/-- **An account update keeps what is held.** -/
theorem Effect.held {isStart : Bool} {u : AccountUpdate} {callerId : Nat}
    {location : Location} {before : Account} {after : Updated}
    (h : Effect config env isStart index u callerId w w' location before after) : held config w' = held config w := by
  have hfunds := h.updatedBy.funds
  have hbalance : (after.account.balance : Int) = before.balance + u.balanceChange.toInt
      - creationFeeIf config (decide (location = .new) && u.implicitAccountCreationFee) := hfunds.balance
  have hpaid : after.excess.toInt = w.excess.toInt
      - creationFeeIf config (decide (location = .new) && !u.implicitAccountCreationFee) := hfunds.excess
  have htoken := hfunds.creationToken
  have hexcess := h.excess
  unfold TransactionLogic.held
  rw [h.ledger, totalBalance_insert h.read, size_insert h.read]
  unfold defaultBalance creationFeeIf at *
  have hid : u.accountId.tokenId = u.tokenId := rfl
  rw [hid]
  by_cases hnew : location = .new
  · simp only [hnew, decide_true, Bool.true_and, if_true] at hbalance hpaid ⊢
    cases himplicit : u.implicitAccountCreationFee with
    | true =>
      simp only [himplicit, htoken himplicit, Bool.not_true, if_true, Bool.false_eq_true, if_false]
        at hbalance hpaid hexcess ⊢
      push_cast
      linarith
    | false =>
      simp only [himplicit, Bool.not_false, if_true, Bool.false_eq_true, if_false] at hbalance hpaid
      push_cast
      split at hexcess
      · rename_i hdefault
        rw [if_pos hdefault, if_pos hdefault]
        linarith
      · rename_i hother
        rw [if_neg hother, if_neg hother]
        linarith
  · simp only [hnew, decide_false, Bool.false_and, Bool.false_eq_true, if_false] at hbalance hpaid ⊢
    split at hexcess
    · rename_i hdefault
      rw [if_pos hdefault, if_pos hdefault]
      push_cast
      linarith
    · rename_i hother
      rw [if_neg hother, if_neg hother]
      push_cast
      linarith

theorem Effects.held (h : Effects config env index order w w') : held config w' = held config w := by
  induction h with
  | nil => rfl
  | cons heffect _ ih =>
    obtain ⟨location, before, after, heffect⟩ := heffect
    rw [ih, heffect.held]

theorem Effects.accounts (h : Effects config env index order w w') (accountId : AccountId) :
    (accountId ∈ w.ledger → accountId ∈ w'.ledger)
      ∧ (accountId ∈ w'.ledger → accountId ∈ w.ledger ∨ ∃ v ∈ order, v.accountUpdate.accountId = accountId) := by
  induction h with
  | nil => exact ⟨id, .inl⟩
  | @cons index v rest w w₁ w' heffect _ ih =>
    obtain ⟨location, before, after, heffect⟩ := heffect
    rw [heffect.ledger, mem_insert_iff] at ih
    obtain ⟨hkept, hsome⟩ := ih
    refine ⟨fun hmem => hkept (.inr hmem), fun hmem => ?_⟩
    rcases hsome hmem with (heq | hmem) | ⟨v', hv', heq⟩
    · exact .inr ⟨v, .head rest, heq.symm⟩
    · exact .inl hmem
    · exact .inr ⟨v', .tail v hv', heq⟩

end Updates

/-! ### The new accounts of a zkApp command -/

variable {ledger' : Ledger} {view : ProtocolStateView} {slot : GlobalSlot} {v : Signed}

section NewAccounts

variable {c : ZkappCommandPartiallyApplied} {applied : ZkappCommandApplied} {command : ZkappCommand}
  {ledger₀ ledger₁ : Ledger}

theorem getElem?_foldl_insertIfNew (l : List (AccountId × Option Account))
    (states : ExtTreeMap AccountId (Option Account)) (accountId : AccountId) :
    (l.foldl (fun accountStates p => accountStates.insertIfNew p.1 p.2) states)[accountId]?
      = states[accountId]?.or ((l.find? fun p => p.1 = accountId).map Prod.snd) := by
  induction l generalizing states with
  | nil => simp
  | cons p l ih =>
    rw [List.foldl_cons, ih, ExtTreeMap.getElem?_insertIfNew]
    by_cases heq : p.1 = accountId
    · subst heq
      by_cases hmem : p.1 ∈ states
      · simp [hmem]
      · simp [hmem]
    · simp [heq]

theorem find?_map_pair (l : List AccountId) (f : AccountId → Option Account) (accountId : AccountId) :
    ((l.map fun id => (id, f id)).find? fun p => p.1 = accountId).map Prod.snd
      = if accountId ∈ l then some (f accountId) else none := by
  induction l with
  | nil => rfl
  | cons id l ih =>
    rw [List.map_cons, List.find?_cons]
    by_cases heq : id = accountId
    · subst heq
      simp
    · simp only [heq, decide_false]
      rw [ih]
      simp [Ne.symm heq]

theorem mem_accountsNotIn {feePayerAccount : Account}
    (hfee : c.originalFirstPassAccountStates = [(c.command.feePayerId, some feePayerAccount)])
    (hpresent : c.command.feePayerId ∈ ledger) {accountId : AccountId} :
    accountId ∈ accountsNotIn ledger c ↔ accountId ∈ c.command.accountsReferenced ∧ accountId ∉ ledger := by
  have hlookup : (originalAccountStates ledger c)[accountId]? = if c.command.feePayerId = accountId then
      some (some feePayerAccount)
      else if accountId ∈ c.command.accountsReferenced then some ledger[accountId]? else none := by
    unfold originalAccountStates
    rw [getElem?_foldl_insertIfNew, hfee, ExtTreeMap.getElem?_empty, Option.none_or, List.singleton_append,
      List.find?_cons]
    by_cases heq : c.command.feePayerId = accountId
    · simp [heq]
    · simp only [heq, decide_false, if_false]
      exact find?_map_pair _ _ _
  have hmem : accountId ∈ accountsNotIn ledger c ↔ (originalAccountStates ledger c)[accountId]? = some none := by
    unfold accountsNotIn
    rw [List.mem_filterMap]
    constructor
    · intro h
      obtain ⟨⟨id, acct⟩, he, hacct⟩ := h
      dsimp only at hacct
      split at hacct
      · rename_i hnone
        cases hacct
        rw [ExtTreeMap.mem_toList_iff_getElem?_eq_some] at he
        rw [he, Option.isNone_iff_eq_none.1 hnone]
      · cases hacct
    · intro h
      exact ⟨(accountId, none), ExtTreeMap.mem_toList_iff_getElem?_eq_some.2 h, rfl⟩
  rw [hmem, hlookup]
  by_cases heq : c.command.feePayerId = accountId
  · subst heq
    simp [hpresent]
  · rw [if_neg heq]
    by_cases hreferenced : accountId ∈ c.command.accountsReferenced
    · rw [if_pos hreferenced, Option.some.injEq, ← Option.not_isSome_iff_eq_none, ← ExtTreeMap.mem_iff_isSome_getElem?]
      exact ⟨fun h => ⟨hreferenced, h⟩, fun h => h.2⟩
    · rw [if_neg hreferenced]
      exact ⟨fun h => absurd h (by simp), fun h => absurd h.1 hreferenced⟩

theorem accountsNotIn_nodup : (accountsNotIn ledger c).Nodup := by
  unfold accountsNotIn
  have hnodup : (originalAccountStates ledger c).keys.Nodup := ExtTreeMap.nodup_keys
  rw [← ExtTreeMap.map_fst_toList_eq_keys] at hnodup
  refine List.Nodup.sublist ?_ hnodup
  induction (originalAccountStates ledger c).toList with
  | nil => exact .slnil
  | cons p l ih =>
    obtain ⟨id, acct⟩ := p
    cases acct with
    | none => exact ih.cons_cons id
    | some account => exact ih.cons id

variable (hfirst : FirstPassed config slot view ledger₀ command ledger₁ c)

include hfirst

/-- **The new accounts** of a second pass that succeeds are those that its account updates make. -/
theorem secondPass_grew
    (hpresent : command.feePayerId ∈ ledger)
    (h : applyZkappCommandSecondPass config ledger c = .ok (ledger', applied)) :
    Grew ledger ledger' applied.newAccounts := by
  obtain ⟨happlied, hfailed⟩ := applyZkappCommandSecondPass_ok hfirst h
  by_cases hstatus : applied.status = .applied
  · obtain ⟨supplyIncrease, w, heffects, -, rfl⟩ := happlied hstatus
    obtain ⟨_, -, -, hfinish⟩ := applyZkappCommandSecondPass_eq_ok.1 h
    obtain ⟨-, -, hnew, -⟩ := finishSecondPass_ok hfinish
    obtain ⟨w₁, ⟨location, before, after, heffect⟩, -⟩ := hfirst.feePayer
    have hstates := hfirst.originalFirstPassAccountStates
    obtain ⟨-, hget⟩ := feePayer_existing heffect
    rw [show ledger₀[command.feePayerId]? = some before from hget, ← hfirst.command_eq] at hstates
    rw [← hfirst.command_eq] at hpresent
    have haccounts := heffects.accounts
    refine ⟨fun id => (haccounts id).1, hnew ▸ accountsNotIn_nodup.filter _, fun id => ?_⟩
    rw [hnew, List.mem_filter, mem_accountsNotIn hstates hpresent, ← ExtTreeMap.mem_iff_isSome_getElem?]
    constructor
    · intro hmem
      exact ⟨hmem.2, hmem.1.2⟩
    · intro hmem
      obtain ⟨hmem, hnot⟩ := hmem
      refine ⟨⟨?_, hnot⟩, hmem⟩
      obtain ⟨v, hv, rfl⟩ := ((haccounts id).2 hmem).resolve_left hnot
      unfold ZkappCommand.accountsReferenced
      rw [List.mem_eraseDups, hfirst.command_eq]
      refine .tail _ (List.mem_map.2 ⟨v.accountUpdate, ?_, rfl⟩)
      rw [← visits_map_accountUpdate config.digests.deriveTokenId none]
      exact List.mem_map_of_mem hv
  · obtain ⟨rfl, hnew⟩ := hfailed hstatus
    rw [hnew]
    exact ⟨fun _ hmem => hmem, List.nodup_nil, fun id => by simp⟩

/-- **The second pass** takes the fees for the new accounts out of the balances. -/
theorem secondPass_total
    (hpresent : command.feePayerId ∈ ledger)
    (h : applyZkappCommandSecondPass config ledger c = .ok (ledger', applied)) :
    totalBalance ledger' = totalBalance ledger - config.accountCreationFee * applied.newAccounts.length := by
  have hsize := (secondPass_grew hfirst hpresent h).size
  obtain ⟨happlied, hfailed⟩ := applyZkappCommandSecondPass_ok hfirst h
  by_cases hstatus : applied.status = .applied
  · obtain ⟨supplyIncrease, w, heffects, hexcess, rfl⟩ := happlied hstatus
    have hheld := heffects.held
    unfold held at hheld
    dsimp only at hheld
    rw [hexcess, hsize, Signed.toInt_ofUnsigned] at hheld
    push_cast at hheld
    linarith
  · obtain ⟨rfl, hnew⟩ := hfailed hstatus
    rw [hnew]
    simp

omit hfirst

end NewAccounts

/-! ### The first pass -/

section FirstPass

variable {newAccounts : List AccountId} {burned : Nat}

theorem Credited.total {accountId : AccountId} {amount : Nat}
    (h : Credited config slot accountId amount ledger ledger' newAccounts burned)
    (htoken : accountId.tokenId = TokenId.default) : totalBalance ledger' = totalBalance ledger + amount - burned
      - config.accountCreationFee * newAccounts.length := by
  cases h with
  | burned => simp
  | received location account balance timing hread hbalance htiming =>
    rw [totalBalance_insert hread]
    unfold defaultBalance
    rw [if_pos htoken, if_pos htoken]
    split at hbalance
    · rename_i hnew
      rw [if_pos hnew]
      simp only [List.length_cons, List.length_nil]
      omega
    · rename_i hold
      rw [if_neg hold]
      simp only [List.length_nil]
      omega

theorem Credits.total {credits : List (AccountId × Nat)}
    (h : Credits config slot credits ledger ledger' newAccounts burned)
    (htokens : ∀ c ∈ credits, c.1.tokenId = TokenId.default) :
    totalBalance ledger' = totalBalance ledger + (credits.map Prod.snd).sum - burned
      - config.accountCreationFee * newAccounts.length := by
  induction h with
  | nil => simp
  | @cons accountId amount burned burned' rest ledger ledger₁ ledger₂ new new' hcredited _ ih =>
    have hfirst := hcredited.total (htokens _ (.head _))
    rw [ih fun c hc => htokens c (.tail _ hc), hfirst, List.length_append, List.map_cons, List.sum_cons]
    push_cast
    ring

theorem CommandEffect.total {command : SignedCommand} {paid : Account} {applied : SignedCommandApplied}
    (h : CommandEffect config slot command paid ledger ledger' applied.status applied.body)
    (hget : ledger[command.feePayer]? = some paid) :
    totalBalance ledger' = totalBalance ledger - config.accountCreationFee * applied.newAccounts.length := by
  have hpaid : getWithLocation config.digests ledger command.feePayer = _ := getWithLocation_of_some hget
  have hdefault : command.feePayer.tokenId = TokenId.default := rfl
  obtain ⟨userCommand, status, body⟩ := applied
  unfold SignedCommandApplied.newAccounts
  dsimp only at h ⊢
  cases h with
  | failed failure => simp
  | stakeDelegation newDelegate hbody hmin =>
    rw [totalBalance_insert hpaid]
    simp [defaultBalance]
  | selfPayment amount hbody hmin =>
    rw [totalBalance_insert hpaid]
    simp [defaultBalance]
  | payment receiverPk amount balance location account hbody hne hamount hmin hread hbalance =>
    have hother : command.feePayer ≠ command.receiver := by
      intro heq
      have hreceiver : command.receiver.publicKey = receiverPk := by
        unfold SignedCommand.receiver SignedCommand.receiverPk
        rw [hbody]
      exact hne (hreceiver.symm.trans (congrArg AccountId.publicKey heq).symm)
    have hcredited : Credited config slot command.receiver amount ledger _ _ 0 :=
      .received location account balance account.timing hread hbalance (.inl rfl)
    have hreceived := hcredited.total rfl
    have hread' := (getWithLocation_insert_of_ne config.digests hother { account with balance }).trans hpaid
    rw [totalBalance_insert hread', hreceived]
    unfold defaultBalance
    rw [if_pos hdefault, if_pos hdefault]
    dsimp only
    push_cast [hamount]
    ring

end FirstPass

/-! ### The supply increase -/

/-- What a transaction makes. -/
def supplied : Transaction → Nat
  | .coinbase t => t.amount
  | _ => 0

/-- What a transaction makes, less what is burned and what is paid for new accounts. -/
def netSupply (config : Config) (t : TransactionApplied) : Int :=
  supplied t.transaction - t.burnedTokens - config.accountCreationFee * t.newAccounts.length

theorem processDecreases_eq {total : Signed} {amts : List Signed}
    (h : TransactionApplied.processDecreases total amts = some v) :
    v.toInt = total.toInt - (amts.map Signed.toInt).sum := by
  induction amts generalizing total with
  | nil =>
    obtain rfl := Option.some.inj h
    simp
  | cons amt amts ih =>
    obtain ⟨sum, hsum, h⟩ := Option.bind_eq_some_iff.1 h
    rw [ih h, (Signed.toInt_add hsum).1, Signed.toInt_negate, List.map_cons, List.sum_cons]
    ring

theorem expectedSupplyIncrease_eq {t : Transaction} {expected : Nat}
    (h : t.expectedSupplyIncrease = some expected) : expected = supplied t := by
  cases t with
  | signedCommand c => exact (Option.some.inj h).symm
  | zkappCommand c => exact (Option.some.inj h).symm
  | feeTransfer t => exact (Option.some.inj h).symm
  | coinbase t =>
    change t.expectedSupplyIncrease = some expected at h
    unfold Coinbase.expectedSupplyIncrease at h
    split at h
    · exact (Option.some.inj h).symm
    · obtain ⟨_, -, h⟩ := Option.map_eq_some_iff.1 h
      exact h.symm

/-- **The supply increase that is reported** is the net one. -/
theorem supplyIncrease_eq {config : Config} {t : TransactionApplied}
    (h : t.supplyIncrease config = some v) : v.toInt = netSupply config t := by
  obtain ⟨expected, hexpected, h⟩ := Option.bind_eq_some_iff.1 h
  unfold netSupply
  rw [processDecreases_eq h, expectedSupplyIncrease_eq hexpected]
  simp only [List.map_cons, List.map_nil, List.sum_cons, List.sum_nil, Signed.toInt_ofUnsigned]
  push_cast
  ring

/-! ### Both passes -/

section Passes

variable {c : TransactionPartiallyApplied} {partials : List TransactionPartiallyApplied}
  {applied : List TransactionApplied} {id : AccountId}

/-- What the first pass of a transaction supplies: that of a zkApp command only takes the fee. -/
def firstSupply (config : Config) : TransactionPartiallyApplied → Int
  | .signedCommand applied => netSupply config (.signedCommand applied)
  | .zkappCommand _ => 0
  | .feeTransfer applied => netSupply config (.feeTransfer applied)
  | .coinbase applied => netSupply config (.coinbase applied)

/-- The transaction has been through its first pass, and its fee payer has an account. -/
def ReadyFor (config : Config) (slot : GlobalSlot) (ledger : Ledger) : TransactionPartiallyApplied → Prop
  | .zkappCommand c => PassedFirst config slot (.zkappCommand c) ∧ c.command.feePayerId ∈ ledger
  | _ => True

theorem Credits.kept {credits : List (AccountId × Nat)} {burned : Nat} {newAccounts : List AccountId}
    (h : Credits config slot credits ledger ledger' newAccounts burned) (hmem : id ∈ ledger) : id ∈ ledger' := by
  induction h with
  | nil => exact hmem
  | cons hcredited _ ih =>
    cases hcredited with
    | burned => exact ih hmem
    | received _ _ _ _ _ _ _ => exact ih (mem_insert_iff.2 (.inr hmem))

theorem CommandEffect.kept {command : SignedCommand} {paid : Account} {status : TransactionStatus}
    {body : SignedCommandAppliedBody} (h : CommandEffect config slot command paid ledger ledger' status body)
    (hmem : id ∈ ledger) : id ∈ ledger' := by
  cases h with
  | failed _ => exact hmem
  | stakeDelegation _ _ _ => exact mem_insert_iff.2 (.inr hmem)
  | selfPayment _ _ _ => exact mem_insert_iff.2 (.inr hmem)
  | payment _ _ _ _ _ _ _ _ _ _ _ => exact mem_insert_iff.2 (.inr (mem_insert_iff.2 (.inr hmem)))

/-- **The first pass** of a transaction: its fee leaves the balances, and accounts stay. -/
theorem firstPass_total {t : Transaction} (h : applyTransactionFirstPass config slot view ledger t = .ok (ledger', c)) :
    totalBalance ledger' - totalBalance ledger + t.feeExcess = firstSupply config c
      ∧ (∀ id, id ∈ ledger → id ∈ ledger') ∧ ReadyFor config slot ledger' c := by
  have hpassed := applyTransactionFirstPass_ok h
  have hfirst := hpassed.passedFirst
  cases hpassed with
  | @signedCommand _ applied account hget hcan heffect =>
    have htotal := heffect.total ExtTreeMap.getElem?_insert_self
    have hread : getWithLocation config.digests ledger applied.userCommand.payload.feePayer = _ :=
      getWithLocation_of_some hget
    rw [totalBalance_insert hread] at htotal
    refine ⟨?_, fun id hmem => heffect.kept (mem_insert_iff.2 (.inr hmem)), trivial⟩
    have hfee := hcan.fee
    have hdefault : applied.userCommand.payload.feePayer.tokenId = TokenId.default := rfl
    unfold defaultBalance feePaid at htotal
    rw [if_pos hdefault, if_pos hdefault] at htotal
    unfold firstSupply netSupply
    change _ + (applied.userCommand.payload.fee : Int)
      = ((0 : Nat) : Int) - ((0 : Nat) : Int) - config.accountCreationFee * applied.newAccounts.length
    push_cast [hfee] at htotal ⊢
    linarith
  | @zkappCommand _ command c hpass =>
    obtain ⟨w, ⟨location, before, after, heffect⟩, rfl⟩ := hpass.feePayer
    obtain ⟨hlocation, -⟩ := feePayer_existing heffect
    have hbalance : (after.account.balance : Int) = before.balance + -command.feePayer.fee
        - creationFeeIf config (decide (location = .new) && true) := heffect.updatedBy.funds.balance
    have hid : (AccountUpdate.ofFeePayer command.feePayer).accountId = command.feePayerId := rfl
    refine ⟨?_, fun id hmem => ?_, hfirst, ?_⟩
    · rw [heffect.ledger, totalBalance_insert heffect.read, hid]
      have hdefault : command.feePayerId.tokenId = TokenId.default := rfl
      unfold defaultBalance
      rw [if_pos hdefault, if_pos hdefault, hbalance, hlocation]
      simp only [creationFeeIf, firstSupply, Transaction.feeExcess, reduceCtorEq, decide_false, Bool.false_and,
        Bool.false_eq_true, if_false]
      ring
    · rw [heffect.ledger]
      exact mem_insert_iff.2 (.inr hmem)
    · rw [heffect.ledger, hid, hpass.command_eq]
      exact mem_insert_iff.2 (.inl rfl)
  | @feeTransfer _ applied credits hcredits htokens hsum =>
    refine ⟨?_, fun _ => hcredits.kept, trivial⟩
    rw [hcredits.total htokens, hsum]
    unfold firstSupply netSupply Transaction.feeExcess
    change _ = ((0 : Nat) : Int) - applied.burnedTokens - config.accountCreationFee * applied.newAccounts.length
    push_cast
    ring
  | @coinbase _ applied credits hcredits htokens hsum =>
    refine ⟨?_, fun _ => hcredits.kept, trivial⟩
    rw [hcredits.total htokens, hsum]
    unfold firstSupply netSupply Transaction.feeExcess
    change _ = (applied.coinbase.amount : Int) - applied.burnedTokens
      - config.accountCreationFee * applied.newAccounts.length
    ring

/-- **The second pass** of a transaction supplies the rest, and accounts stay. -/
theorem secondPass_supply {applied : TransactionApplied} (hready : ReadyFor config slot ledger c)
    (h : applyTransactionSecondPass config ledger c = .ok (ledger', applied)) :
    totalBalance ledger' - totalBalance ledger + firstSupply config c = netSupply config applied
      ∧ ∀ id, id ∈ ledger → id ∈ ledger' := by
  cases c with
  | signedCommand a =>
    cases h
    exact ⟨by rw [sub_self, zero_add]; rfl, fun _ hmem => hmem⟩
  | zkappCommand c =>
    obtain ⟨⟨_, applied⟩, happly, h⟩ := Outcome.bind_eq_ok.1 h
    cases h
    obtain ⟨⟨view, ledger₀, ledger₁, hfirst⟩, hpresent⟩ := hready
    refine ⟨?_, (secondPass_grew hfirst hpresent happly).kept⟩
    rw [secondPass_total hfirst hpresent happly]
    unfold firstSupply netSupply
    change _ = ((0 : Nat) : Int) - ((0 : Nat) : Int) - config.accountCreationFee * applied.newAccounts.length
    push_cast
    ring
  | feeTransfer a =>
    cases h
    exact ⟨by rw [sub_self, zero_add]; rfl, fun _ hmem => hmem⟩
  | coinbase a =>
    cases h
    exact ⟨by rw [sub_self, zero_add]; rfl, fun _ hmem => hmem⟩

theorem ReadyFor.kept (h : ReadyFor config slot ledger c)
    (hkept : ∀ id, id ∈ ledger → id ∈ ledger') : ReadyFor config slot ledger' c := by
  cases c with
  | signedCommand _ => trivial
  | zkappCommand c => exact ⟨h.1, hkept _ h.2⟩
  | feeTransfer _ => trivial
  | coinbase _ => trivial

theorem firstPasses_total {txns : List Transaction}
    (h : mapLedger (applyTransactionFirstPass config slot view) ledger txns = .ok (ledger', partials)) :
    totalBalance ledger' - totalBalance ledger + (txns.map Transaction.feeExcess).sum
        = (partials.map (firstSupply config)).sum
      ∧ (∀ id, id ∈ ledger → id ∈ ledger') ∧ ∀ c ∈ partials, ReadyFor config slot ledger' c := by
  induction txns generalizing ledger partials with
  | nil =>
    cases h
    exact ⟨by simp, fun _ hmem => hmem, fun c hc => by cases hc⟩
  | cons t txns ih =>
    obtain ⟨ledger₁, c, partials', hc, hrest, rfl⟩ := mapLedger_cons_eq_ok.1 h
    obtain ⟨htotal, hkept, hready⟩ := firstPass_total hc
    obtain ⟨hsum, hkept', hready'⟩ := ih hrest
    refine ⟨?_, fun id hmem => hkept' id (hkept id hmem), fun c' hc' => ?_⟩
    · rw [List.map_cons, List.map_cons, List.sum_cons, List.sum_cons, ← hsum, ← htotal]
      ring
    · rcases List.mem_cons.1 hc' with rfl | hc'
      · exact hready.kept hkept'
      · exact hready' c' hc'

theorem secondPasses_supply (hready : ∀ c ∈ partials, ReadyFor config slot ledger c)
    (h : mapLedger (applyTransactionSecondPass config) ledger partials = .ok (ledger', applied)) :
    totalBalance ledger' - totalBalance ledger + (partials.map (firstSupply config)).sum
      = (applied.map (netSupply config)).sum := by
  induction partials generalizing ledger applied with
  | nil =>
    cases h
    simp
  | cons c partials ih =>
    obtain ⟨ledger₁, a, applied', ha, hrest, rfl⟩ := mapLedger_cons_eq_ok.1 h
    obtain ⟨hsupply, hkept⟩ := secondPass_supply (hready c (.head _)) ha
    have hsum := ih (fun c' hc' => (hready c' (.tail _ hc')).kept hkept) hrest
    rw [List.map_cons, List.map_cons, List.sum_cons, List.sum_cons, ← hsum, ← hsupply]
    ring

theorem supplyIncreases_eq {increases : List Signed}
    (h : applied.map (TransactionApplied.supplyIncrease config) = increases.map some) :
    (increases.map Signed.toInt).sum = (applied.map (netSupply config)).sum := by
  induction applied generalizing increases with
  | nil =>
    rw [List.map_nil, eq_comm, List.map_eq_nil_iff] at h
    rw [h]
    rfl
  | cons a applied ih =>
    cases increases with
    | nil => cases h
    | cons v increases =>
      obtain ⟨hv, hrest⟩ := List.cons.inj h
      rw [List.map_cons, List.map_cons, List.sum_cons, List.sum_cons, ih hrest, supplyIncrease_eq hv]

/-- **Currency is conserved.** When a list of transactions is applied, the balances in the default
token, with the fee excesses of the transactions, change by what the supply increases of the
applied transactions add up to. -/
theorem currency_conserved (config : Config) (slot : GlobalSlot) (view : ProtocolStateView)
    (ledger ledger' : Ledger) (txns : List Transaction) (applied : List TransactionApplied)
    (increases : List Signed) (h : applyTransactions config slot view ledger txns = .ok (ledger', applied))
    (hincreases : applied.map (TransactionApplied.supplyIncrease config) = increases.map some) :
    totalBalance ledger' - totalBalance ledger + (txns.map Transaction.feeExcess).sum
      = (increases.map Signed.toInt).sum := by
  obtain ⟨⟨ledger₁, partials⟩, hfirst, hsecond⟩ := Outcome.bind_eq_ok.1 h
  obtain ⟨hfirst, -, hready⟩ := firstPasses_total hfirst
  have hsecond := secondPasses_supply hready hsecond
  rw [supplyIncreases_eq hincreases, ← hsecond, ← hfirst]
  ring

end Passes

/-! ### A transfer, a fee transfer and a coinbase -/

/-- A block of three transactions. The coinbase creates an account. -/
def sampleTransactions : List Transaction :=
  [.zkappCommand sampleCommand, .feeTransfer (.one ⟨⟨2, false⟩, 5, TokenId.default⟩),
    .coinbase ⟨⟨3, false⟩, 2000000000, none⟩]

theorem sampleTransactions_applied : (do
      let (_, applied) ← applyTransactions sampleConfig 0 sampleView sampleLedger sampleTransactions
      Outcome.assert (applied.map (TransactionApplied.supplyIncrease sampleConfig)
        = [some ⟨0, .pos⟩, some ⟨0, .pos⟩, some ⟨1000000000, .pos⟩])) = Outcome.ok () := by
  decide +kernel

/-- The coinbase of 2 makes an account for 1, so the balances grow by 1 in all. -/
theorem currency_conserved_block : ∃ ledger' applied,
    applyTransactions sampleConfig 0 sampleView sampleLedger sampleTransactions = .ok (ledger', applied)
      ∧ totalBalance ledger' - totalBalance sampleLedger
        + (sampleTransactions.map Transaction.feeExcess).sum = 1000000000 := by
  obtain ⟨⟨ledger', applied⟩, h, hincreases⟩ := Outcome.bind_eq_ok.1 sampleTransactions_applied
  refine ⟨ledger', applied, h, ?_⟩
  exact currency_conserved sampleConfig 0 sampleView sampleLedger ledger' sampleTransactions applied
    [⟨0, .pos⟩, ⟨0, .pos⟩, ⟨1000000000, .pos⟩] h (of_decide_eq_true (Outcome.assert_eq_ok.1 hincreases))

end TransactionLogic

end MinaProtocol
