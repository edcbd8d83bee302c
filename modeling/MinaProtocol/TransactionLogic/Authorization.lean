import MinaProtocol.TransactionLogic.AllOrNothing

/-!
# TransactionLogic.Authorization

An account update changes only what the permissions of its account allow it to
(`account_updates_authorized`). The permissions are the ones from before the account update,
also for what it writes after others of its fields.
-/

namespace MinaProtocol

/-- The permission is satisfied by the authorization kind of the account update. -/
def AccountUpdate.Satisfies (u : AccountUpdate) (perm : AuthRequired) : Prop :=
  perm.check u.authorizationKind.toControlTag = true

instance (u : AccountUpdate) (perm : AuthRequired) : Decidable (u.Satisfies perm) := by
  unfold AccountUpdate.Satisfies
  infer_instance

/-- What setting the verification key takes: where the permission is of an older version, a
signature is enough. -/
def Permissions.verificationKeyAuth (permissions : Permissions) : AuthRequired :=
  if TxnVersion.olderThanCurrent permissions.setVerificationKey.2 then
    permissions.setVerificationKey.1.verificationKeyPermFallbackToSignatureWithOlderVersion
  else permissions.setVerificationKey.1

namespace TransactionLogic

open Std

/-- **What an account update may do to its account**, by the permissions from before. -/
structure AuthorizedChange (digests : Digests) (globalSlot : GlobalSlot) (u : AccountUpdate)
    (before after : Account) : Prop where
  identifier : after.identifier = before.identifier
  access : u.Satisfies before.permissions.access
  appState : (after.zkappOrDefault digests).appState ≠ (before.zkappOrDefault digests).appState →
    u.Satisfies before.permissions.editState
  verificationKey : (after.zkappOrDefault digests).verificationKey
    ≠ (before.zkappOrDefault digests).verificationKey → u.Satisfies before.permissions.verificationKeyAuth
  zkappUri : (after.zkappOrDefault digests).zkappUri ≠ (before.zkappOrDefault digests).zkappUri →
    u.Satisfies before.permissions.setZkappUri
  actionState : (after.zkappOrDefault digests).actionState ≠ (before.zkappOrDefault digests).actionState →
    u.Satisfies before.permissions.editActionState
  tokenSymbol : after.tokenSymbol ≠ before.tokenSymbol → u.Satisfies before.permissions.setTokenSymbol
  delegate : Account.delegateOpt after.delegate ≠ Account.delegateOpt before.delegate →
    u.Satisfies before.permissions.setDelegate
  delegateSet : u.delegate.isSet = true →
    u.tokenId = TokenId.default ∧ u.Satisfies before.permissions.setDelegate
  nonce : after.nonce ≠ before.nonce → u.Satisfies before.permissions.incrementNonce
  votingFor : after.votingFor ≠ before.votingFor → u.Satisfies before.permissions.setVotingFor
  timing : after.timing ≠ timingAfter globalSlot before.timing → u.Satisfies before.permissions.setTiming
  timingSet : u.timing.isSet = true →
    before.timing = .untimed ∧ u.Satisfies before.permissions.setTiming
  permissions : after.permissions ≠ before.permissions → u.Satisfies before.permissions.setPermissions
  decrease : after.balance < before.balance → u.Satisfies before.permissions.send
  increase : before.balance < after.balance → u.Satisfies before.permissions.receive

/-- The change of the ledger: only the account of the account update, and an account for
another token only when the owner of the token is the caller. A new account is the one that
is initialized before it is updated. -/
structure Authorized (digests : Digests) (globalSlot : GlobalSlot) (v : Visit) (ledger ledger' : Ledger) :
    Prop where
  others : ∀ id ≠ v.accountUpdate.accountId, ledger'[id]? = ledger[id]?
  caller : v.accountUpdate.tokenId ≠ TokenId.default → v.accountUpdate.tokenId = v.callerId
  account : ∃ after, ledger'[v.accountUpdate.accountId]? = some after
    ∧ AuthorizedChange digests globalSlot v.accountUpdate
      (getWithLocation digests ledger v.accountUpdate.accountId).2 after

theorem delegateOpt_selfDelegate {digests : Digests} {ledger : Ledger} {u : AccountUpdate}
    {location : Location} {before : Account} (h : getWithLocation digests ledger u.accountId = (location, before)) :
    Account.delegateOpt (selfDelegate (location = .new) u before).delegate
      = Account.delegateOpt before.delegate := by
  unfold selfDelegate
  rw [delegateOpt_setDelegate]
  split
  · rename_i hself
    obtain ⟨hnew, htoken⟩ := Bool.and_eq_true_iff.1 hself
    unfold getWithLocation at h
    split at h
    · cases h
      cases of_decide_eq_true hnew
    · cases h
      have htoken : u.accountId.tokenId = TokenId.default := of_decide_eq_true htoken
      unfold Account.create Account.delegateOpt
      dsimp only
      rw [if_pos htoken]
      rfl
  · rfl

/-- **An account update that has its effect was authorized.** -/
theorem HasEffect.authorized {config : Config} {env : Env} {isStart : Bool} {index : UInt32} {v : Visit}
    {w w' : Working} (h : HasEffect config env isStart index v.accountUpdate v.callerId w w') :
    Authorized config.digests env.globalSlot v w.ledger w'.ledger := by
  obtain ⟨location, before, after, h⟩ := h
  have hu := h.updatedBy
  have hsat : ∀ perm, v.accountUpdate.controllerCheck perm = true → v.accountUpdate.Satisfies perm := by
    intro perm hcheck
    rw [AccountUpdate.controllerCheck_eq, hu.authorization] at hcheck
    exact hcheck
  refine ⟨fun id hid => ?_, fun htoken => h.caller.resolve_left htoken, after.account, ?_, ?_⟩
  · rw [h.ledger, ExtTreeMap.getElem?_insert, if_neg]
    intro heq
    exact hid (LawfulEqOrd.compare_eq_iff_eq.1 heq).symm
  · rw [h.ledger]
    exact ExtTreeMap.getElem?_insert_self
  · rw [h.read]
    exact
      { identifier := by
          unfold Account.identifier
          rw [hu.publicKey, hu.tokenId]
          exact congrArg _ (congrArg AccountId.tokenId h.identifier).symm
        access := hsat _ hu.access
        appState := fun hne => hsat _ (hu.zkapp.appState hne)
        verificationKey := fun hne => hsat _ (hu.zkapp.verificationKey hne)
        zkappUri := fun hne => hsat _ (hu.zkapp.zkappUri hne)
        actionState := fun hne => hsat _ (hu.zkapp.actionState fun heq => hne (congrArg Prod.fst heq))
        tokenSymbol := fun hne => hsat _ (hu.tokenSymbol hne)
        delegate := fun hne => by
          cases hset : v.accountUpdate.delegate.isSet with
          | true => exact hsat _ (hu.delegateSet hset).1
          | false => exact absurd ((hu.delegateKept hset).trans (delegateOpt_selfDelegate h.read)) hne
        delegateSet := fun hset => ⟨(hu.delegateSet hset).2, hsat _ (hu.delegateSet hset).1⟩
        nonce := fun hne => by
          cases hinc : v.accountUpdate.incrementNonce with
          | true => exact hsat _ (hu.noncePermitted hinc)
          | false =>
            have hnonce := hu.nonce
            rw [hinc] at hnonce
            exact absurd hnonce hne
        votingFor := fun hne => hsat _ (hu.votingFor hne)
        timing := fun hne => by
          cases hset : v.accountUpdate.timing.isSet with
          | true => exact hsat _ (hu.funds.timingPermitted hset).2
          | false =>
            have htiming := hu.funds.timing
            rw [timingSet_of_keep hset] at htiming
            exact absurd htiming hne
        timingSet := fun hset =>
          ⟨(hu.funds.timingPermitted hset).1, hsat _ (hu.funds.timingPermitted hset).2⟩
        permissions := fun hne => hsat _ (hu.permissions hne)
        decrease := fun hlt => hsat _ (hu.funds.sendPermitted hlt)
        increase := fun hlt => hsat _ (hu.funds.receivePermitted hlt) }

/-- **Only authorized changes.** The fee payer makes an authorized change to the ledger of the
first pass. Every other account update of an applied command makes one to the ledger
of the second pass, which begins with the one it is given. -/
theorem account_updates_authorized (config : Config) (globalSlot : GlobalSlot)
    (stateView : ProtocolStateView) (feeExcess supplyIncrease : Signed)
    (ledger ledger₁ ledger₂ ledger₃ : Ledger) (command : ZkappCommand) (c : ZkappCommandPartiallyApplied)
    (applied : ZkappCommandApplied) (states : List (GlobalState × LocalState))
    (h₁ : applyZkappCommandFirstPass config globalSlot stateView feeExcess supplyIncrease ledger command
      = .ok (ledger₁, c))
    (h₂ : applyZkappCommandSecondPassAux config collectStates [] ledger₂ c = .ok (ledger₃, applied, states))
    (happlied : applied.status = .applied) :
    let order := visits config.digests.deriveTokenId none command.accountUpdates
    Authorized config.digests globalSlot
        ⟨.ofFeePayer command.feePayer, TokenId.default, .nil⟩ ledger ledger₁
      ∧ states.length = order.length + 1
      ∧ states.head?.map workingLedger = some ledger₂
      ∧ states.getLast?.map workingLedger = some ledger₃
      ∧ ∀ (k : Nat) (v : Visit) (s s' : GlobalState × LocalState), order[k]? = some v →
        states[k]? = some s → states[k + 1]? = some s' →
        Authorized config.digests globalSlot v (workingLedger s) (workingLedger s') := by
  intro order
  have hfirst := applyZkappCommandFirstPass_ok h₁
  obtain ⟨w₁, heffect, rfl⟩ := hfirst.feePayer
  obtain ⟨states', htrace, rfl, hledger, hfinish⟩ := applyZkappCommandSecondPassAux_eq_ok.1 h₂
  obtain ⟨-, hstatus, -⟩ := finishSecondPass_ok hfinish
  rw [foldl_collectStates]
  have hrem := secondPassStart_remaining hfirst ledger₂
  have hagrees := secondPassStart_agrees ledger₂ hfirst.agrees
  refine ⟨heffect.authorized (v := ⟨_, _, .nil⟩), ?_, ?_, ?_, fun k v s s' hv hs hs' => ?_⟩
  · rw [List.length_append, htrace.length_eq hrem hagrees]
    exact Nat.add_comm 1 _
  · exact congrArg some (secondPassStart_workingLedger ledger₂ c)
  · change (_ :: states').getLast?.map workingLedger = _
    rw [getLast?_cons_eq_lastState, Option.map_some, htrace.workingLedger_last, hledger]
  · have hempty := hstatus.1 happlied
    have hne : command.accountUpdates ≠ .nil := by
      intro hnil
      rw [show order = [] from congrArg (visits _ _) hnil] at hv
      cases hv
    obtain ⟨index, w, w', heffect', hw, hw'⟩ := htrace.hasEffect hrem hagrees hempty hv hs hs'
    rw [hw, hw']
    rw [secondPassStart_of_ne_nil ledger₂ (by rw [hfirst.stackFrame]; exact hne)] at heffect'
    have henv : envOf { c.globalState with secondPassLedger := ledger₂ } { c.localState with ledger := ledger₂ }
        = commandEnv config globalSlot stateView command := hfirst.env hne
    rw [henv] at heffect'
    exact heffect'.authorized

/-! ### A transfer, and one to the empty key -/

theorem sampleCommand_states : (do
      let (ledger, c) ← applyZkappCommandFirstPass sampleConfig 0 sampleView Signed.zero Signed.zero
        sampleLedger sampleCommand
      let (_, applied, _) ← applyZkappCommandSecondPassAux sampleConfig collectStates [] ledger c
      Outcome.assert (applied.status = .applied)) = Outcome.ok () := by
  decide +kernel

/-- In the transfer the account that gives is checked for it, and so is the one that gets. -/
theorem account_updates_authorized_transfer : ∃ ledger₁ c ledger₂ applied states,
      applyZkappCommandFirstPass sampleConfig 0 sampleView Signed.zero Signed.zero sampleLedger sampleCommand
        = .ok (ledger₁, c)
        ∧ applyZkappCommandSecondPassAux sampleConfig collectStates [] ledger₁ c = .ok (ledger₂, applied, states)
        ∧ states.length = 3
        ∧ ∀ k v s s', (visits sampleDigests.deriveTokenId none sampleCommand.accountUpdates)[k]? = some v →
          states[k]? = some s → states[k + 1]? = some s' →
          Authorized sampleDigests 0 v (workingLedger s) (workingLedger s') := by
  obtain ⟨⟨ledger₁, c⟩, h₁, hrest⟩ := Outcome.bind_eq_ok.1 sampleCommand_states
  obtain ⟨⟨ledger₂, applied, states⟩, h₂, happlied⟩ := Outcome.bind_eq_ok.1 hrest
  obtain ⟨-, hlength, -, -, hauthorized⟩ := account_updates_authorized sampleConfig 0 sampleView Signed.zero
    Signed.zero sampleLedger ledger₁ ledger₁ ledger₂ sampleCommand c applied states h₁ h₂
    (of_decide_eq_true (Outcome.assert_eq_ok.1 happlied))
  exact ⟨ledger₁, c, ledger₂, applied, states, h₁, h₂, hlength, hauthorized⟩

/-- A ledger with an account of the empty key, which is its own delegate as any other is. -/
def emptyKeyLedger : Ledger :=
  sampleLedger.insert (sampleId 0) (Account.create sampleDigests (sampleId 0) 100)

/-- The first account pays a fee of 5 and gives 10 to the account of the empty key. -/
def emptyKeyCommand : ZkappCommand :=
  { sampleCommand with
    accountUpdates :=
      .cons (sampleUpdate 0 ⟨10, .pos⟩ .noneGiven) .nil (.cons (sampleUpdate 1 ⟨10, .neg⟩ .signature) .nil .nil) }

/-- The account of the empty key in the state. -/
def emptyKeyAccount (state : GlobalState × LocalState) : Option Account :=
  (workingLedger state)[sampleId 0]?

theorem emptyKeyCommand_states : (do
      let (ledger, c) ← applyZkappCommandFirstPass sampleConfig 0 sampleView Signed.zero Signed.zero
        emptyKeyLedger emptyKeyCommand
      let (_, applied, states) ← applyZkappCommandSecondPassAux sampleConfig collectStates [] ledger c
      Outcome.assert (applied.status = .applied
        ∧ (states[0]?.bind emptyKeyAccount).map (fun a => (a.delegate, a.permissions))
          = some (some PublicKey.empty, Permissions.userDefault)
        ∧ (states[1]?.bind emptyKeyAccount).map (·.delegate) = some none)) = Outcome.ok () := by
  decide +kernel

/-- **A delegate that changes without permission**: getting a transfer, the account of the empty
key loses itself as its delegate, though the account update satisfies no permission to set it. -/
theorem empty_delegate_dropped_without_permission : ∃ ledger₁ c ledger₂ applied states s s' before after,
      applyZkappCommandFirstPass sampleConfig 0 sampleView Signed.zero Signed.zero emptyKeyLedger
          emptyKeyCommand = .ok (ledger₁, c)
        ∧ applyZkappCommandSecondPassAux sampleConfig collectStates [] ledger₁ c = .ok (ledger₂, applied, states)
        ∧ applied.status = .applied ∧ states[0]? = some s ∧ states[1]? = some s'
        ∧ (workingLedger s)[sampleId 0]? = some before ∧ (workingLedger s')[sampleId 0]? = some after
        ∧ after.delegate ≠ before.delegate
        ∧ ¬ (sampleUpdate 0 ⟨10, .pos⟩ .noneGiven).Satisfies before.permissions.setDelegate := by
  obtain ⟨⟨ledger₁, c⟩, h₁, hrest⟩ := Outcome.bind_eq_ok.1 emptyKeyCommand_states
  obtain ⟨⟨ledger₂, applied, states⟩, h₂, hassert⟩ := Outcome.bind_eq_ok.1 hrest
  obtain ⟨happlied, hbefore, hafter⟩ := of_decide_eq_true (Outcome.assert_eq_ok.1 hassert)
  obtain ⟨before, hbefore, hbefore'⟩ := Option.map_eq_some_iff.1 hbefore
  obtain ⟨after, hafter, hafter'⟩ := Option.map_eq_some_iff.1 hafter
  obtain ⟨s, hs, hbefore⟩ := Option.bind_eq_some_iff.1 hbefore
  obtain ⟨s', hs', hafter⟩ := Option.bind_eq_some_iff.1 hafter
  obtain ⟨hdelegate, hpermissions⟩ := Prod.mk.inj hbefore'
  refine ⟨ledger₁, c, ledger₂, applied, states, s, s', before, after, h₁, h₂, happlied, hs, hs', hbefore,
    hafter, ?_, ?_⟩
  · rw [hafter', hdelegate]
    exact nofun
  · rw [hpermissions]
    decide

end TransactionLogic

end MinaProtocol
