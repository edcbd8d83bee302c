import MinaProtocol.TransactionLogic.UpdateAccount

/-!
# TransactionLogic.UpdateSpec

What it means that an account update passes all its checks (`UpdatedBy`). Each definition
of `UpdateAccount` has one lemma, which says what it leaves and what it has checked, both
in terms of the account as it was.
-/

namespace MinaProtocol

theorem SetOrKeep.setOrKeep_of_isKeep {A : Type} {field : SetOrKeep A} (h : field.isKeep = true) (old : A) :
    field.setOrKeep old = old := by
  cases field with
  | set a => cases h
  | keep => rfl

namespace TransactionLogic

open Checked (check checkAll assert)

/-! ### Fields -/

variable {u : AccountUpdate} {a a' : Account} {zkapp : ZkappAccount} {digests : Digests} {slot : GlobalSlot}
  {config : Config} {context : UpdateContext} {failure : Failure} {t r : Updated} {isNew : Bool} {x d : Signed}

theorem setField_passes {A : Type} {perm : AuthRequired}
    {field : SetOrKeep A} {old new : A} (h : (setField failure u perm field old).Passes new) :
    new = field.setOrKeep old ∧ (new ≠ old → u.controllerCheck perm = true) := by
  unfold setField at h
  simp only [Checked.passes_bind, Checked.passes_check, Checked.passes_pure, Bool.or_eq_true] at h
  obtain ⟨-, hcheck, rfl⟩ := h
  refine ⟨rfl, fun hne => ?_⟩
  rcases hcheck with hkeep | hperm
  · exact absurd (SetOrKeep.setOrKeep_of_isKeep hkeep old) hne
  · exact hperm

theorem updateTokenSymbol_passes (h : (updateTokenSymbol u a).Passes a') : ∃ tokenSymbol, a' = { a with tokenSymbol }
      ∧ (tokenSymbol ≠ a.tokenSymbol → u.controllerCheck a.permissions.setTokenSymbol = true) := by
  unfold updateTokenSymbol at h
  simp only [Checked.passes_bind, Checked.passes_pure] at h
  obtain ⟨tokenSymbol, hset, rfl⟩ := h
  exact ⟨tokenSymbol, rfl, (setField_passes hset).2⟩

theorem updateVotingFor_passes (h : (updateVotingFor u a).Passes a') : ∃ votingFor, a' = { a with votingFor }
      ∧ (votingFor ≠ a.votingFor → u.controllerCheck a.permissions.setVotingFor = true) := by
  unfold updateVotingFor at h
  simp only [Checked.passes_bind, Checked.passes_pure] at h
  obtain ⟨votingFor, hset, rfl⟩ := h
  exact ⟨votingFor, rfl, (setField_passes hset).2⟩

theorem updatePermissions_passes (h : (updatePermissions u a).Passes a') : ∃ permissions, a' = { a with permissions }
      ∧ (permissions ≠ a.permissions → u.controllerCheck a.permissions.setPermissions = true) := by
  unfold updatePermissions at h
  simp only [Checked.passes_bind, Checked.passes_pure] at h
  obtain ⟨permissions, hset, rfl⟩ := h
  exact ⟨permissions, rfl, (setField_passes hset).2⟩

theorem delegateOpt_setDelegate (delegate : PublicKey) (a : Account) :
    Account.delegateOpt (a.setDelegate delegate).delegate = delegate := by
  unfold Account.setDelegate Account.delegateOpt
  dsimp only
  split
  · rename_i h
    exact h.symm
  · rfl

theorem updateDelegate_passes (h : (updateDelegate u a).Passes a') : ∃ delegate, a' = { a with delegate }
      ∧ (u.delegate.isSet = true → u.controllerCheck a.permissions.setDelegate = true ∧ u.tokenId = TokenId.default)
      ∧ (u.delegate.isSet = false → Account.delegateOpt delegate = Account.delegateOpt a.delegate) := by
  unfold updateDelegate at h
  simp only [Checked.passes_bind, Checked.passes_check, Checked.passes_pure, Bool.or_eq_true,
    Bool.and_eq_true, decide_eq_true_eq] at h
  obtain ⟨-, hcheck, rfl⟩ := h
  refine ⟨_, rfl, ?_, ?_⟩
  · intro hset
    rcases hcheck with hkeep | hperm
    · cases hd : u.delegate with
      | set d =>
        rw [hd] at hkeep
        cases hkeep
      | keep =>
        rw [hd] at hset
        cases hset
    · exact hperm
  · intro hset
    cases hd : u.delegate with
    | set d =>
      rw [hd] at hset
      cases hset
    | keep => exact delegateOpt_setDelegate _ a

theorem updateNonce_passes (h : (updateNonce u a).Passes a') :
    a' = { a with nonce := if u.incrementNonce then AccountNonce.succ a.nonce else a.nonce }
      ∧ (u.incrementNonce = true → u.controllerCheck a.permissions.incrementNonce = true) := by
  unfold updateNonce at h
  simp only [Checked.passes_bind, Checked.passes_check, Checked.passes_pure, Bool.or_eq_true, Bool.not_eq_true'] at h
  obtain ⟨-, hcheck, rfl⟩ := h
  refine ⟨rfl, fun hinc => ?_⟩
  rcases hcheck with hno | hperm
  · rw [hinc] at hno
    cases hno
  · exact hperm

/-! ### The zkApp -/

theorem setZkapp_of_some (h : a.zkapp = some zkapp)
    (f : ZkappAccount → ZkappAccount) : a.setZkapp f = { a with zkapp := some (f zkapp) } := by
  unfold Account.setZkapp
  rw [h]
  rfl

variable (hz : a.zkapp = some zkapp)

include hz

theorem updateAppState_passes (h : (updateAppState u a).Passes a') : ∃ provedState appState,
      a' = { a with zkapp := some { zkapp with provedState, appState } }
        ∧ (appState ≠ zkapp.appState → u.controllerCheck a.permissions.editState = true) := by
  unfold updateAppState at h
  simp only [Checked.passes_bind, Checked.passes_check, Checked.passes_pure, Checked.passes_ofOption,
    Bool.or_eq_true, hz, Option.some.injEq] at h
  obtain ⟨_, rfl, -, hcheck, ha'⟩ := h
  rw [setZkapp_of_some hz, setZkapp_of_some rfl] at ha'
  refine ⟨_, _, ha', fun hne => ?_⟩
  rcases hcheck with hkeep | hperm
  · refine absurd ?_ hne
    apply Vector.ext
    intro i hi
    rw [List.all_eq_true] at hkeep
    have hk := hkeep u.appState[i] (by simp)
    simp [SetOrKeep.setOrKeep_of_isKeep hk]
  · exact hperm

theorem updateVerificationKey_passes (h : (updateVerificationKey u a).Passes a') :
    ∃ verificationKey,
      a' = { a with zkapp := some { zkapp with verificationKey } }
        ∧ (verificationKey ≠ zkapp.verificationKey →
          u.controllerCheck (if TxnVersion.olderThanCurrent a.permissions.setVerificationKey.2 then
            a.permissions.setVerificationKey.1.verificationKeyPermFallbackToSignatureWithOlderVersion
            else a.permissions.setVerificationKey.1) = true) := by
  unfold updateVerificationKey at h
  simp only [Checked.passes_bind, Checked.passes_pure, Checked.passes_ofOption, hz, Option.some.injEq] at h
  obtain ⟨_, rfl, verificationKey, hset, ha'⟩ := h
  rw [setZkapp_of_some hz] at ha'
  exact ⟨verificationKey, ha', (setField_passes hset).2⟩

omit hz

theorem updateActionState_of_isEmpty {actionState : Vector Nat 5}
    {actions : List (List Nat)} {last : GlobalSlot} (h : actions.isEmpty = true) :
    updateActionState digests actionState actions slot last = (actionState, last) := by
  unfold updateActionState
  simp only [h, if_true, Bool.true_or]
  refine Prod.ext ?_ rfl
  apply Vector.ext
  intro i hi
  interval_cases i <;> rfl

include hz

theorem updateActions_passes (h : (updateActions digests slot u a).Passes a') :
    ∃ actionState lastActionSlot,
      a' = { a with zkapp := some { zkapp with actionState, lastActionSlot } }
        ∧ ((actionState, lastActionSlot) ≠ (zkapp.actionState, zkapp.lastActionSlot) →
          u.controllerCheck a.permissions.editActionState = true) := by
  unfold updateActions at h
  simp only [Checked.passes_bind, Checked.passes_check, Checked.passes_pure, Checked.passes_ofOption,
    Bool.or_eq_true, hz, Option.some.injEq] at h
  obtain ⟨_, rfl, -, hcheck, ha'⟩ := h
  rw [setZkapp_of_some hz, setZkapp_of_some rfl] at ha'
  refine ⟨_, _, ha', fun hne => ?_⟩
  rcases hcheck with hempty | hperm
  · exact absurd (updateActionState_of_isEmpty hempty) hne
  · exact hperm

theorem updateZkappUri_passes (h : (updateZkappUri u a).Passes a') : ∃ zkappUri,
      a' = { a with zkapp := some { zkapp with zkappUri } }
        ∧ (zkappUri ≠ zkapp.zkappUri → u.controllerCheck a.permissions.setZkappUri = true) := by
  unfold updateZkappUri at h
  simp only [Checked.passes_bind, Checked.passes_pure, hz] at h
  obtain ⟨zkappUri, hset, ha'⟩ := h
  rw [setZkapp_of_some hz] at ha'
  exact ⟨zkappUri, ha', (setField_passes hset).2⟩

omit hz

/-- What an account update may do to the zkApp of an account with these permissions. -/
structure ZkappUpdatedBy (u : AccountUpdate) (permissions : Permissions) (zkapp zkapp' : ZkappAccount) :
    Prop where
  appState : zkapp'.appState ≠ zkapp.appState → u.controllerCheck permissions.editState = true
  verificationKey : zkapp'.verificationKey ≠ zkapp.verificationKey →
    u.controllerCheck (if TxnVersion.olderThanCurrent permissions.setVerificationKey.2 then
      permissions.setVerificationKey.1.verificationKeyPermFallbackToSignatureWithOlderVersion
      else permissions.setVerificationKey.1) = true
  actionState : (zkapp'.actionState, zkapp'.lastActionSlot) ≠ (zkapp.actionState, zkapp.lastActionSlot) →
    u.controllerCheck permissions.editActionState = true
  zkappUri : zkapp'.zkappUri ≠ zkapp.zkappUri → u.controllerCheck permissions.setZkappUri = true
  zkappVersion : zkapp'.zkappVersion = zkapp.zkappVersion

theorem unmakeZkapp_of_some (digests : Digests) (h : a.zkapp = some zkapp) :
    ∃ o, a.unmakeZkapp digests = { a with zkapp := o } ∧ o.getD (ZkappAccount.default digests) = zkapp := by
  unfold Account.unmakeZkapp
  rw [h]
  refine ⟨_, rfl, ?_⟩
  split
  · rename_i hd
    exact hd
  · rfl

theorem updateZkapp_passes (h : (updateZkapp config context u a).Passes a') :
    u.controllerCheck a.permissions.access = true ∧ ∃ zkapp, a' = { a with zkapp }
      ∧ ZkappUpdatedBy u a.permissions (a.zkapp.getD (ZkappAccount.default config.digests))
        (zkapp.getD (ZkappAccount.default config.digests)) := by
  unfold updateZkapp checkAccess at h
  simp only [Checked.passes_bind, Checked.passes_pure, Checked.passes_check] at h
  obtain ⟨-, haccess, a₁, h₁, a₂, h₂, a₃, h₃, a₄, h₄, ha'⟩ := h
  obtain ⟨provedState, appState, rfl, hstate⟩ := updateAppState_passes rfl h₁
  obtain ⟨verificationKey, rfl, hkey⟩ := updateVerificationKey_passes rfl h₂
  obtain ⟨actionState, lastActionSlot, rfl, hactions⟩ := updateActions_passes rfl h₃
  obtain ⟨zkappUri, ha₄, huri⟩ := updateZkappUri_passes rfl h₄
  obtain ⟨o, ho, hget⟩ := unmakeZkapp_of_some config.digests (congrArg Account.zkapp ha₄)
  rw [ho, ha₄] at ha'
  refine ⟨haccess, o, ha', ?_⟩
  rw [hget]
  exact ⟨hstate, hkey, hactions, huri, rfl⟩

/-! ### Timing and balance -/

/-- The timing that the account update sets or keeps. -/
def timingSet (u : AccountUpdate) (timing : AccountTiming) : AccountTiming :=
  (u.timing.map AccountTiming.timed).setOrKeep timing

/-- What a new account pays, where it pays from the amount (`implicit`) or otherwise. -/
def creationFeeIf (config : Config) (b : Bool) : Int := if b then config.accountCreationFee else 0

theorem timingSet_of_keep (h : u.timing.isSet = false) (timing : AccountTiming) : timingSet u timing = timing := by
  unfold timingSet
  cases htiming : u.timing with
  | set t =>
    rw [htiming] at h
    cases h
  | keep => rfl

theorem updateTiming_passes (h : (updateTiming u a).Passes a') : a' = { a with timing := timingSet u a.timing }
      ∧ (u.timing.isSet = true → a.timing = .untimed ∧ u.controllerCheck a.permissions.setTiming = true) := by
  unfold updateTiming at h
  simp only [Checked.passes_bind, Checked.passes_check, Checked.passes_assert, Checked.passes_pure,
    Bool.or_eq_true, Bool.and_eq_true, Bool.not_eq_true'] at h
  obtain ⟨-, hcheck, -, -, rfl⟩ := h
  refine ⟨rfl, fun hset => ?_⟩
  rcases hcheck with hkeep | ⟨huntimed, hperm⟩
  · cases htiming : u.timing with
    | set t =>
      rw [htiming] at hkeep
      cases hkeep
    | keep =>
      rw [htiming] at hset
      cases hset
  · refine ⟨?_, hperm⟩
    unfold Account.isTimed at huntimed
    cases htiming : a.timing with
    | untimed => rfl
    | timed t =>
      rw [htiming] at huntimed
      cases huntimed

theorem toInt_addFlagged_creationFee
    (h : (Signed.addFlagged x (Signed.ofUnsigned config.accountCreationFee).negate).2 = false) :
    (Signed.addFlagged x (Signed.ofUnsigned config.accountCreationFee).negate).1.toInt
      = x.toInt - config.accountCreationFee := by
  rw [Signed.toInt_addFlagged h, Signed.toInt_negate, Signed.toInt_ofUnsigned, Int.sub_eq_add_neg]

theorem payCreationFee_passes (h : (payCreationFee config isNew u).Passes d) :
    d.toInt = u.balanceChange.toInt - creationFeeIf config (isNew && u.implicitAccountCreationFee)
      ∧ ((isNew && u.implicitAccountCreationFee) = true → 0 ≤ d.toInt)
      ∧ (u.implicitAccountCreationFee = true → u.tokenId = TokenId.default) := by
  unfold payCreationFee balanceChangeAfterFee at h
  simp only [Checked.passes_bind, Checked.passes_check, Checked.passes_pure, Bool.or_eq_true,
    Bool.not_eq_true', decide_eq_true_eq] at h
  obtain ⟨-, htoken, -, hpay, rfl⟩ := h
  refine ⟨?_, ?_, ?_⟩
  · unfold creationFeeIf
    cases hb : isNew && u.implicitAccountCreationFee with
    | false => simp
    | true =>
      simp only [hb, Bool.true_and, Bool.or_eq_false_iff] at hpay
      simp only [if_true]
      exact toInt_addFlagged_creationFee hpay.1
  · intro hb
    simp only [hb, Bool.true_and, Bool.or_eq_false_iff, if_true, decide_eq_false_iff_not] at hpay ⊢
    exact Signed.toInt_nonneg_of_sgn hpay.2
  · intro himplicit
    rcases htoken with hno | htoken
    · rw [himplicit] at hno
      cases hno
    · exact htoken

theorem subCreationFee_passes {pays : Bool} {y : Signed} (h : (subCreationFee config failure pays x).Passes y) :
    y.toInt = x.toInt - creationFeeIf config pays := by
  unfold subCreationFee creationFeeIf at *
  simp only [Checked.passes_bind, Checked.passes_check, Checked.passes_pure, Bool.not_eq_true'] at h
  obtain ⟨-, hfits, rfl⟩ := h
  cases pays with
  | false => simp
  | true =>
    simp only [if_true]
    exact toInt_addFlagged_creationFee hfits

theorem applyBalanceChange_passes (h : (applyBalanceChange config isNew u d t).Passes r) :
    r.account = { t.account with balance := r.account.balance }
      ∧ (r.account.balance : Int) = t.account.balance + d.toInt
      ∧ r.excess.toInt = t.excess.toInt - creationFeeIf config (isNew && !u.implicitAccountCreationFee)
      ∧ r.supplyIncrease.toInt = t.supplyIncrease.toInt - creationFeeIf config isNew
      ∧ (0 < d.toInt → u.controllerCheck t.account.permissions.receive = true)
      ∧ (d.toInt < 0 → u.controllerCheck t.account.permissions.send = true) := by
  unfold applyBalanceChange at h
  simp only [Checked.passes_bind, Checked.passes_check, Checked.passes_pure, Bool.not_eq_true',
    Bool.or_eq_true, Signed.equal_iff, Signed.toInt_ofUnsigned, Nat.cast_zero] at h
  obtain ⟨-, hfits, excess, hexcess, supplyIncrease, hsupply, -, hperm, rfl⟩ := h
  refine ⟨rfl, Amount.coe_addSignedFlagged hfits, subCreationFee_passes hexcess,
    subCreationFee_passes hsupply, fun hpos => ?_, fun hneg => ?_⟩
  · have hsgn : d.sgn = .pos := by
      by_contra hne
      exact absurd (Signed.toInt_nonpos_of_sgn hne) (not_le.2 hpos)
    rw [if_pos hsgn] at hperm
    exact hperm.resolve_right (ne_of_lt hpos)
  · have hsgn : d.sgn ≠ .pos := by
      intro he
      have hne : d.sgn ≠ .neg := by
        rw [he]
        decide
      exact absurd (Signed.toInt_nonneg_of_sgn hne) (not_le.2 hneg)
    rw [if_neg hsgn] at hperm
    exact hperm.resolve_right (ne_of_gt hneg)

theorem checkTiming_passes (h : (checkTiming slot a).Passes a') :
    a' = { a with timing := timingAfter slot a.timing } ∧ minBalance slot a.timing ≤ a.balance := by
  unfold checkTiming at h
  obtain ⟨herr, htiming⟩ := validateTimingWithMinBalance'_of_le slot (Nat.zero_le a.balance)
  generalize validateTimingWithMinBalance' a 0 slot = v at herr htiming h
  obtain ⟨e, timing, m⟩ := v
  obtain rfl : e = _ := herr
  obtain rfl : timing = _ := htiming
  simp only [Checked.passes_bind, Checked.passes_check, Checked.passes_pure, Checked.passes_ofOption,
    Option.some.injEq, exists_eq_left', Bool.not_eq_true', decide_eq_false_iff_not, Nat.sub_zero] at h
  obtain ⟨-, hmin, rfl⟩ := h
  exact ⟨rfl, Nat.not_lt.1 hmin⟩

/-- What an account update does to the timing and the balance. -/
structure FundsUpdatedBy (config : Config) (context : UpdateContext) (u : AccountUpdate) (t r : Updated) :
    Prop where
  timing : r.account.timing = timingAfter context.globalSlot (timingSet u t.account.timing)
  timingPermitted : u.timing.isSet = true →
    t.account.timing = .untimed ∧ u.controllerCheck t.account.permissions.setTiming = true
  minBalance : minBalance context.globalSlot (timingSet u t.account.timing) ≤ r.account.balance
  balance : (r.account.balance : Int) = t.account.balance + u.balanceChange.toInt
    - creationFeeIf config (context.accountIsNew && u.implicitAccountCreationFee)
  receivePermitted : t.account.balance < r.account.balance →
    u.controllerCheck t.account.permissions.receive = true
  sendPermitted : r.account.balance < t.account.balance →
    u.controllerCheck t.account.permissions.send = true
  newAmount : (context.accountIsNew && u.implicitAccountCreationFee) = true →
    t.account.balance ≤ r.account.balance
  creationToken : u.implicitAccountCreationFee = true → u.tokenId = TokenId.default
  excess : r.excess.toInt = t.excess.toInt
    - creationFeeIf config (context.accountIsNew && !u.implicitAccountCreationFee)
  supplyIncrease : r.supplyIncrease.toInt = t.supplyIncrease.toInt
    - creationFeeIf config context.accountIsNew

theorem updateFunds_passes (h : (updateFunds config context u t).Passes r) :
    (∃ timing balance, r.account = { t.account with timing, balance })
      ∧ FundsUpdatedBy config context u t r := by
  unfold updateFunds at h
  simp only [Checked.passes_bind, Checked.passes_pure] at h
  obtain ⟨a, htiming, d, hpay, t', hbalance, a', hcheck, rfl⟩ := h
  obtain ⟨rfl, hset⟩ := updateTiming_passes htiming
  obtain ⟨hd, hnonneg, htoken⟩ := payCreationFee_passes hpay
  obtain ⟨haccount, hsum, hexcess, hsupply, hreceive, hsend⟩ := applyBalanceChange_passes hbalance
  obtain ⟨rfl, hmin⟩ := checkTiming_passes hcheck
  obtain ⟨account', excess', supplyIncrease'⟩ := t'
  obtain ⟨pk', tokenId', symbol', balance', nonce', receipt', delegate', voting', timing', permissions',
    zkapp'⟩ := account'
  cases haccount
  dsimp only at hsum hexcess hsupply hreceive hsend hmin
  refine ⟨⟨_, _, rfl⟩, ?_⟩
  exact
    { timing := rfl
      timingPermitted := hset
      minBalance := hmin
      balance := by
        dsimp only
        omega
      receivePermitted := fun hlt => hreceive (by dsimp only at hlt; omega)
      sendPermitted := fun hlt => hsend (by dsimp only at hlt; omega)
      newAmount := fun hnew => by
        have hd' := hnonneg hnew
        dsimp only
        omega
      creationToken := htoken
      excess := hexcess
      supplyIncrease := hsupply }

/-! ### All of it -/

theorem checkPreconditions_passes (h : (checkPreconditions digests context u a).Passes ()) :
    u.accountPrecondition.nonce.check a.nonce = true := by
  unfold checkPreconditions at h
  simp only [Checked.passes_bind, Checked.passes_check, Checked.passes_checkAll] at h
  obtain ⟨-, -, -, hall, -⟩ := h
  exact hall (.accountNoncePreconditionUnsatisfied, u.accountPrecondition.nonce.check a.nonce)
    (by simp [AccountPrecondition.checks])

theorem checkAuthorization_eq (u : AccountUpdate) :
    u.checkAuthorization = (decide (u.authorization = .proof), decide (u.authorization = .signature)) := by
  unfold AccountUpdate.checkAuthorization
  cases u.authorization <;> rfl

theorem isProved_eq (u : AccountUpdate) : u.isProved = decide (u.authorizationKind.toControlTag = .proof) := by
  unfold AccountUpdate.isProved
  cases u.authorizationKind <;> rfl

theorem isSigned_eq (u : AccountUpdate) : u.isSigned = decide (u.authorizationKind.toControlTag = .signature) := by
  unfold AccountUpdate.isSigned
  cases u.authorizationKind <;> rfl

theorem checkAuthorized_passes {isStart : Bool} (h : (checkAuthorized isStart u).Passes ()) :
    u.authorization = u.authorizationKind.toControlTag
      ∧ (isStart = true → u.incrementNonce = true ∧ u.authorization = .signature)
      ∧ (u.authorization = .signature → u.incrementNonce = true ∧ u.accountPrecondition.nonce.isConstant = true
          ∨ u.useFullCommitment = true ∧ isStart = false) := by
  unfold checkAuthorized at h
  rw [checkAuthorization_eq, isProved_eq, isSigned_eq] at h
  simp only [Checked.passes_bind, Checked.passes_assert, Checked.passes_check, exists_const,
    Bool.or_eq_true, Bool.and_eq_true, Bool.not_eq_true', beq_iff_eq, decide_eq_decide,
    decide_eq_true_eq, decide_eq_false_iff_not] at h
  obtain ⟨hproof, hsignature, hinc, hsigned, hreplay⟩ := h
  refine ⟨?_, fun hstart => ?_, fun hs => ?_⟩
  · cases hauth : u.authorization with
    | proof => exact (hproof.1 hauth).symm
    | signature => exact (hsignature.1 hauth).symm
    | noneGiven =>
      cases hkind : u.authorizationKind.toControlTag with
      | proof =>
        rw [hproof.2 hkind] at hauth
        cases hauth
      | signature =>
        rw [hsignature.2 hkind] at hauth
        cases hauth
      | noneGiven => rfl
  · rw [hstart] at hinc hsigned
    exact ⟨hinc.resolve_right (by decide), hsigned.resolve_right (by decide)⟩
  · exact hreplay.resolve_right fun hno => hno hs

/-- What an account update that passes its checks does, and what it has checked. The
permissions are those of the account as it was. -/
structure UpdatedBy (config : Config) (context : UpdateContext) (u : AccountUpdate) (t r : Updated) :
    Prop where
  authorization : u.authorization = u.authorizationKind.toControlTag
  feePayer : context.isStart = true → u.incrementNonce = true ∧ u.authorization = .signature
  replay : u.authorization = .signature →
    u.incrementNonce = true ∧ u.accountPrecondition.nonce.isConstant = true
      ∨ u.useFullCommitment = true ∧ context.isStart = false
  noncePrecondition : u.accountPrecondition.nonce.check t.account.nonce = true
  publicKey : r.account.publicKey = t.account.publicKey
  tokenId : r.account.tokenId = u.tokenId
  funds : FundsUpdatedBy config context u t r
  access : u.controllerCheck t.account.permissions.access = true
  zkapp : ZkappUpdatedBy u t.account.permissions
    (t.account.zkapp.getD (ZkappAccount.default config.digests))
    (r.account.zkapp.getD (ZkappAccount.default config.digests))
  tokenSymbol : r.account.tokenSymbol ≠ t.account.tokenSymbol →
    u.controllerCheck t.account.permissions.setTokenSymbol = true
  delegateSet : u.delegate.isSet = true →
    u.controllerCheck t.account.permissions.setDelegate = true ∧ u.tokenId = TokenId.default
  delegateKept : u.delegate.isSet = false → Account.delegateOpt r.account.delegate
    = Account.delegateOpt (selfDelegate context.accountIsNew u t.account).delegate
  nonce : r.account.nonce
    = if u.incrementNonce then AccountNonce.succ t.account.nonce else t.account.nonce
  noncePermitted : u.incrementNonce = true →
    u.controllerCheck t.account.permissions.incrementNonce = true
  votingFor : r.account.votingFor ≠ t.account.votingFor →
    u.controllerCheck t.account.permissions.setVotingFor = true
  permissions : r.account.permissions ≠ t.account.permissions →
    u.controllerCheck t.account.permissions.setPermissions = true

theorem updateAccount_passes (h : (updateAccount config context u t).Passes r) : UpdatedBy config context u t r := by
  unfold updateAccount updateFields at h
  simp only [Checked.passes_bind, Checked.passes_pure] at h
  obtain ⟨_, hp, _, ha, t', hf, a₁, h₁, a₆, ⟨a₂, h₂, a₃, h₃, a₄, h₄, a₅, h₅, h₆⟩, rfl⟩ := h
  have hprecond := checkPreconditions_passes hp
  obtain ⟨hkind, hstart, hreplay⟩ := checkAuthorized_passes ha
  obtain ⟨⟨timing, balance, haccount⟩, hfunds⟩ := updateFunds_passes hf
  obtain ⟨account', excess', supplyIncrease'⟩ := t'
  obtain rfl : account' = _ := haccount
  obtain ⟨haccess, zkapp, rfl, hzkapp⟩ := updateZkapp_passes h₁
  obtain ⟨tokenSymbol, rfl, hsymbol⟩ := updateTokenSymbol_passes h₂
  obtain ⟨delegate, rfl, hset, hkept⟩ := updateDelegate_passes h₃
  obtain ⟨rfl, hinc⟩ := updateNonce_passes h₄
  obtain ⟨votingFor, rfl, hvoting⟩ := updateVotingFor_passes h₅
  obtain ⟨permissions, rfl, hperm⟩ := updatePermissions_passes h₆
  exact
    { authorization := hkind
      feePayer := hstart
      replay := hreplay
      noncePrecondition := hprecond
      publicKey := rfl
      tokenId := rfl
      funds := { hfunds with }
      access := haccess
      zkapp := hzkapp
      tokenSymbol := hsymbol
      delegateSet := hset
      delegateKept := hkept
      nonce := rfl
      noncePermitted := hinc
      votingFor := hvoting
      permissions := hperm }

end TransactionLogic

end MinaProtocol
