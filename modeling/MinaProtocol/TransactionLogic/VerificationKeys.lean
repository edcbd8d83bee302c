import MinaProtocol.TransactionLogic.AllOrNothing

/-!
# TransactionLogic.VerificationKeys

The verification keys of a ledger while the account updates of a command run: an account update
writes the key it sets (`HasEffect.keyIn`), and one that is authorized by a proof has named the
key that its account had (`KeysMatch`).
-/

namespace MinaProtocol

/-- The keys of accounts. -/
abbrev Keys := AccountId → Option VerificationKey

namespace AccountUpdate

/-- The keys after an account update. -/
def keysAfter (u : AccountUpdate) (keys : Keys) : Keys :=
  match u.verificationKey with
  | .set vk => Function.update keys u.accountId (some vk)
  | .keep => keys

theorem keysAfter_self (u : AccountUpdate) (keys : Keys) :
    u.keysAfter keys u.accountId = (u.verificationKey.map some).setOrKeep (keys u.accountId) := by
  unfold keysAfter
  cases u.verificationKey with
  | set vk => simp [SetOrKeep.map, SetOrKeep.setOrKeep]
  | keep => rfl

theorem keysAfter_of_ne (u : AccountUpdate) (keys : Keys) {id : AccountId} (h : id ≠ u.accountId) :
    u.keysAfter keys id = keys id := by
  unfold keysAfter
  cases u.verificationKey with
  | set vk => simp [h]
  | keep => rfl

variable {u : AccountUpdate}

theorem verificationKeyHash_of_not_isProved (h : u.isProved = false) : u.verificationKeyHash = none := by
  unfold isProved at h
  unfold verificationKeyHash
  cases hkind : u.authorizationKind <;> simp_all

theorem verificationKeyHash_of_isProved (h : u.isProved = true) :
    ∃ hash, u.authorizationKind = .proof hash ∧ u.verificationKeyHash = some hash := by
  unfold isProved at h
  unfold verificationKeyHash
  cases hkind : u.authorizationKind <;> simp_all

end AccountUpdate

/-- The keys after account updates. -/
def keysAfter (us : List AccountUpdate) (keys : Keys) : Keys :=
  us.foldl (fun keys u => u.keysAfter keys) keys

/-- Every account update that is authorized by a proof names the key that its account has. -/
def KeysMatch : Keys → List AccountUpdate → Prop
  | _, [] => True
  | keys, u :: us =>
    (u.isProved = true → keys u.accountId = u.verificationKeyHash) ∧ KeysMatch (u.keysAfter keys) us

theorem keysMatch_iff {keys : Keys} {us : List AccountUpdate} :
    KeysMatch keys us ↔ ∀ k u, us[k]? = some u → u.isProved = true →
      keysAfter (us.take k) keys u.accountId = u.verificationKeyHash := by
  induction us generalizing keys with
  | nil => simp [KeysMatch]
  | cons v us ih =>
    rw [KeysMatch, ih]
    constructor
    · intro ⟨hv, hus⟩ k u hu
      cases k with
      | zero =>
        obtain rfl : v = u := by simpa using hu
        exact hv
      | succ k => exact hus k u (by simpa using hu)
    · intro h
      exact ⟨h 0 v rfl, fun k u hu => h (k + 1) u (by simpa using hu)⟩

namespace TransactionLogic

open Std

/-! ### One account update -/

theorem verificationKeyHash_eq_getD (digests : Digests) (a : Account) :
    a.verificationKeyHash = (a.zkapp.getD (ZkappAccount.default digests)).verificationKey := by
  unfold Account.verificationKeyHash
  cases a.zkapp with
  | none => rfl
  | some zkapp => rfl

variable {a a' : Account}

theorem verificationKeyHash_congr (h : a.zkapp = a'.zkapp) : a.verificationKeyHash = a'.verificationKeyHash := by
  unfold Account.verificationKeyHash
  rw [h]

variable {u : AccountUpdate} {context : UpdateContext} {config : Config} {t r : Updated}

theorem updateVerificationKey_eq {zkapp : ZkappAccount}
    (hz : a.zkapp = some zkapp) (h : (updateVerificationKey u a).Passes a') : a' = { a with zkapp := some { zkapp with
      verificationKey := (u.verificationKey.map some).setOrKeep zkapp.verificationKey } } := by
  unfold updateVerificationKey at h
  simp only [Checked.passes_bind, Checked.passes_pure, Checked.passes_ofOption, hz, Option.some.injEq] at h
  obtain ⟨_, rfl, verificationKey, hset, ha'⟩ := h
  rw [setZkapp_of_some hz] at ha'
  rw [ha', (setField_passes hset).1]

theorem updateZkapp_verificationKeyHash (h : (updateZkapp config context u a).Passes a') :
    a'.verificationKeyHash = (u.verificationKey.map some).setOrKeep a.verificationKeyHash := by
  unfold updateZkapp checkAccess at h
  simp only [Checked.passes_bind, Checked.passes_pure, Checked.passes_check] at h
  obtain ⟨-, -, a₁, h₁, a₂, h₂, a₃, h₃, a₄, h₄, ha'⟩ := h
  obtain ⟨provedState, appState, rfl, -⟩ := updateAppState_passes rfl h₁
  obtain rfl := updateVerificationKey_eq rfl h₂
  obtain ⟨actionState, lastActionSlot, rfl, -⟩ := updateActions_passes rfl h₃
  obtain ⟨zkappUri, ha₄, -⟩ := updateZkappUri_passes rfl h₄
  obtain ⟨o, ho, hget⟩ := unmakeZkapp_of_some config.digests (congrArg Account.zkapp ha₄)
  rw [ho, ha₄] at ha'
  rw [ha', verificationKeyHash_eq_getD config.digests, verificationKeyHash_eq_getD config.digests a]
  dsimp only
  rw [hget]

theorem checkPreconditions_verificationKeyHash {digests : Digests}
    (h : (checkPreconditions digests context u a).Passes ())
    (hproved : u.isProved = true) : a.verificationKeyHash = u.verificationKeyHash := by
  unfold checkPreconditions at h
  simp only [Checked.passes_bind, Checked.passes_check] at h
  obtain ⟨-, hkey, -⟩ := h
  simpa [hproved] using hkey

theorem updateAccount_updateZkapp (h : (updateAccount config context u t).Passes r) :
    ∃ a a', a.zkapp = t.account.zkapp ∧ (updateZkapp config context u a).Passes a'
      ∧ r.account.zkapp = a'.zkapp := by
  unfold updateAccount updateFields at h
  simp only [Checked.passes_bind, Checked.passes_pure] at h
  obtain ⟨_, -, _, -, t', hf, a₁, h₁, a₆, ⟨a₂, h₂, a₃, h₃, a₄, h₄, a₅, h₅, h₆⟩, rfl⟩ := h
  obtain ⟨⟨timing, balance, haccount⟩, -⟩ := updateFunds_passes hf
  obtain ⟨tokenSymbol, h₂, -⟩ := updateTokenSymbol_passes h₂
  obtain ⟨delegate, h₃, -⟩ := updateDelegate_passes h₃
  obtain ⟨h₄, -⟩ := updateNonce_passes h₄
  obtain ⟨votingFor, h₅, -⟩ := updateVotingFor_passes h₅
  obtain ⟨permissions, h₆, -⟩ := updatePermissions_passes h₆
  refine ⟨t'.account, a₁, ?_, h₁, ?_⟩
  · rw [haccount]
    rfl
  · change a₆.zkapp = a₁.zkapp
    rw [h₆]
    change a₅.zkapp = a₁.zkapp
    rw [h₅, h₄, h₃, h₂]

/-- **The key that an account update leaves**, and the one that its proof is for. -/
theorem updateAccount_verificationKeyHash (h : (updateAccount config context u t).Passes r) :
    r.account.verificationKeyHash = (u.verificationKey.map some).setOrKeep t.account.verificationKeyHash
      ∧ (u.isProved = true → t.account.verificationKeyHash = u.verificationKeyHash) := by
  constructor
  · obtain ⟨a, a', ha, hzkapp, ha'⟩ := updateAccount_updateZkapp h
    rw [verificationKeyHash_congr ha', updateZkapp_verificationKeyHash hzkapp, verificationKeyHash_congr ha]
  · intro hproved
    unfold updateAccount at h
    simp only [Checked.passes_bind] at h
    obtain ⟨_, hp, -⟩ := h
    have hself : (selfDelegate context.accountIsNew u t.account).zkapp = t.account.zkapp := rfl
    rw [← verificationKeyHash_congr hself]
    exact checkPreconditions_verificationKeyHash hp hproved

/-! ### The ledger -/

/-- The keys of the accounts of a ledger. -/
def keyIn (ledger : Ledger) : Keys := fun id => ledger[id]?.bind Account.verificationKeyHash

theorem keyIn_insert (ledger : Ledger) (id other : AccountId) (a : Account) :
    keyIn (ledger.insert id a) other = if id = other then a.verificationKeyHash else keyIn ledger other := by
  unfold keyIn
  rw [ExtTreeMap.getElem?_insert]
  simp only [LawfulEqOrd.compare_eq_iff_eq]
  split
  · rfl
  · rfl

theorem keyIn_getWithLocation (digests : Digests) (ledger : Ledger) (id : AccountId) :
    (getWithLocation digests ledger id).2.verificationKeyHash = keyIn ledger id := by
  unfold getWithLocation keyIn
  cases ledger[id]? with
  | some a => rfl
  | none => rfl

section Keys

variable {config : Config}
  {states : List (GlobalState × LocalState)} {c : ZkappCommandPartiallyApplied} {stateView : ProtocolStateView} {globalSlot : GlobalSlot} {command : ZkappCommand} {ledger' ledger : Ledger}

/-- **An account update writes the key it sets**, and its proof is for the key that is there. -/
theorem HasEffect.keyIn {env : Env} {isStart : Bool} {index : UInt32} {u : AccountUpdate}
    {callerId : Nat} {w w' : Working} (h : HasEffect config env isStart index u callerId w w') :
    keyIn w'.ledger = u.keysAfter (keyIn w.ledger)
      ∧ (u.isProved = true → TransactionLogic.keyIn w.ledger u.accountId = u.verificationKeyHash) := by
  obtain ⟨location, before, after, h⟩ := h
  have hbefore := keyIn_getWithLocation config.digests w.ledger u.accountId
  rw [h.read] at hbefore
  obtain ⟨hkey, hproved⟩ := updateAccount_verificationKeyHash h.passes
  dsimp only at hbefore hkey hproved
  rw [hbefore] at hkey hproved
  refine ⟨?_, hproved⟩
  funext id
  rw [h.ledger, keyIn_insert]
  by_cases hid : u.accountId = id
  · rw [if_pos hid, hkey, ← hid, u.keysAfter_self]
  · rw [if_neg hid, u.keysAfter_of_ne _ (Ne.symm hid)]

theorem FirstPassed.keyIn (h : FirstPassed config globalSlot stateView ledger command ledger' c) :
    keyIn ledger' = keyIn ledger := by
  obtain ⟨w', heffect, rfl⟩ := h.feePayer
  exact heffect.keyIn.1

/-- What the second pass does to the keys, where `states` are those before each account update
and the last one. -/
structure KeysApplied (ledger ledger' : Ledger) (us : List AccountUpdate)
    (states : List (GlobalState × LocalState)) : Prop where
  before : ∀ k ≤ us.length, ∃ s, states[k]? = some s
    ∧ keyIn (workingLedger s) = keysAfter (us.take k) (keyIn ledger)
  after : keyIn ledger' = keysAfter us (keyIn ledger)
  matching : KeysMatch (keyIn ledger) us

theorem Trace.keysApplied {state : GlobalState × LocalState} (h : Trace config state states) {rest : List Visit}
    (hrem : Remaining config.digests.deriveTokenId state.2.stackFrame state.2.callStack rest) (hagrees : state.2.Agrees)
    (hempty : FailureCollection.isEmpty (lastState state states).2.failureStatusTbl = true) :
    KeysApplied (workingLedger state) (lastState state states).1.secondPassLedger
      (rest.map Visit.accountUpdate) (state :: states) := by
  have hlength := h.length_eq hrem hagrees
  have hstep : ∀ k v, rest[k]? = some v → ∀ s, (state :: states)[k]? = some s →
      ∃ s', (state :: states)[k + 1]? = some s'
        ∧ keyIn (workingLedger s') = v.accountUpdate.keysAfter (keyIn (workingLedger s))
        ∧ (v.accountUpdate.isProved = true → keyIn (workingLedger s) v.accountUpdate.accountId
          = v.accountUpdate.verificationKeyHash) := by
    intro k v hv s hs
    have hk : k < states.length := hlength ▸ (List.getElem?_eq_some_iff.1 hv).1
    have hs' : states[k]? = some states[k] := List.getElem?_eq_getElem hk
    obtain ⟨index, w, w', heffect, hw, hw'⟩ := h.hasEffect hrem hagrees hempty hv hs hs'
    obtain ⟨hkeys, hproved⟩ := heffect.keyIn
    refine ⟨states[k], by simp, ?_, ?_⟩
    · rw [hw', hw, hkeys]
    · rw [hw]
      exact hproved
  -- the first `k` account updates, by induction on `k`
  have hstates : ∀ k ≤ (rest.map Visit.accountUpdate).length, ∃ s, (state :: states)[k]? = some s
      ∧ keyIn (workingLedger s)
        = keysAfter ((rest.map Visit.accountUpdate).take k) (keyIn (workingLedger state)) := by
    intro k
    induction k with
    | zero => exact fun _ => ⟨state, rfl, rfl⟩
    | succ k ih =>
      intro hk
      obtain ⟨s, hs, hkeys⟩ := ih (Nat.le_of_succ_le hk)
      rw [List.length_map] at hk
      obtain ⟨s', hs', hkeys', -⟩ := hstep k _ (List.getElem?_eq_getElem hk) s hs
      refine ⟨s', hs', ?_⟩
      rw [hkeys', hkeys, List.take_add_one, List.getElem?_map, List.getElem?_eq_getElem hk]
      simp [keysAfter, List.foldl_append]
  refine ⟨hstates, ?_, ?_⟩
  · obtain ⟨s, hs, hkeys⟩ := hstates _ le_rfl
    rw [List.length_map, ← hlength] at hs
    obtain rfl : s = lastState state states := by
      have hlast := getLast?_cons_eq_lastState state states
      rw [List.getLast?_eq_getElem?, List.length_cons, Nat.add_sub_cancel] at hlast
      exact Option.some.inj (hs.symm.trans hlast)
    rw [h.workingLedger_last, List.take_length] at hkeys
    exact hkeys
  · refine keysMatch_iff.2 fun k u hu hproved => ?_
    obtain ⟨s, hs, hkeys⟩ := hstates k (List.getElem?_eq_some_iff.1 hu).1.le
    rw [List.getElem?_map, Option.map_eq_some_iff] at hu
    obtain ⟨v, hv, rfl⟩ := hu
    obtain ⟨-, -, -, hmatch⟩ := hstep k v hv s hs
    rw [← hkeys]
    exact hmatch hproved

/-- **The keys of a command that is applied** are set one after the other, and every proof is
for the key of its account. One that fails sets none. -/
theorem applyZkappCommandSecondPassAux_keys {ledger₀ ledger₁ : Ledger} {applied : ZkappCommandApplied}
    (hfirst : FirstPassed config globalSlot stateView ledger₀ command ledger₁ c)
    (h : applyZkappCommandSecondPassAux config collectStates [] ledger c = .ok (ledger', applied, states)) :
    applied.command = command
      ∧ (applied.status = .applied → KeysApplied ledger ledger' command.accountUpdates.toList states)
      ∧ (applied.status ≠ .applied → ledger' = ledger) := by
  obtain ⟨states, htrace, rfl, rfl, hfinish⟩ := applyZkappCommandSecondPassAux_eq_ok.1 h
  obtain ⟨hcommand, hstatus, -, -⟩ := finishSecondPass_ok hfinish
  refine ⟨hcommand.trans hfirst.command_eq, fun happlied => ?_, ?_⟩
  · have hkeys := htrace.keysApplied (secondPassStart_remaining hfirst ledger)
      (secondPassStart_agrees ledger hfirst.agrees) (hstatus.1 happlied)
    rw [secondPassStart_workingLedger, visits_map_accountUpdate] at hkeys
    rw [foldl_collectStates]
    exact hkeys
  · intro hfailed
    have hpass := applyZkappCommandSecondPass_eq_ok.2 ⟨states, htrace, rfl, hfinish⟩
    exact ((applyZkappCommandSecondPass_ok hfirst hpass).2 hfailed).1

end Keys

end TransactionLogic

end MinaProtocol
