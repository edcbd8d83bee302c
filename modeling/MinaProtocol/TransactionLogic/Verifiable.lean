import MinaProtocol.TransactionLogic.VerificationKeys

/-!
# TransactionLogic.Verifiable

zkApp commands with the verification keys for their proofs, as the staged ledger gives them to
the verifier. The key for a proof is the one that the command itself has set before, or else the
one in a cache, which begins with the keys of the ledger and goes from command to command. The
cache keeps the first key that a command sets for an account (`getElem?_addVks`) and the ledger the
last one (`keysAfter_eq`).
-/

namespace MinaProtocol

/-! ### Forests -/

namespace CallForest

variable {A B S ε : Type}

/-- `Call_forest.map`. -/
def map (f : A → B) : CallForest A → CallForest B
  | .nil => .nil
  | .cons u calls rest => .cons (f u) (map f calls) (map f rest)

/-- `Call_forest.map` with a function that reads and writes a reference and may return early. -/
def mapState (f : S → A → Outcome ε (S × B)) : S → CallForest A → Outcome ε (S × CallForest B)
  | s, .nil => .ok (s, .nil)
  | s, .cons u calls rest => do
    let (s, u) ← f s u
    let (s, calls) ← mapState f s calls
    let (s, rest) ← mapState f s rest
    return (s, .cons u calls rest)

@[simp] theorem toList_map (f : A → B) (t : CallForest A) : (t.map f).toList = t.toList.map f := by
  induction t with
  | nil => rfl
  | cons u calls rest ihc ihr => simp [map, toList, ihc, ihr]

end CallForest

namespace AccountUpdate

/-- `Account_update.verification_key_update_to_option`. -/
def verificationKeyUpdateToOption (t : AccountUpdate) : SetOrKeep (Option VerificationKey) :=
  t.verificationKey.map some

/-- The key that the account update sets for an account. -/
def keySet (u : AccountUpdate) (id : AccountId) : Option VerificationKey :=
  match u.verificationKey with
  | .set vk => if u.accountId = id then some vk else none
  | .keep => none

end AccountUpdate

variable (us : List AccountUpdate)

/-- The first key that the account updates set for an account. -/
def firstKeySet (id : AccountId) : Option VerificationKey :=
  us.findSome? fun u => u.keySet id

/-- The last key that the account updates set for an account. -/
def lastKeySet (id : AccountId) : Option VerificationKey :=
  us.reverse.findSome? fun u => u.keySet id

/-- A proof is for the key that the account had before the account updates. -/
def UsesKey (id : AccountId) : Prop :=
  ∃ before u after, us = before ++ u :: after ∧ u.isProved = true ∧ u.accountId = id
    ∧ firstKeySet before id = none

section KeySet

variable (u : AccountUpdate) (us : List AccountUpdate) (id : AccountId)

theorem firstKeySet_cons : firstKeySet (u :: us) id = (u.keySet id).or (firstKeySet us id) := by
  unfold firstKeySet
  rw [List.findSome?_cons]
  cases u.keySet id <;> rfl

theorem lastKeySet_cons : lastKeySet (u :: us) id = (lastKeySet us id).or (u.keySet id) := by
  unfold lastKeySet
  rw [List.reverse_cons, List.findSome?_append]
  cases h : u.keySet id <;> simp [h]

theorem lastKeySet_eq_none_iff : lastKeySet us id = none ↔ firstKeySet us id = none := by
  simp [lastKeySet, firstKeySet, List.findSome?_eq_none_iff]

theorem AccountUpdate.keysAfter_eq (keys : Keys) : u.keysAfter keys id = (u.keySet id).or (keys id) := by
  unfold AccountUpdate.keysAfter AccountUpdate.keySet
  cases u.verificationKey with
  | keep => rfl
  | set vk =>
    by_cases h : u.accountId = id
    · subst h
      simp
    · simp [h, Ne.symm h]

theorem keysAfter_eq (keys : Keys) : keysAfter us keys id = (lastKeySet us id).or (keys id) := by
  induction us generalizing keys with
  | nil => rfl
  | cons u us ih =>
    change keysAfter us (u.keysAfter keys) id = _
    rw [ih, lastKeySet_cons, u.keysAfter_eq, Option.or_assoc]

theorem usesKey_cons : UsesKey (u :: us) id ↔
    u.isProved = true ∧ u.accountId = id ∨ u.keySet id = none ∧ UsesKey us id := by
  constructor
  · rintro ⟨before, v, after, heq, hproved, hid, hnone⟩
    cases before with
    | nil =>
      obtain ⟨rfl, -⟩ := List.cons.inj heq
      exact .inl ⟨hproved, hid⟩
    | cons w before =>
      obtain ⟨rfl, rfl⟩ := List.cons.inj heq
      rw [firstKeySet_cons, Option.or_eq_none_iff] at hnone
      exact .inr ⟨hnone.1, before, v, after, rfl, hproved, hid, hnone.2⟩
  · rintro (⟨hproved, hid⟩ | ⟨hnone, before, v, after, rfl, hproved, hid, hfirst⟩)
    · exact ⟨[], u, us, rfl, hproved, hid, rfl⟩
    · refine ⟨u :: before, v, after, rfl, hproved, hid, ?_⟩
      rw [firstKeySet_cons, hnone, hfirst]
      rfl

theorem UsesKey.mem {us : List AccountUpdate} {id : AccountId} (h : UsesKey us id) : ∃ u ∈ us, u.accountId = id := by
  obtain ⟨before, u, after, rfl, -, hid, -⟩ := h
  exact ⟨u, by simp, hid⟩

end KeySet

/-- **Keys other than the matching ones match exactly when they are the same for the accounts whose
key from before is used.** -/
theorem keysMatch_iff_of_keysMatch {us : List AccountUpdate} {keys cached : Keys} (h : KeysMatch keys us) :
    KeysMatch cached us ↔ ∀ id, UsesKey us id → cached id = keys id := by
  induction us generalizing keys cached with
  | nil =>
    refine iff_of_true trivial fun id huses => ?_
    obtain ⟨_, hmem, -⟩ := huses.mem
    cases hmem
  | cons u us ih =>
    obtain ⟨hproved, hrest⟩ := h
    rw [KeysMatch, ih hrest]
    constructor
    · rintro ⟨hcached, hall⟩ id huses
      rcases (usesKey_cons u us id).1 huses with ⟨hp, rfl⟩ | ⟨hnone, huses⟩
      · rw [hcached hp, hproved hp]
      · have hid := hall id huses
        rwa [u.keysAfter_eq, u.keysAfter_eq, hnone, Option.none_or, Option.none_or] at hid
    · intro hall
      refine ⟨fun hp => ?_, fun id huses => ?_⟩
      · rw [hall _ ((usesKey_cons u us _).2 (.inl ⟨hp, rfl⟩)), hproved hp]
      · rw [u.keysAfter_eq, u.keysAfter_eq]
        cases hset : u.keySet id with
        | some vk => rfl
        | none => rw [hall id ((usesKey_cons u us id).2 (.inr ⟨hset, huses⟩))]

theorem keysMatch_append {keys : Keys} {us vs : List AccountUpdate} :
    KeysMatch keys (us ++ vs) ↔ KeysMatch keys us ∧ KeysMatch (keysAfter us keys) vs := by
  induction us generalizing keys with
  | nil => simp [KeysMatch, keysAfter]
  | cons u us ih =>
    rw [List.cons_append, KeysMatch, ih, KeysMatch, and_assoc]
    rfl

/-- The errors of `Zkapp_command.Verifiable`, where the source has texts. -/
inductive VerifiableError where
  | unexpectedVkHash (expected got : Nat)
  | keyRemoved (accountId : AccountId)
  | keyNotInCache
  | authorizationKind (expected got : ControlTag)
deriving DecidableEq, Repr

/-- `Zkapp_command.check_authorization`. -/
def checkAuthorizationKind (p : AccountUpdate) : Outcome VerifiableError Unit :=
  match p.authorization, p.authorizationKind with
  | .noneGiven, .noneGiven => .ok ()
  | .proof, .proof _ => .ok ()
  | .signature, .signature => .ok ()
  | got, expected => .error (.authorizationKind expected.toControlTag got)

/-- `Zkapp_command.Verifiable.t`. -/
structure Verifiable where
  feePayer : FeePayer
  accountUpdates : CallForest (AccountUpdate × Option VerificationKey)
  memo : String
deriving DecidableEq, Repr

/-- `Zkapp_command.of_verifiable`. -/
def ofVerifiable (t : Verifiable) : ZkappCommand :=
  ⟨t.feePayer, t.accountUpdates.map Prod.fst, t.memo⟩

namespace Verifiable

open Std

/-! ### One command -/

/-- `Verifiable.ok_if_vk_hash_expected`. -/
def okIfVkHashExpected (got : VerificationKey) (expected : Nat) : Outcome VerifiableError VerificationKey :=
  if got ≠ expected then .error (.unexpectedVkHash expected got) else .ok got

/-- The keys that a command has set so far. -/
abbrev Overridden := ExtTreeMap AccountId (Option VerificationKey)

/-- The key for a proof: only the keys set by the account updates before count. -/
def prioritizedVk (findVk : Nat → AccountId → Outcome VerifiableError VerificationKey)
    (vksOverridden : Overridden) (accountId : AccountId) (vkHash : Nat) : Outcome VerifiableError VerificationKey :=
  match vksOverridden[accountId]? with
  | some (some vk) => okIfVkHashExpected vk vkHash
  | some none => .error (.keyRemoved accountId)
  | none => findVk vkHash accountId

/-- The keys set after an account update. -/
def override (vksOverridden : Overridden) (p : AccountUpdate) : Overridden :=
  match p.verificationKeyUpdateToOption with
  | .set vkNext => vksOverridden.insert p.accountId vkNext
  | .keep => vksOverridden

/-- What `Verifiable.create` does with an account update. -/
def createUpdate (failed : Bool) (findVk : Nat → AccountId → Outcome VerifiableError VerificationKey)
    (vksOverridden : Overridden) (p : AccountUpdate) :
    Outcome VerifiableError (Overridden × (AccountUpdate × Option VerificationKey)) := do
  checkAuthorizationKind p
  match p.authorizationKind, failed with
  | .proof vkHash, false => do
    let vk ← prioritizedVk findVk vksOverridden p.accountId vkHash
    return (override vksOverridden p, (p, some vk))
  | _, _ => return (override vksOverridden p, (p, none))

/-- `Verifiable.create`. -/
def create (t : ZkappCommand) (failed : Bool)
    (findVk : Nat → AccountId → Outcome VerifiableError VerificationKey) : Outcome VerifiableError Verifiable := do
  let (_, accountUpdates) ← t.accountUpdates.mapState (createUpdate failed findVk) ∅
  return { feePayer := t.feePayer, accountUpdates, memo := t.memo }

/-! ### An applied sequence -/

/-- `From_applied_sequence.Cache.t`. -/
abbrev Cache := ExtTreeMap AccountId VerificationKey

/-- `From_applied_sequence.Cache.find`. -/
def Cache.find (t : Cache) (accountId : AccountId) (vkHash : Nat) : Option VerificationKey := do
  let vk ← t[accountId]?
  if vkHash = vk then some vk else none

/-- `From_applied_sequence.Cache.add`. -/
def Cache.add (t : Cache) (accountId : AccountId) (vk : VerificationKey) : Cache := t.insert accountId vk

/-- `From_applied_sequence.Command_wrapper.is_failed`. -/
def isFailed {A : Type} (t : WithStatus A) : Bool :=
  match t.status with
  | .applied => false
  | .failed _ => true

/-- The key for a hash in the running cache. -/
def findInCache (runningCache : Cache) (vkHash : Nat) (accountId : AccountId) :
    Outcome VerifiableError VerificationKey :=
  Outcome.okOr (runningCache.find accountId vkHash) .keyNotInCache

/-- The running cache after a command. -/
def addVks (runningCache : Cache) (cmd : ZkappCommand) : Cache :=
  cmd.extractVks.foldl (fun acc p => acc.add p.1 p.2) runningCache

/-- `From_applied_sequence.create_all`. -/
def createAll : List (WithStatus ZkappCommand) → Cache → Outcome VerifiableError (List (WithStatus Verifiable))
  | [], _ => .ok []
  | wrappedCmd :: wrappedCmds, runningCache => do
    let cmd := wrappedCmd.data
    let cmdFailed := isFailed wrappedCmd
    let verifiedCmd ← create cmd cmdFailed (findInCache runningCache)
    -- the cache is only updated if the command is not failed
    let runningCache' := if !cmdFailed then addVks runningCache cmd else runningCache
    let verified ← createAll wrappedCmds runningCache'
    return wrappedCmd.map (fun _ => verifiedCmd) :: verified

/-- `Account_id.Map.of_alist_exn`. -/
def ofAlistExn (l : List (AccountId × VerificationKey)) : Outcome VerifiableError Cache :=
  if (l.map Prod.fst).Nodup then .ok (ExtTreeMap.ofList l) else .raise

/-- `Verifiable.load_vks_from_ledger`. -/
def loadVksFromLedger (ledger : TransactionLogic.Ledger) (accountIds : List AccountId) :
    Outcome VerifiableError Cache :=
  ofAlistExn ((accountIds.filterMap fun id => ledger[id]?).filterMap fun account => do
    let zkapp ← account.zkapp
    let verificationKey ← zkapp.verificationKey
    return (account.identifier, verificationKey))

/-- The accounts that commands mention, as `Applied_sequence.to_all_verifiable` collects them. -/
def accountsReferenced (cmds : List (WithStatus ZkappCommand)) : List AccountId :=
  (ExtTreeSet.ofList (cmds.flatMap fun c => c.data.accountsReferenced)).toList

/-! ### The keys that a command finds -/

variable (cached : Keys)

/-- The key that is found for an account: the one that the command has set, or else the one in the
cache. -/
def keysFound (vksOverridden : Overridden) : Keys := fun id =>
  (vksOverridden[id]?).getD (cached id)

theorem keysFound_override (vksOverridden : Overridden) (u : AccountUpdate) :
    keysFound cached (override vksOverridden u) = u.keysAfter (keysFound cached vksOverridden) := by
  funext id
  unfold keysFound override AccountUpdate.verificationKeyUpdateToOption AccountUpdate.keysAfter
  cases u.verificationKey with
  | keep => rfl
  | set vk =>
    simp only [SetOrKeep.map, ExtTreeMap.getElem?_insert, LawfulEqOrd.compare_eq_iff_eq]
    by_cases h : u.accountId = id
    · subst h
      simp
    · simp [h, Ne.symm h]

theorem keysFound_foldl (us : List AccountUpdate) (vksOverridden : Overridden) :
    keysFound cached (us.foldl override vksOverridden) = keysAfter us (keysFound cached vksOverridden) := by
  induction us generalizing vksOverridden with
  | nil => rfl
  | cons u us ih =>
    rw [List.foldl_cons, ih, keysFound_override]
    rfl

theorem keysFound_empty : keysFound cached ∅ = cached := by
  funext id
  simp [keysFound]

/-- The keys of a cache. -/
def Cache.keys (t : Cache) : Keys := fun id => t[id]?

variable {cache : Cache} {vksOverridden : Overridden}
  {vksOverridden' : Overridden} {vk : VerificationKey} {failed : Bool} {id : AccountId} {vkHash : Nat}

theorem findInCache_eq_ok : findInCache cache vkHash id = .ok vk ↔ cache.keys id = some vkHash ∧ vk = vkHash := by
  unfold findInCache Cache.find Cache.keys
  rw [Outcome.okOr_eq_ok]
  cases cache[id]? with
  | none => simp
  | some got =>
    by_cases h : vkHash = got
    · simp [h, eq_comm]
    · simp [h, Ne.symm h]

theorem prioritizedVk_eq_ok : prioritizedVk (findInCache cache) vksOverridden id vkHash = .ok vk ↔
      keysFound cache.keys vksOverridden id = some vkHash ∧ vk = vkHash := by
  unfold prioritizedVk keysFound
  cases vksOverridden[id]? with
  | none => exact findInCache_eq_ok
  | some o =>
    cases o with
    | none => simp
    | some got =>
      unfold okIfVkHashExpected
      by_cases h : got = vkHash
      · simp [h, eq_comm]
      · simp [h]

/-- An account update with the key that is attached to it. -/
def attach (failed : Bool) (u : AccountUpdate) : AccountUpdate × Option VerificationKey :=
  (u, if failed then none else u.verificationKeyHash)

theorem createUpdate_eq_ok {u : AccountUpdate} {r : AccountUpdate × Option VerificationKey}
    (hauth : checkAuthorizationKind u = .ok ()) :
    createUpdate failed (findInCache cache) vksOverridden u = .ok (vksOverridden', r) ↔
      (failed = false → u.isProved = true → keysFound cache.keys vksOverridden u.accountId = u.verificationKeyHash)
      ∧ vksOverridden' = override vksOverridden u ∧ r = attach failed u := by
  unfold createUpdate attach
  rw [hauth]
  cases hproved : u.isProved with
  | false =>
    have hnone := AccountUpdate.verificationKeyHash_of_not_isProved hproved
    unfold AccountUpdate.isProved at hproved
    rw [hnone]
    cases hkind : u.authorizationKind <;> simp_all [eq_comm]
  | true =>
    obtain ⟨hash, hkind, hhash⟩ := AccountUpdate.verificationKeyHash_of_isProved hproved
    rw [hkind, hhash]
    cases failed with
    | true => simp [eq_comm]
    | false =>
      simp only [Outcome.ok_bind, Outcome.bind_eq_ok, prioritizedVk_eq_ok, Outcome.pure_eq, Outcome.ok.injEq,
        Prod.mk.injEq]
      constructor
      · rintro ⟨_, ⟨hfound, rfl⟩, rfl, rfl⟩
        exact ⟨fun _ _ => hfound, rfl, rfl⟩
      · rintro ⟨hfound, rfl, rfl⟩
        exact ⟨hash, ⟨hfound trivial trivial, rfl⟩, rfl, rfl⟩

/-- **Going through a forest**: it takes that the keys that are found match. -/
theorem mapState_createUpdate_eq_ok {t : CallForest AccountUpdate}
    (hauth : ∀ u ∈ t.toList, checkAuthorizationKind u = .ok ())
    {t' : CallForest (AccountUpdate × Option VerificationKey)} :
    t.mapState (createUpdate failed (findInCache cache)) vksOverridden = .ok (vksOverridden', t') ↔
      (failed = false → KeysMatch (keysFound cache.keys vksOverridden) t.toList)
      ∧ vksOverridden' = t.toList.foldl override vksOverridden ∧ t' = t.map (attach failed) := by
  induction t generalizing vksOverridden vksOverridden' t' with
  | nil => simp [CallForest.mapState, CallForest.toList, CallForest.map, KeysMatch, eq_comm]
  | cons u calls rest ihc ihr =>
    simp only [CallForest.toList, List.mem_cons, List.mem_append] at hauth
    have hcalls := fun v hv => hauth v (.inr (.inl hv))
    have hrest := fun v hv => hauth v (.inr (.inr hv))
    simp only [CallForest.mapState, Outcome.bind_eq_ok, CallForest.toList, KeysMatch, keysMatch_append,
      List.foldl_cons, List.foldl_append, CallForest.map]
    constructor
    · rintro ⟨⟨_, _⟩, hu, ⟨_, _⟩, hc, ⟨_, _⟩, hr, h⟩
      obtain ⟨hu', rfl, rfl⟩ := (createUpdate_eq_ok (hauth u (.inl rfl))).1 hu
      obtain ⟨hc', rfl, rfl⟩ := (ihc hcalls).1 hc
      obtain ⟨hr', rfl, rfl⟩ := (ihr hrest).1 hr
      cases h
      rw [keysFound_override] at hc'
      rw [keysFound_foldl, keysFound_override] at hr'
      exact ⟨fun hf => ⟨hu' hf, hc' hf, hr' hf⟩, rfl, rfl⟩
    · rintro ⟨h, rfl, rfl⟩
      refine ⟨(_, _), (createUpdate_eq_ok (hauth u (.inl rfl))).2 ⟨fun hf => (h hf).1, rfl, rfl⟩,
        (_, _), (ihc hcalls).2 ⟨fun hf => ?_, rfl, rfl⟩, (_, _), (ihr hrest).2 ⟨fun hf => ?_, rfl, rfl⟩, rfl⟩
      · rw [keysFound_override]
        exact (h hf).2.1
      · rw [keysFound_foldl, keysFound_override]
        exact (h hf).2.2

/-- The command with its keys. -/
def verifiableOf (failed : Bool) (t : ZkappCommand) : Verifiable :=
  ⟨t.feePayer, t.accountUpdates.map (attach failed), t.memo⟩

/-- **One command gets its keys exactly when those that it finds match its proofs.** -/
theorem create_eq_ok {t : ZkappCommand} {v : Verifiable}
    (hauth : ∀ u ∈ t.accountUpdates.toList, checkAuthorizationKind u = .ok ()) :
    create t failed (findInCache cache) = .ok v ↔
      (failed = false → KeysMatch cache.keys t.accountUpdates.toList) ∧ v = verifiableOf failed t := by
  unfold create
  simp only [Outcome.bind_eq_ok, Prod.exists, mapState_createUpdate_eq_ok hauth, keysFound_empty,
    Outcome.pure_eq, Outcome.ok.injEq]
  constructor
  · rintro ⟨_, _, ⟨h, rfl, rfl⟩, rfl⟩
    exact ⟨h, rfl⟩
  · rintro ⟨h, rfl⟩
    exact ⟨_, _, ⟨h, rfl, rfl⟩, rfl⟩

/-! ### The running cache -/

/-- The key that an account update sets, with its account. -/
def vkSet (u : AccountUpdate) : Option (AccountId × VerificationKey) :=
  match u.verificationKey with
  | .set vk => some (u.accountId, vk)
  | .keep => none

theorem extractVks_eq (t : ZkappCommand) : t.extractVks = (t.accountUpdates.toList.filterMap vkSet).reverse := by
  have hfold : ∀ (us : List AccountUpdate) (acc : List (AccountId × VerificationKey)),
      us.foldl ZkappCommand.consVk acc = (us.filterMap vkSet).reverse ++ acc := by
    intro us
    induction us with
    | nil => exact fun _ => rfl
    | cons u us ih =>
      intro acc
      rw [List.foldl_cons, ih, List.filterMap_cons]
      unfold ZkappCommand.consVk vkSet
      cases u.verificationKey <;> simp
  unfold ZkappCommand.extractVks
  rw [CallForest.fold_eq_foldl, hfold, List.append_nil]

/-- **The cache keeps the first key that a command sets for an account.** -/
theorem getElem?_addVks (cache : Cache) (t : ZkappCommand) (id : AccountId) :
    (addVks cache t).keys id = (firstKeySet t.accountUpdates.toList id).or (cache.keys id) := by
  unfold addVks
  rw [extractVks_eq, List.foldl_reverse]
  induction t.accountUpdates.toList with
  | nil => rfl
  | cons u us ih =>
    rw [firstKeySet_cons, Option.or_assoc, ← ih, List.filterMap_cons]
    unfold vkSet AccountUpdate.keySet
    cases u.verificationKey with
    | keep => rfl
    | set vk =>
      unfold Cache.keys Cache.add
      rw [List.foldr_cons, ExtTreeMap.getElem?_insert]
      simp only [LawfulEqOrd.compare_eq_iff_eq]
      split <;> rfl

end Verifiable

end MinaProtocol
