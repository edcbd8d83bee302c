import MinaProtocol.TransactionLogic.Verifiable

/-!
# TransactionLogic.AppliedSequence

The verification keys that are attached to an applied sequence, against those of the ledger that
the sequence was applied to. The running cache keeps the first key that a command sets for an
account, the ledger the last one, and this is the only way in which the two differ
(`attached_iff`).
-/

namespace MinaProtocol.TransactionLogic

open Std
open Verifiable

/-! ### Applying commands -/

/-- A command that was applied, with its status and the states of its second pass: those before
each of its account updates and the last one. -/
structure Executed where
  command : WithStatus ZkappCommand
  states : List (GlobalState × LocalState)

/-- Applying commands in order to a ledger. The commands that have had their first pass only wait
for the second one, so that the passes may come command by command or in two rounds. -/
inductive Applying (config : Config) :
    List ZkappCommandPartiallyApplied → Ledger → List Executed → Ledger → Prop where
  | nil {ledger : Ledger} : Applying config [] ledger [] ledger
  | firstPass {waiting : List ZkappCommandPartiallyApplied} {globalSlot : GlobalSlot}
      {stateView : ProtocolStateView} {feeExcess supplyIncrease : Signed} {ledger ledger₁ ledger' : Ledger}
      {command : ZkappCommand} {c : ZkappCommandPartiallyApplied} {run : List Executed} :
      applyZkappCommandFirstPass config globalSlot stateView feeExcess supplyIncrease ledger command
        = .ok (ledger₁, c) →
      Applying config (waiting ++ [c]) ledger₁ run ledger' → Applying config waiting ledger run ledger'
  | secondPass {waiting : List ZkappCommandPartiallyApplied} {ledger ledger₁ ledger' : Ledger}
      {c : ZkappCommandPartiallyApplied} {applied : ZkappCommandApplied}
      {states : List (GlobalState × LocalState)} {run : List Executed} :
      applyZkappCommandSecondPassAux config collectStates [] ledger c = .ok (ledger₁, applied, states) →
      Applying config waiting ledger₁ run ledger' →
      Applying config (c :: waiting) ledger (⟨⟨applied.command, applied.status⟩, states⟩ :: run) ledger'

/-! ### The keys along a sequence -/

/-- The account updates of a command besides the fee payer. -/
def updatesOfCommand (c : WithStatus ZkappCommand) : List AccountUpdate := c.data.accountUpdates.toList

/-- The proofs of the applied commands match the keys, which go on by `next`. -/
def Matches (next : Keys → WithStatus ZkappCommand → Keys) : Keys → List (WithStatus ZkappCommand) → Prop
  | _, [] => True
  | keys, c :: cs => (isFailed c = false → KeysMatch keys (updatesOfCommand c)) ∧ Matches next (next keys c) cs

/-- The keys of the ledger after a command. -/
def ledgerKeys (keys : Keys) (c : WithStatus ZkappCommand) : Keys :=
  if isFailed c then keys else keysAfter (updatesOfCommand c) keys

/-- The keys of the cache after a command. -/
def cacheKeys (keys : Keys) (c : WithStatus ZkappCommand) : Keys :=
  if isFailed c then keys else fun id => (firstKeySet (updatesOfCommand c) id).or (keys id)

/-- The accounts with another key in the ledger than in the cache after a command: those for which
it has set a key and then another one. -/
def outdatedAfter (outdated : AccountId → Prop) (c : WithStatus ZkappCommand) (id : AccountId) : Prop :=
  if isFailed c = true ∨ firstKeySet (updatesOfCommand c) id = none then outdated id
  else firstKeySet (updatesOfCommand c) id ≠ lastKeySet (updatesOfCommand c) id

/-- An applied command has a proof for the key that an outdated account had before it. -/
def UsesOutdated : (AccountId → Prop) → List (WithStatus ZkappCommand) → Prop
  | _, [] => False
  | outdated, c :: cs =>
    (isFailed c = false ∧ ∃ id, UsesKey (updatesOfCommand c) id ∧ outdated id)
      ∨ UsesOutdated (outdatedAfter outdated c) cs

variable {c : WithStatus ZkappCommand}

theorem isFailed_eq_false_iff : isFailed c = false ↔ c.status = .applied := by
  unfold isFailed
  cases c.status <;> simp

variable {outdated : AccountId → Prop} {keys : Keys} {id : AccountId} {cached : Keys}

theorem agree_after (h : cached id = keys id ↔ ¬ outdated id) (c : WithStatus ZkappCommand) :
    cacheKeys cached c id = ledgerKeys keys c id ↔ ¬ outdatedAfter outdated c id := by
  unfold cacheKeys ledgerKeys outdatedAfter
  cases isFailed c with
  | true =>
    rw [if_pos rfl, if_pos rfl, if_pos (.inl rfl)]
    exact h
  | false =>
    rw [if_neg (by decide), if_neg (by decide), keysAfter_eq]
    cases hfirst : firstKeySet (updatesOfCommand c) id with
    | none =>
      rw [if_pos (.inr rfl), (lastKeySet_eq_none_iff _ _).2 hfirst]
      exact h
    | some first =>
      cases hlast : lastKeySet (updatesOfCommand c) id with
      | none =>
        rw [(lastKeySet_eq_none_iff _ _).1 hlast] at hfirst
        cases hfirst
      | some last => simp

variable {cs : List (WithStatus ZkappCommand)} {ledger : Ledger} {ids : List AccountId} {run : List Executed}
  {commands : List ZkappCommand} {ledger' : Ledger} {config : Config}

/-- **The cache matches the proofs of a sequence that the ledger matches exactly when no proof is
for a key that is outdated in the cache.** -/
theorem matches_cacheKeys_iff {mentioned : AccountId → Prop}
    (hmentioned : ∀ c ∈ cs, ∀ u ∈ updatesOfCommand c, mentioned u.accountId)
    (hagree : ∀ id, mentioned id → (cached id = keys id ↔ ¬ outdated id))
    (h : Matches ledgerKeys keys cs) : Matches cacheKeys cached cs ↔ ¬ UsesOutdated outdated cs := by
  induction cs generalizing keys cached outdated with
  | nil => exact iff_of_true trivial not_false
  | cons c cs ih =>
    obtain ⟨hc, hcs⟩ := h
    obtain ⟨hhere, hlater⟩ := List.forall_mem_cons.1 hmentioned
    rw [Matches, UsesOutdated, not_or, ih hlater (fun id hid => agree_after (hagree id hid) c) hcs]
    refine and_congr_left fun _ => ?_
    rw [not_and]
    refine forall_congr' fun happlied => ?_
    rw [keysMatch_iff_of_keysMatch (hc happlied), not_exists]
    refine forall_congr' fun id => ?_
    rw [not_and]
    refine forall_congr' fun huses => hagree id ?_
    obtain ⟨u, hu, rfl⟩ := huses.mem
    exact hhere u hu

/-! ### The cache -/

theorem cacheKeys_eq (cache : Cache) (c : WithStatus ZkappCommand) :
    (if !isFailed c then addVks cache c.data else cache).keys = cacheKeys cache.keys c := by
  unfold cacheKeys
  cases isFailed c with
  | true => rfl
  | false =>
    funext id
    exact getElem?_addVks cache c.data id

/-- A command with the keys that are attached to it. -/
def verifiedOf (c : WithStatus ZkappCommand) : WithStatus Verifiable :=
  c.map (verifiableOf (isFailed c))

/-- **All commands get their keys exactly when those in the cache match their proofs.** -/
theorem createAll_eq_ok {cache : Cache} {verified : List (WithStatus Verifiable)}
    (hauth : ∀ c ∈ cs, ∀ u ∈ updatesOfCommand c, checkAuthorizationKind u = .ok ()) :
    createAll cs cache = .ok verified ↔ Matches cacheKeys cache.keys cs ∧ verified = cs.map verifiedOf := by
  induction cs generalizing cache verified with
  | nil => simp [createAll, Matches, eq_comm]
  | cons c cs ih =>
    obtain ⟨hhere, hlater⟩ := List.forall_mem_cons.1 hauth
    unfold createAll
    simp only [Outcome.bind_eq_ok, create_eq_ok hhere, ih hlater, cacheKeys_eq, Matches, Outcome.pure_eq,
      Outcome.ok.injEq]
    constructor
    · rintro ⟨_, ⟨hc, rfl⟩, _, ⟨hcs, rfl⟩, rfl⟩
      exact ⟨⟨hc, hcs⟩, rfl⟩
    · rintro ⟨⟨hc, hcs⟩, rfl⟩
      exact ⟨_, ⟨hc, rfl⟩, _, ⟨hcs, rfl⟩, rfl⟩

/-- Every account is stored under its identifier. -/
def Keyed (ledger : Ledger) : Prop :=
  ∀ (id : AccountId) (a : Account), ledger[id]? = some a → a.identifier = id

/-- The keys of accounts as a list. -/
def entries (keys : Keys) (ids : List AccountId) : List (AccountId × VerificationKey) :=
  ids.filterMap fun id => (keys id).map fun vk => (id, vk)

theorem loadVksFromLedger_eq (hkeyed : Keyed ledger)
    (ids : List AccountId) : loadVksFromLedger ledger ids = ofAlistExn (entries (keyIn ledger) ids) := by
  unfold loadVksFromLedger entries
  rw [List.filterMap_filterMap]
  refine congrArg ofAlistExn (List.filterMap_congr fun id _ => ?_)
  unfold keyIn
  cases hget : ledger[id]? with
  | none => rfl
  | some a =>
    rw [Option.bind_some, Option.bind_some, hkeyed id a hget]
    unfold Account.verificationKeyHash
    cases hz : a.zkapp with
    | none => simp
    | some zkapp => cases hvk : zkapp.verificationKey <;> simp [hvk]

theorem nodup_entries (keys : Keys) (h : ids.Nodup) : ((entries keys ids).map Prod.fst).Nodup := by
  have hsub : ((entries keys ids).map Prod.fst).Sublist ids := by
    unfold entries
    induction ids with
    | nil => exact .refl _
    | cons id ids ih =>
      have ih := ih (List.nodup_cons.1 h).2
      rw [List.filterMap_cons]
      cases keys id with
      | none => exact ih.cons id
      | some vk => exact ih.cons_cons id
  exact h.sublist hsub

theorem mem_entries {vk : VerificationKey} : (id, vk) ∈ entries keys ids ↔ id ∈ ids ∧ keys id = some vk := by
  unfold entries
  simp only [List.mem_filterMap, Option.map_eq_some_iff, Prod.mk.injEq]
  constructor
  · rintro ⟨_, hid, _, hvk, rfl, rfl⟩
    exact ⟨hid, hvk⟩
  · rintro ⟨hid, hvk⟩
    exact ⟨id, hid, vk, hvk, rfl, rfl⟩

/-- **The cache that is loaded has the keys of the ledger.** -/
theorem loadVksFromLedger_ok (hkeyed : Keyed ledger) (hnodup : ids.Nodup) :
    ∃ cache, loadVksFromLedger ledger ids = .ok cache ∧ ∀ id ∈ ids, cache.keys id = keyIn ledger id := by
  refine ⟨ExtTreeMap.ofList (entries (keyIn ledger) ids), ?_, fun id hid => ?_⟩
  · rw [loadVksFromLedger_eq hkeyed]
    exact if_pos (nodup_entries _ hnodup)
  · unfold Cache.keys
    cases hkey : keyIn ledger id with
    | none =>
      refine ExtTreeMap.getElem?_ofList_of_contains_eq_false ?_
      rw [← Bool.not_eq_true, List.contains_iff_mem]
      intro hmem
      obtain ⟨⟨_, vk⟩, hentry, rfl⟩ := List.mem_map.1 hmem
      have hvk := (mem_entries.1 hentry).2
      rw [hkey] at hvk
      cases hvk
    | some vk =>
      refine ExtTreeMap.getElem?_ofList_of_mem ReflCmp.compare_self ?_ (mem_entries.2 ⟨hid, hkey⟩)
      have hpairwise := List.pairwise_map.1 (nodup_entries (keyIn ledger) hnodup)
      exact hpairwise.imp fun hne heq => hne (LawfulEqOrd.compare_eq_iff_eq.1 heq)

theorem nodup_accountsReferenced (cs : List (WithStatus ZkappCommand)) : (accountsReferenced cs).Nodup :=
  ExtTreeSet.distinct_toList.imp fun hne heq => hne (LawfulEqOrd.compare_eq_iff_eq.2 heq)

theorem mem_accountsReferenced
    (hc : c ∈ cs) {u : AccountUpdate} (hu : u ∈ updatesOfCommand c) : u.accountId ∈ accountsReferenced cs := by
  unfold accountsReferenced
  rw [ExtTreeSet.mem_toList, ExtTreeSet.mem_ofList, List.contains_iff_mem]
  refine List.mem_flatMap.2 ⟨c, hc, ?_⟩
  unfold ZkappCommand.accountsReferenced
  rw [List.mem_eraseDups]
  exact List.mem_cons_of_mem _ (List.mem_map_of_mem hu)

/-! ### The keys of the ledger -/

/-- What is attached to an applied command are the keys of the ledger before each account update. -/
def AttachedKeys (e : Executed) (verified : WithStatus Verifiable) : Prop :=
  e.command.status = .applied → ∀ (k : Nat) (u : AccountUpdate) (vk : Option VerificationKey),
    verified.data.accountUpdates.toList[k]? = some (u, vk) → u.isProved = true → ∃ s, e.states[k]? = some s ∧ vk = keyIn (workingLedger s) u.accountId

theorem attachedKeys_of_keysApplied {e : Executed}
    (h : KeysApplied ledger ledger' (updatesOfCommand e.command) e.states) : AttachedKeys e (verifiedOf e.command) := by
  intro happlied k u vk hk hproved
  have hlist : (verifiedOf e.command).data.accountUpdates.toList
      = (updatesOfCommand e.command).map (attach (isFailed e.command)) := CallForest.toList_map _ _
  rw [hlist, isFailed_eq_false_iff.2 happlied, List.getElem?_map, Option.map_eq_some_iff] at hk
  obtain ⟨_, hu, hattach⟩ := hk
  obtain ⟨rfl, rfl⟩ := Prod.mk.inj hattach
  obtain ⟨s, hs, hkeys⟩ := h.before k (List.getElem?_eq_some_iff.1 hu).1.le
  refine ⟨s, hs, ?_⟩
  rw [hkeys, keysMatch_iff.1 h.matching k _ hu hproved]
  rfl

theorem Applying.matches {waiting : List ZkappCommandPartiallyApplied} (h : Applying config waiting ledger run ledger')
    (hwaiting : ∀ c ∈ waiting, ∃ globalSlot stateView ledger₀ ledger₁ command,
      FirstPassed config globalSlot stateView ledger₀ command ledger₁ c) :
    Matches ledgerKeys (keyIn ledger) (run.map Executed.command)
      ∧ ∀ e ∈ run, AttachedKeys e (verifiedOf e.command) := by
  induction h with
  | nil => exact ⟨trivial, fun e he => absurd he List.not_mem_nil⟩
  | @firstPass waiting globalSlot stateView feeExcess supplyIncrease ledger ledger₁ ledger' command c run
      hpass _ ih =>
    have hfirst := applyZkappCommandFirstPass_ok hpass
    rw [← hfirst.keyIn]
    refine ih fun c' hc' => ?_
    rcases List.mem_append.1 hc' with hc' | hc'
    · exact hwaiting c' hc'
    · obtain rfl := List.mem_singleton.1 hc'
      exact ⟨_, _, _, _, _, hfirst⟩
  | @secondPass waiting ledger ledger₁ ledger' c applied states run hpass _ ih =>
    obtain ⟨⟨globalSlot, stateView, ledger₀, _, command, hfirst⟩, hrest⟩ := List.forall_mem_cons.1 hwaiting
    obtain ⟨hmatches, hattached⟩ := ih hrest
    obtain ⟨rfl, happlied, hfailed⟩ := applyZkappCommandSecondPassAux_keys hfirst hpass
    refine ⟨⟨fun happ => ?_, ?_⟩, List.forall_mem_cons.2 ⟨fun happ => ?_, hattached⟩⟩
    · exact (happlied (isFailed_eq_false_iff.1 happ)).matching
    · convert hmatches using 1
      unfold ledgerKeys
      cases hf : isFailed _ with
      | true =>
        rw [if_pos rfl, hfailed fun happ => ?_]
        rw [isFailed_eq_false_iff.2 happ] at hf
        cases hf
      | false =>
        rw [if_neg (by decide)]
        exact (happlied (isFailed_eq_false_iff.1 hf)).after.symm
    · exact attachedKeys_of_keysApplied (e := ⟨⟨applied.command, applied.status⟩, states⟩) (happlied happ)
        happ

/-- **The keys of a sequence**: all commands get keys exactly when no proof is for an outdated one,
and what is attached are the keys of the ledger. -/
theorem createAll_of_applying (h : Applying config [] ledger run ledger') (hkeyed : Keyed ledger)
    (hauth : ∀ e ∈ run, ∀ u ∈ updatesOfCommand e.command, checkAuthorizationKind u = .ok ()) :
    ∃ cache, loadVksFromLedger ledger (accountsReferenced (run.map Executed.command)) = .ok cache
      ∧ (∀ verified, createAll (run.map Executed.command) cache = .ok verified → List.Forall₂ AttachedKeys run verified)
      ∧ ((∃ verified, createAll (run.map Executed.command) cache = .ok verified)
        ↔ ¬ UsesOutdated (fun _ => False) (run.map Executed.command)) := by
  obtain ⟨hmatches, hattached⟩ := h.matches fun c hc => absurd hc List.not_mem_nil
  obtain ⟨cache, hcache, hkeys⟩ := loadVksFromLedger_ok hkeyed (nodup_accountsReferenced _)
  have hauth' : ∀ c ∈ run.map Executed.command, ∀ u ∈ updatesOfCommand c,
      checkAuthorizationKind u = .ok () := List.forall_mem_map.2 hauth
  have hiff := matches_cacheKeys_iff (fun c hc u hu => mem_accountsReferenced hc hu)
    (fun id hid => iff_of_true (hkeys id hid) not_false) hmatches
  refine ⟨cache, hcache, fun verified hverified => ?_, ?_⟩
  · obtain ⟨-, rfl⟩ := (createAll_eq_ok hauth').1 hverified
    rw [List.map_map, List.forall₂_map_right_iff]
    exact List.forall₂_same.2 hattached
  · rw [← hiff]
    constructor
    · rintro ⟨verified, hverified⟩
      exact ((createAll_eq_ok hauth').1 hverified).1
    · intro hcached
      exact ⟨_, (createAll_eq_ok hauth').2 ⟨hcached, rfl⟩⟩

/-- The verification keys that a sequence gets are there, and they are the ledger's. -/
def KeysAttached (ledger : Ledger) (run : List Executed) : Prop :=
  ∃ cache verified, loadVksFromLedger ledger (accountsReferenced (run.map Executed.command)) = .ok cache
    ∧ createAll (run.map Executed.command) cache = .ok verified ∧ List.Forall₂ AttachedKeys run verified

/-- **An applied sequence gets the keys of the ledger exactly when no applied command has a proof
for the key of an account for which the last applied command that set it has set two keys.** -/
theorem attached_iff (config : Config) (ledger ledger' : Ledger) (run : List Executed)
    (h : Applying config [] ledger run ledger') (hkeyed : Keyed ledger)
    (hauth : ∀ e ∈ run, ∀ u ∈ updatesOfCommand e.command, checkAuthorizationKind u = .ok ()) :
    KeysAttached ledger run ↔ ¬ UsesOutdated (fun _ => False) (run.map Executed.command) := by
  obtain ⟨cache, hcache, hall, hiff⟩ := createAll_of_applying h hkeyed hauth
  rw [← hiff]
  constructor
  · rintro ⟨_, verified, hcache', hverified, -⟩
    obtain rfl := Outcome.ok.inj (hcache.symm.trans hcache')
    exact ⟨verified, hverified⟩
  · rintro ⟨verified, hverified⟩
    exact ⟨cache, verified, hcache, hverified, hall verified hverified⟩

/-! ### A key that is set twice -/

/-- Apply commands one after the other. -/
def applyCommands (ledger : Ledger) : List ZkappCommand → Outcome LedgerError (List Executed)
  | [] => .ok []
  | command :: commands => do
    let (ledger, c) ← applyZkappCommandFirstPass sampleConfig 0 sampleView Signed.zero Signed.zero ledger command
    let (ledger, applied, states) ← applyZkappCommandSecondPassAux sampleConfig collectStates [] ledger c
    let run ← applyCommands ledger commands
    return ⟨⟨command, applied.status⟩, states⟩ :: run

theorem applyCommands_ok (h : applyCommands ledger commands = .ok run) :
    (∃ ledger', Applying sampleConfig [] ledger run ledger')
      ∧ run.map (fun e => e.command.data) = commands := by
  induction commands generalizing ledger run with
  | nil =>
    cases h
    exact ⟨⟨ledger, .nil⟩, rfl⟩
  | cons command commands ih =>
    unfold applyCommands at h
    simp only [Outcome.bind_eq_ok] at h
    obtain ⟨⟨ledger₁, c⟩, h₁, ⟨ledger₂, applied, states⟩, h₂, run, hrun, hresult⟩ := h
    cases hresult
    obtain ⟨⟨ledger', happlying⟩, hcommands⟩ := ih hrun
    obtain ⟨hcommand, -⟩ := applyZkappCommandSecondPassAux_keys (applyZkappCommandFirstPass_ok h₁) h₂
    refine ⟨⟨ledger', .firstPass h₁ ?_⟩, ?_⟩
    · rw [← hcommand]
      exact .secondPass h₂ happlying
    · rw [List.map_cons, hcommands]

/-- A command of the first account. -/
def commandOf (nonce : AccountNonce) (accountUpdates : CallForest AccountUpdate) : ZkappCommand where
  feePayer := ⟨⟨1, false⟩, 5, none, nonce⟩
  accountUpdates
  memo := ""

/-- The second account sets its key. -/
def setsKey (vk : VerificationKey) : AccountUpdate :=
  { sampleUpdate 2 ⟨0, .pos⟩ .signature with verificationKey := .set vk }

/-- A proof for the second account. -/
def provedCommand : ZkappCommand := commandOf 1 (.cons (sampleUpdate 2 ⟨0, .pos⟩ (.proof 6)) .nil .nil)

/-- The key is set once, and then used. -/
def keySetOnce : List ZkappCommand := [commandOf 0 (.cons (setsKey 6) .nil .nil), provedCommand]

/-- The key is set twice, and then used. -/
def keySetTwice : List ZkappCommand :=
  [commandOf 0 (.cons (setsKey 5) .nil (.cons (setsKey 6) .nil .nil)), provedCommand]

/-- Apply commands, and check that each is applied. -/
def allApplied (commands : List ZkappCommand) : Outcome LedgerError Unit := do
  let run ← applyCommands sampleLedger commands
  Outcome.assert (run.all fun e => e.command.status = .applied)

theorem keys_applied : allApplied keySetOnce = .ok () ∧ allApplied keySetTwice = .ok () := by
  decide +kernel

theorem allApplied_ok (h : allApplied commands = .ok ()) :
    ∃ ledger' run, Applying sampleConfig [] sampleLedger run ledger'
      ∧ run.map Executed.command = commands.map fun command => ⟨command, .applied⟩ := by
  obtain ⟨run, hrun, hall⟩ := Outcome.bind_eq_ok.1 h
  obtain ⟨⟨ledger', happlying⟩, rfl⟩ := applyCommands_ok hrun
  refine ⟨ledger', run, happlying, ?_⟩
  rw [List.map_map]
  refine List.map_congr_left fun e he => ?_
  have hstatus := of_decide_eq_true (List.all_eq_true.1 (Outcome.assert_eq_ok.1 hall) e he)
  obtain ⟨⟨command, status⟩, states⟩ := e
  exact congrArg (WithStatus.mk command) hstatus

theorem sampleLedger_keyed : Keyed sampleLedger := by
  intro id a h
  unfold sampleLedger at h
  rw [ExtTreeMap.getElem?_insert, ExtTreeMap.getElem?_insert] at h
  simp only [LawfulEqOrd.compare_eq_iff_eq] at h
  split at h
  · rename_i hid
    cases h
    exact hid
  · split at h
    · rename_i hid
      cases h
      exact hid
    · cases h

theorem checkAuthorizationKind_of_map
    (hrun : run.map Executed.command = commands.map fun command => ⟨command, .applied⟩)
    (h : ∀ command ∈ commands, ∀ u ∈ command.accountUpdates.toList, checkAuthorizationKind u = .ok ()) :
    ∀ e ∈ run, ∀ u ∈ updatesOfCommand e.command, checkAuthorizationKind u = .ok () := by
  intro e he u hu
  have hmem := List.mem_map_of_mem (f := Executed.command) he
  rw [hrun] at hmem
  obtain ⟨command, hcommand, heq⟩ := List.mem_map.1 hmem
  rw [← heq] at hu
  exact h command hcommand u hu

/-- The key that is set once is attached. -/
theorem attached_once : ∃ run, run.map Executed.command = keySetOnce.map (fun command => ⟨command, .applied⟩)
    ∧ KeysAttached sampleLedger run := by
  obtain ⟨ledger', run, happlying, hrun⟩ := allApplied_ok keys_applied.1
  refine ⟨run, hrun, (attached_iff sampleConfig sampleLedger ledger' run happlying sampleLedger_keyed
    (checkAuthorizationKind_of_map hrun (by decide))).2 ?_⟩
  rw [hrun]
  rintro (⟨-, _, -, h⟩ | ⟨-, id, -, h⟩ | h)
  · exact h
  · unfold outdatedAfter at h
    split at h
    · exact h
    · exact h rfl
  · exact h

/-- **A key that is set twice can be missing.** -/
theorem attached_fails : ¬ ∀ (config : Config) (ledger ledger' : Ledger) (run : List Executed),
    Applying config [] ledger run ledger' → Keyed ledger →
    (∀ e ∈ run, ∀ u ∈ updatesOfCommand e.command, checkAuthorizationKind u = .ok ()) → KeysAttached ledger run := by
  intro h
  obtain ⟨ledger', run, happlying, hrun⟩ := allApplied_ok keys_applied.2
  have hauth := checkAuthorizationKind_of_map hrun (by decide)
  obtain ⟨_, verified, hcache', hverified, -⟩ := h _ _ _ _ happlying sampleLedger_keyed hauth
  obtain ⟨cache, hcache, -, hiff⟩ := createAll_of_applying happlying sampleLedger_keyed hauth
  obtain rfl := Outcome.ok.inj (hcache.symm.trans hcache')
  refine hiff.1 ⟨verified, hverified⟩ ?_
  rw [hrun]
  refine .inr (.inl ⟨rfl, sampleId 2, ⟨[], _, [], rfl, rfl, rfl, rfl⟩, ?_⟩)
  unfold outdatedAfter
  rw [if_neg (by decide)]
  decide

end MinaProtocol.TransactionLogic
