import Mathlib
import MinaProtocol.Bitswap.Bookkeeping

/-!
# Bitswap.Requests

Which requests the downloader has out for the blocks that are pending, when nothing fails in the
environment. A request goes through the session of one root and serves every root that the block is
pending for. `Owned` says whose the requests are: a block is pending for the root that it is requested
through. So a root whose tree is complete has no requests left, and clearing it cancels none.

Clearing a root for another reason may cancel the only request for a block of another root; `Served` says
that each pending block has a request that is not through the session of certain roots.
-/

namespace MinaProtocol.Bitswap

open Std

variable (s : BitswapState)

/-- A block is pending for a root. -/
def IsPending (c : Cid) (r : Root) : Prop := ∃ ixs, s.nodeDownloadParams.lookup c r = some ixs

def sessionOf (r : Root) : Option SessionId :=
  (s.rootDownloadStates[r]?).map RootDownloadState.session

/-- Every request is through the session of a root that the block is pending for, and for a block that is
not stored. -/
structure Owned : Prop where
  noNil : s.nodeDownloadParams.NoNil
  below : ∀ r session, sessionOf s r = some session → session < s.nextSession
  distinct : ∀ r r' session, sessionOf s r = some session → sessionOf s r' = some session → r = r'
  owner : ∀ session c, (session, c) ∈ s.requests → ∃ r, sessionOf s r = some session ∧ IsPending s c r
  missing : ∀ session c, (session, c) ∈ s.requests → s.storage c = none

/-- A block that is pending for a root that stays is to be processed, or requested through the session of
none of the roots that go. -/
def Served (gone : List Root) (todo : Cid → Prop) : Prop :=
  ∀ c r, r ∉ gone → IsPending s c r →
    todo c ∨ ∃ session, (session, c) ∈ s.requests ∧ ∀ x ∈ gone, sessionOf s x ≠ some session

variable {s' : BitswapState} {gone : List Root} {todo : Cid → Prop} {r : Root}

section Frame

variable {s : BitswapState}

/-- `Owned` where sessions and requests are as before and no block that is requested is less pending. -/
theorem Owned.of_eq (h : Owned s) (hnil : s'.nodeDownloadParams.NoNil) (hsession : ∀ r, sessionOf s' r = sessionOf s r)
    (hnext : s'.nextSession = s.nextSession) (hrequests : s'.requests = s.requests) (hstorage : s'.storage = s.storage)
    (hpending : ∀ session c r, (session, c) ∈ s.requests → IsPending s c r → IsPending s' c r) : Owned s' where
  noNil := hnil
  below := by
    intro r session hr
    rw [hsession] at hr
    rw [hnext]
    exact h.below r session hr
  distinct := by
    intro r r' session hr hr'
    rw [hsession] at hr hr'
    exact h.distinct r r' session hr hr'
  owner := by
    intro session c hmem
    rw [hrequests] at hmem
    obtain ⟨r, hr, hpend⟩ := h.owner session c hmem
    exact ⟨r, by rw [hsession, hr], hpending session c r hmem hpend⟩
  missing := by
    intro session c hmem
    rw [hrequests] at hmem
    rw [hstorage]
    exact h.missing session c hmem

theorem isPending_congr (hparams : s'.nodeDownloadParams = s.nodeDownloadParams) {c : Cid} :
    IsPending s' c r ↔ IsPending s c r := by
  unfold IsPending
  rw [hparams]

theorem sessionOf_congr (hstates : s'.rootDownloadStates = s.rootDownloadStates) (r : Root) :
    sessionOf s' r = sessionOf s r := by
  unfold sessionOf
  rw [hstates]

theorem Owned.congr (h : Owned s) (hparams : s'.nodeDownloadParams = s.nodeDownloadParams)
    (hstates : s'.rootDownloadStates = s.rootDownloadStates) (hnext : s'.nextSession = s.nextSession)
    (hrequests : s'.requests = s.requests) (hstorage : s'.storage = s.storage) : Owned s' := by
  refine h.of_eq ?_ (sessionOf_congr hstates) hnext hrequests hstorage fun _ c r _ hpend => ?_
  · rw [hparams]
    exact h.noNil
  · exact (isPending_congr hparams).2 hpend

theorem Served.congr (h : Served s gone todo) (hparams : s'.nodeDownloadParams = s.nodeDownloadParams)
    (hstates : s'.rootDownloadStates = s.rootDownloadStates) (hrequests : s'.requests = s.requests) :
    Served s' gone todo := by
  intro c r hr hpend
  rw [isPending_congr hparams] at hpend
  rw [hrequests]
  simp only [sessionOf_congr hstates]
  exact h c r hr hpend

theorem Served.weaken {todo' : Cid → Prop} (h : Served s gone todo) (himp : ∀ c, todo c → todo' c) :
    Served s gone todo' := fun c r hr hpend => (h c r hr hpend).imp_left (himp c)

theorem sessionOf_eq_some {st : RootDownloadState} (h : s.rootDownloadStates[r]? = some st) :
    sessionOf s r = some st.session := by
  unfold sessionOf
  rw [h, Option.map_some]

end Frame

/-! ### Clearing roots -/

section Clear

variable {s : BitswapState} {x : Root} {c : Cid} {session : SessionId}

theorem storage_clear : (clearRootDownloadState s x).storage = s.storage := by
  unfold clearRootDownloadState
  cases s.rootDownloadStates[x]? <;> rfl

theorem nextSession_clear : (clearRootDownloadState s x).nextSession = s.nextSession := by
  unfold clearRootDownloadState
  cases s.rootDownloadStates[x]? <;> rfl

theorem sessionOf_clear : sessionOf (clearRootDownloadState s x) r = some session ↔ r ≠ x ∧ sessionOf s r = some session := by
  unfold sessionOf
  by_cases hr : r = x
  · rw [hr, states_clear_self]
    simp
  · rw [states_clear_of_ne hr]
    simp [hr]

theorem mem_requests_clear :
    (session, c) ∈ (clearRootDownloadState s x).requests ↔ (session, c) ∈ s.requests ∧ sessionOf s x ≠ some session := by
  unfold clearRootDownloadState sessionOf
  cases s.rootDownloadStates[x]? with
  | none => simp
  | some st =>
    simp only [List.mem_filter, decide_eq_true_eq, Option.map_some, ne_eq, Option.some.injEq]
    exact and_congr_right fun _ => not_congr eq_comm

theorem Filed.isPending_clear (h : Filed s) : IsPending (clearRootDownloadState s x) c r ↔ r ≠ x ∧ IsPending s c r := by
  unfold IsPending
  by_cases hr : r = x
  · rw [hr, h.lookup_clear_self]
    simp
  · rw [lookup_clear_of_ne hr]
    simp [hr]

theorem noNil_clear (hfiled : Filed s) (hnil : s.nodeDownloadParams.NoNil) :
    (clearRootDownloadState s x).nodeDownloadParams.NoNil := by
  intro c r vs hl
  have hpend : IsPending (clearRootDownloadState s x) c r := ⟨vs, hl⟩
  rw [lookup_clear_of_ne (hfiled.isPending_clear.1 hpend).1] at hl
  exact hnil c r vs hl

theorem Owned.clear (h : Owned s) (hfiled : Filed s) (x : Root) : Owned (clearRootDownloadState s x) where
  noNil := noNil_clear hfiled h.noNil
  below := by
    intro r session hr
    rw [nextSession_clear]
    exact h.below r session (sessionOf_clear.1 hr).2
  distinct := fun r r' session hr hr' => h.distinct r r' session (sessionOf_clear.1 hr).2 (sessionOf_clear.1 hr').2
  owner := by
    intro session c hmem
    obtain ⟨hmem, hne⟩ := mem_requests_clear.1 hmem
    obtain ⟨r, hr, hpend⟩ := h.owner session c hmem
    have hrx : r ≠ x := by
      rintro rfl
      exact hne hr
    exact ⟨r, sessionOf_clear.2 ⟨hrx, hr⟩, hfiled.isPending_clear.2 ⟨hrx, hpend⟩⟩
  missing := by
    intro session c hmem
    rw [storage_clear]
    exact h.missing session c (mem_requests_clear.1 hmem).1

/-- **Clearing one of the roots that go** leaves the others served. -/
theorem Served.clear (h : Served s (x :: gone) todo) (hfiled : Filed s) :
    Served (clearRootDownloadState s x) gone todo := by
  intro c r hr hpend
  obtain ⟨hrx, hpend⟩ := hfiled.isPending_clear.1 hpend
  refine (h c r (by simp [hrx, hr]) hpend).imp_right fun hex => ?_
  obtain ⟨session, hmem, hne⟩ := hex
  refine ⟨session, mem_requests_clear.2 ⟨hmem, hne x List.mem_cons_self⟩, fun y hy heq => ?_⟩
  exact hne y (List.mem_cons_of_mem _ hy) (sessionOf_clear.1 heq).2

/-- **A root that nothing is pending for** can go: no request is through its session. -/
theorem Served.of_done (h : Served s [] todo) (howned : Owned s) (hdone : ∀ c, ¬ IsPending s c x) : Served s [x] todo := by
  intro c r _ hpend
  refine (h c r List.not_mem_nil hpend).imp_right fun hex => ?_
  obtain ⟨session, hmem, -⟩ := hex
  refine ⟨session, hmem, fun y hy heq => ?_⟩
  obtain rfl := List.mem_singleton.1 hy
  obtain ⟨r', hr', hpend'⟩ := howned.owner session c hmem
  rw [howned.distinct r' y session hr' heq] at hpend'
  exact hdone c hpend'

end Clear

/-! ### The parts of a step -/

variable {oldPs : ExtTreeMap Root (List NodeIndex)}

section Parts

variable {s : BitswapState} {id : Cid} {result : StepResult}

theorem isPending_takeIndices {c : Cid} {r : Root} :
    IsPending (takeIndices s id oldPs result) c r ↔ c ≠ id ∧ IsPending s c r := by
  unfold IsPending takeIndices
  dsimp only
  by_cases hc : c = id
  · rw [hc, NestedMap.lookup_erase_self]
    simp
  · rw [NestedMap.lookup_erase_of_ne hc]
    simp [hc]

theorem sessionOf_takeIndices (r : Root) : sessionOf (takeIndices s id oldPs result) r = sessionOf s r := by
  unfold sessionOf takeIndices
  dsimp only
  rw [getElem?_countDown]
  cases s.rootDownloadStates[r]? with
  | none => rfl
  | some st =>
    simp only [Option.map_some, Option.some.injEq]
    unfold countDownRoot
    cases oldPs[r]? <;> rfl

theorem Owned.takeIndices (h : Owned s) (hno : ∀ session, (session, id) ∉ s.requests) :
    Owned (takeIndices s id oldPs result) := by
  refine h.of_eq ?_ sessionOf_takeIndices rfl rfl rfl fun session c r hmem hpend => ?_
  · intro c r vs hl
    have hpend : IsPending (Bitswap.takeIndices s id oldPs result) c r := ⟨vs, hl⟩
    have hold : NestedMap.lookup (s.nodeDownloadParams.erase id) c r = some vs := hl
    rw [NestedMap.lookup_erase_of_ne (isPending_takeIndices.1 hpend).1] at hold
    exact h.noNil c r vs hold
  · refine isPending_takeIndices.2 ⟨?_, hpend⟩
    rintro rfl
    exact hno session hmem

/-- The block itself need not be processed any more. -/
theorem Served.takeIndices (h : Served s gone fun c => c = id ∨ todo c) :
    Served (takeIndices s id oldPs result) gone todo := by
  intro c r hr hpend
  obtain ⟨hc, hpend⟩ := isPending_takeIndices.1 hpend
  simp only [sessionOf_takeIndices]
  rcases h c r hr hpend with (hid | htodo) | hex
  · exact absurd hid hc
  · exact .inl htodo
  · exact .inr hex

/-- The malformed roots are cleared one after another. -/
theorem owned_foldl_reportBroken (howned : Owned s) (hfiled : Filed s) (hserved : Served s gone todo) :
    Owned (gone.foldl reportBroken s) ∧ Served (gone.foldl reportBroken s) [] todo := by
  induction gone generalizing s with
  | nil => exact ⟨howned, hserved⟩
  | cons x gone ih =>
    refine ih ?_ (hfiled.reportBroken x) ?_
    · exact (howned.clear hfiled x).congr rfl rfl rfl rfl rfl
    · exact (hserved.clear hfiled).congr rfl rfl rfl

theorem storage_foldl_reportBroken : (gone.foldl reportBroken s).storage = s.storage := by
  induction gone generalizing s with
  | nil => rfl
  | cons x gone ih =>
    rw [List.foldl_cons, ih]
    exact storage_clear

theorem owned_checkBlock {cfg : BitswapConfig} {block : Block} (howned : Owned s) (hfiled : Filed s)
    (hps : s.nodeDownloadParams[block.cid]? = some oldPs) (hno : ∀ session, (session, block.cid) ∉ s.requests)
    (hserved : Served s (processDownloadedBlockStep cfg oldPs block s.rootDownloadStates).malformed
      fun c => c = block.cid ∨ todo c) :
    Owned (checkBlock cfg s block oldPs) ∧ Served (checkBlock cfg s block oldPs) [] todo ∧
      (checkBlock cfg s block oldPs).storage = s.storage := by
  obtain ⟨h₁, h₂⟩ := owned_foldl_reportBroken (howned.takeIndices hno) (hfiled.takeIndices hps) hserved.takeIndices
  exact ⟨h₁, h₂, storage_foldl_reportBroken⟩

end Parts

/-! ### The loop over the children -/

section Loop

variable {l : ChildLoop} {childId : Cid} {root : Root} {ixs : List NodeIndex} {ps : List (Root × List NodeIndex)}
  {newParams : NestedMap BitswapBlockLink Root NodeIndex} {roots : List Root} {link : BitswapBlockLink} {c : Cid}

/-- The loop leaves alone what the environment sees, and what it still has to request. -/
structure SameEnv (l l' : ChildLoop) : Prop where
  storage : l'.bs.storage = l.bs.storage
  requests : l'.bs.requests = l.bs.requests
  nextSession : l'.bs.nextSession = l.bs.nextSession
  sessions : ∀ r, sessionOf l'.bs r = sessionOf l.bs r
  blocksToProcess : l'.blocksToProcess = l.blocksToProcess
  toDownload : l'.toDownload = l.toDownload

theorem sameEnv_addPending (l : ChildLoop) (childId : Cid) (root : Root) (ixs : List NodeIndex) :
    SameEnv l (addPending childId l root ixs) := by
  cases hst : l.bs.rootDownloadStates[root]? with
  | none =>
    unfold addPending
    rw [hst]
    exact ⟨rfl, rfl, rfl, fun _ => rfl, rfl, rfl⟩
  | some st =>
    rw [addPending_of_state hst]
    refine ⟨rfl, rfl, rfl, fun r => ?_, rfl, rfl⟩
    unfold sessionOf
    dsimp only
    rw [ExtTreeMap.getElem?_insert]
    by_cases hr : root = r
    · rw [if_pos (NestedMap.eq_of_compare_eq.2 hr), ← hr, hst, Option.map_some, Option.map_some]
    · rw [if_neg fun heq => hr (NestedMap.eq_of_compare_eq.1 heq)]

theorem params_addPending :
    (addPending childId l root ixs).bs.nodeDownloadParams = l.bs.nodeDownloadParams.append childId root ixs := by
  unfold addPending
  cases l.bs.rootDownloadStates[root]? <;> rfl

theorem isPending_addPending :
    IsPending (addPending childId l root ixs).bs c r ↔ IsPending l.bs c r ∨ c = childId ∧ r = root := by
  unfold IsPending
  rw [params_addPending]
  by_cases h : c = childId ∧ r = root
  · rw [h.1, h.2, NestedMap.lookup_append_self]
    simp
  · rw [NestedMap.lookup_append_of_ne h]
    simp [h]

theorem sameEnv_addPendings (l : ChildLoop) (childId : Cid) (ps : List (Root × List NodeIndex)) :
    SameEnv l (addPendings childId l ps) := by
  induction ps generalizing l with
  | nil => exact ⟨rfl, rfl, rfl, fun _ => rfl, rfl, rfl⟩
  | cons p ps ih =>
    have h := sameEnv_addPending l childId p.1 p.2
    have h' := ih (addPending childId l p.1 p.2)
    exact ⟨h'.storage.trans h.storage, h'.requests.trans h.requests, h'.nextSession.trans h.nextSession,
      fun r => (h'.sessions r).trans (h.sessions r), h'.blocksToProcess.trans h.blocksToProcess,
      h'.toDownload.trans h.toDownload⟩

theorem isPending_addPendings :
    IsPending (addPendings childId l ps).bs c r ↔ IsPending l.bs c r ∨ c = childId ∧ ∃ p ∈ ps, r = p.1 := by
  induction ps generalizing l with
  | nil =>
    unfold addPendings
    simp
  | cons p ps ih =>
    refine (ih (l := addPending childId l p.1 p.2)).trans ?_
    rw [isPending_addPending]
    simp only [List.mem_cons, exists_eq_or_imp]
    grind

theorem noNil_addPendings (h : l.bs.nodeDownloadParams.NoNil) (hps : ∀ p ∈ ps, p.2 ≠ []) :
    (addPendings childId l ps).bs.nodeDownloadParams.NoNil := by
  induction ps generalizing l with
  | nil => exact h
  | cons p ps ih =>
    refine ih ?_ fun q hq => hps q (List.mem_cons_of_mem _ hq)
    dsimp only
    rw [params_addPending]
    exact NestedMap.noNil_append h (hps p List.mem_cons_self)

theorem someRootState_addPendings_eq {session : SessionId} (h : (addPendings childId l ps).someRootState = some session) :
    l.someRootState = some session ∨ ∃ p ∈ ps, sessionOf l.bs p.1 = some session := by
  induction ps generalizing l with
  | nil => exact .inl h
  | cons p ps ih =>
    rcases ih (l := addPending childId l p.1 p.2) h with hl | hp
    · cases hst : l.bs.rootDownloadStates[p.1]? with
      | none =>
        unfold addPending at hl
        rw [hst] at hl
        exact .inl hl
      | some st =>
        rw [addPending_of_state hst] at hl
        refine .inr ⟨p, List.mem_cons_self, ?_⟩
        rw [sessionOf_eq_some hst]
        exact hl
    · obtain ⟨q, hq, hsession⟩ := hp
      rw [(sameEnv_addPending l childId p.1 p.2).sessions] at hsession
      exact .inr ⟨q, List.mem_cons_of_mem _ hq, hsession⟩

/-- What the loop over the children has found: blocks to process that are stored, blocks to download that
are not, and the session of a root that the children are filed for. -/
structure Collected (newParams : NestedMap BitswapBlockLink Root NodeIndex) (todo : Cid → Prop) (l : ChildLoop) : Prop where
  owned : Owned l.bs
  served : Served l.bs [] fun c => c ∈ l.toDownload ∨ c ∈ l.blocksToProcess.map Block.cid ∨ todo c
  session : ∀ session, l.someRootState = some session →
    ∃ x link ixs, sessionOf l.bs x = some session ∧ newParams.lookup link x = some ixs
  stored : ∀ b ∈ l.blocksToProcess, l.bs.storage b.cid ≠ none
  missing : ∀ c ∈ l.toDownload, l.bs.storage c = none
  child : ∀ c ∈ l.toDownload, ∃ x ixs, newParams.lookup c x = some ixs
  pending : ∀ c ∈ l.toDownload, ∀ x ixs, newParams.lookup c x = some ixs → IsPending l.bs c x

variable (h : Collected newParams todo l)

include h

theorem Collected.addPendings (roots : List Root) (link : BitswapBlockLink) (hnil : newParams.NoNil) :
    Collected newParams (fun c => c = link ∨ todo c) (addPendings link l (rootsOf newParams roots link)) := by
  have henv := sameEnv_addPendings l link (rootsOf newParams roots link)
  refine ⟨?_, ?_, ?_, ?_, ?_, ?_, ?_⟩
  · refine h.owned.of_eq (noNil_addPendings h.owned.noNil fun p hp => hnil link p.1 p.2 (mem_rootsOf.1 hp).2) henv.sessions
      henv.nextSession henv.requests henv.storage fun _ c r _ hpend => isPending_addPendings.2 (.inl hpend)
  · intro c r hr hpend
    rw [henv.requests, henv.toDownload, henv.blocksToProcess]
    simp only [henv.sessions]
    rcases isPending_addPendings.1 hpend with hold | ⟨rfl, -⟩
    · refine (h.served c r hr hold).imp_left fun htodo => ?_
      grind
    · exact .inl (.inr (.inr (.inl rfl)))
  · intro session hsession
    simp only [henv.sessions]
    rcases someRootState_addPendings_eq hsession with hold | ⟨p, hp, hsome⟩
    · exact h.session session hold
    · exact ⟨p.1, link, p.2, hsome, (mem_rootsOf.1 hp).2⟩
  · rw [henv.blocksToProcess, henv.storage]
    exact h.stored
  · rw [henv.toDownload, henv.storage]
    exact h.missing
  · rw [henv.toDownload]
    exact h.child
  · rw [henv.toDownload]
    exact fun c hc x ixs hl => isPending_addPendings.2 (.inl (h.pending c hc x ixs hl))

/-- **A child** is to be processed if it is stored, and to be downloaded otherwise. -/
theorem Collected.addChild (hnil : newParams.NoNil) (hcover : ∀ x ixs, newParams.lookup link x = some ixs → x ∈ roots)
    (hlink : ∃ x ixs, newParams.lookup link x = some ixs) :
    Collected newParams todo (addChild noFaults newParams roots l link) := by
  have hfiled := h.addPendings roots link hnil
  have hview : ∀ s : BitswapState, viewBlock noFaults s link = s.storage link := fun _ => rfl
  rw [addChild_eq, hview]
  cases hstored : (Bitswap.addPendings link l (rootsOf newParams roots link)).bs.storage link with
  | some bytes =>
    dsimp only
    refine ⟨hfiled.owned, hfiled.served.weaken fun c hc => ?_, hfiled.session, fun b hb => ?_, hfiled.missing, hfiled.child,
      hfiled.pending⟩
    · simp only [List.map_append, List.mem_append, List.map_cons, List.map_nil, List.mem_singleton]
      grind
    · rcases List.mem_append.1 hb with hb | hb
      · exact hfiled.stored b hb
      · obtain rfl := List.mem_singleton.1 hb
        rw [hstored]
        exact Option.some_ne_none _
  | none =>
    dsimp only
    refine ⟨hfiled.owned, hfiled.served.weaken fun c hc => ?_, hfiled.session, hfiled.stored, fun c hc => ?_, fun c hc => ?_,
      fun c hc x ixs hl => ?_⟩
    · simp only [List.mem_append, List.mem_singleton]
      grind
    · rcases List.mem_append.1 hc with hc | hc
      · exact hfiled.missing c hc
      · rw [List.mem_singleton.1 hc, hstored]
    · rcases List.mem_append.1 hc with hc | hc
      · exact hfiled.child c hc
      · rw [List.mem_singleton.1 hc]
        exact hlink
    · rcases List.mem_append.1 hc with hc | hc
      · exact hfiled.pending c hc x ixs hl
      · rw [List.mem_singleton.1 hc] at hl ⊢
        exact isPending_addPendings.2 (.inr ⟨rfl, (x, ixs), mem_rootsOf.2 ⟨hcover x ixs hl, hl⟩, rfl⟩)

theorem Collected.addChildren {links : List BitswapBlockLink} (hnil : newParams.NoNil)
    (hcover : ∀ link x ixs, newParams.lookup link x = some ixs → x ∈ roots)
    (hlinks : ∀ link ∈ links, ∃ x ixs, newParams.lookup link x = some ixs) :
    Collected newParams todo (links.foldl (Bitswap.addChild noFaults newParams roots) l) := by
  induction links generalizing l with
  | nil => exact h
  | cons link links ih =>
    exact ih (h.addChild hnil (hcover link) (hlinks link List.mem_cons_self)) fun link' hl =>
      hlinks link' (List.mem_cons_of_mem _ hl)

/-- **The children that are not stored are requested**, through the session of a root that all of them are
pending for. -/
theorem Collected.requestChildren
    (hshared : ∀ link x ixs link' x' ixs', newParams.lookup link x = some ixs → newParams.lookup link' x' = some ixs' →
      ∃ ixs'', newParams.lookup link' x = some ixs'')
    {s' : BitswapState} (hs' : requestChildren noFaults l = some s') :
    Owned s' ∧ Served s' [] (fun c => c ∈ l.blocksToProcess.map Block.cid ∨ todo c) ∧ s'.storage = l.bs.storage := by
  unfold Bitswap.requestChildren at hs'
  by_cases hnone : l.toDownload = []
  · rw [if_pos hnone] at hs'
    obtain rfl := Option.some.inj hs'
    refine ⟨h.owned, h.served.weaken fun c hc => ?_, rfl⟩
    rw [hnone] at hc
    simpa using hc
  · rw [if_neg hnone] at hs'
    cases hsome : l.someRootState with
    | none =>
      rw [hsome] at hs'
      cases hs'
    | some session =>
      rw [hsome] at hs'
      obtain rfl := Option.some.inj hs'
      obtain ⟨x, link, ixs, hx, hl⟩ := h.session session hsome
      have hmem : ∀ session' c, (session', c) ∈ (requestBlocks l.bs session l.toDownload).requests ↔
          session' = session ∧ c ∈ l.toDownload ∨ (session', c) ∈ l.bs.requests := by
        intro session' c
        unfold requestBlocks
        simp only [List.mem_append, List.mem_map, Prod.mk.injEq]
        constructor
        · rintro (⟨key, hkey, rfl, rfl⟩ | hold)
          · exact .inl ⟨rfl, hkey⟩
          · exact .inr hold
        · rintro (⟨rfl, hc⟩ | hold)
          · exact .inl ⟨c, hc, rfl, rfl⟩
          · exact .inr hold
      refine ⟨⟨h.owned.noNil, h.owned.below, h.owned.distinct, ?_, ?_⟩, ?_, rfl⟩
      · intro session' c hreq
        rcases (hmem session' c).1 hreq with ⟨rfl, hc⟩ | hold
        · obtain ⟨x', ixs', hl'⟩ := h.child c hc
          obtain ⟨ixs'', hl''⟩ := hshared link x ixs c x' ixs' hl hl'
          exact ⟨x, hx, h.pending c hc x ixs'' hl''⟩
        · exact h.owned.owner session' c hold
      · intro session' c hreq
        rcases (hmem session' c).1 hreq with ⟨rfl, hc⟩ | hold
        · exact h.missing c hc
        · exact h.owned.missing session' c hold
      · intro c r hr hpend
        rcases h.served c r hr hpend with (hdown | htodo) | ⟨session', hreq, -⟩
        · exact .inr ⟨session, (hmem session c).2 (.inl ⟨rfl, hdown⟩), fun x hx => absurd hx List.not_mem_nil⟩
        · exact .inl htodo
        · exact .inr ⟨session', (hmem session' c).2 (.inr hreq), fun x hx => absurd hx List.not_mem_nil⟩

omit h

end Loop

/-! ### A block -/

section Process

variable {cfg : BitswapConfig} {s : BitswapState} {block : Block} {order : MapOrder} {work : List Block}
  {states : ExtTreeMap Root RootDownloadState}

theorem newParams_shared {link link' : BitswapBlockLink} {x x' : Root} {ixs ixs' : List NodeIndex}
    (hl : (processDownloadedBlockStep cfg oldPs block states).newParams.lookup link x = some ixs)
    (hl' : (processDownloadedBlockStep cfg oldPs block states).newParams.lookup link' x' = some ixs') :
    ∃ ixs'', (processDownloadedBlockStep cfg oldPs block states).newParams.lookup link' x = some ixs'' := by
  obtain ⟨links, data, old, hread, hold, -, hfits⟩ := of_newParams hl
  obtain ⟨links', data', -, hread', -, hlink', -⟩ := of_newParams hl'
  rw [hread] at hread'
  obtain ⟨rfl, rfl⟩ := Prod.mk.inj (Option.some.inj hread')
  obtain ⟨ix, hix⟩ := List.exists_mem_of_ne_nil _ hfits
  obtain ⟨j, hj, hjlink⟩ := List.mem_iff_getElem.1 hlink'
  have hhas : NestedMap.Has (processDownloadedBlockStep cfg oldPs block states).newParams link' x
      (cfg.depthIndices.firstChildId ix + (j : Int)) := by
    unfold processDownloadedBlockStep
    rw [hread]
    exact has_childrenOf.2 ⟨old, hold, ix, hix, j, by rw [List.getElem?_eq_getElem hj, hjlink], rfl⟩
  obtain ⟨ixs'', hl'', -⟩ := hhas
  exact ⟨ixs'', hl''⟩

theorem noNil_newParams : (processDownloadedBlockStep cfg oldPs block states).newParams.NoNil := by
  unfold processDownloadedBlockStep
  cases readBitswapBlock block.rawData with
  | none => exact noNil_empty
  | some read => exact noNil_childrenOf

theorem collected_childLoop (hbook : Bookkeeping s) (howned : Owned s) (hps : s.nodeDownloadParams[block.cid]? = some oldPs)
    (horder : OrderFits cfg order block s) (hno : ∀ session, (session, block.cid) ∉ s.requests)
    (hserved : Served s (processDownloadedBlockStep cfg oldPs block s.rootDownloadStates).malformed
      fun c => c = block.cid ∨ todo c) :
    Collected (processDownloadedBlockStep cfg oldPs block s.rootDownloadStates).newParams todo
      (childLoop cfg order noFaults block s oldPs) := by
  obtain ⟨hlinks, hroots⟩ := horder oldPs hps
  obtain ⟨hchecked, hcheckedServed, -⟩ := owned_checkBlock howned hbook.toFiled hps hno hserved
  refine Collected.addChildren ⟨hchecked, hcheckedServed.weaken fun c hc => .inr (.inr hc), ?_, ?_, ?_, ?_, ?_⟩ noNil_newParams
    (fun link r ixs hl => ?_) (fun link hlink => ?_)
  · exact fun session hsome => by cases hsome
  · exact fun b hb => by cases hb
  · exact fun c hc => by cases hc
  · exact fun c hc => by cases hc
  · exact fun c hc => by cases hc
  · obtain ⟨-, -, ixs', -, hr, -⟩ := of_newParams hl
    rw [hroots.mem_iff, ExtTreeMap.mem_keys, ExtTreeMap.mem_iff_isSome_getElem?, hr]
    rfl
  · rw [hlinks.mem_iff, ExtTreeMap.mem_keys] at hlink
    exact (NestedMap.mem_iff_lookup noEmpty_newParams).1 hlink

/-- **A root that is done** goes without a request. -/
theorem owned_reportAdded (root : Root) (howned : Owned s) (hfiled : Filed s) (hserved : Served s [] todo) :
    Owned (reportAdded noFaults s root) ∧ Served (reportAdded noFaults s root) [] todo ∧
      (reportAdded noFaults s root).storage = s.storage := by
  cases hst : s.rootDownloadStates[root]? with
  | none =>
    rw [reportAdded_of_none hst]
    exact ⟨howned, hserved, rfl⟩
  | some st =>
    by_cases hzero : st.remainingNodeCounter = 0
    · have hdone : ∀ c, ¬ IsPending s c root := by
        intro c hpend
        obtain ⟨ixs, hl⟩ := hpend
        have hlen := NestedMap.length_le_total hl
        rw [← hfiled.counter root st hst, hzero] at hlen
        exact howned.noNil c root ixs hl (List.eq_nil_of_length_eq_zero (by omega))
      have hclear := (hserved.of_done howned hdone)
      have hset : ∃ s₁, (setStatus noFaults s root .Full).getD s = s₁ ∧ s₁.nodeDownloadParams = s.nodeDownloadParams ∧
          s₁.rootDownloadStates = s.rootDownloadStates ∧ s₁.nextSession = s.nextSession ∧ s₁.requests = s.requests ∧
          s₁.storage = s.storage := by
        refine ⟨_, rfl, ?_⟩
        unfold setStatus
        split
        · exact ⟨rfl, rfl, rfl, rfl, rfl⟩
        · exact ⟨rfl, rfl, rfl, rfl, rfl⟩
      obtain ⟨s₁, hs₁, hparams, hstates, hnext, hrequests, hstorage⟩ := hset
      have heq : reportAdded noFaults s root = sendResourceUpdate (clearRootDownloadState s₁ root) .added root := by
        unfold reportAdded
        rw [hst]
        dsimp only
        rw [if_pos hzero, hs₁]
      have hfiled₁ := hfiled.congr hparams hstates
      rw [heq]
      refine ⟨?_, ?_, ?_⟩
      · exact ((howned.congr hparams hstates hnext hrequests hstorage).clear hfiled₁ root).congr rfl rfl rfl rfl rfl
      · exact ((hclear.congr hparams hstates hrequests).clear hfiled₁).congr rfl rfl rfl
      · exact storage_clear.trans hstorage
    · rw [reportAdded_of_ne hst hzero]
      exact ⟨howned, hserved, rfl⟩

theorem owned_foldl_reportAdded (roots : List Root) (howned : Owned s) (hfiled : Filed s) (hserved : Served s [] todo) :
    Owned (roots.foldl (reportAdded noFaults) s) ∧ Served (roots.foldl (reportAdded noFaults) s) [] todo ∧
      (roots.foldl (reportAdded noFaults) s).storage = s.storage := by
  induction roots generalizing s with
  | nil => exact ⟨howned, hserved, rfl⟩
  | cons root roots ih =>
    obtain ⟨howned₁, hserved₁, hstorage₁⟩ := owned_reportAdded root howned hfiled hserved
    obtain ⟨howned₂, hserved₂, hstorage₂⟩ := ih howned₁ (hfiled.reportAdded root) hserved₁
    exact ⟨howned₂, hserved₂, hstorage₂.trans hstorage₁⟩

theorem storage_childLoop {faults : Faults} : (childLoop cfg order faults block s oldPs).bs.storage = s.storage := by
  have hfold : ∀ (links : List BitswapBlockLink) (newParams : NestedMap BitswapBlockLink Root NodeIndex) (l : ChildLoop),
      (links.foldl (addChild faults newParams order.roots) l).bs.storage = l.bs.storage := by
    intro links newParams
    induction links with
    | nil => exact fun l => rfl
    | cons link links ih =>
      intro l
      rw [List.foldl_cons, ih, addChild_bs]
      exact (sameEnv_addPendings l link _).storage
  unfold childLoop
  dsimp only
  rw [hfold]
  exact storage_foldl_reportBroken

/-- **Processing a pending block**: what is pending afterwards is requested, to be processed next, or was to
be processed before. -/
theorem owned_processPending (hbook : Bookkeeping s) (howned : Owned s) (hclean : ¬ FitsThenNot cfg s block)
    (hps : s.nodeDownloadParams[block.cid]? = some oldPs) (horder : OrderFits cfg order block s)
    (hno : ∀ session, (session, block.cid) ∉ s.requests)
    (hserved : Served s (processDownloadedBlockStep cfg oldPs block s.rootDownloadStates).malformed
      fun c => c = block.cid ∨ todo c)
    (h : processPending cfg order noFaults block s oldPs = some (s', work)) :
    Owned s' ∧ Served s' [] (fun c => c ∈ work.map Block.cid ∨ todo c) ∧ (∀ b ∈ work, s'.storage b.cid ≠ none) ∧
      s'.storage = s.storage := by
  have hcollected := collected_childLoop hbook howned hps horder hno hserved
  have hfiled := (hbook.toFiled.childLoop noFaults hclean hps horder).1
  unfold processPending at h
  dsimp only at h
  obtain ⟨s₁, hs₁, heq⟩ := Option.map_eq_some_iff.1 h
  obtain ⟨rfl, rfl⟩ := Prod.mk.inj heq
  have hmaps : s₁.nodeDownloadParams = (childLoop cfg order noFaults block s oldPs).bs.nodeDownloadParams ∧
      s₁.rootDownloadStates = (childLoop cfg order noFaults block s oldPs).bs.rootDownloadStates := by
    obtain ⟨s₂, hs₂, hparams, hstates⟩ := requestChildren_eq noFaults
      (hbook.toFiled.childLoop noFaults hclean hps horder).2
    rw [hs₁] at hs₂
    obtain rfl := Option.some.inj hs₂
    exact ⟨hparams, hstates⟩
  obtain ⟨howned₁, hserved₁, hstorage₁⟩ := hcollected.requestChildren (fun _ _ _ _ _ _ => newParams_shared) hs₁
  obtain ⟨howned₂, hserved₂, hstorage₂⟩ := owned_foldl_reportAdded (oldPs.toList.map Prod.fst) howned₁
    (hfiled.congr hmaps.1 hmaps.2) hserved₁
  refine ⟨howned₂, hserved₂, fun b hb => ?_, ?_⟩
  · rw [hstorage₂, hstorage₁]
    exact hcollected.stored b hb
  · rw [hstorage₂, hstorage₁, storage_childLoop]

theorem Owned.storeDownloadedBlock (h : Owned s) (hno : ∀ session, (session, block.cid) ∉ s.requests) :
    Owned (storeDownloadedBlock noFaults s block) where
  noNil := h.noNil
  below := h.below
  distinct := h.distinct
  owner := h.owner
  missing := by
    intro session c hmem
    have hold : (session, c) ∈ s.requests := hmem
    have hne : c ≠ block.cid := by
      rintro rfl
      exact hno session hold
    have hstorage : (Bitswap.storeDownloadedBlock noFaults s block).storage c = s.storage c :=
      Function.update_of_ne hne _ _
    rw [hstorage]
    exact h.missing session c hold

/-- **Processing a block** that has no request left. -/
theorem owned_processDownloadedBlock (todo : Cid → Prop) (hbook : Bookkeeping s) (howned : Owned s) (hclean : ¬ FitsThenNot cfg s block)
    (horder : OrderFits cfg order block s) (hno : ∀ session, (session, block.cid) ∉ s.requests)
    (hserved : Served s [] fun c => c = block.cid ∨ todo c)
    (hspares : ∀ oldPs, s.nodeDownloadParams[block.cid]? = some oldPs →
      Served s (processDownloadedBlockStep cfg oldPs block s.rootDownloadStates).malformed fun c => c = block.cid ∨ todo c)
    (h : processDownloadedBlock cfg order noFaults block s = some (s', work)) :
    Owned s' ∧ Served s' [] (fun c => c ∈ work.map Block.cid ∨ todo c) ∧ (∀ b ∈ work, s'.storage b.cid ≠ none) ∧
      ∀ c, s.storage c ≠ none → s'.storage c ≠ none := by
  have hgrows : ∀ c, s.storage c ≠ none → (storeDownloadedBlock noFaults s block).storage c ≠ none := by
    intro c hc
    by_cases heq : c = block.cid
    · subst heq
      have hstorage : (storeDownloadedBlock noFaults s block).storage block.cid = some block.rawData :=
        Function.update_self _ _ _
      rw [hstorage]
      exact Option.some_ne_none _
    · have hstorage : (storeDownloadedBlock noFaults s block).storage c = s.storage c := Function.update_of_ne heq _ _
      rw [hstorage]
      exact hc
  have hstored : Owned (storeDownloadedBlock noFaults s block) := howned.storeDownloadedBlock hno
  unfold processDownloadedBlock at h
  dsimp only at h
  cases hps : s.nodeDownloadParams[block.cid]? with
  | none =>
    have hps₀ : (storeDownloadedBlock noFaults s block).nodeDownloadParams[block.cid]? = none := hps
    rw [hps₀] at h
    obtain ⟨rfl, rfl⟩ := Prod.mk.inj (Option.some.inj h)
    refine ⟨hstored, ?_, fun b hb => absurd hb List.not_mem_nil, hgrows⟩
    -- nothing is pending under the block
    intro c r hr hpend
    have hne : c ≠ block.cid := by
      rintro rfl
      obtain ⟨ixs, hl⟩ := hpend
      obtain ⟨inner, hinner, -⟩ := NestedMap.getElem?_of_lookup hl
      rw [hps₀] at hinner
      cases hinner
    rcases hserved c r hr hpend with (heq | htodo) | hex
    · exact absurd heq hne
    · exact .inl (.inr htodo)
    · exact .inr hex
  | some oldPs =>
    have hps₀ : (storeDownloadedBlock noFaults s block).nodeDownloadParams[block.cid]? = some oldPs := hps
    rw [hps₀] at h
    have hbook₀ : Bookkeeping (storeDownloadedBlock noFaults s block) := hbook.congr rfl rfl
    have hspares₀ : Served (storeDownloadedBlock noFaults s block)
        (processDownloadedBlockStep cfg oldPs block s.rootDownloadStates).malformed fun c => c = block.cid ∨ todo c :=
      (hspares oldPs hps).congr rfl rfl rfl
    obtain ⟨howned', hserved', hwork, hstorage⟩ := owned_processPending hbook₀ hstored hclean hps₀ horder hno hspares₀ h
    refine ⟨howned', hserved', hwork, fun c hc => ?_⟩
    rw [hstorage]
    exact hgrows c hc

end Process

end MinaProtocol.Bitswap
