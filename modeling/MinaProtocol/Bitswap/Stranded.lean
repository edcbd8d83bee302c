import Mathlib
import MinaProtocol.Bitswap.Requests

/-!
# Bitswap.Stranded

Downloads over a run in which nothing fails: a root that was requested, and not reported, deleted or
timed out since, has a state, and what is pending for it is requested.

This breaks where a download is for a root whose block is pending in the tree of another one, where a root
is cleared through whose session alone a block of another root was requested, and where the deadline of an
earlier download of a root fires.
-/

namespace MinaProtocol.Bitswap

open Std

variable {s s' : BitswapState} {root r : Root} {todo : Cid → Prop}

section Commands

variable {tag : BitswapDataTag} {session : SessionId}

theorem sessionOf_startDownload : sessionOf (startDownload s root tag) r = some session ↔
      r = root ∧ session = s.nextSession ∨ r ≠ root ∧ sessionOf s r = some session := by
  unfold sessionOf startDownload
  dsimp only
  rw [ExtTreeMap.getElem?_insert]
  by_cases hr : root = r
  · rw [if_pos (NestedMap.eq_of_compare_eq.2 hr), Option.map_some, Option.some.injEq]
    simp [hr, eq_comm]
  · rw [if_neg fun heq => hr (NestedMap.eq_of_compare_eq.1 heq)]
    simp [Ne.symm hr]

theorem isPending_startDownload {c : Cid} :
    IsPending (startDownload s root tag) c r ↔ IsPending s c r ∨ c = root ∧ r = root := by
  unfold IsPending startDownload
  dsimp only
  by_cases h : c = root ∧ r = root
  · rw [h.1, h.2, NestedMap.lookup_append_self]
    simp
  · rw [NestedMap.lookup_append_of_ne h]
    simp [h]

theorem Owned.startDownload (h : Owned s) (tag : BitswapDataTag) (hroot : root ∉ s.rootDownloadStates) : Owned (startDownload s root tag) where
  noNil := NestedMap.noNil_append h.noNil (by simp)
  below := by
    intro r session hr
    have hnext : (Bitswap.startDownload s root tag).nextSession = s.nextSession + 1 := rfl
    rw [hnext]
    rcases sessionOf_startDownload.1 hr with ⟨-, rfl⟩ | ⟨-, hold⟩
    · exact Nat.lt_succ_self _
    · exact (h.below r session hold).trans (Nat.lt_succ_self _)
  distinct := by
    intro r r' session hr hr'
    rcases sessionOf_startDownload.1 hr with ⟨rfl, hnew⟩ | ⟨hne, hold⟩
    · rcases sessionOf_startDownload.1 hr' with ⟨rfl, -⟩ | ⟨-, hold'⟩
      · rfl
      · exact absurd (h.below r' session hold') (by rw [hnew]; exact Nat.lt_irrefl _)
    · rcases sessionOf_startDownload.1 hr' with ⟨rfl, hnew⟩ | ⟨-, hold'⟩
      · exact absurd (h.below r session hold) (by rw [hnew]; exact Nat.lt_irrefl _)
      · exact h.distinct r r' session hold hold'
  owner := by
    intro session c hmem
    obtain ⟨r, hr, hpend⟩ := h.owner session c hmem
    have hne : r ≠ root := by
      rintro rfl
      unfold sessionOf at hr
      obtain ⟨st, hst, -⟩ := Option.map_eq_some_iff.1 hr
      exact hroot (mem_of_getElem? hst)
    exact ⟨r, sessionOf_startDownload.2 (.inr ⟨hne, hr⟩), isPending_startDownload.2 (.inl hpend)⟩
  missing := h.missing

theorem Served.startDownload (h : Served s [] todo) (root : Root) (tag : BitswapDataTag) :
    Served (startDownload s root tag) [] fun c => c = root ∨ todo c := by
  intro c r hr hpend
  rcases isPending_startDownload.1 hpend with hold | ⟨rfl, -⟩
  · rcases h c r hr hold with htodo | ⟨session, hmem, -⟩
    · exact .inl (.inr htodo)
    · exact .inr ⟨session, hmem, fun x hx => absurd hx List.not_mem_nil⟩
  · exact .inl (.inl rfl)

/-- **The root block is requested** where it is not stored. -/
theorem Owned.requestRoot (h : Owned s) (hsession : sessionOf s root = some session)
    (hpending : IsPending s root root) (hmissing : s.storage root = none) : Owned (requestBlocks s session [root]) where
  noNil := h.noNil
  below := h.below
  distinct := h.distinct
  owner := by
    intro session' c hmem
    rcases List.mem_append.1 hmem with hnew | hold
    · obtain ⟨rfl, rfl⟩ := Prod.mk.inj (List.mem_singleton.1 hnew)
      exact ⟨c, hsession, hpending⟩
    · exact h.owner session' c hold
  missing := by
    intro session' c hmem
    rcases List.mem_append.1 hmem with hnew | hold
    · obtain ⟨-, rfl⟩ := Prod.mk.inj (List.mem_singleton.1 hnew)
      exact hmissing
    · exact h.missing session' c hold

theorem Served.requestRoot (h : Served s [] fun c => c = root ∨ todo c) :
    Served (requestBlocks s session [root]) [] todo := by
  intro c r hr hpend
  rcases h c r hr hpend with (rfl | htodo) | ⟨session', hmem, -⟩
  · exact .inr ⟨session, List.mem_append_left _ (List.mem_singleton.2 rfl), fun x hx => absurd hx List.not_mem_nil⟩
  · exact .inl htodo
  · exact .inr ⟨session', List.mem_append_right _ hmem, fun x hx => absurd hx List.not_mem_nil⟩

/-- A state with one status set. -/
def withStatus (s : BitswapState) (root : Root) (value : RootBlockStatus) : BitswapState :=
  { s with statuses := Function.update s.statuses root (some value) }

theorem setStatus_eq {faults : Faults} {value : RootBlockStatus} (h : setStatus faults s root value = some s') :
    s' = withStatus s root value := by
  unfold setStatus at h
  split at h
  · cases h
  · exact (Option.some.inj h).symm

/-- **A download command** that does not restart the root. -/
theorem owned_kickStartRootDownload (tag : BitswapDataTag) (howned : Owned s) (hserved : Served s [] todo)
    (hfresh : ¬ Restarts noFaults s root) : Owned (kickStartRootDownload noFaults root tag s).1 ∧
      Served (kickStartRootDownload noFaults root tag s).1 []
        (fun c => c ∈ (kickStartRootDownload noFaults root tag s).2.map Block.cid ∨ todo c) ∧
      (kickStartRootDownload noFaults root tag s).1.storage = s.storage ∧
      ∀ b ∈ (kickStartRootDownload noFaults root tag s).2, s.storage b.cid ≠ none := by
  unfold kickStartRootDownload
  by_cases hpending : root ∈ s.nodeDownloadParams
  · rw [if_pos hpending]
    exact ⟨howned, hserved.weaken fun c hc => .inr hc, rfl, fun b hb => absurd hb List.not_mem_nil⟩
  · rw [if_neg hpending]
    cases hset : setStatus noFaults s root .Partial with
    | none =>
      dsimp only
      split
      · exact ⟨howned.congr rfl rfl rfl rfl rfl, (hserved.weaken fun c hc => .inr hc).congr rfl rfl rfl, rfl,
          fun b hb => absurd hb List.not_mem_nil⟩
      · exact ⟨howned, hserved.weaken fun c hc => .inr hc, rfl, fun b hb => absurd hb List.not_mem_nil⟩
    | some s₁ =>
      have hroot : root ∉ s.rootDownloadStates := fun hmem => hfresh ⟨hmem, hpending, by rw [hset]; rfl⟩
      obtain rfl := setStatus_eq hset
      have howned₁ : Owned (withStatus s root .Partial) := howned.congr rfl rfl rfl rfl rfl
      have hserved₁ : Served (withStatus s root .Partial) [] todo := hserved.congr rfl rfl rfl
      have hstart := howned₁.startDownload tag hroot
      have hstartServed := hserved₁.startDownload root tag
      have hnofault : ∀ r, noFaults.view r = false := fun _ => rfl
      dsimp only
      rw [hnofault, if_neg (by simp)]
      cases hstored : s.storage root with
      | some bytes =>
        have hstored₁ : (Bitswap.startDownload (withStatus s root .Partial) root tag).storage root = some bytes := hstored
        rw [hstored₁]
        refine ⟨hstart.congr rfl rfl rfl rfl rfl, (hstartServed.weaken fun c hc => ?_).congr rfl rfl rfl, rfl, fun b hb => ?_⟩
        · simpa using hc
        · obtain rfl := List.mem_singleton.1 hb
          rw [hstored]
          exact Option.some_ne_none _
      | none =>
        have hstored₁ : (Bitswap.startDownload (withStatus s root .Partial) root tag).storage root = none := hstored
        have hrequest : noFaults.request = false := rfl
        rw [hstored₁]
        dsimp only
        rw [hrequest, if_neg (by simp)]
        refine ⟨?_, ?_, rfl, fun b hb => absurd hb List.not_mem_nil⟩
        · exact (hstart.requestRoot (sessionOf_startDownload.2 (.inl ⟨rfl, rfl⟩)) (isPending_startDownload.2 (.inr ⟨rfl, rfl⟩))
            hstored₁).congr rfl rfl rfl rfl rfl
        · exact ((hstartServed.requestRoot).weaken fun c hc => .inr hc).congr rfl rfl rfl

theorem Owned.deleteBlocks (h : Owned s) (hstorage : ∀ c, s.storage c = none → s'.storage c = none)
    (hparams : s'.nodeDownloadParams = s.nodeDownloadParams) (hstates : s'.rootDownloadStates = s.rootDownloadStates)
    (hnext : s'.nextSession = s.nextSession) (hrequests : s'.requests = s.requests) : Owned s' where
  noNil := by
    rw [hparams]
    exact h.noNil
  below := by
    intro r session hr
    rw [sessionOf_congr hstates] at hr
    rw [hnext]
    exact h.below r session hr
  distinct := by
    intro r r' session hr hr'
    rw [sessionOf_congr hstates] at hr hr'
    exact h.distinct r r' session hr hr'
  owner := by
    intro session c hmem
    rw [hrequests] at hmem
    obtain ⟨r, hr, hpend⟩ := h.owner session c hmem
    exact ⟨r, by rw [sessionOf_congr hstates, hr], (isPending_congr hparams).2 hpend⟩
  missing := by
    intro session c hmem
    rw [hrequests] at hmem
    exact hstorage c (h.missing session c hmem)

/-- **A delete command** under which the other roots stay served. -/
theorem owned_deleteRoot (howned : Owned s) (hfiled : Filed s) (hserved : Served s [] todo)
    (hspares : (setStatus noFaults s root .Deleting).isSome → Served s [root] todo) :
    Owned (deleteRoot noFaults s root) ∧ Served (deleteRoot noFaults s root) [] todo := by
  unfold deleteRoot
  cases hset : setStatus noFaults s root .Deleting with
  | none => exact ⟨howned, hserved⟩
  | some s₁ =>
    have hgone := hspares (by rw [hset]; rfl)
    obtain rfl := setStatus_eq hset
    have hfiled₁ : Filed (withStatus s root .Deleting) := hfiled.congr rfl rfl
    have howned₁ : Owned (withStatus s root .Deleting) := howned.congr rfl rfl rfl rfl rfl
    have hgone₁ : Served (withStatus s root .Deleting) [root] todo := hgone.congr rfl rfl rfl
    have hclear := howned₁.clear hfiled₁ root
    have hclearServed := hgone₁.clear hfiled₁
    dsimp only
    split
    · exact ⟨hclear, hclearServed⟩
    · split
      · exact ⟨hclear, hclearServed⟩
      · split
        · refine ⟨hclear.deleteBlocks (fun c hc => ?_) rfl rfl rfl rfl, hclearServed.congr rfl rfl rfl⟩
          exact ite_eq_left_iff.2 fun _ => hc
        · refine ⟨hclear.deleteBlocks (fun c hc => ?_) rfl rfl rfl rfl, hclearServed.congr rfl rfl rfl⟩
          exact ite_eq_left_iff.2 fun _ => hc

end Commands

/-! ### Steps that strand no download -/

def Event.faults : Event → Faults
  | .download _ _ faults => faults
  | .arrive _ _ faults => faults
  | .resume _ faults => faults
  | .deadline _ _ => noFaults
  | .delete _ faults => faults

/-- Every block that is pending for another root is served without the roots that the block clears. -/
def SparesOthers (cfg : BitswapConfig) (m : Machine) (block : Block) : Prop :=
  ∀ oldPs, m.bs.nodeDownloadParams[block.cid]? = some oldPs →
    Served m.bs (processDownloadedBlockStep cfg oldPs block m.bs.rootDownloadStates).malformed
      fun c => c = block.cid ∨ c ∈ m.work.map Block.cid

/-- A download is not for a root that is pending in another tree only, a deadline is that of the download
in progress, and no root is cleared that has the only request for a block of another one. -/
def Careful (cfg : BitswapConfig) (m : Machine) : Event → Prop
  | .download root _ _ => root ∈ m.bs.nodeDownloadParams → root ∈ m.bs.rootDownloadStates
  | .arrive block _ _ => SparesOthers cfg m block
  | .resume _ _ => ∀ block ∈ m.work.head?, SparesOthers cfg m block
  | .deadline root session =>
    (∀ current, sessionOf m.bs root = some current → current = session) ∧
      Served m.bs [root] fun c => c ∈ m.work.map Block.cid
  | .delete root faults =>
    (setStatus faults m.bs root .Deleting).isSome → Served m.bs [root] fun c => c ∈ m.work.map Block.cid

/-- What is pending is requested or about to be processed, and what is to be processed is stored. -/
structure Supplied (m : Machine) : Prop where
  bookkeeping : Bookkeeping m.bs
  owned : Owned m.bs
  served : Served m.bs [] fun c => c ∈ m.work.map Block.cid
  stored : ∀ b ∈ m.work, m.bs.storage b.cid ≠ none

variable {m : Machine}

theorem supplied_initial (h : Initial m) : Supplied m := by
  have hbook := bookkeeping_initial h
  obtain ⟨hwork, hparams, hstates, hrequests, -⟩ := h
  have hlook : ∀ c r, m.bs.nodeDownloadParams.lookup c r = none := by
    intro c r
    rw [hparams, NestedMap.lookup_empty]
  have hsession : ∀ r, sessionOf m.bs r = none := by
    intro r
    unfold sessionOf
    rw [hstates, ExtTreeMap.getElem?_empty, Option.map_none]
  refine ⟨hbook, ⟨fun c r vs hl => ?_, fun r session hr => ?_, fun r r' session hr => ?_, fun session c hmem => ?_,
    fun session c hmem => ?_⟩, fun c r _ hpend => ?_, fun b hb => ?_⟩
  · rw [hlook] at hl
    cases hl
  · rw [hsession] at hr
    cases hr
  · rw [hsession] at hr
    cases hr
  · rw [hrequests] at hmem
    cases hmem
  · rw [hrequests] at hmem
    cases hmem
  · obtain ⟨ixs, hl⟩ := hpend
    rw [hlook] at hl
    cases hl
  · rw [hwork] at hb
    cases hb

section Answer

variable {gone : List Root} {id : Cid}

theorem mem_requests_answer {session : SessionId} {c : Cid} :
    (session, c) ∈ (answerRequests s id).requests ↔ (session, c) ∈ s.requests ∧ c ≠ id := by
  unfold answerRequests
  simp only [List.mem_filter, decide_eq_true_eq]

theorem Owned.answer (h : Owned s) : Owned (answerRequests s id) where
  noNil := h.noNil
  below := h.below
  distinct := h.distinct
  owner := fun session c hmem => h.owner session c (mem_requests_answer.1 hmem).1
  missing := fun session c hmem => h.missing session c (mem_requests_answer.1 hmem).1

theorem Served.answer (h : Served s gone fun c => c = id ∨ todo c) :
    Served (answerRequests s id) gone fun c => c = id ∨ todo c := by
  intro c r hr hpend
  rcases h c r hr hpend with htodo | ⟨session, hmem, hne⟩
  · exact .inl htodo
  · by_cases hc : c = id
    · exact .inl (.inl hc)
    · exact .inr ⟨session, mem_requests_answer.2 ⟨hmem, hc⟩, hne⟩

end Answer

theorem supplied_of_processed {rest work : List Block} {s' : BitswapState} (hbook : Bookkeeping s')
    (howned : Owned s') (hserved : Served s' [] fun c => c ∈ work.map Block.cid ∨ c ∈ rest.map Block.cid)
    (hwork : ∀ b ∈ work, s'.storage b.cid ≠ none) (hrest : ∀ b ∈ rest, m.bs.storage b.cid ≠ none)
    (hgrows : ∀ c, m.bs.storage c ≠ none → s'.storage c ≠ none) : Supplied { bs := s', work := work ++ rest } where
  bookkeeping := hbook
  owned := howned
  served := hserved.weaken fun c hc => by
    rw [List.map_append, List.mem_append]
    exact hc
  stored := by
    intro b hb
    rcases List.mem_append.1 hb with hb | hb
    · exact hwork b hb
    · exact hgrows _ (hrest b hb)

/-- **A careful step** leaves what is pending supplied. -/
theorem Supplied.step {hash : Bytes → BitswapBlockLink} {cfg : BitswapConfig} {m m' : Machine} {e : Event}
    (h : Supplied m) (hen : Enabled hash cfg m e) (hfaults : e.faults = noFaults) (horderly : Orderly cfg m e)
    (hcareful : Careful cfg m e) (hstep : Bitswap.step cfg m e = some m') : Supplied m' := by
  have hbook : Bookkeeping m'.bs := by
    obtain ⟨m₁, hm₁, hbook₁⟩ := h.bookkeeping.step hen horderly
    rw [hstep] at hm₁
    obtain rfl := Option.some.inj hm₁
    exact hbook₁
  have howned := h.owned
  have hserved := h.served
  cases e with
  | download root tag faults =>
    obtain rfl : faults = noFaults := hfaults
    obtain rfl := Option.some.inj hstep
    obtain ⟨howned', hserved', hstorage, hwork⟩ := owned_kickStartRootDownload tag howned hserved horderly
    refine supplied_of_processed (m := m) hbook howned' hserved' (fun b hb => ?_) h.stored fun c hc => ?_
    · rw [hstorage]
      exact hwork b hb
    · rw [hstorage]
      exact hc
  | arrive block order faults =>
    obtain rfl : faults = noFaults := hfaults
    obtain ⟨r, hproc, rfl⟩ := Option.map_eq_some_iff.1 hstep
    obtain ⟨s', work⟩ := r
    have hbook₀ : Bookkeeping (answerRequests m.bs block.cid) := h.bookkeeping.congr rfl rfl
    obtain ⟨howned', hserved', hwork, hgrows⟩ := owned_processDownloadedBlock (fun c => c ∈ m.work.map Block.cid)
      hbook₀ howned.answer horderly hen.2.2 (fun session hmem => (mem_requests_answer.1 hmem).2 rfl)
      ((hserved.weaken fun c hc => .inr hc).answer) (fun oldPs hps => (hcareful oldPs hps).answer) hproc
    exact supplied_of_processed (m := m) hbook howned' hserved' hwork h.stored hgrows
  | resume order faults =>
    obtain rfl : faults = noFaults := hfaults
    obtain ⟨block, rest, hwork₀, horder⟩ := hen
    unfold Bitswap.step at hstep
    dsimp only at hstep
    rw [hwork₀] at hstep
    obtain ⟨r, hproc, rfl⟩ := Option.map_eq_some_iff.1 hstep
    obtain ⟨s', work⟩ := r
    have hhead : block ∈ m.work.head? := by
      rw [hwork₀]
      rfl
    have hmem : block ∈ m.work := by
      rw [hwork₀]
      exact List.mem_cons_self
    have hno : ∀ session, (session, block.cid) ∉ m.bs.requests :=
      fun session hreq => h.stored block hmem (howned.missing session block.cid hreq)
    have htodo : ∀ c, c = block.cid ∨ c ∈ m.work.map Block.cid → c = block.cid ∨ c ∈ rest.map Block.cid := by
      intro c hc
      rw [hwork₀, List.map_cons, List.mem_cons] at hc
      grind
    obtain ⟨howned', hserved', hwork, hgrows⟩ := owned_processDownloadedBlock (fun c => c ∈ rest.map Block.cid)
      h.bookkeeping howned (horderly block hhead) horder hno (hserved.weaken fun c hc => htodo c (.inr hc))
      (fun oldPs hps => (hcareful block hhead oldPs hps).weaken htodo) hproc
    refine supplied_of_processed (m := m) hbook howned' hserved' hwork (fun b hb => ?_) hgrows
    refine h.stored b ?_
    rw [hwork₀]
    exact List.mem_cons_of_mem _ hb
  | deadline root session =>
    obtain rfl := Option.some.inj hstep
    have hfiled₁ : Filed { m.bs with deadlines := m.bs.deadlines.erase (root, session) } :=
      h.bookkeeping.toFiled.congr rfl rfl
    have howned₁ : Owned { m.bs with deadlines := m.bs.deadlines.erase (root, session) } :=
      howned.congr rfl rfl rfl rfl rfl
    have hspared : Served { m.bs with deadlines := m.bs.deadlines.erase (root, session) } [root]
        fun c => c ∈ m.work.map Block.cid := hcareful.2.congr rfl rfl rfl
    refine ⟨hbook, howned₁.clear hfiled₁ root, ?_, fun b hb => ?_⟩
    · exact hspared.clear hfiled₁
    · dsimp only
      rw [storage_clear]
      exact h.stored b hb
  | delete root faults =>
    obtain rfl : faults = noFaults := hfaults
    obtain rfl := Option.some.inj hstep
    obtain ⟨howned', hserved'⟩ := owned_deleteRoot howned h.bookkeeping.toFiled hserved hcareful
    refine ⟨hbook, howned', hserved', fun b hb => ?_⟩
    rw [show m.work = [] from hen] at hb
    cases hb

/-! ### Roots that are wanted -/

/-- The number of times that a root was reported, other than as removed. -/
def reports (s : BitswapState) (r : Root) : Nat :=
  s.resourceUpdates.countP fun update => decide (update.2 = r ∧ update.1 ≠ .removed)

/-- From one state to another, a root loses its state only with a report. -/
structure Keeps (r : Root) (s s' : BitswapState) : Prop where
  reports : reports s r ≤ reports s' r
  state : r ∈ s.rootDownloadStates → Bitswap.reports s' r = Bitswap.reports s r → r ∈ s'.rootDownloadStates

section Keeps

variable {s'' : BitswapState} {cfg : BitswapConfig} {faults : Faults} {type : ResourceUpdateType} {l : ChildLoop}
  {roots : List Root} {childId : Cid}

theorem Keeps.of_eq (hstates : r ∈ s.rootDownloadStates → r ∈ s'.rootDownloadStates)
    (hupdates : s'.resourceUpdates = s.resourceUpdates) : Keeps r s s' where
  reports := by
    unfold Bitswap.reports
    rw [hupdates]
  state := fun hr _ => hstates hr

theorem Keeps.trans (h : Keeps r s s') (h' : Keeps r s' s'') : Keeps r s s'' where
  reports := h.reports.trans h'.reports
  state := by
    intro hr heq
    have h₁ := h.reports
    have h₂ := h'.reports
    exact h'.state (h.state hr (by omega)) (by omega)

theorem updates_clear : (clearRootDownloadState s root).resourceUpdates = s.resourceUpdates := by
  unfold clearRootDownloadState
  cases s.rootDownloadStates[root]? <;> rfl

theorem mem_states_clear (h : r ≠ root) : r ∈ (clearRootDownloadState s root).rootDownloadStates ↔ r ∈ s.rootDownloadStates := by
  rw [ExtTreeMap.mem_iff_isSome_getElem?, states_clear_of_ne h, ExtTreeMap.mem_iff_isSome_getElem?]

theorem reports_sendResourceUpdate (r root : Root) (h : type ≠ .removed) :
    reports (sendResourceUpdate s type root) r = reports s r + if root = r then 1 else 0 := by
  unfold reports sendResourceUpdate
  rw [List.countP_cons]
  simp [h]

theorem keeps_clear_report (root : Root) (h : type ≠ .removed) :
    Keeps r s (sendResourceUpdate (clearRootDownloadState s root) type root) := by
  have hreports := reports_sendResourceUpdate (s := clearRootDownloadState s root) r root h
  have hclear : reports (clearRootDownloadState s root) r = reports s r := by
    unfold reports
    rw [updates_clear]
  refine ⟨by omega, fun hr heq => ?_⟩
  by_cases hroot : root = r
  · rw [if_pos hroot] at hreports
    omega
  · exact (mem_states_clear (Ne.symm hroot)).2 hr

theorem keeps_foldl_reportBroken {gone : List Root} : Keeps r s (gone.foldl reportBroken s) := by
  induction gone generalizing s with
  | nil => exact .of_eq id rfl
  | cons x gone ih => exact (keeps_clear_report x (by decide)).trans (ih (s := reportBroken s x))

theorem keeps_takeIndices {id : Cid} {oldPs : ExtTreeMap Root (List NodeIndex)} {result : StepResult} :
    Keeps r s (takeIndices s id oldPs result) := by
  refine .of_eq (fun hr => ?_) rfl
  unfold takeIndices countDown
  exact ExtTreeMap.mem_map.2 hr

theorem keeps_addPending {ixs : List NodeIndex} : Keeps r l.bs (addPending childId l root ixs).bs := by
  refine .of_eq (fun hr => mem_states_addPending.2 hr) ?_
  unfold addPending
  cases l.bs.rootDownloadStates[root]? <;> rfl

theorem keeps_addPendings {ps : List (Root × List NodeIndex)} : Keeps r l.bs (addPendings childId l ps).bs := by
  induction ps generalizing l with
  | nil => exact .of_eq id rfl
  | cons p ps ih => exact keeps_addPending.trans (ih (l := addPending childId l p.1 p.2))

theorem keeps_addChildren {newParams : NestedMap BitswapBlockLink Root NodeIndex}
    {links : List BitswapBlockLink} : Keeps r l.bs (links.foldl (addChild faults newParams roots) l).bs := by
  induction links generalizing l with
  | nil => exact .of_eq id rfl
  | cons link links ih =>
    refine Keeps.trans ?_ (ih (l := addChild faults newParams roots l link))
    rw [addChild_bs]
    exact keeps_addPendings

theorem keeps_requestChildren (h : requestChildren faults l = some s') : Keeps r l.bs s' := by
  unfold requestChildren at h
  split at h
  · obtain rfl := Option.some.inj h
    exact .of_eq id rfl
  · split at h
    · cases h
    · obtain rfl := Option.some.inj h
      split
      · exact .of_eq id rfl
      · exact .of_eq id rfl

theorem keeps_reportAdded (root : Root) : Keeps r s (reportAdded faults s root) := by
  unfold reportAdded
  cases s.rootDownloadStates[root]? with
  | none => exact .of_eq id rfl
  | some st =>
    dsimp only
    split
    · have hstatus : Keeps r s ((setStatus faults s root .Full).getD s) := by
        cases hset : setStatus faults s root .Full with
        | none => exact .of_eq id rfl
        | some s₁ =>
          rw [setStatus_eq hset]
          exact .of_eq id rfl
      exact hstatus.trans (keeps_clear_report root (by decide))
    · exact .of_eq id rfl

theorem keeps_foldl_reportAdded : Keeps r s (roots.foldl (reportAdded faults) s) := by
  induction roots generalizing s with
  | nil => exact .of_eq id rfl
  | cons x roots ih => exact (keeps_reportAdded x).trans (ih (s := reportAdded faults s x))

/-- **Processing a block** takes the state of a root only with a report. -/
theorem keeps_processDownloadedBlock {order : MapOrder} {block : Block} {work : List Block}
    (h : processDownloadedBlock cfg order faults block s = some (s', work)) : Keeps r s s' := by
  have hstore : Keeps r s (storeDownloadedBlock faults s block) := by
    unfold storeDownloadedBlock
    split
    · exact .of_eq id rfl
    · exact .of_eq id rfl
  unfold processDownloadedBlock at h
  dsimp only at h
  split at h
  · obtain ⟨rfl, -⟩ := Prod.mk.inj (Option.some.inj h)
    exact hstore
  · unfold processPending at h
    obtain ⟨s₁, hs₁, heq⟩ := Option.map_eq_some_iff.1 h
    obtain ⟨rfl, -⟩ := Prod.mk.inj heq
    refine hstore.trans (Keeps.trans ?_ ((keeps_requestChildren hs₁).trans keeps_foldl_reportAdded))
    unfold childLoop
    refine Keeps.trans ?_ keeps_addChildren
    exact keeps_takeIndices.trans keeps_foldl_reportBroken

end Keeps

/-- A download command asks for a root, unless the root is being deleted. -/
def asksFor (m : Machine) (r : Root) : Event → Prop
  | .download root _ _ => root = r ∧ m.bs.statuses root ≠ some .Deleting
  | _ => False

/-- The deadline of the download of a root, or a delete command for it that goes ahead. -/
def dismisses (m : Machine) (r : Root) : Event → Prop
  | .deadline root session => root = r ∧ sessionOf m.bs root = some session
  | .delete root faults => root = r ∧ (setStatus faults m.bs root .Deleting).isSome
  | _ => False

/-- The roots that are wanted after a step: asked for, and neither reported nor dismissed since. -/
def wantedAfter (m : Machine) (e : Event) (m' : Machine) (wanted : Set Root) : Set Root :=
  { r | (r ∈ wanted ∨ asksFor m r e) ∧ reports m'.bs r = reports m.bs r ∧ ¬ dismisses m r e }

/-- A run whose events meet a condition, with the roots that are wanted at its end. -/
inductive DownloadRun (hash : Bytes → BitswapBlockLink) (cfg : BitswapConfig) (ok : Machine → Event → Prop) :
    Machine → Set Root → Prop
  | init {m : Machine} : Initial m → DownloadRun hash cfg ok m ∅
  | step {m : Machine} {wanted : Set Root} {e : Event} {m' : Machine} : DownloadRun hash cfg ok m wanted → Enabled hash cfg m e → ok m e →
      Bitswap.step cfg m e = some m' → DownloadRun hash cfg ok m' (wantedAfter m e m' wanted)

variable {hash : Bytes → BitswapBlockLink} {cfg : BitswapConfig} {wanted : Set Root}

/-- **A wanted root has a state**, from one step of a careful run to the next. -/
theorem wanted_step {m' : Machine} {e : Event}
    (h : ∀ r ∈ wanted, r ∈ m.bs.rootDownloadStates) (hen : Enabled hash cfg m e) (hfaults : e.faults = noFaults)
    (hcareful : Careful cfg m e) (hstep : Bitswap.step cfg m e = some m') :
    ∀ r ∈ wantedAfter m e m' wanted, r ∈ m'.bs.rootDownloadStates := by
  intro r hr
  obtain ⟨hr, hreports, hstays⟩ := hr
  cases e with
  | download root tag faults =>
    obtain rfl : faults = noFaults := hfaults
    obtain rfl := Option.some.inj hstep
    have hold : r ∈ m.bs.rootDownloadStates ∨ root = r ∧ m.bs.statuses root ≠ some .Deleting := hr.imp_left (h r)
    dsimp only at hreports ⊢
    unfold kickStartRootDownload at hreports ⊢
    by_cases hpending : root ∈ m.bs.nodeDownloadParams
    · rw [if_pos hpending]
      rcases hold with hold | ⟨rfl, -⟩
      · exact hold
      · exact hcareful hpending
    · rw [if_neg hpending] at hreports ⊢
      cases hset : setStatus noFaults m.bs root .Partial with
      | none =>
        rw [hset] at hreports
        dsimp only at hreports ⊢
        -- the status is that of a root that is stored or being deleted
        have hstatus : m.bs.statuses root = some .Full ∨ m.bs.statuses root = some .Deleting := by
          have hnofault : noFaults.setStatus = false := rfl
          unfold setStatus at hset
          rw [hnofault] at hset
          cases hst : m.bs.statuses root with
          | none =>
            rw [hst] at hset
            simp [isStatusTransitionAllowed] at hset
          | some status =>
            rw [hst] at hset
            cases status with
            | Partial => simp [isStatusTransitionAllowed] at hset
            | Full => exact .inl rfl
            | Deleting => exact .inr rfl
        split
        · rename_i hfull
          rw [if_pos hfull] at hreports
          dsimp only at hreports ⊢
          rcases hold with hold | ⟨rfl, -⟩
          · exact hold
          · rw [reports_sendResourceUpdate _ _ (by decide), if_pos rfl] at hreports
            omega
        · rename_i hfull
          rcases hold with hold | ⟨rfl, hdeleting⟩
          · exact hold
          · exact absurd (hstatus.resolve_left hfull) hdeleting
      | some s₁ =>
        obtain rfl := setStatus_eq hset
        have hmem : r ∈ (startDownload (withStatus m.bs root .Partial) root tag).rootDownloadStates := by
          unfold startDownload
          dsimp only
          rw [ExtTreeMap.mem_insert, NestedMap.eq_of_compare_eq]
          rcases hold with hold | ⟨rfl, -⟩
          · exact .inr hold
          · exact .inl rfl
        have hview : noFaults.view root = false := rfl
        have hrequest : noFaults.request = false := rfl
        dsimp only
        rw [hview, if_neg (by simp)]
        split
        · exact hmem
        · rw [hrequest, if_neg (by simp)]
          exact hmem
  | arrive block order faults =>
    have hold : r ∈ m.bs.rootDownloadStates := h r (hr.resolve_right id)
    obtain ⟨p, hproc, rfl⟩ := Option.map_eq_some_iff.1 hstep
    obtain ⟨s', work⟩ := p
    exact (keeps_processDownloadedBlock hproc).state hold hreports
  | resume order faults =>
    have hold : r ∈ m.bs.rootDownloadStates := h r (hr.resolve_right id)
    obtain ⟨block, rest, hwork, -⟩ := hen
    unfold Bitswap.step at hstep
    dsimp only at hstep
    rw [hwork] at hstep
    obtain ⟨p, hproc, rfl⟩ := Option.map_eq_some_iff.1 hstep
    obtain ⟨s', work⟩ := p
    exact (keeps_processDownloadedBlock hproc).state hold hreports
  | deadline root session =>
    have hold : r ∈ m.bs.rootDownloadStates := h r (hr.resolve_right id)
    obtain rfl := Option.some.inj hstep
    have hne : r ≠ root := by
      rintro rfl
      obtain ⟨st, hst⟩ := exists_of_mem hold
      have hcurrent := sessionOf_eq_some hst
      exact hstays ⟨rfl, by rw [hcurrent, hcareful.1 st.session hcurrent]⟩
    exact (mem_states_clear hne).2 hold
  | delete root faults =>
    have hold : r ∈ m.bs.rootDownloadStates := h r (hr.resolve_right id)
    obtain rfl := Option.some.inj hstep
    dsimp only
    unfold deleteRoot
    cases hset : setStatus faults m.bs root .Deleting with
    | none => exact hold
    | some s₁ =>
      have hne : r ≠ root := by
        rintro rfl
        exact hstays ⟨rfl, by rw [hset]; rfl⟩
      obtain rfl := setStatus_eq hset
      have hmem : r ∈ (clearRootDownloadState (withStatus m.bs root .Deleting) root).rootDownloadStates := (mem_states_clear hne).2 hold
      dsimp only
      split
      · exact hmem
      · split
        · exact hmem
        · split
          · exact hmem
          · exact hmem

/-- The steps of a run that strands no download. -/
def KeepsDownloads (cfg : BitswapConfig) (m : Machine) (e : Event) : Prop :=
  e.faults = noFaults ∧ Orderly cfg m e ∧ Careful cfg m e

theorem supplied_of_run (h : DownloadRun hash cfg (KeepsDownloads cfg) m wanted) :
    Supplied m ∧ ∀ r ∈ wanted, r ∈ m.bs.rootDownloadStates := by
  induction h with
  | init hinit => exact ⟨supplied_initial hinit, fun r hr => absurd hr (Set.notMem_empty r)⟩
  | step _ hen hok hstep ih =>
    obtain ⟨hfaults, horderly, hcareful⟩ := hok
    exact ⟨ih.1.step hen hfaults horderly hcareful hstep, wanted_step ih.2 hen hfaults hcareful hstep⟩

/-- **No download is stranded.** In a run in which nothing fails, no root is asked for while its block is
pending in other trees only, and no root is cleared, on a malformed block, a stale deadline or a deletion,
that has the only request for a block of another root: a root that is wanted has a state, and every block
that is pending for it is requested through a session that is not cancelled, or stored and to be processed
next. -/
theorem downloads_not_stranded (hash : Bytes → BitswapBlockLink) (cfg : BitswapConfig) (m : Machine) (wanted : Set Root)
    (h : DownloadRun hash cfg (KeepsDownloads cfg) m wanted) :
    ∀ r ∈ wanted, r ∈ m.bs.rootDownloadStates ∧ ∀ c ixs, m.bs.nodeDownloadParams.lookup c r = some ixs →
      c ∈ m.work.map Block.cid ∨ ∃ session, (session, c) ∈ m.bs.requests := by
  obtain ⟨hsupplied, hwanted⟩ := supplied_of_run h
  intro r hr
  refine ⟨hwanted r hr, fun c ixs hl => ?_⟩
  refine (hsupplied.served c r List.not_mem_nil ⟨ixs, hl⟩).imp_right fun hex => ?_
  obtain ⟨session, hmem, -⟩ := hex
  exact ⟨session, hmem⟩

section Example

theorem downloads_awaitingRepeated (ok : Machine → Event → Prop) (hdownload : ok emptyMachine downloadRepeating)
    (harrive : ok downloading repeatingRootArrives) :
    ∃ wanted, repeatingRoot.cid ∈ wanted ∧ DownloadRun prefixHash smallConfig ok awaitingRepeated wanted := by
  have hstart : Enabled prefixHash smallConfig emptyMachine downloadRepeating := ⟨rfl, rfl⟩
  have hroot : Enabled prefixHash smallConfig downloading repeatingRootArrives :=
    ⟨rfl, rfl, orderFits_of (by decide +kernel)⟩
  refine ⟨_, ?_, .step (.step (.init initial_emptyMachine) hstart hdownload step_downloading) hroot harrive
    step_awaitingRepeated⟩
  refine ⟨.inl ⟨.inr ⟨rfl, by decide⟩, by decide +kernel, id⟩, by decide +kernel, id⟩

theorem eq_of_isPending_downloading {c : Cid} {r : Root} (h : IsPending downloading.bs c r) : c = repeatingRoot.cid := by
  have hparams : downloading.bs.nodeDownloadParams =
      NestedMap.append (∅ : NestedMap Cid Root NodeIndex) repeatingRoot.cid repeatingRoot.cid [0] := rfl
  by_contra hne
  obtain ⟨ixs, hl⟩ := h
  rw [hparams, NestedMap.lookup_append_of_ne fun heq => hne heq.1, NestedMap.lookup_empty] at hl
  cases hl

theorem downloads_not_stranded_awaitingRepeated :
    awaitingRepeated.bs.nodeDownloadParams.lookup repeatedBlock.cid repeatingRoot.cid = some [1, 2, 3] ∧
      (repeatedBlock.cid ∈ awaitingRepeated.work.map Block.cid ∨
        ∃ session, (session, repeatedBlock.cid) ∈ awaitingRepeated.bs.requests) := by
  have hdownload : KeepsDownloads smallConfig emptyMachine downloadRepeating :=
    ⟨rfl, fun h => ExtTreeMap.not_mem_empty h.1, fun h => absurd h ExtTreeMap.not_mem_empty⟩
  have harrive : KeepsDownloads smallConfig downloading repeatingRootArrives :=
    ⟨rfl, not_fitsThenNot_of_single (by decide +kernel),
      fun _ _ c _ _ hpend => .inl (.inl (eq_of_isPending_downloading hpend))⟩
  obtain ⟨wanted, hwanted, hrun⟩ := downloads_awaitingRepeated (KeepsDownloads smallConfig) hdownload harrive
  have hlookup : awaitingRepeated.bs.nodeDownloadParams.lookup repeatedBlock.cid repeatingRoot.cid = some [1, 2, 3] := by
    decide +kernel
  exact ⟨hlookup, (downloads_not_stranded prefixHash smallConfig awaitingRepeated wanted hrun repeatingRoot.cid hwanted).2
    repeatedBlock.cid [1, 2, 3] hlookup⟩

def downloadRepeated : Event := .download repeatedBlock.cid 5 noFaults

def afterDownloadRepeated : Machine := (step smallConfig awaitingRepeated downloadRepeated).getD emptyMachine

/-- **A download is forgotten** that is for a block pending in the tree of another root. -/
theorem download_forgotten :
    ¬ ∀ (hash : Bytes → BitswapBlockLink) (cfg : BitswapConfig) (m : Machine) (wanted : Set Root),
      DownloadRun hash cfg (fun _ e => e.faults = noFaults) m wanted →
      ∀ r ∈ wanted, r ∈ m.bs.rootDownloadStates ∧ ∀ c ixs, m.bs.nodeDownloadParams.lookup c r = some ixs →
        c ∈ m.work.map Block.cid ∨ ∃ session, (session, c) ∈ m.bs.requests := by
  intro h
  obtain ⟨wanted, -, hrun⟩ := downloads_awaitingRepeated (fun _ e => e.faults = noFaults) rfl rfl
  have hwork : awaitingRepeated.work.isEmpty = true := by decide +kernel
  have hen : Enabled prefixHash smallConfig awaitingRepeated downloadRepeated := ⟨List.isEmpty_iff.1 hwork, rfl⟩
  have hnext : DownloadRun prefixHash smallConfig (fun _ e => e.faults = noFaults) afterDownloadRepeated
      (wantedAfter awaitingRepeated downloadRepeated afterDownloadRepeated wanted) := .step hrun hen rfl rfl
  have hasks : repeatedBlock.cid ∈ wantedAfter awaitingRepeated downloadRepeated afterDownloadRepeated wanted :=
    ⟨.inr ⟨rfl, by decide +kernel⟩, by decide +kernel, id⟩
  have hstate : repeatedBlock.cid ∉ afterDownloadRepeated.bs.rootDownloadStates := by decide +kernel
  exact hstate (h prefixHash smallConfig afterDownloadRepeated _ hnext repeatedBlock.cid hasks).1

end Example

end MinaProtocol.Bitswap
