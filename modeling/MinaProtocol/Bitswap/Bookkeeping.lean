import Mathlib
import MinaProtocol.Bitswap.Downloader

/-!
# Bitswap.Bookkeeping

What the downloader keeps true of its maps: every root that a block is pending for has a state, whose
counter is the number of indices pending for it and whose descendants hold the block. `Filed` holds at
every point of a step; that no counter is zero holds between the steps.

Two kinds of steps break this. A block that fits one index of a root and not a later one leaves its
children filed for a root that is cleared, and the request for them uses the state of no root. A download
of a root whose own block has come but not its tree replaces the state of the root.
-/

namespace MinaProtocol.Bitswap

open Std

/-- What holds of the maps at every point of a step. -/
structure Filed (s : BitswapState) : Prop where
  states : ∀ c r ixs, s.nodeDownloadParams.lookup c r = some ixs → r ∈ s.rootDownloadStates
  counter : ∀ (r : Root) st, s.rootDownloadStates[r]? = some st → st.remainingNodeCounter = s.nodeDownloadParams.total r
  descendants : ∀ c r ixs st, s.nodeDownloadParams.lookup c r = some ixs → s.rootDownloadStates[r]? = some st →
    c ∈ st.allDescendants
  noEmpty : s.nodeDownloadParams.NoEmpty

/-- What holds of the maps between steps. -/
structure Bookkeeping (s : BitswapState) : Prop extends Filed s where
  positive : ∀ (r : Root) st, s.rootDownloadStates[r]? = some st → 0 < st.remainingNodeCounter

/-! ### Clearing a root -/

variable {r : Root} {s : BitswapState}

section Clear

variable {np : NestedMap Cid Root NodeIndex} {cs : List Cid} {c : Cid} {r' : Root}

theorem lookup_clearAll_of_ne (h : r' ≠ r) :
    NestedMap.lookup (cs.foldl (fun np c => np.clear c r) np) c r' = np.lookup c r' := by
  induction cs generalizing np with
  | nil => rfl
  | cons d cs ih => rw [List.foldl_cons, ih, NestedMap.lookup_clear_of_ne fun heq => h heq.2]

theorem lookup_clearAll_none (h : np.lookup c r = none) :
    NestedMap.lookup (cs.foldl (fun np c => np.clear c r) np) c r = none := by
  induction cs generalizing np with
  | nil => exact h
  | cons d cs ih =>
    rw [List.foldl_cons]
    refine ih ?_
    by_cases hcd : c = d
    · rw [hcd, NestedMap.lookup_clear_self]
    · rw [NestedMap.lookup_clear_of_ne fun heq => hcd heq.1, h]

theorem lookup_clearAll_mem (h : c ∈ cs) : NestedMap.lookup (cs.foldl (fun np c => np.clear c r) np) c r = none := by
  induction cs generalizing np with
  | nil => cases h
  | cons d cs ih =>
    rw [List.foldl_cons]
    rcases List.mem_cons.1 h with hcd | hc
    · refine lookup_clearAll_none ?_
      rw [hcd, NestedMap.lookup_clear_self]
    · exact ih hc

theorem total_clearAll_of_ne (h : r' ≠ r) :
    NestedMap.total (cs.foldl (fun np c => np.clear c r) np) r' = np.total r' := by
  induction cs generalizing np with
  | nil => rfl
  | cons d cs ih => rw [List.foldl_cons, ih, NestedMap.total_clear_of_ne h]

theorem noEmpty_clearAll (h : np.NoEmpty) : NestedMap.NoEmpty (cs.foldl (fun np c => np.clear c r) np) := by
  induction cs generalizing np with
  | nil => exact h
  | cons d cs ih =>
    rw [List.foldl_cons]
    exact ih (NestedMap.noEmpty_clear h)

theorem clear_of_none (h : s.rootDownloadStates[r]? = none) : clearRootDownloadState s r = s := by
  unfold clearRootDownloadState
  rw [h]

theorem states_clear_of_ne (h : r' ≠ r) :
    (clearRootDownloadState s r).rootDownloadStates[r']? = s.rootDownloadStates[r']? := by
  unfold clearRootDownloadState
  cases hs : s.rootDownloadStates[r]? with
  | none => rfl
  | some st =>
    dsimp only
    rw [ExtTreeMap.getElem?_erase, if_neg fun heq => h (NestedMap.eq_of_compare_eq.1 heq).symm]

theorem states_clear_self : (clearRootDownloadState s r).rootDownloadStates[r]? = none := by
  unfold clearRootDownloadState
  cases hs : s.rootDownloadStates[r]? with
  | none =>
    dsimp only
    exact hs
  | some st =>
    dsimp only
    rw [ExtTreeMap.getElem?_erase_self]

theorem of_states_clear {st : RootDownloadState} (h : (clearRootDownloadState s r).rootDownloadStates[r']? = some st) :
    r' ≠ r ∧ s.rootDownloadStates[r']? = some st := by
  by_cases hr : r' = r
  · subst hr
    rw [states_clear_self] at h
    cases h
  · exact ⟨hr, by rw [← h, states_clear_of_ne hr]⟩

theorem lookup_clear_of_ne (h : r' ≠ r) :
    (clearRootDownloadState s r).nodeDownloadParams.lookup c r' = s.nodeDownloadParams.lookup c r' := by
  unfold clearRootDownloadState
  cases s.rootDownloadStates[r]? with
  | none => rfl
  | some st => exact lookup_clearAll_of_ne h

theorem total_clear_of_ne (h : r' ≠ r) :
    (clearRootDownloadState s r).nodeDownloadParams.total r' = s.nodeDownloadParams.total r' := by
  unfold clearRootDownloadState
  cases s.rootDownloadStates[r]? with
  | none => rfl
  | some st => exact total_clearAll_of_ne h

theorem Filed.lookup_clear_self (h : Filed s) : (clearRootDownloadState s r).nodeDownloadParams.lookup c r = none := by
  cases hs : s.rootDownloadStates[r]? with
  | none =>
    rw [clear_of_none hs]
    cases hl : s.nodeDownloadParams.lookup c r with
    | none => rfl
    | some ixs =>
      have hmem := h.states c r ixs hl
      rw [ExtTreeMap.mem_iff_isSome_getElem?, hs] at hmem
      cases hmem
  | some st =>
    unfold clearRootDownloadState
    rw [hs]
    dsimp only
    cases hl : s.nodeDownloadParams.lookup c r with
    | none => exact lookup_clearAll_none hl
    | some ixs => exact lookup_clearAll_mem (ExtTreeSet.mem_toList.2 (h.descendants c r ixs st hl hs))

/-- **Clearing a root keeps the maps in order.** -/
theorem Filed.clear (h : Filed s) (r : Root) : Filed (clearRootDownloadState s r) where
  states := by
    intro c r' ixs hl
    by_cases hr : r' = r
    · subst hr
      rw [h.lookup_clear_self] at hl
      cases hl
    · rw [lookup_clear_of_ne hr] at hl
      have hmem := h.states c r' ixs hl
      rw [ExtTreeMap.mem_iff_isSome_getElem?] at hmem ⊢
      rw [states_clear_of_ne hr]
      exact hmem
  counter := by
    intro r' st hst
    obtain ⟨hr, hst⟩ := of_states_clear hst
    rw [total_clear_of_ne hr]
    exact h.counter r' st hst
  descendants := by
    intro c r' ixs st hl hst
    obtain ⟨hr, hst⟩ := of_states_clear hst
    rw [lookup_clear_of_ne hr] at hl
    exact h.descendants c r' ixs st hl hst
  noEmpty := by
    unfold clearRootDownloadState
    cases s.rootDownloadStates[r]? with
    | none => exact h.noEmpty
    | some st => exact noEmpty_clearAll h.noEmpty

theorem Bookkeeping.clear (h : Bookkeeping s) (r : Root) : Bookkeeping (clearRootDownloadState s r) where
  toFiled := h.toFiled.clear r
  positive := fun r' st hst => h.positive r' st (of_states_clear hst).2

end Clear

/-! ### The children of a block -/

variable {links : List BitswapBlockLink} {link : BitswapBlockLink} {root : Root}

section Children

variable {cfg : BitswapConfig} {params : ExtTreeMap Root (List NodeIndex)} {check : Root → List NodeIndex → RootCheck}
  {v : NodeIndex} {m : NestedMap BitswapBlockLink Root NodeIndex} {di : DepthIndices}

theorem has_addChildren {ix : NodeIndex} : (addChildren di links root m ix).Has link r v ↔
      m.Has link r v ∨ r = root ∧ ∃ j : Nat, links[j]? = some link ∧ v = di.firstChildId ix + (j : Int) := by
  unfold addChildren
  refine (NestedMap.has_foldl (P := fun l : BitswapBlockLink × Nat =>
      link = l.1 ∧ r = root ∧ v ∈ [di.firstChildId ix + (l.2 : Int)])
    (fun m l => NestedMap.has_append) _ _).trans (or_congr_right ⟨fun h => ?_, fun h => ?_⟩)
  · obtain ⟨l, hl, rfl, rfl, hv⟩ := h
    obtain ⟨b, j⟩ := l
    exact ⟨rfl, j, List.mem_zipIdx_iff_getElem?.1 hl, List.mem_singleton.1 hv⟩
  · obtain ⟨rfl, j, hj, rfl⟩ := h
    exact ⟨(link, j), List.mem_zipIdx_iff_getElem?.2 hj, rfl, rfl, List.mem_singleton.2 rfl⟩

theorem has_foldl_addChildren {ixs : List NodeIndex} : (ixs.foldl (addChildren di links root) m).Has link r v ↔
      m.Has link r v ∨ ∃ ix ∈ ixs, r = root ∧ ∃ j : Nat, links[j]? = some link ∧ v = di.firstChildId ix + (j : Int) :=
  NestedMap.has_foldl (P := fun ix => r = root ∧ ∃ j : Nat, links[j]? = some link ∧ v = di.firstChildId ix + (j : Int))
    (fun _ _ => has_addChildren) ixs m

/-- **The children of a block** are its links, at the children of the indices that it fits. -/
theorem has_childrenOf : (childrenOf cfg params check links).Has link r v ↔
      ∃ ixs, params[r]? = some ixs ∧ ∃ ix ∈ (check r ixs).wellFormed, ∃ j : Nat, links[j]? = some link ∧
        v = cfg.depthIndices.firstChildId ix + (j : Int) := by
  unfold childrenOf
  refine (NestedMap.has_foldl (P := fun p : Root × List NodeIndex => ∃ ix ∈ (check p.1 p.2).wellFormed, r = p.1 ∧
    ∃ j : Nat, links[j]? = some link ∧ v = cfg.depthIndices.firstChildId ix + (j : Int))
    (fun m p => has_foldl_addChildren) params.toList ∅).trans ?_
  constructor
  · intro h
    rcases h with h | h
    · exact absurd h NestedMap.not_has_empty
    · obtain ⟨p, hp, ix, hix, rfl, hj⟩ := h
      obtain ⟨r, ixs⟩ := p
      exact ⟨ixs, ExtTreeMap.mem_toList_iff_getElem?_eq_some.1 hp, ix, hix, hj⟩
  · intro h
    obtain ⟨ixs, hixs, ix, hix, hj⟩ := h
    exact .inr ⟨(r, ixs), ExtTreeMap.mem_toList_iff_getElem?_eq_some.2 hixs, ix, hix, rfl, hj⟩

theorem noNil_empty : NestedMap.NoNil (∅ : NestedMap BitswapBlockLink Root NodeIndex) := by
  intro k l vs h
  rw [NestedMap.lookup_empty] at h
  cases h

theorem noNil_childrenOf : NestedMap.NoNil (childrenOf cfg params check links) := by
  unfold childrenOf addChildren
  refine NestedMap.noNil_foldl (fun m p hm => ?_) _ _ noNil_empty
  refine NestedMap.noNil_foldl (fun m ix hm => ?_) _ _ hm
  exact NestedMap.noNil_foldl (fun m l hm => NestedMap.noNil_append hm (by simp)) _ _ hm

theorem noEmpty_childrenOf : NestedMap.NoEmpty (childrenOf cfg params check links) := by
  have hempty : NestedMap.NoEmpty (∅ : NestedMap BitswapBlockLink Root NodeIndex) := by
    intro k inner h
    rw [ExtTreeMap.getElem?_empty] at h
    cases h
  unfold childrenOf addChildren
  refine NestedMap.noEmpty_foldl (fun m p hm => ?_) _ _ hempty
  refine NestedMap.noEmpty_foldl (fun m ix hm => ?_) _ _ hm
  exact NestedMap.noEmpty_foldl (fun m l hm => NestedMap.noEmpty_append hm) _ _ hm

end Children

variable {cfg : BitswapConfig} {hash : Bytes → BitswapBlockLink} {ixs : List NodeIndex} {m : Machine}

theorem of_newParams {params : ExtTreeMap Root (List NodeIndex)} {block : Block}
    {states : ExtTreeMap Root RootDownloadState} {link : BitswapBlockLink} {r : Root}
    (h : (processDownloadedBlockStep cfg params block states).newParams.lookup link r = some ixs) :
    ∃ links data ixs', readBitswapBlock block.rawData = some (links, data) ∧ params[r]? = some ixs' ∧ link ∈ links ∧
      (checkFor cfg states block.rawData.length links.length data r ixs').wellFormed ≠ [] := by
  unfold processDownloadedBlockStep at h
  cases hread : readBitswapBlock block.rawData with
  | none =>
    rw [hread] at h
    dsimp only at h
    rw [NestedMap.lookup_empty] at h
    cases h
  | some read =>
    obtain ⟨links, data⟩ := read
    rw [hread] at h
    dsimp only at h
    obtain ⟨v, hv⟩ := noNil_childrenOf.exists_has h
    obtain ⟨ixs', hixs', ix, hix, j, hj, -⟩ := has_childrenOf.1 hv
    exact ⟨links, data, ixs', rfl, hixs', List.mem_of_getElem? hj, List.ne_nil_of_mem hix⟩

/-! ### The parts of a step -/

variable {oldPs : ExtTreeMap Root (List NodeIndex)} {st : RootDownloadState}

section Parts

variable {id : Cid} {result : StepResult} {m : ExtTreeMap Root RootDownloadState} {rs : List Root}

theorem Filed.congr {s' : BitswapState} (h : Filed s) (hparams : s'.nodeDownloadParams = s.nodeDownloadParams)
    (hstates : s'.rootDownloadStates = s.rootDownloadStates) : Filed s' := by
  refine ⟨?_, ?_, ?_, ?_⟩
  · rw [hparams, hstates]
    exact h.states
  · rw [hparams, hstates]
    exact h.counter
  · rw [hparams, hstates]
    exact h.descendants
  · rw [hparams]
    exact h.noEmpty

theorem mem_of_getElem? (h : m[r]? = some st) : r ∈ m := by
  rw [ExtTreeMap.mem_iff_isSome_getElem?, h]
  rfl

theorem exists_of_mem (h : r ∈ m) : ∃ st, m[r]? = some st :=
  Option.isSome_iff_exists.1 (ExtTreeMap.mem_iff_isSome_getElem?.1 h)

theorem getElem?_countDown {states : ExtTreeMap Root RootDownloadState} :
    (countDown oldPs result states)[r]? = (states[r]?).map (countDownRoot oldPs result r) := by
  unfold countDown
  rw [ExtTreeMap.getElem?_map]

theorem allDescendants_countDownRoot : (countDownRoot oldPs result r st).allDescendants = st.allDescendants := by
  unfold countDownRoot
  cases oldPs[r]? with
  | none => rfl
  | some ixs => rfl

theorem counter_countDownRoot :
    (countDownRoot oldPs result r st).remainingNodeCounter = st.remainingNodeCounter - ((oldPs[r]?).getD []).length := by
  unfold countDownRoot
  cases oldPs[r]? with
  | none => simp
  | some ixs => rfl

/-- **Taking the indices of a block out** keeps the maps in order. -/
theorem Filed.takeIndices (h : Filed s) (hps : s.nodeDownloadParams[id]? = some oldPs) :
    Filed (takeIndices s id oldPs result) where
  states := by
    intro c r ixs hl
    by_cases hc : c = id
    · subst hc
      have hnone : NestedMap.lookup (s.nodeDownloadParams.erase c) c r = some ixs := hl
      rw [NestedMap.lookup_erase_self] at hnone
      cases hnone
    · have hold : NestedMap.lookup (s.nodeDownloadParams.erase id) c r = some ixs := hl
      rw [NestedMap.lookup_erase_of_ne hc] at hold
      obtain ⟨st, hst⟩ := exists_of_mem (h.states c r ixs hold)
      have hcounted : (countDown oldPs result s.rootDownloadStates)[r]? = some (countDownRoot oldPs result r st) := by
        rw [getElem?_countDown, hst, Option.map_some]
      exact mem_of_getElem? hcounted
  counter := by
    intro r st hst
    dsimp only [Bitswap.takeIndices] at hst ⊢
    rw [getElem?_countDown] at hst
    obtain ⟨st', hst', rfl⟩ := Option.map_eq_some_iff.1 hst
    rw [counter_countDownRoot, NestedMap.total_erase, NestedMap.lookup_eq_some_of_getElem? hps, h.counter r st' hst']
  descendants := by
    intro c r ixs st hl hst
    dsimp only [Bitswap.takeIndices] at hl hst
    rw [getElem?_countDown] at hst
    obtain ⟨st', hst', rfl⟩ := Option.map_eq_some_iff.1 hst
    rw [allDescendants_countDownRoot]
    by_cases hc : c = id
    · subst hc
      rw [NestedMap.lookup_erase_self] at hl
      cases hl
    · rw [NestedMap.lookup_erase_of_ne hc] at hl
      exact h.descendants c r ixs st' hl hst'
  noEmpty := NestedMap.noEmpty_erase h.noEmpty

theorem Filed.reportBroken (h : Filed s) (r : Root) : Filed (reportBroken s r) :=
  (h.clear r).congr rfl rfl

theorem Filed.foldl_reportBroken (h : Filed s) (rs : List Root) : Filed (rs.foldl Bitswap.reportBroken s) := by
  induction rs generalizing s with
  | nil => exact h
  | cons r rs ih => exact ih (h.reportBroken r)

theorem states_reportBroken_of_not_mem (h : r ∉ rs) :
    (rs.foldl reportBroken s).rootDownloadStates[r]? = s.rootDownloadStates[r]? := by
  induction rs generalizing s with
  | nil => rfl
  | cons r' rs ih =>
    rw [List.mem_cons, not_or] at h
    rw [List.foldl_cons, ih h.2]
    exact states_clear_of_ne h.1

theorem states_reportBroken_none (h : s.rootDownloadStates[r]? = none) :
    (rs.foldl reportBroken s).rootDownloadStates[r]? = none := by
  induction rs generalizing s with
  | nil => exact h
  | cons r' rs ih =>
    rw [List.foldl_cons]
    refine ih ?_
    by_cases hr : r = r'
    · rw [hr]
      exact states_clear_self
    · exact (states_clear_of_ne hr).trans h

theorem states_reportBroken_of_mem (h : r ∈ rs) : (rs.foldl reportBroken s).rootDownloadStates[r]? = none := by
  induction rs generalizing s with
  | nil => cases h
  | cons r' rs ih =>
    rw [List.foldl_cons]
    rcases List.mem_cons.1 h with hr | hr
    · refine states_reportBroken_none ?_
      rw [hr]
      exact states_clear_self
    · exact ih hr

end Parts

/-! ### The loop over the children -/

variable {faults : Faults}

section Loop

variable {l : ChildLoop} {childId : Cid} {ixs : List NodeIndex}

theorem addPending_of_state {st : RootDownloadState} (h : l.bs.rootDownloadStates[root]? = some st) :
    addPending childId l root ixs =
      { l with
        someRootState := some st.session
        bs := { l.bs with
          nodeDownloadParams := l.bs.nodeDownloadParams.append childId root ixs
          rootDownloadStates := l.bs.rootDownloadStates.insert root
            { st with
              allDescendants := st.allDescendants.insert childId
              remainingNodeCounter := st.remainingNodeCounter + ixs.length } } } := by
  unfold addPending
  rw [h]

theorem mem_states_addPending : r ∈ (addPending childId l root ixs).bs.rootDownloadStates ↔ r ∈ l.bs.rootDownloadStates := by
  cases hst : l.bs.rootDownloadStates[root]? with
  | none =>
    unfold addPending
    rw [hst]
  | some st =>
    rw [addPending_of_state hst]
    dsimp only
    rw [ExtTreeMap.mem_insert, NestedMap.eq_of_compare_eq]
    constructor
    · intro h
      rcases h with rfl | h
      · exact mem_of_getElem? hst
      · exact h
    · exact .inr

theorem states_addPending_of_ne (h : r ≠ root) :
    (addPending childId l root ixs).bs.rootDownloadStates[r]? = l.bs.rootDownloadStates[r]? := by
  cases hst : l.bs.rootDownloadStates[root]? with
  | none =>
    unfold addPending
    rw [hst]
  | some st =>
    rw [addPending_of_state hst]
    dsimp only
    rw [ExtTreeMap.getElem?_insert, if_neg fun heq => h (NestedMap.eq_of_compare_eq.1 heq).symm]

/-- **Filing a child for a root with a state** keeps the maps in order. -/
theorem Filed.addPending (h : Filed l.bs) (hroot : root ∈ l.bs.rootDownloadStates) :
    Filed (addPending childId l root ixs).bs := by
  obtain ⟨st, hst⟩ := exists_of_mem hroot
  refine ⟨?_, ?_, ?_, ?_⟩
  · intro c r vs hl
    rw [mem_states_addPending]
    rw [addPending_of_state hst] at hl
    by_cases hcr : c = childId ∧ r = root
    · rw [hcr.2]
      exact hroot
    · dsimp only at hl
      rw [NestedMap.lookup_append_of_ne hcr] at hl
      exact h.states c r vs hl
  · intro r st' hst'
    by_cases hr : r = root
    · subst hr
      rw [addPending_of_state hst] at hst' ⊢
      dsimp only at hst' ⊢
      rw [ExtTreeMap.getElem?_insert_self] at hst'
      obtain rfl := Option.some.inj hst'
      dsimp only
      rw [NestedMap.total_append_self, h.counter r st hst]
    · rw [states_addPending_of_ne hr] at hst'
      rw [addPending_of_state hst]
      dsimp only
      rw [NestedMap.total_append_of_ne hr]
      exact h.counter r st' hst'
  · intro c r vs st' hl hst'
    rw [addPending_of_state hst] at hl
    dsimp only at hl
    by_cases hr : r = root
    · subst hr
      rw [addPending_of_state hst] at hst'
      dsimp only at hst'
      rw [ExtTreeMap.getElem?_insert_self] at hst'
      obtain rfl := Option.some.inj hst'
      dsimp only
      rw [ExtTreeSet.mem_insert, NestedMap.eq_of_compare_eq]
      by_cases hc : c = childId
      · exact .inl hc.symm
      · rw [NestedMap.lookup_append_of_ne fun heq => hc heq.1] at hl
        exact .inr (h.descendants c r vs st hl hst)
    · rw [states_addPending_of_ne hr] at hst'
      rw [NestedMap.lookup_append_of_ne fun heq => hr heq.2] at hl
      exact h.descendants c r vs st' hl hst'
  · rw [addPending_of_state hst]
    exact NestedMap.noEmpty_append h.noEmpty

variable {newParams : NestedMap BitswapBlockLink Root NodeIndex} {roots : List Root}
  {ps : List (Root × List NodeIndex)}

/-- The roots that a child is filed for, with the indices. -/
def rootsOf (newParams : NestedMap BitswapBlockLink Root NodeIndex) (roots : List Root) (link : BitswapBlockLink) :
    List (Root × List NodeIndex) :=
  roots.filterMap fun root => (newParams.lookup link root).map fun ixs => (root, ixs)

theorem mem_rootsOf {p : Root × List NodeIndex} :
    p ∈ rootsOf newParams roots link ↔ p.1 ∈ roots ∧ newParams.lookup link p.1 = some p.2 := by
  obtain ⟨root, ixs⟩ := p
  unfold rootsOf
  simp only [List.mem_filterMap, Option.map_eq_some_iff, Prod.mk.injEq]
  constructor
  · intro h
    obtain ⟨root', hmem, ixs', hl, rfl, rfl⟩ := h
    exact ⟨hmem, hl⟩
  · intro h
    exact ⟨root, h.1, ixs, h.2, rfl, rfl⟩

/-- File a child for several roots. -/
def addPendings (childId : Cid) (l : ChildLoop) (ps : List (Root × List NodeIndex)) : ChildLoop :=
  ps.foldl (fun l p => addPending childId l p.1 p.2) l

theorem addChild_eq : addChild faults newParams roots l link =
      match viewBlock faults (addPendings link l (rootsOf newParams roots link)).bs link with
      | some bytes =>
        { addPendings link l (rootsOf newParams roots link) with
          blocksToProcess := (addPendings link l (rootsOf newParams roots link)).blocksToProcess ++
            [{ cid := link, rawData := bytes }] }
      | none =>
        { addPendings link l (rootsOf newParams roots link) with
          toDownload := (addPendings link l (rootsOf newParams roots link)).toDownload ++ [link] } := rfl

theorem addChild_bs : (addChild faults newParams roots l link).bs = (addPendings link l (rootsOf newParams roots link)).bs := by
  rw [addChild_eq]
  split <;> rfl

theorem addChild_someRootState : (addChild faults newParams roots l link).someRootState =
      (addPendings link l (rootsOf newParams roots link)).someRootState := by
  rw [addChild_eq]
  split <;> rfl

theorem mem_states_addPendings :
    r ∈ (addPendings childId l ps).bs.rootDownloadStates ↔ r ∈ l.bs.rootDownloadStates := by
  induction ps generalizing l with
  | nil => rfl
  | cons p ps ih => exact ih.trans mem_states_addPending

theorem states_addPendings_of_not_mem (h : ∀ p ∈ ps, p.1 ≠ r) :
    (addPendings childId l ps).bs.rootDownloadStates[r]? = l.bs.rootDownloadStates[r]? := by
  induction ps generalizing l with
  | nil => rfl
  | cons p ps ih =>
    refine (ih fun q hq => h q (List.mem_cons_of_mem _ hq)).trans ?_
    exact states_addPending_of_ne (h p List.mem_cons_self).symm

theorem Filed.addPendings (h : Filed l.bs)
    (hroots : ∀ p ∈ ps, p.1 ∈ l.bs.rootDownloadStates) : Filed (addPendings childId l ps).bs := by
  induction ps generalizing l with
  | nil => exact h
  | cons p ps ih =>
    refine ih (h.addPending (hroots p List.mem_cons_self)) fun q hq => ?_
    rw [mem_states_addPending]
    exact hroots q (List.mem_cons_of_mem _ hq)

theorem someRootState_addPendings
    (hroots : ∀ p ∈ ps, p.1 ∈ l.bs.rootDownloadStates) (h : ps ≠ [] ∨ l.someRootState ≠ none) :
    (addPendings childId l ps).someRootState ≠ none := by
  induction ps generalizing l with
  | nil => exact h.resolve_left fun hne => hne rfl
  | cons p ps ih =>
    refine ih (fun q hq => ?_) (.inr ?_)
    · rw [mem_states_addPending]
      exact hroots q (List.mem_cons_of_mem _ hq)
    · obtain ⟨st, hst⟩ := exists_of_mem (hroots p List.mem_cons_self)
      dsimp only
      rw [addPending_of_state hst]
      exact Option.some_ne_none _

/-- **The loop over the children** keeps the maps in order, and knows a session when there is a child to
download, provided that every root the children are filed for has a state. -/
theorem filed_addChildren (h : Filed l.bs)
    (hstates : ∀ link r ixs, newParams.lookup link r = some ixs → r ∈ l.bs.rootDownloadStates)
    (hcover : ∀ link r ixs, newParams.lookup link r = some ixs → r ∈ roots)
    (hlinks : ∀ link ∈ links, ∃ r ixs, newParams.lookup link r = some ixs)
    (hsession : l.toDownload ≠ [] → l.someRootState ≠ none) :
    Filed (links.foldl (addChild faults newParams roots) l).bs ∧
      ((links.foldl (addChild faults newParams roots) l).toDownload ≠ [] →
        (links.foldl (addChild faults newParams roots) l).someRootState ≠ none) := by
  induction links generalizing l with
  | nil => exact ⟨h, hsession⟩
  | cons link links ih =>
    have hroots : ∀ p ∈ rootsOf newParams roots link, p.1 ∈ l.bs.rootDownloadStates :=
      fun p hp => hstates link p.1 p.2 (mem_rootsOf.1 hp).2
    rw [List.foldl_cons]
    refine ih ?_ (fun link' r ixs hl => ?_) (fun link' hl => hlinks link' (List.mem_cons_of_mem _ hl)) (fun _ => ?_)
    · rw [addChild_bs]
      exact h.addPendings hroots
    · rw [addChild_bs, mem_states_addPendings]
      exact hstates link' r ixs hl
    · rw [addChild_someRootState]
      obtain ⟨r, ixs, hl⟩ := hlinks link List.mem_cons_self
      refine someRootState_addPendings hroots (.inl (List.ne_nil_of_mem (a := (r, ixs)) ?_))
      exact mem_rootsOf.2 ⟨hcover link r ixs hl, hl⟩

theorem states_addChildren_of_none (h : ∀ link, newParams.lookup link r = none) :
    (links.foldl (addChild faults newParams roots) l).bs.rootDownloadStates[r]? = l.bs.rootDownloadStates[r]? := by
  induction links generalizing l with
  | nil => rfl
  | cons link links ih =>
    rw [List.foldl_cons, ih, addChild_bs]
    refine states_addPendings_of_not_mem fun p hp hr => ?_
    have hl := (mem_rootsOf.1 hp).2
    rw [hr, h link] at hl
    cases hl

end Loop

/-! ### The end of a step -/

section End

theorem reportAdded_of_zero (faults : Faults) (hst : s.rootDownloadStates[root]? = some st)
    (hzero : st.remainingNodeCounter = 0) :
    ∃ s', s'.nodeDownloadParams = s.nodeDownloadParams ∧ s'.rootDownloadStates = s.rootDownloadStates ∧
      reportAdded faults s root = sendResourceUpdate (clearRootDownloadState s' root) .added root := by
  refine ⟨(setStatus faults s root .Full).getD s, ?_, ?_, ?_⟩
  · unfold setStatus
    split <;> rfl
  · unfold setStatus
    split <;> rfl
  · unfold reportAdded
    rw [hst]
    dsimp only
    rw [if_pos hzero]

theorem reportAdded_of_ne (hst : s.rootDownloadStates[root]? = some st)
    (hne : st.remainingNodeCounter ≠ 0) : reportAdded faults s root = s := by
  unfold reportAdded
  rw [hst]
  dsimp only
  rw [if_neg hne]

theorem reportAdded_of_none (hst : s.rootDownloadStates[root]? = none) : reportAdded faults s root = s := by
  unfold reportAdded
  rw [hst]

theorem Filed.reportAdded (h : Filed s) (root : Root) : Filed (reportAdded faults s root) := by
  cases hst : s.rootDownloadStates[root]? with
  | none =>
    rw [reportAdded_of_none hst]
    exact h
  | some st =>
    by_cases hzero : st.remainingNodeCounter = 0
    · obtain ⟨s', hparams, hstates, heq⟩ := reportAdded_of_zero faults hst hzero
      rw [heq]
      exact ((h.congr hparams hstates).clear root).congr rfl rfl
    · rw [reportAdded_of_ne hst hzero]
      exact h

/-- What is left of a root's state after the end of a step was there before, and counts something if the
root was looked at. -/
theorem of_states_reportAdded (h : (reportAdded faults s root).rootDownloadStates[r]? = some st) :
    s.rootDownloadStates[r]? = some st ∧ (r = root → st.remainingNodeCounter ≠ 0) := by
  cases hst : s.rootDownloadStates[root]? with
  | none =>
    rw [reportAdded_of_none hst] at h
    refine ⟨h, fun hr => ?_⟩
    rw [hr, hst] at h
    cases h
  | some st' =>
    by_cases hzero : st'.remainingNodeCounter = 0
    · obtain ⟨s', hparams, hstates, heq⟩ := reportAdded_of_zero faults hst hzero
      rw [heq] at h
      obtain ⟨hr, hold⟩ := of_states_clear (s := s') h
      rw [hstates] at hold
      exact ⟨hold, fun heq => absurd heq hr⟩
    · rw [reportAdded_of_ne hst hzero] at h
      refine ⟨h, fun hr => ?_⟩
      rw [hr, hst] at h
      obtain rfl := Option.some.inj h
      exact hzero

theorem of_states_foldl_reportAdded {roots : List Root}
    (h : (roots.foldl (reportAdded faults) s).rootDownloadStates[r]? = some st) :
    s.rootDownloadStates[r]? = some st ∧ (r ∈ roots → st.remainingNodeCounter ≠ 0) := by
  induction roots generalizing s with
  | nil => exact ⟨h, fun hr => by cases hr⟩
  | cons root roots ih =>
    obtain ⟨hst, hrest⟩ := ih h
    obtain ⟨hold, hroot⟩ := of_states_reportAdded hst
    refine ⟨hold, fun hr => ?_⟩
    rcases List.mem_cons.1 hr with hr | hr
    · exact hroot hr
    · exact hrest hr

theorem Filed.foldl_reportAdded (h : Filed s) (faults : Faults) (roots : List Root) : Filed (roots.foldl (Bitswap.reportAdded faults) s) := by
  induction roots generalizing s with
  | nil => exact h
  | cons root roots ih => exact ih (h.reportAdded root)

end End

/-! ### Steps that break the maps -/

/-- The schema that a block is checked against for a root. -/
def schemaFor (cfg : BitswapConfig) (rp : RootDownloadState) (fullBlockData : Bytes) (ixs : List NodeIndex) :
    Option BitswapBlockSchema :=
  if (0 : NodeIndex) ∈ ixs then
    (readRootLength cfg rp.tag fullBlockData).map (mkBitswapBlockSchemaLengthPrefixed cfg.maxBlockSize)
  else rp.schema

/-- A block with links that fits the first index it is pending at for some root, and not all of them. -/
def FitsThenNot (cfg : BitswapConfig) (s : BitswapState) (block : Block) : Prop :=
  ∃ (oldPs : ExtTreeMap Root (List NodeIndex)) (links : List BitswapBlockLink) (data : Bytes) (root : Root)
    (rp : RootDownloadState) (ix : NodeIndex) (ixs : List NodeIndex) (schema : BitswapBlockSchema),
    s.nodeDownloadParams[block.cid]? = some oldPs ∧
    readBitswapBlock block.rawData = some (links, data) ∧ links ≠ [] ∧
    oldPs[root]? = some (ix :: ixs) ∧ s.rootDownloadStates[root]? = some rp ∧
    schemaFor cfg rp data (ix :: ixs) = some schema ∧
    fitsAt schema block.rawData.length links.length ix = true ∧
    ∃ ix' ∈ ixs, fitsAt schema block.rawData.length links.length ix' = false

/-- A download of a root that has a state while its own block is not pending, and whose status allows it. -/
def Restarts (faults : Faults) (s : BitswapState) (root : Root) : Prop :=
  root ∈ s.rootDownloadStates ∧ root ∉ s.nodeDownloadParams ∧ (setStatus faults s root .Partial).isSome

/-- A root that is malformed after some index was well formed is one of `FitsThenNot`. -/
theorem checkRoot_fits_then_not {size numLinks : Nat} {data : Bytes} {rp : RootDownloadState}
    (hbad : (checkRoot cfg size numLinks data rp ixs).malformed = true)
    (hgood : (checkRoot cfg size numLinks data rp ixs).wellFormed ≠ []) :
    ∃ schema ix rest, ixs = ix :: rest ∧ schemaFor cfg rp data ixs = some schema ∧
      fitsAt schema size numLinks ix = true ∧ ∃ ix' ∈ rest, fitsAt schema size numLinks ix' = false := by
  -- the indices are checked against the schema
  have hchecked : ∃ schema, schemaFor cfg rp data ixs = some schema ∧
      checkRoot cfg size numLinks data rp ixs = checkIndices schema size numLinks ixs := by
    unfold checkRoot schemaFor at *
    by_cases hroot : (0 : NodeIndex) ∈ ixs
    · rw [if_pos hroot] at hbad hgood ⊢
      rw [if_pos hroot]
      cases hlen : readRootLength cfg rp.tag data with
      | none =>
        rw [hlen] at hgood
        exact absurd rfl hgood
      | some dataLen => exact ⟨_, rfl, rfl⟩
    · rw [if_neg hroot] at hbad hgood ⊢
      rw [if_neg hroot]
      cases hschema : rp.schema with
      | none =>
        rw [hschema] at hbad
        cases hbad
      | some schema => exact ⟨schema, rfl, rfl⟩
  obtain ⟨schema, hschema, hcheck⟩ := hchecked
  rw [hcheck] at hbad hgood
  unfold checkIndices at hbad hgood
  dsimp only at hbad hgood
  cases ixs with
  | nil => exact absurd rfl hgood
  | cons ix rest =>
    have hfirst : fitsAt schema size numLinks ix = true := by
      by_contra hno
      rw [List.takeWhile_cons, if_neg hno] at hgood
      exact hgood rfl
    rw [Bool.not_eq_true', List.all_cons, hfirst, Bool.true_and, List.all_eq_false] at hbad
    obtain ⟨ix', hmem, hnot⟩ := hbad
    exact ⟨schema, ix, rest, rfl, hschema, hfirst, ix', hmem, Bool.eq_false_iff.2 hnot⟩

/-- The orders are orders of the links and the roots. -/
def OrderFits (cfg : BitswapConfig) (order : MapOrder) (block : Block) (s : BitswapState) : Prop :=
  ∀ oldPs, s.nodeDownloadParams[block.cid]? = some oldPs →
    order.links.Perm (processDownloadedBlockStep cfg oldPs block s.rootDownloadStates).newParams.keys ∧
    order.roots.Perm oldPs.keys

section Process

variable {cfg : BitswapConfig} {block : Block} {order : MapOrder} {states : ExtTreeMap Root RootDownloadState}

theorem noEmpty_newParams : NestedMap.NoEmpty (processDownloadedBlockStep cfg oldPs block states).newParams := by
  unfold processDownloadedBlockStep
  cases readBitswapBlock block.rawData with
  | none =>
    intro k inner h
    dsimp only at h
    rw [ExtTreeMap.getElem?_empty] at h
    cases h
  | some read => exact noEmpty_childrenOf

theorem of_malformed (h : r ∈ (processDownloadedBlockStep cfg oldPs block states).malformed) : r ∈ oldPs := by
  have hkey : ∀ p ∈ oldPs.toList, p.1 ∈ oldPs := by
    intro p hp
    obtain ⟨r, ixs⟩ := p
    rw [ExtTreeMap.mem_toList_iff_getElem?_eq_some] at hp
    rw [ExtTreeMap.mem_iff_isSome_getElem?, hp]
    rfl
  unfold processDownloadedBlockStep at h
  cases hread : readBitswapBlock block.rawData with
  | none =>
    rw [hread] at h
    obtain ⟨p, hp, rfl⟩ := List.mem_map.1 h
    exact hkey p hp
  | some read =>
    rw [hread] at h
    obtain ⟨p, hp, rfl⟩ := List.mem_map.1 h
    exact hkey p (List.mem_of_mem_filter hp)

/-- **A root that children are filed for is not malformed**, unless the block fits an index of it and not a
later one. -/
theorem not_malformed_of_newParams (hclean : ¬ FitsThenNot cfg s block)
    (hps : s.nodeDownloadParams[block.cid]? = some oldPs) {ixs : List NodeIndex}
    (hl : (processDownloadedBlockStep cfg oldPs block s.rootDownloadStates).newParams.lookup link r = some ixs) :
    r ∉ (processDownloadedBlockStep cfg oldPs block s.rootDownloadStates).malformed ∧ r ∈ s.rootDownloadStates := by
  obtain ⟨links, data, ixs', hread, hparams, hlink, hgood⟩ := of_newParams hl
  have hstate : ∃ rp, s.rootDownloadStates[r]? = some rp := by
    cases hst : s.rootDownloadStates[r]? with
    | none =>
      unfold checkFor at hgood
      rw [hst] at hgood
      exact absurd rfl hgood
    | some rp => exact ⟨rp, rfl⟩
  obtain ⟨rp, hrp⟩ := hstate
  refine ⟨fun hbad => hclean ?_, mem_of_getElem? hrp⟩
  unfold processDownloadedBlockStep at hbad
  rw [hread] at hbad
  obtain ⟨p, hp, rfl⟩ := List.mem_map.1 hbad
  rw [List.mem_filter] at hp
  obtain ⟨hp, hmal⟩ := hp
  obtain ⟨r, ixs''⟩ := p
  rw [ExtTreeMap.mem_toList_iff_getElem?_eq_some, hparams] at hp
  obtain rfl := Option.some.inj hp
  unfold checkFor at hmal hgood
  rw [hrp] at hmal hgood
  obtain ⟨schema, ix, rest, rfl, hschema, hfits, hnot⟩ := checkRoot_fits_then_not hmal hgood
  exact ⟨oldPs, links, data, r, rp, ix, rest, schema, hps, hread, List.ne_nil_of_mem hlink, hparams, hrp, hschema, hfits, hnot⟩

theorem Filed.checkBlock (h : Filed s) (hps : s.nodeDownloadParams[block.cid]? = some oldPs) :
    Filed (checkBlock cfg s block oldPs) :=
  (h.takeIndices hps).foldl_reportBroken _

theorem states_of_newParams (hclean : ¬ FitsThenNot cfg s block) (hps : s.nodeDownloadParams[block.cid]? = some oldPs)
    {ixs : List NodeIndex}
    (hl : (processDownloadedBlockStep cfg oldPs block s.rootDownloadStates).newParams.lookup link r = some ixs) :
    r ∈ (checkBlock cfg s block oldPs).rootDownloadStates := by
  obtain ⟨hmal, hr⟩ := not_malformed_of_newParams hclean hps hl
  obtain ⟨rp, hrp⟩ := exists_of_mem hr
  unfold checkBlock
  dsimp only
  rw [ExtTreeMap.mem_iff_isSome_getElem?, states_reportBroken_of_not_mem hmal]
  dsimp only [takeIndices]
  rw [getElem?_countDown, hrp]
  rfl

theorem Filed.childLoop (faults : Faults) (h : Filed s) (hclean : ¬ FitsThenNot cfg s block)
    (hps : s.nodeDownloadParams[block.cid]? = some oldPs) (horder : OrderFits cfg order block s) :
    Filed (childLoop cfg order faults block s oldPs).bs ∧
      ((childLoop cfg order faults block s oldPs).toDownload ≠ [] →
        (childLoop cfg order faults block s oldPs).someRootState ≠ none) := by
  obtain ⟨hlinks, hroots⟩ := horder oldPs hps
  refine filed_addChildren (h.checkBlock hps) (fun link r ixs hl => states_of_newParams hclean hps hl)
    (fun link r ixs hl => ?_) (fun link hlink => ?_) (fun hne => absurd rfl hne)
  · obtain ⟨-, -, ixs', -, hr, -⟩ := of_newParams hl
    rw [hroots.mem_iff, ExtTreeMap.mem_keys, ExtTreeMap.mem_iff_isSome_getElem?, hr]
    rfl
  · rw [hlinks.mem_iff, ExtTreeMap.mem_keys] at hlink
    exact (NestedMap.mem_iff_lookup noEmpty_newParams).1 hlink

theorem requestChildren_eq (faults : Faults) {l : ChildLoop} (h : l.toDownload ≠ [] → l.someRootState ≠ none) :
    ∃ s', requestChildren faults l = some s' ∧ s'.nodeDownloadParams = l.bs.nodeDownloadParams ∧
      s'.rootDownloadStates = l.bs.rootDownloadStates := by
  unfold requestChildren
  by_cases hnil : l.toDownload = []
  · rw [if_pos hnil]
    exact ⟨l.bs, rfl, rfl, rfl⟩
  · rw [if_neg hnil]
    obtain ⟨session, hsome⟩ := Option.ne_none_iff_exists'.1 (h hnil)
    rw [hsome]
    dsimp only
    split
    · exact ⟨l.bs, rfl, rfl, rfl⟩
    · exact ⟨_, rfl, rfl, rfl⟩

theorem states_childLoop_of_not_mem (hr : r ∉ oldPs) :
    (childLoop cfg order faults block s oldPs).bs.rootDownloadStates[r]? = s.rootDownloadStates[r]? := by
  have hnone : oldPs[r]? = none := by
    cases hlook : oldPs[r]? with
    | none => rfl
    | some ixs => exact absurd (ExtTreeMap.mem_iff_isSome_getElem?.2 (by rw [hlook]; rfl)) hr
  have hnot : ∀ link,
      (processDownloadedBlockStep cfg oldPs block s.rootDownloadStates).newParams.lookup link r = none := by
    intro link
    cases hlook : (processDownloadedBlockStep cfg oldPs block s.rootDownloadStates).newParams.lookup link r with
    | none => rfl
    | some ixs =>
      obtain ⟨-, -, ixs', -, hparam, -⟩ := of_newParams hlook
      rw [hnone] at hparam
      cases hparam
  unfold childLoop
  dsimp only
  rw [states_addChildren_of_none hnot]
  unfold checkBlock
  dsimp only
  rw [states_reportBroken_of_not_mem fun hmal => hr (of_malformed hmal)]
  dsimp only [takeIndices]
  rw [getElem?_countDown]
  cases s.rootDownloadStates[r]? with
  | none => rfl
  | some st =>
    rw [Option.map_some, countDownRoot, hnone]

/-- **Processing a pending block** does not panic and keeps the maps in order. -/
theorem Bookkeeping.processPending (h : Bookkeeping s)
    (hclean : ¬ FitsThenNot cfg s block) (hps : s.nodeDownloadParams[block.cid]? = some oldPs)
    (horder : OrderFits cfg order block s) :
    ∃ s' work, processPending cfg order faults block s oldPs = some (s', work) ∧ Bookkeeping s' := by
  obtain ⟨hloop, hsession⟩ := h.toFiled.childLoop faults hclean hps horder
  obtain ⟨s₁, hs₁, hparams₁, hstates₁⟩ := requestChildren_eq faults hsession
  have hfinal := (hloop.congr hparams₁ hstates₁).foldl_reportAdded faults (oldPs.toList.map Prod.fst)
  unfold Bitswap.processPending
  dsimp only
  rw [hs₁]
  refine ⟨_, _, rfl, hfinal, fun r st hst => ?_⟩
  -- a counter that is left is that of a root looked at, or was there before the step
  obtain ⟨hold, hne⟩ := of_states_foldl_reportAdded hst
  by_cases hr : r ∈ oldPs
  · have hmem : r ∈ oldPs.toList.map Prod.fst := by
      obtain ⟨ixs, hixs⟩ := Option.isSome_iff_exists.1 (ExtTreeMap.mem_iff_isSome_getElem?.1 hr)
      exact List.mem_map.2 ⟨(r, ixs), ExtTreeMap.mem_toList_iff_getElem?_eq_some.2 hixs, rfl⟩
    have hcount := hfinal.counter r st hst
    have hnonneg := NestedMap.total_nonneg
      (m := ((oldPs.toList.map Prod.fst).foldl (Bitswap.reportAdded faults) s₁).nodeDownloadParams) (l := r)
    have hnezero := hne hmem
    omega
  · rw [hstates₁, states_childLoop_of_not_mem hr] at hold
    exact h.positive r st hold

theorem Bookkeeping.congr {s' : BitswapState} (h : Bookkeeping s) (hparams : s'.nodeDownloadParams = s.nodeDownloadParams)
    (hstates : s'.rootDownloadStates = s.rootDownloadStates) : Bookkeeping s' where
  toFiled := h.toFiled.congr hparams hstates
  positive := by
    rw [hstates]
    exact h.positive

theorem maps_storeDownloadedBlock (faults : Faults) (s : BitswapState) (block : Block) :
    (storeDownloadedBlock faults s block).nodeDownloadParams = s.nodeDownloadParams ∧
      (storeDownloadedBlock faults s block).rootDownloadStates = s.rootDownloadStates := by
  unfold storeDownloadedBlock
  constructor
  · split <;> rfl
  · split <;> rfl

/-- **Processing a block** does not panic and keeps the maps in order. -/
theorem Bookkeeping.processDownloadedBlock (faults : Faults) (h : Bookkeeping s)
    (hclean : ¬ FitsThenNot cfg s block) (horder : OrderFits cfg order block s) :
    ∃ s' work, processDownloadedBlock cfg order faults block s = some (s', work) ∧ Bookkeeping s' := by
  obtain ⟨hparams, hstates⟩ := maps_storeDownloadedBlock faults s block
  have h₀ := h.congr hparams hstates
  have hclean₀ : ¬ FitsThenNot cfg (storeDownloadedBlock faults s block) block := by
    unfold FitsThenNot
    rw [hparams, hstates]
    exact hclean
  have horder₀ : OrderFits cfg order block (storeDownloadedBlock faults s block) := by
    unfold OrderFits
    rw [hparams, hstates]
    exact horder
  unfold Bitswap.processDownloadedBlock
  dsimp only
  cases hps : (storeDownloadedBlock faults s block).nodeDownloadParams[block.cid]? with
  | none => exact ⟨_, [], rfl, h₀⟩
  | some oldPs => exact h₀.processPending hclean₀ hps horder₀

end Process

/-! ### Commands -/

section Commands

variable {tag : BitswapDataTag}

theorem maps_setStatus {s' : BitswapState} {value : RootBlockStatus} (h : setStatus faults s root value = some s') :
    s'.nodeDownloadParams = s.nodeDownloadParams ∧ s'.rootDownloadStates = s.rootDownloadStates := by
  unfold setStatus at h
  split at h
  · cases h
  · obtain rfl := Option.some.inj h
    exact ⟨rfl, rfl⟩

/-- **A download of a root without a state** keeps the maps in order. -/
theorem Bookkeeping.startDownload (h : Bookkeeping s) (tag : BitswapDataTag) (hroot : root ∉ s.rootDownloadStates) :
    Bookkeeping (startDownload s root tag) := by
  have hnone : ∀ c, s.nodeDownloadParams.lookup c root = none := by
    intro c
    cases hl : s.nodeDownloadParams.lookup c root with
    | none => rfl
    | some ixs => exact absurd (h.states c root ixs hl) hroot
  refine ⟨⟨?_, ?_, ?_, ?_⟩, ?_⟩
  · intro c r ixs hl
    dsimp only [Bitswap.startDownload] at hl ⊢
    rw [ExtTreeMap.mem_insert, NestedMap.eq_of_compare_eq]
    by_cases hr : r = root
    · exact .inl hr.symm
    · rw [NestedMap.lookup_append_of_ne fun heq => hr heq.2] at hl
      exact .inr (h.states c r ixs hl)
  · intro r st hst
    dsimp only [Bitswap.startDownload] at hst ⊢
    by_cases hr : r = root
    · subst hr
      rw [ExtTreeMap.getElem?_insert_self] at hst
      obtain rfl := Option.some.inj hst
      rw [NestedMap.total_append_self, NestedMap.total_eq_zero hnone]
      rfl
    · rw [ExtTreeMap.getElem?_insert, if_neg fun heq => hr (NestedMap.eq_of_compare_eq.1 heq).symm] at hst
      rw [NestedMap.total_append_of_ne hr]
      exact h.counter r st hst
  · intro c r ixs st hl hst
    dsimp only [Bitswap.startDownload] at hl hst
    by_cases hr : r = root
    · subst hr
      rw [ExtTreeMap.getElem?_insert_self] at hst
      obtain rfl := Option.some.inj hst
      by_cases hc : c = r
      · rw [hc]
        exact ExtTreeSet.mem_insert_self
      · rw [NestedMap.lookup_append_of_ne fun heq => hc heq.1, hnone c] at hl
        cases hl
    · rw [ExtTreeMap.getElem?_insert, if_neg fun heq => hr (NestedMap.eq_of_compare_eq.1 heq).symm] at hst
      rw [NestedMap.lookup_append_of_ne fun heq => hr heq.2] at hl
      exact h.descendants c r ixs st hl hst
  · exact NestedMap.noEmpty_append h.noEmpty
  · intro r st hst
    dsimp only [Bitswap.startDownload] at hst
    by_cases hr : r = root
    · subst hr
      rw [ExtTreeMap.getElem?_insert_self] at hst
      obtain rfl := Option.some.inj hst
      exact Int.one_pos
    · rw [ExtTreeMap.getElem?_insert, if_neg fun heq => hr (NestedMap.eq_of_compare_eq.1 heq).symm] at hst
      exact h.positive r st hst

theorem Bookkeeping.kickStartRootDownload (h : Bookkeeping s) (hfresh : ¬ Restarts faults s root) :
    Bookkeeping (kickStartRootDownload faults root tag s).1 := by
  unfold Bitswap.kickStartRootDownload
  by_cases hpending : root ∈ s.nodeDownloadParams
  · rw [if_pos hpending]
    exact h
  · rw [if_neg hpending]
    cases hset : setStatus faults s root .Partial with
    | none =>
      dsimp only
      split
      · exact h.congr rfl rfl
      · exact h
    | some s₁ =>
      obtain ⟨hparams, hstates⟩ := maps_setStatus hset
      have hroot : root ∉ s₁.rootDownloadStates := by
        rw [hstates]
        exact fun hmem => hfresh ⟨hmem, hpending, by rw [hset]; rfl⟩
      have hstart := (h.congr hparams hstates).startDownload tag hroot
      dsimp only
      split
      · exact hstart.clear root
      · cases (Bitswap.startDownload s₁ root tag).storage root with
        | some bytes => exact hstart.congr rfl rfl
        | none =>
          dsimp only
          split
          · exact hstart.clear root
          · exact hstart.congr rfl rfl

theorem Bookkeeping.deleteRoot (h : Bookkeeping s) : Bookkeeping (deleteRoot faults s root) := by
  unfold Bitswap.deleteRoot
  cases hset : setStatus faults s root .Deleting with
  | none => exact h
  | some s₁ =>
    obtain ⟨hparams, hstates⟩ := maps_setStatus hset
    have hclear := (h.congr hparams hstates).clear root
    dsimp only
    split
    · exact hclear
    · split
      · exact hclear
      · split
        · exact hclear.congr rfl rfl
        · exact hclear.congr rfl rfl

end Commands

/-! ### Runs -/

/-- The event can happen: commands, deadlines and arrivals do when no stored block is left to process, a
download is for a tag with a configuration, and a block arrives under the hash of its bytes. -/
def Enabled (hash : Bytes → BitswapBlockLink) (cfg : BitswapConfig) (m : Machine) : Event → Prop
  | .download _ tag _ => m.work = [] ∧ (cfg.dataConfig tag).isSome
  | .arrive block order _ => m.work = [] ∧ hash block.rawData = block.cid ∧ OrderFits cfg order block m.bs
  | .resume order _ => ∃ block work, m.work = block :: work ∧ OrderFits cfg order block m.bs
  | .deadline _ _ => m.work = []
  | .delete _ _ => m.work = []

/-- The downloader starts with empty maps, whatever is stored. -/
def Initial (m : Machine) : Prop :=
  m.work = [] ∧ m.bs.nodeDownloadParams = ∅ ∧ m.bs.rootDownloadStates = ∅ ∧ m.bs.requests = [] ∧ m.bs.deadlines = []

/-- The machines that runs reach whose events meet a condition. -/
inductive Reachable (hash : Bytes → BitswapBlockLink) (cfg : BitswapConfig) (ok : Machine → Event → Prop) :
    Machine → Prop
  | init {m : Machine} : Initial m → Reachable hash cfg ok m
  | step {m m' : Machine} {e : Event} : Reachable hash cfg ok m → Enabled hash cfg m e → ok m e → Bitswap.step cfg m e = some m' →
      Reachable hash cfg ok m'

theorem Reachable.weaken {ok ok' : Machine → Event → Prop}
    (h : Reachable hash cfg ok m) (himp : ∀ m e, ok m e → ok' m e) : Reachable hash cfg ok' m := by
  induction h with
  | init hinit => exact .init hinit
  | step _ hen hok hstep ih => exact .step ih hen (himp _ _ hok) hstep

/-- No block fits an index of a root and not a later one, and no download restarts a root. -/
def Orderly (cfg : BitswapConfig) (m : Machine) : Event → Prop
  | .download root _ faults => ¬ Restarts faults m.bs root
  | .arrive block _ _ => ¬ FitsThenNot cfg m.bs block
  | .resume _ _ => ∀ block ∈ m.work.head?, ¬ FitsThenNot cfg m.bs block
  | .deadline _ _ => True
  | .delete _ _ => True

theorem bookkeeping_initial (h : Initial m) : Bookkeeping m.bs := by
  obtain ⟨-, hparams, hstates, -, -⟩ := h
  have hnone : ∀ r : Root, m.bs.rootDownloadStates[r]? = none := by
    intro r
    rw [hstates, ExtTreeMap.getElem?_empty]
  have hlook : ∀ c r, m.bs.nodeDownloadParams.lookup c r = none := by
    intro c r
    rw [hparams, NestedMap.lookup_empty]
  refine ⟨⟨fun c r ixs hl => ?_, fun r st hst => ?_, fun c r ixs st hl => ?_, fun c inner hinner => ?_⟩, fun r st hst => ?_⟩
  · rw [hlook] at hl
    cases hl
  · rw [hnone] at hst
    cases hst
  · rw [hlook] at hl
    cases hl
  · rw [hparams, ExtTreeMap.getElem?_empty] at hinner
    cases hinner
  · rw [hnone] at hst
    cases hst

/-- **A step** does not panic and keeps the maps in order. -/
theorem Bookkeeping.step {hash : Bytes → BitswapBlockLink} {cfg : BitswapConfig} {m : Machine} {e : Event}
    (h : Bookkeeping m.bs) (hen : Enabled hash cfg m e) (hok : Orderly cfg m e) :
    ∃ m', Bitswap.step cfg m e = some m' ∧ Bookkeeping m'.bs := by
  cases e with
  | download root tag faults => exact ⟨_, rfl, h.kickStartRootDownload hok⟩
  | arrive block order faults =>
    have hanswer : Bookkeeping (answerRequests m.bs block.cid) := h.congr rfl rfl
    obtain ⟨s', work, hproc, hs'⟩ := hanswer.processDownloadedBlock faults hok hen.2.2
    refine ⟨{ bs := s', work := work ++ m.work }, ?_, hs'⟩
    unfold Bitswap.step
    dsimp only
    rw [hproc, Option.map_some]
  | resume order faults =>
    obtain ⟨block, work, hwork, horder⟩ := hen
    have hclean : ¬ FitsThenNot cfg m.bs block := hok block (by rw [hwork]; rfl)
    obtain ⟨s', work', hproc, hs'⟩ := h.processDownloadedBlock faults hclean horder
    refine ⟨{ bs := s', work := work' ++ work }, ?_, hs'⟩
    unfold Bitswap.step
    dsimp only
    rw [hwork]
    dsimp only
    rw [hproc, Option.map_some]
  | deadline root session =>
    have hdeadlines : Bookkeeping { m.bs with deadlines := m.bs.deadlines.erase (root, session) } := h.congr rfl rfl
    exact ⟨_, rfl, hdeadlines.clear root⟩
  | delete root faults => exact ⟨_, rfl, h.deleteRoot⟩

theorem bookkeeping_reachable (h : Reachable hash cfg (Orderly cfg) m) : Bookkeeping m.bs := by
  induction h with
  | init hinit => exact bookkeeping_initial hinit
  | step _ hen hok hstep ih =>
    obtain ⟨m', hm', hbook⟩ := ih.step hen hok
    rw [hstep] at hm'
    obtain rfl := Option.some.inj hm'
    exact hbook

/-- **Bookkeeping of the downloader.** In every run in which no block fits an index of a root and not a later
one, and no download restarts a root, no step panics, every root that a block is pending for has a state,
every counter is the number of indices pending for its root and positive, and every pending block is among
the descendants of its roots. -/
theorem downloader_bookkeeping (hash : Bytes → BitswapBlockLink) (cfg : BitswapConfig) (m : Machine)
    (h : Reachable hash cfg (Orderly cfg) m) : (∀ e, Enabled hash cfg m e → Orderly cfg m e → (step cfg m e).isSome) ∧
    (∀ c r ixs, m.bs.nodeDownloadParams.lookup c r = some ixs → r ∈ m.bs.rootDownloadStates) ∧
    (∀ (r : Root) st, m.bs.rootDownloadStates[r]? = some st →
      st.remainingNodeCounter = m.bs.nodeDownloadParams.total r ∧ 0 < st.remainingNodeCounter) ∧
    ∀ c r ixs st, m.bs.nodeDownloadParams.lookup c r = some ixs → m.bs.rootDownloadStates[r]? = some st →
      c ∈ st.allDescendants := by
  have hbook := bookkeeping_reachable h
  refine ⟨fun e hen hok => ?_, hbook.states, fun r st hst => ⟨hbook.counter r st hst, hbook.positive r st hst⟩,
    hbook.descendants⟩
  obtain ⟨m', hm', -⟩ := hbook.step hen hok
  rw [hm']
  rfl

/-! ### A run that panics -/

section Example

/-- Three links a block, and data of up to 1000 bytes. -/
def smallConfig : BitswapConfig where
  maxBlockSize := 103
  dataConfig := fun _ => some { maxSize := 1000 }
  depthIndices := mkDepthIndices 3 (2 ^ 31 - 1)

def emptyMachine : Machine where
  work := []
  bs :=
    { storage := fun _ => none
      statuses := fun _ => none
      nodeDownloadParams := ∅
      rootDownloadStates := ∅
      nextSession := 0
      requests := []
      deadlines := []
      resourceUpdates := [] }

theorem initial_emptyMachine : Initial emptyMachine := ⟨rfl, rfl, rfl, rfl, rfl⟩

def blockOf (bytes : Bytes) : Block := { cid := prefixHash bytes, rawData := bytes }

/-- A block with one link: it fits the second place of the tree, and not the third. -/
def repeatedBlock : Block := blockOf (encodeBlock [prefixHash [0, 0, 1]] (List.replicate 69 7))

/-- The root of a tree of five blocks, with one block at the next three places. -/
def repeatingRoot : Block := blockOf (encodeBlock (List.replicate 3 repeatedBlock.cid) (bytesLE 4 320 ++ [5]))

def downloadRepeating : Event := .download repeatingRoot.cid 5 noFaults

def repeatingRootArrives : Event :=
  .arrive repeatingRoot { links := [repeatedBlock.cid], roots := [repeatingRoot.cid] } noFaults

def repeatedBlockArrives : Event :=
  .arrive repeatedBlock { links := [prefixHash [0, 0, 1]], roots := [repeatingRoot.cid] } noFaults

def downloading : Machine := (step smallConfig emptyMachine downloadRepeating).getD emptyMachine

def awaitingRepeated : Machine := (step smallConfig downloading repeatingRootArrives).getD emptyMachine

theorem orderFits_of {cfg : BitswapConfig} {order : MapOrder} {block : Block} {s : BitswapState}
    (h : (s.nodeDownloadParams[block.cid]?).all fun oldPs =>
      decide (order.links.Perm (processDownloadedBlockStep cfg oldPs block s.rootDownloadStates).newParams.keys ∧
        order.roots.Perm oldPs.keys)) : OrderFits cfg order block s := by
  intro oldPs hps
  rw [hps] at h
  exact of_decide_eq_true h

theorem step_downloading : step smallConfig emptyMachine downloadRepeating = some downloading := rfl

theorem step_awaitingRepeated : step smallConfig downloading repeatingRootArrives = some awaitingRepeated := by
  have hsome : (step smallConfig downloading repeatingRootArrives).isSome = true := by with_unfolding_all decide
  obtain ⟨m, hm⟩ := Option.isSome_iff_exists.1 hsome
  unfold awaitingRepeated
  rw [hm]
  rfl

theorem not_fitsThenNot_of_single {cfg : BitswapConfig} {s : BitswapState} {block : Block}
    (h : (s.nodeDownloadParams[block.cid]?).all fun oldPs => oldPs.toList.all fun p => p.2.length == 1) :
    ¬ FitsThenNot cfg s block := by
  intro hfits
  obtain ⟨oldPs, -, -, root, -, ix, ixs, -, hps, -, -, hroot, -, -, -, ix', hix', -⟩ := hfits
  rw [hps] at h
  have hlen := List.all_eq_true.1 h (root, ix :: ixs) (ExtTreeMap.mem_toList_iff_getElem?_eq_some.2 hroot)
  rw [beq_iff_eq, List.length_cons] at hlen
  rw [List.eq_nil_of_length_eq_zero (by omega : ixs.length = 0)] at hix'
  cases hix'

theorem reachable_awaitingRepeated : Reachable prefixHash smallConfig (Orderly smallConfig) awaitingRepeated := by
  have hstart : Enabled prefixHash smallConfig emptyMachine downloadRepeating := ⟨rfl, rfl⟩
  have hfresh : Orderly smallConfig emptyMachine downloadRepeating := fun h => ExtTreeMap.not_mem_empty h.1
  have harrive : Enabled prefixHash smallConfig downloading repeatingRootArrives :=
    ⟨rfl, rfl, orderFits_of (by with_unfolding_all decide)⟩
  have hfits : Orderly smallConfig downloading repeatingRootArrives := not_fitsThenNot_of_single (by with_unfolding_all decide)
  exact .step (.step (.init initial_emptyMachine) hstart hfresh step_downloading) harrive hfits step_awaitingRepeated

theorem downloader_bookkeeping_awaitingRepeated :
    Reachable prefixHash smallConfig (Orderly smallConfig) awaitingRepeated ∧
      ∀ st, awaitingRepeated.bs.rootDownloadStates[repeatingRoot.cid]? = some st →
        st.remainingNodeCounter = awaitingRepeated.bs.nodeDownloadParams.total repeatingRoot.cid := by
  obtain ⟨-, -, hcounter, -⟩ := downloader_bookkeeping prefixHash smallConfig awaitingRepeated reachable_awaitingRepeated
  exact ⟨reachable_awaitingRepeated, fun st hst => (hcounter repeatingRoot.cid st hst).1⟩

/-- **A peer can make the downloader panic**: the block arrives that fits index 1 and not index 2. -/
theorem downloader_panics : ¬ ∀ (hash : Bytes → BitswapBlockLink) (cfg : BitswapConfig) (m : Machine),
    Reachable hash cfg (fun _ _ => True) m → (∀ e, Enabled hash cfg m e → (step cfg m e).isSome) ∧
    (∀ c r ixs, m.bs.nodeDownloadParams.lookup c r = some ixs → r ∈ m.bs.rootDownloadStates) ∧
    (∀ (r : Root) st, m.bs.rootDownloadStates[r]? = some st →
      st.remainingNodeCounter = m.bs.nodeDownloadParams.total r ∧ 0 < st.remainingNodeCounter) ∧
    ∀ c r ixs st, m.bs.nodeDownloadParams.lookup c r = some ixs → m.bs.rootDownloadStates[r]? = some st →
      c ∈ st.allDescendants := by
  intro h
  have hreach := reachable_awaitingRepeated.weaken fun _ _ _ => trivial
  obtain ⟨hsome, -⟩ := h prefixHash smallConfig awaitingRepeated hreach
  have hempty : awaitingRepeated.work.isEmpty = true := by decide +kernel
  have hen : Enabled prefixHash smallConfig awaitingRepeated repeatedBlockArrives :=
    ⟨List.isEmpty_iff.1 hempty, rfl, orderFits_of (by decide +kernel)⟩
  have hpanic : (step smallConfig awaitingRepeated repeatedBlockArrives).isSome = false := by decide +kernel
  have hstep := hsome repeatedBlockArrives hen
  rw [hpanic] at hstep
  cases hstep

end Example

end MinaProtocol.Bitswap
