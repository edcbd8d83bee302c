import Mathlib
import MinaProtocol.Bitswap.Acceptance
import MinaProtocol.Lib.Coverage

/-!
# Bitswap.Completeness

Whether a root that is stored as full has its tree in storage. The loop adds data of its own, downloads trees of
others, and deletes; trees may share blocks. What a root in progress has is covered: all that is below it is stored,
but for what is pending (`Whole`). A block that is counted and not stored breaks this, and so does deleting a block
that another root uses.
-/

namespace MinaProtocol.Bitswap

open Std LevelOrder

/-! ### Adding data -/

/-- What fails while a root block is announced. -/
structure AnnounceFaults where
  setPartial : Bool
  store : Bool
  notify : Bool
  setFull : Bool

/-- Store the blocks of a tree, and set its root to be full. The flag is whether there was no error. -/
def announceNewRootBlock (faults : AnnounceFaults) (s : BitswapState) (blockMap : BlockMap) (root : Root) :
    BitswapState × Bool :=
  match setStatus { noFaults with setStatus := faults.setPartial } s root .Partial with
  | none => (s, false)
  | some s =>
    if faults.store then (s, false)
    else
      let s := { s with storage := fun c => (blockMap c).or (s.storage c) }
      if faults.notify then (s, false)
      else
        match setStatus { noFaults with setStatus := faults.setFull } s root .Full with
        | none => (s, false)
        | some s => (s, true)

variable (cfg : BitswapConfig) {storage storage' : BlockMap} {root : Root}

/-- The loop on an add command; `none` is a panic. -/
def addData (hash : Bytes → BitswapBlockLink) (faults : AnnounceFaults) (data : Bytes)
    (s : BitswapState) : Option BitswapState :=
  (splitDataToBitswapBlocksLengthPrefixedWithTag cfg.maxBlockSize hash data blockBodyTag).map fun r =>
    let announced := announceNewRootBlock faults s r.1 r.2
    if announced.2 then sendResourceUpdate announced.1 .added r.2 else announced.1

inductive LoopEvent where
  | event (e : Event)
  | add (data : Bytes) (faults : AnnounceFaults)

def loopStep (hash : Bytes → BitswapBlockLink) (m : Machine) : LoopEvent → Option Machine
  | .event e => step cfg m e
  | .add data faults => (addData cfg hash faults data m.bs).map fun s => { m with bs := s }

/-! ### Trees in storage -/

/-- All blocks of the tree of a root are stored. -/
def HasTree (storage : BlockMap) (root : Root) : Prop := Covered (readLinkedBlock storage) (fun _ => False) root

/-- All blocks of the tree of a root are stored, but for those that are pending. -/
def HasBlocks (s : BitswapState) (root : Root) : Prop :=
  Covered (readLinkedBlock s.storage) (fun c => IsPending s c root) root

theorem HasTree.join (h : HasTree storage root) :
    ∃ fuel data, joinBitswapBlocks storage fuel root = some (some data) := by
  obtain ⟨chunks, hvisits⟩ := h.visits
  refine ⟨chunks.length, chunks.flatten, ?_⟩
  unfold joinBitswapBlocks
  rw [joinLoop_of_visits hvisits le_rfl, List.nil_append]

theorem readLinkedBlock_mono {c : Cid} {r : Bytes × List BitswapBlockLink}
    (hgrows : ∀ b, storage c = some b → storage' c = some b) (h : readLinkedBlock storage c = some r) :
    readLinkedBlock storage' c = some r := by
  unfold readLinkedBlock at h ⊢
  obtain ⟨b, hb, hread⟩ := Option.bind_eq_some_iff.1 h
  rw [hgrows b hb, Option.bind_some, hread]

theorem HasTree.mono (h : HasTree storage root)
    (hgrows : ∀ c b, storage c = some b → storage' c = some b) : HasTree storage' root :=
  Covered.mono h (fun c _ => readLinkedBlock_mono (hgrows c)) fun _ => False.elim

/-! ### Runs of the loop -/

variable (hash : Bytes → BitswapBlockLink)

/-- The event can happen: commands, deadlines and arrivals do when no stored block is left to process. A block
arrives under its hash; it and the blocks of data that are added are known. -/
def Available (known : Set Bytes) (cfg : BitswapConfig) (m : Machine) : LoopEvent → Prop
  | .event (.download _ _ _) => m.work = []
  | .event (.arrive block order _) =>
    m.work = [] ∧ hash block.rawData = block.cid ∧ block.rawData ∈ known ∧ OrderFits cfg order block m.bs
  | .event (.resume order _) => ∃ block work, m.work = block :: work ∧ OrderFits cfg order block m.bs
  | .event (.deadline _ _) => m.work = []
  | .event (.delete _ _) => m.work = []
  | .add data _ =>
    m.work = [] ∧ ∀ tree, IsBlockTree cfg.maxBlockSize hash (prefixedData blockBodyTag data) tree →
      ∀ i, i < requiredBitswapBlockCount cfg.maxBlockSize (prefixedData blockBodyTag data).length → tree i ∈ known

/-- Known blocks are stored under their hashes. -/
def Keyed (known : Set Bytes) (storage : BlockMap) : Prop :=
  ∀ c b, storage c = some b → hash b = c ∧ b ∈ known

/-- A run of the loop whose events meet a condition. It starts with nothing in progress; what is in storage from
earlier is complete. -/
inductive LoopRun (hash : Bytes → BitswapBlockLink) (known : Set Bytes) (cfg : BitswapConfig)
    (ok : Machine → LoopEvent → Prop) : Machine → Prop
  | init {m : Machine} : Initial m → Keyed hash known m.bs.storage →
      (∀ r, m.bs.statuses r = some .Full → HasTree m.bs.storage r) → LoopRun hash known cfg ok m
  | step {m m' : Machine} {e : LoopEvent} : LoopRun hash known cfg ok m → Available hash known cfg m e → ok m e →
      loopStep cfg hash m e = some m' → LoopRun hash known cfg ok m'

/-- A block that cannot be stored is stored already, or malformed for every root it is pending for. -/
def LosesNoBlock (faults : Faults) (block : Block) (s : BitswapState) : Prop :=
  faults.store = true → s.storage block.cid ≠ none ∨
    ∀ oldPs, s.nodeDownloadParams[block.cid]? = some oldPs →
      ∀ r ∈ oldPs, r ∈ (processDownloadedBlockStep cfg oldPs block s.rootDownloadStates).malformed

/-- What is deleted with a root is used neither by another root that is full nor by one in progress. -/
def SharesNoBlock (faults : Faults) (root : Root) (s : BitswapState) : Prop :=
  (setStatus faults s root .Deleting).isSome → faults.view root = false → faults.deleteBlocks = false →
    ∀ c, c = root ∨ c ∈ linksAt s.storage root → ∀ r, r ≠ root →
      (s.statuses r = some .Full → ¬ Uses (readLinkedBlock s.storage) (fun _ => False) r c) ∧
      (r ∈ s.rootDownloadStates → ¬ Uses (readLinkedBlock s.storage) (fun c => IsPending s c r) r c)

/-- The steps that keep trees complete: no block is lost while it is counted or deleted while another root uses it,
no block fits an index of a root and not a later one, and no download restarts a root. -/
def KeepsTrees (m : Machine) : LoopEvent → Prop
  | .event (.download root _ faults) => ¬ Restarts faults m.bs root
  | .event (.arrive block _ faults) => ¬ FitsThenNot cfg m.bs block ∧ LosesNoBlock cfg faults block m.bs
  | .event (.resume _ faults) =>
    ∀ block ∈ m.work.head?, ¬ FitsThenNot cfg m.bs block ∧ LosesNoBlock cfg faults block m.bs
  | .event (.deadline _ _) => True
  | .event (.delete root faults) => SharesNoBlock faults root m.bs
  | .add _ _ => True

/-! ### What holds at every point of a step -/

/-- The maps are in order; a root without a schema waits for its own block, the trees of roots in progress are stored
but for what is pending, and those of roots that are full are stored. -/
structure Whole (known : Set Bytes) (s : BitswapState) : Prop extends Filed s where
  noNil : s.nodeDownloadParams.NoNil
  keyed : Keyed hash known s.storage
  schema : ∀ (r : Root) st, s.rootDownloadStates[r]? = some st → st.schema = none →
    ∀ c, IsPending s c r → s.nodeDownloadParams.Has c r 0
  blocks : ∀ r ∈ s.rootDownloadStates, HasBlocks s r
  full : ∀ r, s.statuses r = some .Full → HasTree s.storage r

variable {known : Set Bytes} {s s' : BitswapState} {faults : Faults}

section Whole

variable {hash : Bytes → BitswapBlockLink} {root : Root}

variable (h : Whole hash known s)

include h

theorem Whole.grow (hgrows : ∀ c b, s.storage c = some b → s'.storage c = some b)
    (hkeyed : Keyed hash known s'.storage) (hparams : s'.nodeDownloadParams = s.nodeDownloadParams)
    (hstates : s'.rootDownloadStates = s.rootDownloadStates)
    (hstatuses : ∀ r, s'.statuses r = some .Full → s.statuses r = some .Full) : Whole hash known s' where
  toFiled := h.toFiled.congr hparams hstates
  noNil := by
    rw [hparams]
    exact h.noNil
  keyed := hkeyed
  schema := by
    intro r st hst hnone c hpend
    rw [hstates] at hst
    rw [hparams]
    exact h.schema r st hst hnone c ((isPending_congr hparams).1 hpend)
  blocks := by
    intro r hr
    rw [hstates] at hr
    exact (h.blocks r hr).mono (fun c _ => readLinkedBlock_mono (hgrows c)) fun c hc =>
      .pending ((isPending_congr hparams).2 hc)
  full := fun r hr => (h.full r (hstatuses r hr)).mono hgrows

theorem Whole.congr (hstorage : s'.storage = s.storage)
    (hparams : s'.nodeDownloadParams = s.nodeDownloadParams) (hstates : s'.rootDownloadStates = s.rootDownloadStates)
    (hstatuses : s'.statuses = s.statuses) : Whole hash known s' :=
  h.grow (fun c b hb => by rw [hstorage, hb]) (by rw [hstorage]; exact h.keyed) hparams hstates
    fun r hr => by rw [← hstatuses, hr]

theorem Whole.withStatus (root : Root) (value : RootBlockStatus)
    (hvalue : value = .Full → HasTree s.storage root) : Whole hash known (withStatus s root value) where
  toFiled := h.toFiled.congr rfl rfl
  noNil := h.noNil
  keyed := h.keyed
  schema := h.schema
  blocks := h.blocks
  full := by
    intro r hr
    have hupdate : Function.update s.statuses root (some value) r = some .Full := hr
    by_cases heq : r = root
    · subst heq
      rw [Function.update_self] at hupdate
      exact hvalue (Option.some.inj hupdate)
    · rw [Function.update_of_ne heq] at hupdate
      exact h.full r hupdate

omit h

theorem statuses_clear : (clearRootDownloadState s root).statuses = s.statuses := by
  unfold clearRootDownloadState
  cases s.rootDownloadStates[root]? <;> rfl

include h

/-- **Clearing a root** keeps the trees of the others. -/
theorem Whole.clear (root : Root) : Whole hash known (clearRootDownloadState s root) where
  toFiled := h.toFiled.clear root
  noNil := noNil_clear h.toFiled h.noNil
  keyed := by
    rw [storage_clear]
    exact h.keyed
  schema := by
    intro r st hst hnone c hpend
    obtain ⟨hr, hst⟩ := of_states_clear hst
    unfold NestedMap.Has
    rw [lookup_clear_of_ne hr]
    exact h.schema r st hst hnone c (h.toFiled.isPending_clear.1 hpend).2
  blocks := by
    intro r hr
    obtain ⟨st, hst⟩ := exists_of_mem hr
    obtain ⟨hne, hst⟩ := of_states_clear hst
    unfold HasBlocks
    rw [storage_clear]
    exact (h.blocks r (mem_of_getElem? hst)).mono (fun _ _ => id) fun c hc =>
      .pending (h.toFiled.isPending_clear.2 ⟨hne, hc⟩)
  full := by
    intro r hr
    rw [statuses_clear] at hr
    rw [storage_clear]
    exact h.full r hr

/-- **A root that counts nothing has its tree.** -/
theorem Whole.hasTree {st : RootDownloadState} (hst : s.rootDownloadStates[root]? = some st)
    (hzero : st.remainingNodeCounter = 0) : HasTree s.storage root := by
  refine (h.blocks root (mem_of_getElem? hst)).mono (fun _ _ => id) fun c hc => ?_
  obtain ⟨ixs, hl⟩ := hc
  have hlen := NestedMap.length_le_total hl
  rw [← h.counter root st hst, hzero] at hlen
  exact absurd (List.eq_nil_of_length_eq_zero (by omega)) (h.noNil c root ixs hl)

theorem Whole.reportAdded (faults : Faults) (root : Root) : Whole hash known (reportAdded faults s root) := by
  cases hst : s.rootDownloadStates[root]? with
  | none =>
    rw [reportAdded_of_none hst]
    exact h
  | some st =>
    by_cases hzero : st.remainingNodeCounter = 0
    · have hset : Whole hash known ((setStatus faults s root .Full).getD s) := by
        cases hset : setStatus faults s root .Full with
        | none => exact h
        | some s₁ =>
          rw [setStatus_eq hset]
          exact h.withStatus root .Full fun _ => h.hasTree hst hzero
      unfold Bitswap.reportAdded
      rw [hst]
      dsimp only
      rw [if_pos hzero]
      exact (hset.clear root).congr rfl rfl rfl rfl
    · rw [reportAdded_of_ne hst hzero]
      exact h

theorem Whole.foldl_reportAdded (faults : Faults) (roots : List Root) :
    Whole hash known (roots.foldl (Bitswap.reportAdded faults) s) := by
  induction roots generalizing s with
  | nil => exact h
  | cons root roots ih => exact ih (h.reportAdded faults root)

omit h

end Whole

/-! ### A block that is processed -/

section Process

variable {hash : Bytes → BitswapBlockLink} {cfg : BitswapConfig} {block : Block}
  {oldPs : ExtTreeMap Root (List NodeIndex)} {order : MapOrder} {r : Root} {ixs : List NodeIndex}
  {rp : RootDownloadState}

theorem check_of_not_malformed (hix : oldPs[r]? = some ixs) (hst : s.rootDownloadStates[r]? = some rp)
    (hr : r ∉ (processDownloadedBlockStep cfg oldPs block s.rootDownloadStates).malformed) :
    ∃ links data, readBitswapBlock block.rawData = some (links, data) ∧
      (checkRoot cfg block.rawData.length links.length data rp ixs).malformed = false := by
  have hmem : (r, ixs) ∈ oldPs.toList := ExtTreeMap.mem_toList_iff_getElem?_eq_some.2 hix
  unfold processDownloadedBlockStep at hr
  cases hread : readBitswapBlock block.rawData with
  | none =>
    rw [hread] at hr
    exact absurd (List.mem_map_of_mem hmem) hr
  | some read =>
    obtain ⟨links, data⟩ := read
    rw [hread] at hr
    refine ⟨links, data, rfl, Bool.eq_false_iff.2 fun hbad => hr ?_⟩
    refine List.mem_map.2 ⟨(r, ixs), List.mem_filter.2 ⟨hmem, ?_⟩, rfl⟩
    unfold checkFor
    rw [hst]
    exact hbad

theorem exists_schemaFor {size numLinks : Nat} {data : Bytes} (hschema : rp.schema = none → (0 : NodeIndex) ∈ ixs)
    (hgood : (checkRoot cfg size numLinks data rp ixs).malformed = false) : ∃ schema, schemaFor cfg rp data ixs = some schema := by
  unfold schemaFor
  unfold checkRoot at hgood
  by_cases hroot : (0 : NodeIndex) ∈ ixs
  · rw [if_pos hroot] at hgood ⊢
    cases hlen : readRootLength cfg rp.tag data with
    | none =>
      rw [hlen] at hgood
      cases hgood
    | some dataLen => exact ⟨_, rfl⟩
  · rw [if_neg hroot]
    exact Option.ne_none_iff_exists'.1 fun hnone => hroot (hschema hnone)

/-- **A block fits a root at all its indices** or is malformed for it. It sets the schema of the root, and its links
become pending. -/
theorem Whole.fits (faults : Faults) (h : Whole hash known s) (hps : s.nodeDownloadParams[block.cid]? = some oldPs)
    (horder : OrderFits cfg order block s) (hix : oldPs[r]? = some ixs) (hst : s.rootDownloadStates[r]? = some rp)
    (hr : r ∉ (processDownloadedBlockStep cfg oldPs block s.rootDownloadStates).malformed) :
    ∃ links data schema, readBitswapBlock block.rawData = some (links, data) ∧
      (processDownloadedBlockStep cfg oldPs block s.rootDownloadStates).schema r rp ixs = some schema ∧
      ∀ link ∈ links, IsPending (childLoop cfg order faults block s oldPs).bs link r := by
  obtain ⟨links, data, hread, hgood⟩ := check_of_not_malformed hix hst hr
  have hlookup : s.nodeDownloadParams.lookup block.cid r = some ixs := by
    rw [NestedMap.lookup_eq_some_of_getElem? hps, hix]
  have hroot : rp.schema = none → (0 : NodeIndex) ∈ ixs := by
    intro hnone
    obtain ⟨vs, hvs, hzero⟩ := h.schema r rp hst hnone block.cid ⟨ixs, hlookup⟩
    rw [hlookup] at hvs
    rw [Option.some.inj hvs]
    exact hzero
  obtain ⟨schema, hschema⟩ := exists_schemaFor hroot hgood
  obtain ⟨hall, hset, hwell⟩ := checkRoot_fits block.rawData.length links.length hschema
  rw [hgood, eq_comm, Bool.not_eq_false'] at hall
  rw [List.takeWhile_eq_self_iff.2 (List.all_eq_true.1 hall)] at hwell
  have hcheck : checkFor cfg s.rootDownloadStates block.rawData.length links.length data r ixs =
      checkRoot cfg block.rawData.length links.length data rp ixs := by
    unfold checkFor
    rw [hst]
  refine ⟨links, data, schema, hread, ?_, fun link hlink => ?_⟩
  · unfold processDownloadedBlockStep
    rw [hread]
    dsimp only
    rw [hcheck, hset]
  · -- the link is a child at the first index
    obtain ⟨ix, hmem⟩ := List.exists_mem_of_ne_nil ixs (h.noNil block.cid r ixs hlookup)
    obtain ⟨j, hj, hjlink⟩ := List.mem_iff_getElem.1 hlink
    have hhas : NestedMap.Has (processDownloadedBlockStep cfg oldPs block s.rootDownloadStates).newParams link r
        (cfg.depthIndices.firstChildId ix + (j : Int)) := by
      unfold processDownloadedBlockStep
      rw [hread]
      refine has_childrenOf.2 ⟨ixs, hix, ix, ?_, j, by rw [List.getElem?_eq_getElem hj, hjlink], rfl⟩
      rw [hcheck, hwell]
      exact hmem
    obtain ⟨vs, hvs, -⟩ := (has_childLoop hps horder hr).2 (.inr hhas)
    exact ⟨vs, hvs⟩

theorem of_mem_childLoop (hr : r ∈ (childLoop cfg order faults block s oldPs).bs.rootDownloadStates) :
    r ∉ (processDownloadedBlockStep cfg oldPs block s.rootDownloadStates).malformed ∧ r ∈ s.rootDownloadStates := by
  have hnot : r ∉ (processDownloadedBlockStep cfg oldPs block s.rootDownloadStates).malformed := by
    intro hmal
    have hgone := congrArg Option.isSome (states_foldl_addChild faults
      (processDownloadedBlockStep cfg oldPs block s.rootDownloadStates).newParams order.roots order.links
      { bs := checkBlock cfg s block oldPs, blocksToProcess := [], toDownload := [], someRootState := none } r
      (f := fun _ => ()) fun _ _ _ => rfl)
    unfold checkBlock at hgone
    dsimp only at hgone
    rw [states_reportBroken_of_mem hmal, Option.isSome_map] at hgone
    rw [ExtTreeMap.mem_iff_isSome_getElem?] at hr
    unfold childLoop checkBlock at hr
    dsimp only at hr
    rw [hgone] at hr
    cases hr
  exact ⟨hnot, (mem_states_childLoop hnot).1 hr⟩

theorem statuses_foldl_reportBroken {gone : List Root} : (gone.foldl reportBroken s).statuses = s.statuses := by
  induction gone generalizing s with
  | nil => rfl
  | cons x gone ih =>
    rw [List.foldl_cons, ih]
    exact statuses_clear

theorem statuses_childLoop : (childLoop cfg order faults block s oldPs).bs.statuses = s.statuses := by
  have hpending : ∀ (childId : Cid) (root : Root) (ixs : List NodeIndex) (l : ChildLoop),
      (addPending childId l root ixs).bs.statuses = l.bs.statuses := by
    intro childId root ixs l
    unfold addPending
    cases l.bs.rootDownloadStates[root]? <;> rfl
  have hpendings : ∀ (childId : Cid) (ps : List (Root × List NodeIndex)) (l : ChildLoop),
      (addPendings childId l ps).bs.statuses = l.bs.statuses := by
    intro childId ps
    induction ps with
    | nil => exact fun l => rfl
    | cons p ps ih => exact fun l => (ih _).trans (hpending childId p.1 p.2 l)
  have hfold : ∀ (links : List BitswapBlockLink) (newParams : NestedMap BitswapBlockLink Root NodeIndex) (l : ChildLoop),
      (links.foldl (addChild faults newParams order.roots) l).bs.statuses = l.bs.statuses := by
    intro links newParams
    induction links with
    | nil => exact fun l => rfl
    | cons link links ih =>
      intro l
      rw [List.foldl_cons, ih, addChild_bs, hpendings]
  unfold childLoop
  dsimp only
  rw [hfold]
  exact statuses_foldl_reportBroken

/-- **The loop over the children** keeps the trees of the roots, where the block is stored or malformed for all. -/
theorem Whole.childLoop (faults : Faults) (h : Whole hash known s) (hclean : ¬ FitsThenNot cfg s block)
    (hps : s.nodeDownloadParams[block.cid]? = some oldPs) (horder : OrderFits cfg order block s)
    (hstored : s.storage block.cid = some block.rawData ∨
      ∀ r ∈ oldPs, r ∈ (processDownloadedBlockStep cfg oldPs block s.rootDownloadStates).malformed) :
    Whole hash known (childLoop cfg order faults block s oldPs).bs where
  toFiled := (h.toFiled.childLoop faults hclean hps horder).1
  noNil := noNil_childLoop h.toFiled hps h.noNil
  keyed := by
    rw [storage_childLoop]
    exact h.keyed
  schema := by
    intro r st hst hnone c hpend
    obtain ⟨hr, hmem⟩ := of_mem_childLoop (mem_of_getElem? hst)
    obtain ⟨rp, hrp⟩ := exists_of_mem hmem
    have hafter := states_childLoop (s := s) order faults (f := RootDownloadState.schema) hr fun _ _ _ => rfl
    rw [hst, hrp, Option.map_some, Option.map_some, Option.some.injEq, hnone] at hafter
    unfold countDownRoot at hafter
    cases hix : oldPs[r]? with
    | some ixs =>
      obtain ⟨-, -, schema, -, hschema, -⟩ := h.fits faults hps horder hix hrp hr
      rw [hix] at hafter
      dsimp only at hafter
      rw [hschema] at hafter
      cases hafter
    | none =>
      -- nothing is filed for the root
      rw [hix] at hafter
      have hnew : ∀ v, ¬ NestedMap.Has (processDownloadedBlockStep cfg oldPs block s.rootDownloadStates).newParams c r v := by
        intro v hv
        obtain ⟨vs, hl, -⟩ := hv
        obtain ⟨-, -, ixs', -, hix', -⟩ := of_newParams hl
        rw [hix] at hix'
        cases hix'
      obtain ⟨vs, hvs⟩ := hpend
      obtain ⟨v, hv⟩ := (noNil_childLoop h.toFiled hps h.noNil).exists_has hvs
      obtain ⟨hc, ws, hws, -⟩ := ((has_childLoop hps horder hr).1 hv).resolve_right (hnew v)
      exact (has_childLoop hps horder hr).2 (.inl ⟨hc, h.schema r rp hrp hafter.symm c ⟨ws, hws⟩⟩)
  blocks := by
    intro r hmem
    obtain ⟨hr, hstate⟩ := of_mem_childLoop hmem
    obtain ⟨rp, hrp⟩ := exists_of_mem hstate
    have hkept : ∀ c, c ≠ block.cid → IsPending s c r → IsPending (Bitswap.childLoop cfg order faults block s oldPs).bs c r := by
      intro c hc hpend
      obtain ⟨vs, hvs⟩ := hpend
      obtain ⟨v, hv⟩ := h.noNil.exists_has hvs
      obtain ⟨ws, hws, -⟩ := (has_childLoop hps horder hr).2 (.inl ⟨hc, hv⟩)
      exact ⟨ws, hws⟩
    unfold HasBlocks
    rw [storage_childLoop]
    refine (h.blocks r hstate).mono (fun _ _ => id) fun c hpend => ?_
    by_cases hc : c = block.cid
    · subst hc
      obtain ⟨ixs, hixs⟩ := hpend
      rw [NestedMap.lookup_eq_some_of_getElem? hps] at hixs
      have hin : r ∈ oldPs := by
        rw [ExtTreeMap.mem_iff_isSome_getElem?, hixs]
        rfl
      have hblock := hstored.resolve_right fun hall => hr (hall r hin)
      obtain ⟨links, data, -, hread, -, hlinks⟩ := h.fits faults hps horder hixs hrp hr
      have hlinked : readLinkedBlock s.storage block.cid = some (data, links) := by
        unfold readLinkedBlock
        rw [hblock, Option.bind_some, hread, Option.map_some]
      exact .read hlinked fun link hlink => .pending (hlinks link hlink)
    · exact .pending (hkept c hc hpend)
  full := by
    intro r hr
    rw [statuses_childLoop] at hr
    rw [storage_childLoop]
    exact h.full r hr

theorem Keyed.eq {storage : BlockMap} {b b' : Bytes} (h : Keyed hash known storage) (hinj : Set.InjOn hash known)
    (hb : storage block.cid = some b) (hhash : hash b' = block.cid) (hknown : b' ∈ known) : b = b' := by
  obtain ⟨hkey, hmem⟩ := h block.cid b hb
  exact hinj hmem hknown (hkey.trans hhash.symm)

/-- **A block is stored** under its hash, or lost. -/
theorem Whole.store (faults : Faults) (h : Whole hash known s) (hinj : Set.InjOn hash known)
    (hhash : hash block.rawData = block.cid) (hknown : block.rawData ∈ known) :
    Whole hash known (storeDownloadedBlock faults s block) := by
  unfold storeDownloadedBlock
  split
  · exact h
  · refine h.grow (fun c b hb => ?_) (fun c b hb => ?_) rfl rfl fun _ => id
    · dsimp only
      by_cases hc : c = block.cid
      · subst hc
        rw [Function.update_self, h.keyed.eq hinj hb hhash hknown]
      · rw [Function.update_of_ne hc, hb]
    · dsimp only at hb
      by_cases hc : c = block.cid
      · subst hc
        rw [Function.update_self] at hb
        obtain rfl := Option.some.inj hb
        exact ⟨hhash, hknown⟩
      · rw [Function.update_of_ne hc] at hb
        exact h.keyed c b hb

/-- **Processing a block** keeps the trees of the roots. -/
theorem Whole.processDownloadedBlock {work : List Block} (h : Whole hash known s) (hinj : Set.InjOn hash known)
    (hhash : hash block.rawData = block.cid) (hknown : block.rawData ∈ known) (hclean : ¬ FitsThenNot cfg s block)
    (hlost : LosesNoBlock cfg faults block s) (horder : OrderFits cfg order block s)
    (hstep : processDownloadedBlock cfg order faults block s = some (s', work)) :
    Whole hash known s' ∧ ∀ b ∈ work, hash b.rawData = b.cid ∧ b.rawData ∈ known := by
  obtain ⟨hparams, hstates⟩ := maps_storeDownloadedBlock faults s block
  have h₀ := h.store faults hinj hhash hknown
  unfold Bitswap.processDownloadedBlock at hstep
  dsimp only at hstep
  cases hps : (storeDownloadedBlock faults s block).nodeDownloadParams[block.cid]? with
  | none =>
    rw [hps] at hstep
    obtain ⟨rfl, rfl⟩ := Prod.mk.inj (Option.some.inj hstep)
    exact ⟨h₀, fun b hb => absurd hb List.not_mem_nil⟩
  | some oldPs =>
    rw [hps] at hstep
    have hclean₀ : ¬ FitsThenNot cfg (storeDownloadedBlock faults s block) block := by
      unfold FitsThenNot
      rw [hparams, hstates]
      exact hclean
    have horder₀ : OrderFits cfg order block (storeDownloadedBlock faults s block) := by
      unfold OrderFits
      rw [hparams, hstates]
      exact horder
    have hstored : (storeDownloadedBlock faults s block).storage block.cid = some block.rawData ∨
        ∀ r ∈ oldPs, r ∈ (processDownloadedBlockStep cfg oldPs block
          (storeDownloadedBlock faults s block).rootDownloadStates).malformed := by
      cases hfault : faults.store with
      | false =>
        left
        unfold storeDownloadedBlock
        rw [hfault, if_neg Bool.false_ne_true]
        exact Function.update_self _ _ _
      | true =>
        rw [hparams] at hps
        rw [hstates]
        refine (hlost hfault).imp (fun hne => ?_) fun hall => hall oldPs hps
        obtain ⟨b, hb⟩ := Option.ne_none_iff_exists'.1 hne
        unfold storeDownloadedBlock
        rw [hfault, if_pos rfl, hb, h.keyed.eq hinj hb hhash hknown]
    have hloop := h₀.childLoop faults hclean₀ hps horder₀ hstored
    dsimp only [processPending] at hstep
    obtain ⟨s₁, hs₁, heq⟩ := Option.map_eq_some_iff.1 hstep
    obtain ⟨rfl, rfl⟩ := Prod.mk.inj heq
    obtain ⟨hparams₁, hstates₁, hstorage₁, -, hstatuses₁⟩ := requestChildren_env hs₁
    refine ⟨(hloop.congr hstorage₁ hparams₁ hstates₁ hstatuses₁).foldl_reportAdded faults _, fun b hb => ?_⟩
    rcases mem_blocksToProcess hb with hold | hmem
    · cases hold
    · have hchecked : (checkBlock cfg (storeDownloadedBlock faults s block) block oldPs).storage =
          (storeDownloadedBlock faults s block).storage := storage_foldl_reportBroken
      dsimp only at hmem
      rw [hchecked] at hmem
      exact h₀.keyed b.cid b.rawData hmem

end Process

/-! ### Commands -/

section Commands

variable {hash : Bytes → BitswapBlockLink} {cfg : BitswapConfig} {root : Root} {data : Bytes} {blocks : BlockMap}
  {m : Nat}

variable (h : Whole hash known s)

include h in
/-- **A download of a root without a state** waits for the root block. -/
theorem Whole.startDownload (hbook : Bookkeeping s) (tag : BitswapDataTag)
    (hroot : root ∉ s.rootDownloadStates) : Whole hash known (startDownload s root tag) where
  toFiled := (hbook.startDownload tag hroot).toFiled
  noNil := NestedMap.noNil_append h.noNil (by simp)
  keyed := h.keyed
  schema := by
    intro r st hst hnone c hpend
    have hhas : (Bitswap.startDownload s root tag).nodeDownloadParams.Has c r 0 ↔
        s.nodeDownloadParams.Has c r 0 ∨ c = root ∧ r = root ∧ (0 : NodeIndex) ∈ [(0 : NodeIndex)] := NestedMap.has_append
    rw [hhas]
    rcases isPending_startDownload.1 hpend with hold | ⟨hc, hr⟩
    · obtain ⟨ixs, hl⟩ := hold
      have hne : r ≠ root := by
        intro heq
        subst heq
        exact hroot (h.states c r ixs hl)
      unfold Bitswap.startDownload at hst
      dsimp only at hst
      rw [ExtTreeMap.getElem?_insert, if_neg fun heq => hne (NestedMap.eq_of_compare_eq.1 heq).symm] at hst
      exact .inl (h.schema r st hst hnone c ⟨ixs, hl⟩)
    · exact .inr ⟨hc, hr, List.mem_singleton_self 0⟩
  blocks := by
    intro r hr
    by_cases hne : r = root
    · subst hne
      exact .pending (isPending_startDownload.2 (.inr ⟨rfl, rfl⟩))
    · unfold Bitswap.startDownload at hr
      dsimp only at hr
      rw [ExtTreeMap.mem_insert, NestedMap.eq_of_compare_eq] at hr
      exact (h.blocks r (hr.resolve_left fun heq => hne heq.symm)).mono (fun _ _ => id) fun c hc =>
        .pending (isPending_startDownload.2 (.inl hc))
  full := h.full

theorem Whole.kickStartRootDownload (tag : BitswapDataTag) (h : Whole hash known s) (hbook : Bookkeeping s)
    (hfresh : ¬ Restarts faults s root) : Whole hash known (kickStartRootDownload faults root tag s).1 ∧
      ∀ b ∈ (kickStartRootDownload faults root tag s).2, hash b.rawData = b.cid ∧ b.rawData ∈ known := by
  have hnil : ∀ b ∈ ([] : List Block), hash b.rawData = b.cid ∧ b.rawData ∈ known := fun b hb => absurd hb List.not_mem_nil
  unfold Bitswap.kickStartRootDownload
  by_cases hpending : root ∈ s.nodeDownloadParams
  · rw [if_pos hpending]
    exact ⟨h, hnil⟩
  · rw [if_neg hpending]
    cases hset : setStatus faults s root .Partial with
    | none =>
      dsimp only
      split
      · exact ⟨h.congr rfl rfl rfl rfl, hnil⟩
      · exact ⟨h, hnil⟩
    | some s₁ =>
      have hroot : root ∉ s.rootDownloadStates := fun hmem => hfresh ⟨hmem, hpending, by rw [hset]; rfl⟩
      obtain rfl := setStatus_eq hset
      have hpartial : Whole hash known (Bitswap.withStatus s root .Partial) := h.withStatus root _ fun heq => by cases heq
      have hstart := hpartial.startDownload (hbook.congr rfl rfl) tag hroot
      dsimp only
      split
      · exact ⟨hstart.clear root, hnil⟩
      · cases hstored : (Bitswap.startDownload (Bitswap.withStatus s root .Partial) root tag).storage root with
        | some bytes =>
          refine ⟨hstart.congr rfl rfl rfl rfl, fun b hb => ?_⟩
          obtain rfl := List.mem_singleton.1 hb
          exact hstart.keyed root bytes hstored
        | none =>
          dsimp only
          split
          · exact ⟨hstart.clear root, hnil⟩
          · exact ⟨hstart.congr rfl rfl rfl rfl, hnil⟩

include h in
theorem Whole.deleteBlocks (root : Root) (keys : List Cid) (hroot : root ∉ s.rootDownloadStates)
    (hfull : s.statuses root ≠ some .Full) (hshares : ∀ c ∈ keys, ∀ r, r ≠ root →
      (s.statuses r = some .Full → ¬ Uses (readLinkedBlock s.storage) (fun _ => False) r c) ∧
      (r ∈ s.rootDownloadStates → ¬ Uses (readLinkedBlock s.storage) (fun c => IsPending s c r) r c)) :
    Whole hash known { s with storage := fun c => if c ∈ keys then none else s.storage c } where
  toFiled := h.toFiled.congr rfl rfl
  noNil := h.noNil
  keyed := by
    intro c b hb
    dsimp only at hb
    split at hb
    · cases hb
    · exact h.keyed c b hb
  schema := h.schema
  blocks := by
    intro r hr
    have hne : r ≠ root := by
      intro heq
      exact hroot (heq ▸ hr)
    refine Covered.transfer (h.blocks r hr) (fun c hc => .pending hc) fun c huses x hx => ?_
    refine readLinkedBlock_mono (fun b hb => ?_) hx
    exact (if_neg fun hc => (hshares c hc r hne).2 hr huses).trans hb
  full := by
    intro r hr
    have hne : r ≠ root := by
      intro heq
      exact hfull (heq ▸ hr)
    refine Covered.transfer (h.full r hr) (fun c => False.elim) fun c huses x hx => ?_
    refine readLinkedBlock_mono (fun b hb => ?_) hx
    exact (if_neg fun hc => (hshares c hc r hne).1 hr huses).trans hb

theorem uses_clear (h : Filed s) {r c : Cid} (hr : r ≠ root) :
    Uses (readLinkedBlock (clearRootDownloadState s root).storage) (fun c => IsPending (clearRootDownloadState s root) c r) r c ↔
      Uses (readLinkedBlock s.storage) (fun c => IsPending s c r) r c := by
  have hpend : (fun c => IsPending (clearRootDownloadState s root) c r) = fun c => IsPending s c r :=
    funext fun c => propext (h.isPending_clear.trans (and_iff_right hr))
  rw [hpend, storage_clear]

include h

/-- **The blocks of a root go** that shares none of them. -/
theorem Whole.deleteLinks (links : List BitswapBlockLink)
    (hshares : ∀ c, c = root ∨ c ∈ links → ∀ r, r ≠ root →
      (s.statuses r = some .Full → ¬ Uses (readLinkedBlock s.storage) (fun _ => False) r c) ∧
      (r ∈ s.rootDownloadStates → ¬ Uses (readLinkedBlock s.storage) (fun c => IsPending s c r) r c)) :
    Whole hash known { clearRootDownloadState (Bitswap.withStatus s root .Deleting) root with
      storage := fun c => if c = root ∨ c ∈ links then none
        else (clearRootDownloadState (Bitswap.withStatus s root .Deleting) root).storage c } := by
  have hdeleting : Whole hash known (Bitswap.withStatus s root .Deleting) := h.withStatus root _ fun heq => by cases heq
  have hdeleted := (hdeleting.clear root).deleteBlocks root (root :: links) ?_ ?_ ?_
  · refine hdeleted.congr (funext fun c => ?_) rfl rfl rfl
    dsimp only
    simp only [List.mem_cons]
  · rw [ExtTreeMap.mem_iff_isSome_getElem?, states_clear_self]
    exact Bool.false_ne_true
  · have hstatus : (Bitswap.withStatus s root .Deleting).statuses root = some .Deleting := Function.update_self _ _ _
    rw [statuses_clear, hstatus]
    decide
  · intro c hc r hr
    obtain ⟨hfull, hstate⟩ := hshares c (List.mem_cons.1 hc) r hr
    constructor
    · intro hstatus
      have hold : (Bitswap.withStatus s root .Deleting).statuses r = s.statuses r := Function.update_of_ne hr _ _
      rw [statuses_clear, hold] at hstatus
      rw [storage_clear]
      exact hfull hstatus
    · intro hmem
      rw [uses_clear hdeleting.toFiled hr]
      obtain ⟨st, hst⟩ := exists_of_mem hmem
      exact hstate (mem_of_getElem? (of_states_clear hst).2)

/-- **Deleting a root** that shares no block. -/
theorem Whole.deleteRoot (hshares : SharesNoBlock faults root s) :
    Whole hash known (deleteRoot faults s root) := by
  unfold Bitswap.deleteRoot
  cases hset : setStatus faults s root .Deleting with
  | none => exact h
  | some s₁ =>
    have hgo := hshares (by rw [hset]; rfl)
    obtain rfl := setStatus_eq hset
    have hclear := (h.withStatus root .Deleting fun heq => by cases heq).clear root
    dsimp only
    split
    · exact hclear
    · rename_i links hlinks
      have hlinksAt : linksAt s.storage root = links := by
        have hstorage : (clearRootDownloadState (Bitswap.withStatus s root .Deleting) root).storage = s.storage := storage_clear
        unfold linksAt
        rw [hstorage] at hlinks
        cases hstored : s.storage root with
        | none =>
          rw [hstored] at hlinks
          exact Option.some.inj hlinks
        | some bytes =>
          rw [hstored] at hlinks
          obtain ⟨read, hread, rfl⟩ := Option.map_eq_some_iff.1 hlinks
          rw [Option.bind_some, hread]
      split
      · exact hclear
      · rename_i hfaults
        rw [not_or, Bool.not_eq_true, Bool.not_eq_true] at hfaults
        have hdeleted := h.deleteLinks links fun c hc => hgo hfaults.1 hfaults.2 c (by rw [hlinksAt]; exact hc)
        split
        · exact hdeleted
        · refine hdeleted.grow (fun _ _ => id) hdeleted.keyed rfl rfl fun r hr => ?_
          have hupdate : Function.update (clearRootDownloadState (Bitswap.withStatus s root .Deleting) root).statuses root
              none r = some .Full := hr
          by_cases hne : r = root
          · rw [hne, Function.update_self] at hupdate
            cases hupdate
          · rwa [Function.update_of_ne hne] at hupdate

omit h

/-- **The tree of data is covered** by the blocks that it is split to. -/
theorem Built.hasTree {tree : Nat → Bytes} {t : SplitState} (hm : 34 < m)
    (h : Built m hash data tree 0 t) (hfree : CollisionFree m hash data tree) {i : Nat}
    (hi : i < requiredBitswapBlockCount m data.length) : HasTree t.res (hash (tree i)) := by
  -- a child stands behind its parent, so the nodes are taken from the last one
  induction hn : requiredBitswapBlockCount m data.length - i using Nat.strong_induction_on generalizing i with
  | h n ih =>
    have hread : readLinkedBlock t.res (hash (tree i)) = some (chunk m data i,
        children (linksPerBlock m) (requiredBitswapBlockCount m data.length) (fun c => hash (tree c)) i) := by
      unfold readLinkedBlock
      rw [h.lookup hfree hi, Option.bind_some, read_block h.blocks hi, Option.map_some]
    refine .read hread fun link hlink => ?_
    obtain ⟨c, hc, rfl⟩ := List.mem_map.1 hlink
    rw [List.mem_range'_1, firstChild_add_childCount] at hc
    have hfirst := lt_firstChild (linksPerBlock_pos hm) hi
    have hlast := firstChild_le (k := linksPerBlock m) (n := requiredBitswapBlockCount m data.length) (i := i + 1)
    exact ih _ (by omega) (by omega) rfl

theorem built_of_split {tag : UInt8}
    (h : splitDataToBitswapBlocksLengthPrefixedWithTag m hash data tag = some (blocks, root)) :
    34 < m ∧ ∃ tree t, Built m hash (prefixedData tag data) tree 0 t ∧ t.res = blocks ∧ hash (tree 0) = root := by
  unfold splitDataToBitswapBlocksLengthPrefixedWithTag splitDataToBitswapBlocksLengthPrefixedWithHashF at h
  split at h
  · cases h
  · rename_i hm
    have h34 : 34 < m := by
      unfold bitswapBlockLinkSize at hm
      omega
    split at h
    · cases h
    · obtain ⟨tree, t, hbuilt, hsplit⟩ := splitDataToBitswapBlocksWithHashF_eq hash (prefixedData tag data) h34
      have heq : splitDataToBitswapBlocksWithHashF m hash (prefixedData tag data) = some (blocks, root) := h
      rw [hsplit] at heq
      obtain ⟨hres, hroot⟩ := Prod.mk.inj (Option.some.inj heq)
      exact ⟨h34, tree, t, hbuilt, hres, hroot⟩

include h in
/-- **Announcing a tree** stores it before its root is full. -/
theorem Whole.announce (hinj : Set.InjOn hash known) (faults : AnnounceFaults)
    (hkeyed : Keyed hash known blocks) (htree : HasTree blocks root) :
    Whole hash known (announceNewRootBlock faults s blocks root).1 := by
  unfold announceNewRootBlock
  cases hset : setStatus { noFaults with setStatus := faults.setPartial } s root .Partial with
  | none => exact h
  | some s₁ =>
    obtain rfl := setStatus_eq hset
    have hpartial : Whole hash known (Bitswap.withStatus s root .Partial) := h.withStatus root _ fun heq => by cases heq
    have hstored : Whole hash known { Bitswap.withStatus s root .Partial with
        storage := fun c => (blocks c).or ((Bitswap.withStatus s root .Partial).storage c) } := by
      refine hpartial.grow (fun c b hb => ?_) (fun c b hb => ?_) rfl rfl fun _ => id
      · dsimp only
        cases hblock : blocks c with
        | none => exact hb
        | some b' =>
          -- the block of the tree is the stored one
          obtain ⟨hkey, hmem⟩ := hkeyed c b' hblock
          obtain ⟨hkey', hmem'⟩ := hpartial.keyed c b hb
          rw [Option.some_or, hinj hmem hmem' (hkey.trans hkey'.symm)]
      · dsimp only at hb
        rcases Option.or_eq_some_iff.1 hb with hnew | ⟨-, hold⟩
        · exact hkeyed c b hnew
        · exact hpartial.keyed c b hold
    dsimp only
    split
    · exact hpartial
    · split
      · exact hstored
      · split
        · exact hstored
        · rename_i s₂ hfull
          rw [setStatus_eq hfull]
          exact hstored.withStatus root _ fun _ => htree.mono fun c b hb => Option.or_eq_some_iff.2 (.inl hb)

theorem maps_announce (faults : AnnounceFaults) (s : BitswapState) (blocks : BlockMap) (root : Root) :
    (announceNewRootBlock faults s blocks root).1.nodeDownloadParams = s.nodeDownloadParams ∧
      (announceNewRootBlock faults s blocks root).1.rootDownloadStates = s.rootDownloadStates := by
  unfold announceNewRootBlock
  cases hset : setStatus { noFaults with setStatus := faults.setPartial } s root .Partial with
  | none => exact ⟨rfl, rfl⟩
  | some s₁ =>
    obtain rfl := setStatus_eq hset
    dsimp only
    split
    · exact ⟨rfl, rfl⟩
    · split
      · exact ⟨rfl, rfl⟩
      · split
        · exact ⟨rfl, rfl⟩
        · rename_i s₂ hfull
          rw [setStatus_eq hfull]
          exact ⟨rfl, rfl⟩

theorem Bookkeeping.addData {faults : AnnounceFaults} (h : Bookkeeping s)
    (hstep : addData cfg hash faults data s = some s') : Bookkeeping s' := by
  obtain ⟨r, -, rfl⟩ := Option.map_eq_some_iff.1 hstep
  obtain ⟨hparams, hstates⟩ := maps_announce faults s r.1 r.2
  dsimp only
  split
  · exact h.congr hparams hstates
  · exact h.congr hparams hstates

include h in
theorem Whole.addData (hinj : Set.InjOn hash known) {faults : AnnounceFaults}
    (hknown : ∀ tree, IsBlockTree cfg.maxBlockSize hash (prefixedData blockBodyTag data) tree →
      ∀ i, i < requiredBitswapBlockCount cfg.maxBlockSize (prefixedData blockBodyTag data).length → tree i ∈ known)
    (hstep : addData cfg hash faults data s = some s') : Whole hash known s' := by
  obtain ⟨r, hsplit, rfl⟩ := Option.map_eq_some_iff.1 hstep
  obtain ⟨blocks, root⟩ := r
  obtain ⟨hm, tree, t, hbuilt, rfl, rfl⟩ := built_of_split hsplit
  have hfree : CollisionFree cfg.maxBlockSize hash (prefixedData blockBodyTag data) tree :=
    fun i j hi hj heq => hinj (hknown tree hbuilt.blocks i hi) (hknown tree hbuilt.blocks j hj) heq
  have hkeyed : Keyed hash known t.res := by
    intro c b hb
    obtain ⟨hhash, j, -, hj, rfl⟩ := hbuilt.sound c b hb
    exact ⟨hhash, hknown tree hbuilt.blocks j hj⟩
  have hannounced := h.announce hinj faults hkeyed (hbuilt.hasTree hm hfree (requiredBitswapBlockCount_pos hm))
  dsimp only
  split
  · exact hannounced.congr rfl rfl rfl rfl
  · exact hannounced

end Commands

/-! ### Whole runs -/

section Runs

variable {hash : Bytes → BitswapBlockLink} {cfg : BitswapConfig} {m m' : Machine}

/-- What holds between two steps of the loop. -/
structure Complete (hash : Bytes → BitswapBlockLink) (known : Set Bytes) (m : Machine) : Prop where
  bookkeeping : Bookkeeping m.bs
  whole : Whole hash known m.bs
  work : ∀ b ∈ m.work, hash b.rawData = b.cid ∧ b.rawData ∈ known

theorem complete_initial (h : Initial m) (hkeyed : Keyed hash known m.bs.storage)
    (hfull : ∀ r, m.bs.statuses r = some .Full → HasTree m.bs.storage r) : Complete hash known m where
  bookkeeping := bookkeeping_initial h
  whole :=
    { toFiled := (bookkeeping_initial h).toFiled
      noNil := by
        rw [h.2.1]
        exact noNil_empty
      keyed := hkeyed
      schema := by
        intro r st hst
        rw [h.2.2.1, ExtTreeMap.getElem?_empty] at hst
        cases hst
      blocks := by
        intro r hr
        rw [h.2.2.1] at hr
        exact absurd hr ExtTreeMap.not_mem_empty
      full := hfull }
  work := by
    intro b hb
    rw [h.1] at hb
    exact absurd hb List.not_mem_nil

theorem Complete.processed {rest work : List Block} {s' : BitswapState} (hbook : Bookkeeping s') (hwhole : Whole hash known s')
    (hwork : ∀ b ∈ work, hash b.rawData = b.cid ∧ b.rawData ∈ known)
    (hrest : ∀ b ∈ rest, hash b.rawData = b.cid ∧ b.rawData ∈ known) :
    Complete hash known { bs := s', work := work ++ rest } where
  bookkeeping := hbook
  whole := hwhole
  work := by
    intro b hb
    rcases List.mem_append.1 hb with hb | hb
    · exact hwork b hb
    · exact hrest b hb

/-- **A step that keeps trees complete.** -/
theorem Complete.step {e : LoopEvent} (hinj : Set.InjOn hash known) (h : Complete hash known m)
    (hen : Available hash known cfg m e) (hok : KeepsTrees cfg m e) (hstep : loopStep cfg hash m e = some m') :
    Complete hash known m' := by
  cases e with
  | add data faults =>
    obtain ⟨s', hadd, rfl⟩ := Option.map_eq_some_iff.1 hstep
    exact ⟨h.bookkeeping.addData hadd, h.whole.addData hinj hen.2 hadd, h.work⟩
  | event e =>
    cases e with
    | download root tag faults =>
      obtain rfl := Option.some.inj hstep
      obtain ⟨hwhole, hwork⟩ := h.whole.kickStartRootDownload tag h.bookkeeping hok
      exact .processed (h.bookkeeping.kickStartRootDownload hok) hwhole hwork h.work
    | arrive block order faults =>
      obtain ⟨-, hhash, hknown, horder⟩ := hen
      obtain ⟨hclean, hlost⟩ := hok
      obtain ⟨p, hproc, rfl⟩ := Option.map_eq_some_iff.1 hstep
      obtain ⟨s', work⟩ := p
      have hanswer : Bookkeeping (answerRequests m.bs block.cid) := h.bookkeeping.congr rfl rfl
      obtain ⟨s'', work', hproc', hbook⟩ := hanswer.processDownloadedBlock faults hclean horder
      obtain ⟨rfl, rfl⟩ := Prod.mk.inj (Option.some.inj (hproc.symm.trans hproc'))
      have hwhole : Whole hash known (answerRequests m.bs block.cid) := h.whole.congr rfl rfl rfl rfl
      obtain ⟨hwhole', hwork⟩ := hwhole.processDownloadedBlock hinj hhash hknown hclean hlost horder hproc
      exact .processed hbook hwhole' hwork h.work
    | resume order faults =>
      obtain ⟨block, rest, hwork, horder⟩ := hen
      obtain ⟨hclean, hlost⟩ := hok block (by rw [hwork]; rfl)
      dsimp only [loopStep, Bitswap.step] at hstep
      rw [hwork] at hstep
      obtain ⟨p, hproc, rfl⟩ := Option.map_eq_some_iff.1 hstep
      obtain ⟨s', work⟩ := p
      have hkeyed := h.work
      rw [hwork] at hkeyed
      obtain ⟨hhash, hknown⟩ := hkeyed block List.mem_cons_self
      obtain ⟨s'', work', hproc', hbook⟩ := h.bookkeeping.processDownloadedBlock faults hclean horder
      obtain ⟨rfl, rfl⟩ := Prod.mk.inj (Option.some.inj (hproc.symm.trans hproc'))
      obtain ⟨hwhole, hnew⟩ := h.whole.processDownloadedBlock hinj hhash hknown hclean hlost horder hproc
      exact .processed hbook hwhole hnew fun b hb => hkeyed b (List.mem_cons_of_mem _ hb)
    | deadline root session =>
      obtain rfl := Option.some.inj hstep
      have hbook : Bookkeeping { m.bs with deadlines := m.bs.deadlines.erase (root, session) } := h.bookkeeping.congr rfl rfl
      have hwhole : Whole hash known { m.bs with deadlines := m.bs.deadlines.erase (root, session) } :=
        h.whole.congr rfl rfl rfl rfl
      exact ⟨hbook.clear root, hwhole.clear root, h.work⟩
    | delete root faults =>
      obtain rfl := Option.some.inj hstep
      exact ⟨h.bookkeeping.deleteRoot, h.whole.deleteRoot hok, h.work⟩

theorem complete_of_run (hinj : Set.InjOn hash known) (h : LoopRun hash known cfg (KeepsTrees cfg) m) :
    Complete hash known m := by
  induction h with
  | init hinit hkeyed hfull => exact complete_initial hinit hkeyed hfull
  | step _ hen hok hstep ih => exact ih.step hinj hen hok hstep

/-- **Full means complete.** In a run of the loop in which a block that cannot be stored is not counted, no block is
deleted that another root uses, no block fits an index of a root and not a later one, and no download restarts a root:
a root that is stored as full has all the blocks of its tree in storage, and they can be joined. -/
theorem full_is_complete (hash : Bytes → BitswapBlockLink) (known : Set Bytes) (hinj : Set.InjOn hash known)
    (cfg : BitswapConfig) (m : Machine) (h : LoopRun hash known cfg (KeepsTrees cfg) m) :
    ∀ root, m.bs.statuses root = some .Full →
      HasTree m.bs.storage root ∧ ∃ fuel data, joinBitswapBlocks m.bs.storage fuel root = some (some data) := by
  intro root hfull
  have htree := (complete_of_run hinj h).whole.full root hfull
  exact ⟨htree, htree.join⟩

end Runs

section Example

theorem step_tinyDownloaded : step tinyConfig tinyRequested tinyArrives = some tinyDownloaded := by
  have hsome : (step tinyConfig tinyRequested tinyArrives).isSome = true := by with_unfolding_all decide
  obtain ⟨m, hm⟩ := Option.isSome_iff_exists.1 hsome
  unfold tinyDownloaded
  rw [hm]
  rfl

theorem run_tinyRequested (ok : Machine → LoopEvent → Prop)
    (hok : ok emptyMachine (.event (.download tinyRoot 5 noFaults))) :
    LoopRun tinyHash {tinyBlock} tinyConfig ok tinyRequested := by
  have hempty : LoopRun tinyHash {tinyBlock} tinyConfig ok emptyMachine :=
    .init initial_emptyMachine (fun c b hb => by cases hb) fun r hr => by cases hr
  exact hempty.step (e := .event (.download tinyRoot 5 noFaults)) rfl hok rfl

theorem full_is_complete_tinyRoot : tinyDownloaded.bs.statuses tinyRoot = some .Full ∧
      ∃ fuel data, joinBitswapBlocks tinyDownloaded.bs.storage fuel tinyRoot = some (some data) := by
  have hdownload : KeepsTrees tinyConfig emptyMachine (.event (.download tinyRoot 5 noFaults)) :=
    fun h => ExtTreeMap.not_mem_empty h.1
  have harrives : KeepsTrees tinyConfig tinyRequested (.event tinyArrives) :=
    ⟨not_fitsThenNot_of_single (by with_unfolding_all decide), fun h => by cases h⟩
  have hrun : LoopRun tinyHash {tinyBlock} tinyConfig (KeepsTrees tinyConfig) tinyDownloaded :=
    (run_tinyRequested _ hdownload).step (e := .event tinyArrives)
      ⟨rfl, by decide, rfl, orderFits_of (by with_unfolding_all decide)⟩ harrives step_tinyDownloaded
  have hfull : tinyDownloaded.bs.statuses tinyRoot = some .Full := by with_unfolding_all decide
  exact ⟨hfull, (full_is_complete tinyHash {tinyBlock} (Set.injOn_singleton _ _) tinyConfig tinyDownloaded hrun tinyRoot
    hfull).2⟩

/-- The same block, which cannot be stored. -/
def tinyLost : Event :=
  .arrive { cid := tinyRoot, rawData := tinyBlock } { links := [], roots := [tinyRoot] } { noFaults with store := true }

def afterTinyLost : Machine := (step tinyConfig tinyRequested tinyLost).getD emptyMachine

theorem step_afterTinyLost : step tinyConfig tinyRequested tinyLost = some afterTinyLost := by
  have hsome : (step tinyConfig tinyRequested tinyLost).isSome = true := by with_unfolding_all decide
  obtain ⟨m, hm⟩ := Option.isSome_iff_exists.1 hsome
  unfold afterTinyLost
  rw [hm]
  rfl

/-- **A root is full whose block was never stored.** -/
theorem full_without_blocks :
    ¬ ∀ (hash : Bytes → BitswapBlockLink) (known : Set Bytes), Set.InjOn hash known → ∀ (cfg : BitswapConfig) (m : Machine),
      LoopRun hash known cfg (fun _ _ => True) m → ∀ root, m.bs.statuses root = some .Full →
        ∃ fuel data, joinBitswapBlocks m.bs.storage fuel root = some (some data) := by
  intro h
  have hrun : LoopRun tinyHash {tinyBlock} tinyConfig (fun _ _ => True) afterTinyLost :=
    (run_tinyRequested _ trivial).step (e := .event tinyLost)
      ⟨rfl, by decide, rfl, orderFits_of (by with_unfolding_all decide)⟩ trivial step_afterTinyLost
  have hfull : afterTinyLost.bs.statuses tinyRoot = some .Full := by with_unfolding_all decide
  have hnone : afterTinyLost.bs.storage tinyRoot = none := by with_unfolding_all decide
  obtain ⟨fuel, data, hjoin⟩ := h tinyHash {tinyBlock} (Set.injOn_singleton _ _) tinyConfig afterTinyLost hrun tinyRoot hfull
  unfold joinBitswapBlocks at hjoin
  cases fuel with
  | zero => cases hjoin
  | succ fuel =>
    unfold joinLoop readLinkedBlock at hjoin
    rw [hnone] at hjoin
    cases hjoin

end Example

end MinaProtocol.Bitswap
