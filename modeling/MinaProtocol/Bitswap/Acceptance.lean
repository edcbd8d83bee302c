import Mathlib
import MinaProtocol.Bitswap.Stranded
import MinaProtocol.Bitswap.TreeCheck

/-!
# Bitswap.Acceptance

The download of one root from a store of blocks. While it goes on, some nodes of the tree are resolved:
the block under their label is stored and fits the schema, and each child is resolved or pending under its
label. When nothing is pending all nodes are resolved, and the root is reported as added; a block that does
not fit has the root reported as broken.
-/

namespace MinaProtocol.Bitswap

open Std LevelOrder

/-! ### What processing a block leaves -/

variable {s s' : BitswapState} {block : Block} {oldPs : ExtTreeMap Root (List NodeIndex)} {order : MapOrder}
  {faults : Faults} {links : List BitswapBlockLink} {r : Root}

section Process

variable {cfg : BitswapConfig} {l : ChildLoop} {newParams : NestedMap BitswapBlockLink Root NodeIndex}
  {roots : List Root} {c : Cid} {v : NodeIndex} {childId : Cid}

theorem has_takeIndices {id : Cid} {result : StepResult} :
    (takeIndices s id oldPs result).nodeDownloadParams.Has c r v ↔ c ≠ id ∧ s.nodeDownloadParams.Has c r v := by
  unfold takeIndices NestedMap.Has
  dsimp only
  by_cases hc : c = id
  · rw [hc, NestedMap.lookup_erase_self]
    simp
  · rw [NestedMap.lookup_erase_of_ne hc]
    simp [hc]

theorem has_addPendings {ps : List (Root × List NodeIndex)} :
    (addPendings childId l ps).bs.nodeDownloadParams.Has c r v ↔
      l.bs.nodeDownloadParams.Has c r v ∨ ∃ p ∈ ps, c = childId ∧ r = p.1 ∧ v ∈ p.2 := by
  induction ps generalizing l with
  | nil =>
    unfold addPendings
    simp
  | cons p ps ih =>
    refine (ih (l := addPending childId l p.1 p.2)).trans ?_
    rw [params_addPending, NestedMap.has_append]
    simp only [List.mem_cons, exists_eq_or_imp]
    grind

/-- **The loop files what the step found.** -/
theorem has_foldl_addChild (hcover : ∀ link x ixs, newParams.lookup link x = some ixs → x ∈ roots) :
    (links.foldl (addChild faults newParams roots) l).bs.nodeDownloadParams.Has c r v ↔
      l.bs.nodeDownloadParams.Has c r v ∨ c ∈ links ∧ newParams.Has c r v := by
  induction links generalizing l with
  | nil => simp
  | cons link links ih =>
    rw [List.foldl_cons, ih, addChild_bs, has_addPendings]
    have hfiled : (∃ p ∈ rootsOf newParams roots link, c = link ∧ r = p.1 ∧ v ∈ p.2) ↔ c = link ∧ newParams.Has c r v := by
      constructor
      · rintro ⟨p, hp, rfl, rfl, hv⟩
        exact ⟨rfl, p.2, (mem_rootsOf.1 hp).2, hv⟩
      · rintro ⟨rfl, ixs, hl, hv⟩
        exact ⟨(r, ixs), mem_rootsOf.2 ⟨hcover c r ixs hl, hl⟩, rfl, rfl, hv⟩
    rw [hfiled, List.mem_cons]
    grind

theorem lookup_foldl_reportBroken {gone : List Root} (hr : r ∉ gone) :
    (gone.foldl reportBroken s).nodeDownloadParams.lookup c r = s.nodeDownloadParams.lookup c r := by
  induction gone generalizing s with
  | nil => rfl
  | cons x gone ih =>
    rw [List.mem_cons, not_or] at hr
    rw [List.foldl_cons, ih hr.2]
    exact lookup_clear_of_ne hr.1

/-- What is pending after a block for a root that it is not malformed for is what was before, but for the block,
and the children. -/
theorem has_childLoop (hps : s.nodeDownloadParams[block.cid]? = some oldPs) (horder : OrderFits cfg order block s)
    (hr : r ∉ (processDownloadedBlockStep cfg oldPs block s.rootDownloadStates).malformed) :
    (childLoop cfg order faults block s oldPs).bs.nodeDownloadParams.Has c r v ↔
      (c ≠ block.cid ∧ s.nodeDownloadParams.Has c r v) ∨
        (processDownloadedBlockStep cfg oldPs block s.rootDownloadStates).newParams.Has c r v := by
  obtain ⟨hlinks, hroots⟩ := horder oldPs hps
  have hcover : ∀ link x ixs,
      (processDownloadedBlockStep cfg oldPs block s.rootDownloadStates).newParams.lookup link x = some ixs → x ∈ order.roots := by
    intro link x ixs hl
    obtain ⟨-, -, ixs', -, hr, -⟩ := of_newParams hl
    rw [hroots.mem_iff, ExtTreeMap.mem_keys, ExtTreeMap.mem_iff_isSome_getElem?, hr]
    rfl
  have hkey : (processDownloadedBlockStep cfg oldPs block s.rootDownloadStates).newParams.Has c r v → c ∈ order.links := by
    rintro ⟨ixs, hl, -⟩
    rw [hlinks.mem_iff, ExtTreeMap.mem_keys]
    exact (NestedMap.mem_iff_lookup noEmpty_newParams).2 ⟨r, ixs, hl⟩
  unfold childLoop
  dsimp only
  rw [has_foldl_addChild hcover]
  unfold checkBlock NestedMap.Has
  dsimp only
  rw [lookup_foldl_reportBroken hr]
  exact or_congr has_takeIndices ⟨fun h => h.2, fun h => ⟨hkey h, h⟩⟩

theorem updates_addPending {root : Root} {ixs : List NodeIndex} :
    (addPending childId l root ixs).bs.resourceUpdates = l.bs.resourceUpdates := by
  unfold addPending
  cases l.bs.rootDownloadStates[root]? <;> rfl

theorem updates_foldl_addChild : (links.foldl (addChild faults newParams roots) l).bs.resourceUpdates = l.bs.resourceUpdates := by
  have hpendings : ∀ (childId : Cid) (ps : List (Root × List NodeIndex)) (l : ChildLoop),
      (addPendings childId l ps).bs.resourceUpdates = l.bs.resourceUpdates := by
    intro childId ps
    induction ps with
    | nil => exact fun l => rfl
    | cons p ps ih => exact fun l => (ih _).trans updates_addPending
  induction links generalizing l with
  | nil => rfl
  | cons link links ih => rw [List.foldl_cons, ih, addChild_bs, hpendings]

theorem states_foldl_addChild (faults : Faults) (newParams : NestedMap BitswapBlockLink Root NodeIndex) (roots : List Root)
    (links : List BitswapBlockLink) (l : ChildLoop) (r : Root) {A : Type} {f : RootDownloadState → A}
    (hf : ∀ st descendants counter, f { st with allDescendants := descendants, remainingNodeCounter := counter } = f st) :
    (((links.foldl (addChild faults newParams roots) l).bs.rootDownloadStates)[r]?).map f =
      (l.bs.rootDownloadStates[r]?).map f := by
  have hpending : ∀ (childId : Cid) (root : Root) (ixs : List NodeIndex) (l : ChildLoop),
      (((addPending childId l root ixs).bs.rootDownloadStates)[r]?).map f = (l.bs.rootDownloadStates[r]?).map f := by
    intro childId root ixs l
    by_cases hr : r = root
    · subst hr
      cases hst : l.bs.rootDownloadStates[r]? with
      | none =>
        unfold addPending
        rw [hst]
        dsimp only
        rw [hst]
      | some st =>
        rw [addPending_of_state hst]
        dsimp only
        rw [ExtTreeMap.getElem?_insert_self, Option.map_some, hf, Option.map_some]
    · rw [states_addPending_of_ne hr]
  have hpendings : ∀ (childId : Cid) (ps : List (Root × List NodeIndex)) (l : ChildLoop),
      (((addPendings childId l ps).bs.rootDownloadStates)[r]?).map f = (l.bs.rootDownloadStates[r]?).map f := by
    intro childId ps
    induction ps with
    | nil => exact fun l => rfl
    | cons p ps ih => exact fun l => (ih _).trans (hpending childId p.1 p.2 l)
  induction links generalizing l with
  | nil => rfl
  | cons link links ih => rw [List.foldl_cons, ih, addChild_bs, hpendings]

theorem storage_of_viewBlock {bytes : Bytes} (h : viewBlock faults s c = some bytes) : s.storage c = some bytes := by
  unfold viewBlock at h
  split at h
  · cases h
  · exact h

theorem mem_blocksToProcess {b : Block} (h : b ∈ (links.foldl (addChild faults newParams roots) l).blocksToProcess) :
    b ∈ l.blocksToProcess ∨ l.bs.storage b.cid = some b.rawData := by
  induction links generalizing l with
  | nil => exact .inl h
  | cons link links ih =>
    have henv := sameEnv_addPendings l link (rootsOf newParams roots link)
    rcases ih h with hmem | hstored
    · rw [addChild_eq] at hmem
      cases hview : viewBlock faults (addPendings link l (rootsOf newParams roots link)).bs link with
      | none =>
        rw [hview] at hmem
        dsimp only at hmem
        rw [henv.blocksToProcess] at hmem
        exact .inl hmem
      | some bytes =>
        rw [hview] at hmem
        dsimp only at hmem
        rw [henv.blocksToProcess] at hmem
        rcases List.mem_append.1 hmem with hold | hnew
        · exact .inl hold
        · obtain rfl := List.mem_singleton.1 hnew
          exact .inr (henv.storage ▸ storage_of_viewBlock hview)
    · rw [addChild_bs, henv.storage] at hstored
      exact .inr hstored

end Process

/-! ### One root -/

variable (cfg : BitswapConfig)

variable (hash : Bytes → BitswapBlockLink)

/-- Data that the downloader is to accept: not too large, and encoded to the root. -/
def EncodedData (tag : BitswapDataTag) (conf : BitswapDataConfig) (root : Root) (d : Bytes) : Prop :=
  (d.length : Int) ≤ conf.maxSize ∧ Encodes cfg.maxBlockSize hash tag root d

/-- The blocks of a store, and those of the trees for data to accept. -/
def Known (blocks : BlockMap) (tag : BitswapDataTag) (conf : BitswapDataConfig) (root : Root) (b : Bytes) : Prop :=
  (∃ c, blocks c = some b) ∨
    ∃ d tree i, EncodedData cfg hash tag conf root d ∧ IsBlockTree cfg.maxBlockSize hash (prefixedData tag d) tree ∧
      i < blockCount cfg (d.length + 1) ∧ b = tree i

/-- `IsValidMaxBlockSize`. -/
def isValidMaxBlockSize (maxBlobSize : Nat) : Bool :=
  decide (maxBlobSize ≥ 7 + bitswapBlockLinkSize) && decide ((maxBlobSize - 2) % bitswapBlockLinkSize ≥ 5)

/-- What a download is about: a configuration, and a store of blocks under their hashes that do not collide. -/
structure Setting (blocks : BlockMap) (tag : BitswapDataTag)
    (conf : BitswapDataConfig) (root : Root) : Prop where
  valid : isValidMaxBlockSize cfg.maxBlockSize = true
  indices : cfg.depthIndices = mkDepthIndices (linksPerBlock cfg.maxBlockSize) (2 ^ 31 - 1)
  configured : cfg.dataConfig tag = some conf
  keyed : ∀ c b, blocks c = some b → hash b = c
  free : ∀ b b', Known cfg hash blocks tag conf root b → Known cfg hash blocks tag conf root b' → hash b = hash b' → b = b'

variable (blocks : BlockMap)

variable (root : Root)

/-- Only one root is downloaded, what is stored is from a store of blocks, and nothing is reported. -/
structure Downloads (s : BitswapState) : Prop where
  stored : ∀ c b, s.storage c = some b → blocks c = some b
  only : ∀ r, r ∈ s.rootDownloadStates → r = root
  quiet : s.resourceUpdates = []

/-- A node that a root leads to, through blocks of the store. -/
abbrev IsReached (dataLen : Nat) (j : Nat) : Prop :=
  Reached (linksPerBlock cfg.maxBlockSize) (blockCount cfg dataLen) blocks root j

/-- A node whose block is stored and fits. -/
structure Fitting (dataLen : Nat) (s : BitswapState) (i : Nat) :
    Prop where
  reached : IsReached cfg blocks root dataLen i
  fits : FitsNode (mkBitswapBlockSchemaLengthPrefixed cfg.maxBlockSize dataLen) blocks (label cfg blocks root i) i
  stored : s.storage (label cfg blocks root i) = blocks (label cfg blocks root i)

/-- The block of the root is pending, and nothing else. -/
structure Waiting (tag : BitswapDataTag) (s : BitswapState) : Prop
    extends Downloads blocks root s where
  state : ∃ st, s.rootDownloadStates[root]? = some st ∧ st.tag = tag
  pending : ∀ c v, s.nodeDownloadParams.Has c root v → c = root ∧ v = 0

/-- The root block is there, some nodes are resolved, and their children resolved or pending. -/
structure Progress (tag : BitswapDataTag) (dataLen : Nat)
    (resolved : Nat → Prop) (s : BitswapState) : Prop extends Downloads blocks root s where
  state : ∃ st, s.rootDownloadStates[root]? = some st ∧
    st.schema = some (mkBitswapBlockSchemaLengthPrefixed cfg.maxBlockSize dataLen)
  announces : Announces cfg tag blocks root dataLen
  first : resolved 0
  fits : ∀ i, resolved i → Fitting cfg blocks root dataLen s i
  children : ∀ i t, resolved i → t < childCount (linksPerBlock cfg.maxBlockSize) (blockCount cfg dataLen) i →
    resolved (linksPerBlock cfg.maxBlockSize * i + 1 + t) ∨
      s.nodeDownloadParams.Has (label cfg blocks root (linksPerBlock cfg.maxBlockSize * i + 1 + t)) root
        ((linksPerBlock cfg.maxBlockSize * i + 1 + t : Nat) : Int)
  pending : ∀ c v, s.nodeDownloadParams.Has c root v →
    ∃ j : Nat, v = (j : Int) ∧ 0 < j ∧ IsReached cfg blocks root dataLen j ∧ c = label cfg blocks root j

variable {tag : BitswapDataTag} {conf : BitswapDataConfig} {d : Bytes}

section OneRoot

variable {cfg : BitswapConfig} {hash : Bytes → BitswapBlockLink} {blocks : BlockMap} {root : Root} {dataLen : Nat}
  {ixs : List NodeIndex} {st : RootDownloadState} {data : Bytes}

theorem Setting.maxBlockSize_bound (h : Setting cfg hash blocks tag conf root) :
    39 ≤ cfg.maxBlockSize ∧ 5 ≤ (cfg.maxBlockSize - 2) % 32 := by
  have hvalid := h.valid
  unfold isValidMaxBlockSize bitswapBlockLinkSize at hvalid
  rw [Bool.and_eq_true, decide_eq_true_eq, decide_eq_true_eq] at hvalid
  omega

/-- The tree of an announced length is in reach of the depth indices. -/
theorem blockCount_lt (hm : 39 ≤ cfg.maxBlockSize) (hlen : dataLen < 2 ^ 32) : blockCount cfg dataLen < 2 ^ 31 - 1 := by
  have hbounds := requiredBitswapBlockCount_bounds (show 34 < cfg.maxBlockSize by omega) (dataLen + 4)
  have hmul : 5 * (blockCount cfg dataLen - 1) ≤ (cfg.maxBlockSize - 34) * (blockCount cfg dataLen - 1) :=
    Nat.mul_le_mul_right _ (by omega)
  have hle := hmul.trans hbounds.1
  omega

theorem Announces.lt (h : Announces cfg tag blocks root dataLen) : dataLen < 2 ^ 32 := by
  obtain ⟨b, links, chunk, -, -, hlen⟩ := h
  exact (readRootLength_eq_some.1 hlen).1

/-- **The first child of a node with links.** -/
theorem Setting.firstChildId_eq (h : Setting cfg hash blocks tag conf root) (hlen : dataLen < 2 ^ 32) {i t : Nat}
    (ht : t < childCount (linksPerBlock cfg.maxBlockSize) (blockCount cfg dataLen) i) :
    cfg.depthIndices.firstChildId (i : Int) = ((linksPerBlock cfg.maxBlockSize * i + 1 : Nat) : Int) := by
  obtain ⟨hm, -⟩ := h.maxBlockSize_bound
  have hbound : blockCount cfg dataLen < 2 ^ 31 - 1 := blockCount_lt hm hlen
  have hchild := child_lt ht
  rw [h.indices]
  exact Bitswap.firstChildId_eq (linksPerBlock_pos (by omega)) (by omega)

theorem toList_eq_singleton (honly : ∀ r, r ∈ oldPs → r = root) (hix : oldPs[root]? = some ixs) :
    oldPs.toList = [(root, ixs)] := by
  have hnodup := ExtTreeMap.distinct_keys_toList (t := oldPs)
  have hall : ∀ p ∈ oldPs.toList, p = (root, ixs) := by
    intro p hp
    obtain ⟨r, vs⟩ := p
    rw [ExtTreeMap.mem_toList_iff_getElem?_eq_some] at hp
    obtain rfl := honly r (by rw [ExtTreeMap.mem_iff_isSome_getElem?, hp]; rfl)
    rw [hix] at hp
    rw [Option.some.inj hp]
  have hmem : (root, ixs) ∈ oldPs.toList := ExtTreeMap.mem_toList_iff_getElem?_eq_some.2 hix
  cases hlist : oldPs.toList with
  | nil =>
    rw [hlist] at hmem
    cases hmem
  | cons p ps =>
    rw [hlist] at hall hnodup
    rw [hall p List.mem_cons_self]
    cases ps with
    | nil => rfl
    | cons q ps =>
      have hq := hall q (List.mem_cons_of_mem _ List.mem_cons_self)
      have hne := (List.pairwise_cons.1 hnodup).1 q List.mem_cons_self
      rw [hall p List.mem_cons_self, hq] at hne
      exact absurd (NestedMap.eq_of_compare_eq.2 rfl) hne

/-- **A block of one root** is malformed for it or not. -/
theorem malformed_eq (cfg : BitswapConfig) (honly : ∀ r, r ∈ oldPs → r = root) (hix : oldPs[root]? = some ixs)
    (hst : s.rootDownloadStates[root]? = some st) (hread : readBitswapBlock block.rawData = some (links, data)) :
    (processDownloadedBlockStep cfg oldPs block s.rootDownloadStates).malformed =
      if (checkRoot cfg block.rawData.length links.length data st ixs).malformed then [root] else [] := by
  unfold processDownloadedBlockStep
  rw [hread, toList_eq_singleton honly hix]
  dsimp only
  unfold checkFor
  rw [List.filter_cons, hst, List.filter_nil]
  dsimp only
  split <;> rfl

theorem malformed_of_unreadable (honly : ∀ r, r ∈ oldPs → r = root) (hix : oldPs[root]? = some ixs)
    (hread : readBitswapBlock block.rawData = none) :
    (processDownloadedBlockStep cfg oldPs block s.rootDownloadStates).malformed = [root] := by
  unfold processDownloadedBlockStep
  rw [hread, toList_eq_singleton honly hix]
  rfl

theorem checkRoot_fits (size numLinks : Nat) {schema : BitswapBlockSchema} (hschema : schemaFor cfg st data ixs = some schema) :
    (checkRoot cfg size numLinks data st ixs).malformed = !ixs.all (fitsAt schema size numLinks) ∧
      (checkRoot cfg size numLinks data st ixs).schema = some schema ∧
      (checkRoot cfg size numLinks data st ixs).wellFormed = ixs.takeWhile (fitsAt schema size numLinks) := by
  unfold schemaFor at hschema
  unfold checkRoot
  by_cases hroot : (0 : NodeIndex) ∈ ixs
  · rw [if_pos hroot] at hschema ⊢
    obtain ⟨dataLen, hlen, rfl⟩ := Option.map_eq_some_iff.1 hschema
    rw [hlen]
    exact ⟨rfl, rfl, rfl⟩
  · rw [if_neg hroot] at hschema ⊢
    rw [hschema]
    exact ⟨rfl, rfl, rfl⟩

theorem states_childLoop (order : MapOrder) (faults : Faults) {A : Type} {f : RootDownloadState → A}
    (hr : r ∉ (processDownloadedBlockStep cfg oldPs block s.rootDownloadStates).malformed)
    (hf : ∀ st descendants counter, f { st with allDescendants := descendants, remainingNodeCounter := counter } = f st) :
    ((childLoop cfg order faults block s oldPs).bs.rootDownloadStates[r]?).map f =
      (s.rootDownloadStates[r]?).map fun st =>
        f (countDownRoot oldPs (processDownloadedBlockStep cfg oldPs block s.rootDownloadStates) r st) := by
  unfold childLoop
  dsimp only
  rw [states_foldl_addChild _ _ _ _ _ _ hf]
  unfold checkBlock
  dsimp only
  rw [states_reportBroken_of_not_mem hr]
  unfold takeIndices
  dsimp only
  rw [getElem?_countDown, Option.map_map]
  rfl

theorem mem_states_childLoop (hr : r ∉ (processDownloadedBlockStep cfg oldPs block s.rootDownloadStates).malformed) :
    r ∈ (childLoop cfg order faults block s oldPs).bs.rootDownloadStates ↔ r ∈ s.rootDownloadStates := by
  have h := states_childLoop order faults (f := fun _ => ()) hr fun _ _ _ => rfl
  have hsome := congrArg Option.isSome h
  rw [Option.isSome_map, Option.isSome_map] at hsome
  rw [ExtTreeMap.mem_iff_isSome_getElem?, ExtTreeMap.mem_iff_isSome_getElem?, hsome]

theorem updates_childLoop
    (hmalformed : (processDownloadedBlockStep cfg oldPs block s.rootDownloadStates).malformed = []) :
    (childLoop cfg order faults block s oldPs).bs.resourceUpdates = s.resourceUpdates := by
  unfold childLoop
  dsimp only
  rw [updates_foldl_addChild]
  unfold checkBlock
  dsimp only
  rw [hmalformed]
  rfl

variable (hset : Setting cfg hash blocks tag conf root) {resolved : Nat → Prop}

include hset

theorem has_newParams_of_fits (hlen : dataLen < 2 ^ 32)
    (hix : oldPs[root]? = some ixs) (hst : s.rootDownloadStates[root]? = some st)
    (hread : readBitswapBlock block.rawData = some (links, data))
    (hschema : schemaFor cfg st data ixs = some (mkBitswapBlockSchemaLengthPrefixed cfg.maxBlockSize dataLen))
    (hfit : ixs.all (fitsAt (mkBitswapBlockSchemaLengthPrefixed cfg.maxBlockSize dataLen) block.rawData.length links.length) = true)
    (hat : ∀ v ∈ ixs, ∃ j : Nat, v = (j : Int) ∧ IsReached cfg blocks root dataLen j) (c : Cid) (v : NodeIndex) :
    (processDownloadedBlockStep cfg oldPs block s.rootDownloadStates).newParams.Has c root v ↔
      ∃ i t : Nat, (i : Int) ∈ ixs ∧ t < childCount (linksPerBlock cfg.maxBlockSize) (blockCount cfg dataLen) i ∧
        links[t]? = some c ∧ v = ((linksPerBlock cfg.maxBlockSize * i + 1 + t : Nat) : Int) := by
  obtain ⟨hm, -⟩ := hset.maxBlockSize_bound
  have h34 : 34 < cfg.maxBlockSize := by omega
  have hn : 0 < blockCount cfg dataLen := requiredBitswapBlockCount_pos h34
  obtain ⟨-, -, hwell⟩ := checkRoot_fits block.rawData.length links.length hschema
  rw [List.takeWhile_eq_self_iff.2 (List.all_eq_true.1 hfit)] at hwell
  have hcheck : checkFor cfg s.rootDownloadStates block.rawData.length links.length data root ixs =
      checkRoot cfg block.rawData.length links.length data st ixs := by
    unfold checkFor
    rw [hst]
  have hcount : ∀ i : Nat, (i : Int) ∈ ixs → IsReached cfg blocks root dataLen i →
      links.length = childCount (linksPerBlock cfg.maxBlockSize) (blockCount cfg dataLen) i :=
    fun i hi hreached => ((fitsAt_iff h34 (hreached.lt hn)).1 (List.all_eq_true.1 hfit _ hi)).2
  have hchildren : (processDownloadedBlockStep cfg oldPs block s.rootDownloadStates).newParams.Has c root v ↔
      ∃ ix ∈ ixs, ∃ j : Nat, links[j]? = some c ∧ v = cfg.depthIndices.firstChildId ix + (j : Int) := by
    unfold processDownloadedBlockStep
    rw [hread]
    refine has_childrenOf.trans ?_
    simp only [hix, Option.some.injEq, exists_eq_left', hcheck, hwell]
  rw [hchildren]
  constructor
  · rintro ⟨ix, hmem, t, hlink, rfl⟩
    obtain ⟨i, rfl, hreached⟩ := hat ix hmem
    have ht : t < childCount (linksPerBlock cfg.maxBlockSize) (blockCount cfg dataLen) i := by
      rw [← hcount i hmem hreached]
      exact (List.getElem?_eq_some_iff.1 hlink).1
    refine ⟨i, t, hmem, ht, hlink, ?_⟩
    rw [hset.firstChildId_eq hlen ht]
    push_cast
    ring
  · rintro ⟨i, t, hmem, ht, hlink, rfl⟩
    refine ⟨(i : Int), hmem, t, hlink, ?_⟩
    rw [hset.firstChildId_eq hlen ht]
    push_cast
    ring

/-- **A block that fits all its indices resolves them.** -/
theorem progress_of_fits (hbase : Downloads blocks root s)
    (hps : s.nodeDownloadParams[block.cid]? = some oldPs) (hix : oldPs[root]? = some ixs)
    (hst : s.rootDownloadStates[root]? = some st) (horder : OrderFits cfg order block s)
    (hread : readBitswapBlock block.rawData = some (links, data)) (hannounces : Announces cfg tag blocks root dataLen)
    (hschema : schemaFor cfg st data ixs = some (mkBitswapBlockSchemaLengthPrefixed cfg.maxBlockSize dataLen))
    (hfit : ixs.all (fitsAt (mkBitswapBlockSchemaLengthPrefixed cfg.maxBlockSize dataLen) block.rawData.length links.length) = true)
    (hmalformed : (processDownloadedBlockStep cfg oldPs block s.rootDownloadStates).malformed = [])
    (hblock : blocks block.cid = some block.rawData) (hstored : s.storage block.cid = some block.rawData)
    (hat : ∀ v ∈ ixs, ∃ j : Nat, v = (j : Int) ∧ IsReached cfg blocks root dataLen j ∧ block.cid = label cfg blocks root j)
    (resolved : Nat → Prop) (hfits : ∀ i, resolved i → Fitting cfg blocks root dataLen s i)
    (hfirst : resolved 0 ∨ (0 : NodeIndex) ∈ ixs)
    (hchildren : ∀ i t, resolved i → t < childCount (linksPerBlock cfg.maxBlockSize) (blockCount cfg dataLen) i →
      resolved (linksPerBlock cfg.maxBlockSize * i + 1 + t) ∨
        s.nodeDownloadParams.Has (label cfg blocks root (linksPerBlock cfg.maxBlockSize * i + 1 + t)) root
          ((linksPerBlock cfg.maxBlockSize * i + 1 + t : Nat) : Int))
    (hpending : ∀ c v, c ≠ block.cid → s.nodeDownloadParams.Has c root v →
      ∃ j : Nat, v = (j : Int) ∧ 0 < j ∧ IsReached cfg blocks root dataLen j ∧ c = label cfg blocks root j)
    (hparams : s'.nodeDownloadParams = (childLoop cfg order noFaults block s oldPs).bs.nodeDownloadParams)
    (hstates : s'.rootDownloadStates = (childLoop cfg order noFaults block s oldPs).bs.rootDownloadStates)
    (hstorage : s'.storage = s.storage) (hupdates : s'.resourceUpdates = s.resourceUpdates) :
    Progress cfg blocks root tag dataLen (fun i => resolved i ∨ (i : Int) ∈ ixs) s' := by
  obtain ⟨hm, -⟩ := hset.maxBlockSize_bound
  have h34 : 34 < cfg.maxBlockSize := by omega
  have hn : 0 < blockCount cfg dataLen := requiredBitswapBlockCount_pos h34
  have hlinks : ∀ (i : Nat), (i : Int) ∈ ixs → IsReached cfg blocks root dataLen i →
      links.length = childCount (linksPerBlock cfg.maxBlockSize) (blockCount cfg dataLen) i :=
    fun i hi hreached => ((fitsAt_iff h34 (hreached.lt hn)).1 (List.all_eq_true.1 hfit _ hi)).2
  have hnone : ∀ r, r ∉ (processDownloadedBlockStep cfg oldPs block s.rootDownloadStates).malformed := by
    rw [hmalformed]
    exact fun r => List.not_mem_nil
  have hnew := has_newParams_of_fits hset hannounces.lt hix hst hread hschema hfit
    (fun v hv => (hat v hv).imp fun j hj => ⟨hj.1, hj.2.1⟩)
  -- a child of the block is labelled by its link
  have hchild : ∀ (i t : Nat), (i : Int) ∈ ixs → t < childCount (linksPerBlock cfg.maxBlockSize) (blockCount cfg dataLen) i →
      links[t]? = some (label cfg blocks root (linksPerBlock cfg.maxBlockSize * i + 1 + t)) ∧
        IsReached cfg blocks root dataLen (linksPerBlock cfg.maxBlockSize * i + 1 + t) := by
    intro i t hi ht
    obtain ⟨j, hj, hreached, hlabel⟩ := hat i hi
    obtain rfl := Int.ofNat_inj.1 hj
    have hcount := hlinks i hi hreached
    have hunder : blocks (label cfg blocks root i) = some block.rawData := by rw [← hlabel, hblock]
    have hlt : t < links.length := by omega
    refine ⟨?_, hreached.child (by rw [hunder]; rfl) ht⟩
    rw [List.getElem?_eq_getElem hlt, label, labelAt_child hunder hread hlt (by rw [hcount]; exact childCount_le)]
  refine ⟨⟨?_, ?_, ?_⟩, ?_, hannounces, hfirst, ?_, ?_, ?_⟩
  · rw [hstorage]
    exact hbase.stored
  · intro r hr
    rw [hstates, mem_states_childLoop (hnone r)] at hr
    exact hbase.only r hr
  · rw [hupdates]
    exact hbase.quiet
  · -- the schema of the root is set
    have hmap := states_childLoop order noFaults (f := RootDownloadState.schema) (hnone root)
      fun _ _ _ => rfl
    rw [hst, Option.map_some, ← hstates] at hmap
    obtain ⟨st', hst', heq⟩ := Option.map_eq_some_iff.1 hmap
    refine ⟨st', hst', heq.trans ?_⟩
    obtain ⟨-, hcheck, -⟩ := checkRoot_fits block.rawData.length links.length hschema
    unfold countDownRoot processDownloadedBlockStep
    rw [hix, hread]
    dsimp only
    unfold checkFor
    rw [hst]
    exact hcheck
  · intro i hi
    rcases hi with hi | hi
    · obtain ⟨hreached, hnode, hat⟩ := hfits i hi
      exact ⟨hreached, hnode, by rw [hstorage, hat]⟩
    · obtain ⟨j, hj, hreached, hlabel⟩ := hat i hi
      obtain rfl := Int.ofNat_inj.1 hj
      refine ⟨hreached, ⟨block.rawData, links, data, by rw [← hlabel, hblock], hread, List.all_eq_true.1 hfit _ hi⟩, ?_⟩
      rw [hstorage, ← hlabel, hstored, hblock]
  · intro i t hi ht
    rw [hparams, has_childLoop hps horder (hnone root)]
    rcases hi with hi | hi
    · rcases hchildren i t hi ht with hres | hpend
      · exact .inl (.inl hres)
      · -- a child that was pending under the block is resolved with it
        by_cases hc : label cfg blocks root (linksPerBlock cfg.maxBlockSize * i + 1 + t) = block.cid
        · refine .inl (.inr ?_)
          obtain ⟨vs, hl, hv⟩ := hpend
          rw [hc, NestedMap.lookup_eq_some_of_getElem? hps, hix] at hl
          rw [Option.some.inj hl]
          exact hv
        · exact .inr (.inl ⟨hc, hpend⟩)
    · exact .inr (.inr ((hnew _ _).2 ⟨i, t, hi, ht, (hchild i t hi ht).1, rfl⟩))
  · intro c v hv
    rw [hparams, has_childLoop hps horder (hnone root)] at hv
    rcases hv with ⟨hc, hv⟩ | hv
    · exact hpending c v hc hv
    · obtain ⟨i, t, hi, ht, hlink, rfl⟩ := (hnew c v).1 hv
      obtain ⟨hlabel, hreached⟩ := hchild i t hi ht
      rw [hlink] at hlabel
      exact ⟨_, rfl, by omega, hreached, Option.some.inj hlabel⟩

/-! ### Data to accept -/

variable (hd : EncodedData cfg hash tag conf root d)

include hd

theorem Setting.eq_tree {tree : Nat → Bytes}
    (htree : IsBlockTree cfg.maxBlockSize hash (prefixedData tag d) tree) (i : Nat)
    (b : Bytes) (hi : i < blockCount cfg (d.length + 1)) (hb : blocks (hash (tree i)) = some b) : b = tree i :=
  hset.free b (tree i) (.inl ⟨_, hb⟩) (.inr ⟨d, tree, i, hd, htree, hi, rfl⟩) (hset.keyed _ _ hb)

/-- **The announced length** is that of the data and the tag. -/
theorem announced_eq (hannounces : Announces cfg tag blocks root dataLen) : dataLen = d.length + 1 := by
  obtain ⟨hm, hpad⟩ := hset.maxBlockSize_bound
  obtain ⟨hlen, tree, htree, hroot⟩ := (encodes_iff (by omega)).1 hd.2
  obtain ⟨b, links, chunk, hb, hread, hannounced⟩ := hannounces
  have hn : 0 < blockCount cfg (d.length + 1) := requiredBitswapBlockCount_pos (by omega)
  rw [← hroot] at hb
  obtain rfl := hset.eq_tree hd htree 0 b hn hb
  obtain ⟨links', chunk', hread', hannounced'⟩ := announces_of_tree (by omega) hpad hset.configured hlen hd.1 htree
  rw [hread] at hread'
  obtain ⟨-, rfl⟩ := Prod.mk.inj (Option.some.inj hread')
  rw [hannounced] at hannounced'
  exact Option.some.inj hannounced'

/-- **A block of a tree for data fits** wherever it is pending. -/
theorem fits_of_encoded (hblock : blocks block.cid = some block.rawData) (hne : ixs ≠ [])
    (hat : ∀ v ∈ ixs, ∃ j : Nat, v = (j : Int) ∧ IsReached cfg blocks root (d.length + 1) j ∧
      block.cid = label cfg blocks root j) :
    ∃ links data, readBitswapBlock block.rawData = some (links, data) ∧
      ixs.all (fitsAt (mkBitswapBlockSchemaLengthPrefixed cfg.maxBlockSize (d.length + 1)) block.rawData.length links.length) =
        true ∧
      ((0 : NodeIndex) ∈ ixs → readRootLength cfg tag data = some (d.length + 1)) := by
  obtain ⟨hm, hpad⟩ := hset.maxBlockSize_bound
  obtain ⟨hlen, tree, htree, hroot⟩ := (encodes_iff (by omega)).1 hd.2
  have hn : 0 < blockCount cfg (d.length + 1) := requiredBitswapBlockCount_pos (by omega)
  have hsame : ∀ v ∈ ixs, ∃ j : Nat, v = (j : Int) ∧ j < blockCount cfg (d.length + 1) ∧ block.rawData = tree j := by
    intro v hv
    obtain ⟨j, hj, hreached, hlabel⟩ := hat v hv
    have hjn := hreached.lt hn
    rw [hlabel, hreached.label_eq (by omega) htree hroot (hset.eq_tree hd htree)] at hblock
    exact ⟨j, hj, hjn, hset.eq_tree hd htree j _ hjn hblock⟩
  obtain ⟨v₀, hv₀⟩ := List.exists_mem_of_ne_nil ixs hne
  obtain ⟨j₀, -, hj₀, htree₀⟩ := hsame v₀ hv₀
  have h34 : 34 < cfg.maxBlockSize := by omega
  obtain ⟨links, data, hread, -⟩ := fitsAt_of_tree h34 htree hj₀
  rw [← htree₀] at hread
  refine ⟨links, data, hread, List.all_eq_true.2 fun v hv => ?_, fun hzero => ?_⟩
  · obtain ⟨j, rfl, hj, heq⟩ := hsame v hv
    obtain ⟨links', data', hread', hfit⟩ := fitsAt_of_tree h34 htree hj
    rw [← heq, hread] at hread'
    obtain ⟨rfl, -⟩ := Prod.mk.inj (Option.some.inj hread')
    rw [← heq] at hfit
    exact hfit
  · obtain ⟨j, hj, -, heq⟩ := hsame 0 hzero
    obtain rfl : j = 0 := (Int.ofNat_inj.1 hj).symm
    obtain ⟨links', data', hread', hannounced⟩ := announces_of_tree (by omega) hpad hset.configured hlen hd.1 htree
    rw [← heq, hread] at hread'
    obtain ⟨-, rfl⟩ := Prod.mk.inj (Option.some.inj hread')
    exact hannounced

omit hd

omit hset

/-! ### The end of a download -/

/-- The root was reported as added: the blocks of its tree are stored, and all fit. -/
structure Accepted (cfg : BitswapConfig) (blocks : BlockMap) (root : Root) (tag : BitswapDataTag) (s : BitswapState) : Prop where
  updates : s.resourceUpdates = [(.added, root)]
  idle : ∀ c : Cid, s.nodeDownloadParams[c]? = none
  tree : ∃ dataLen, Announces cfg tag blocks root dataLen ∧ AllFit cfg blocks root dataLen ∧
    ∀ i, i < blockCount cfg dataLen → s.storage (label cfg blocks root i) = blocks (label cfg blocks root i)

/-- The root was reported as broken, and there are no data to accept. -/
structure Rejected (cfg : BitswapConfig) (hash : Bytes → BitswapBlockLink) (root : Root) (tag : BitswapDataTag)
    (conf : BitswapDataConfig) (s : BitswapState) : Prop where
  broken : (.broken, root) ∈ s.resourceUpdates
  notAdded : ∀ r, (.added, r) ∉ s.resourceUpdates
  noState : ∀ r : Root, s.rootDownloadStates[r]? = none
  refused : ∀ d, ¬ EncodedData cfg hash tag conf root d

/-- **With nothing pending all nodes are resolved.** -/
theorem Progress.allFit (h : Progress cfg blocks root tag dataLen resolved s) (hm : 34 < cfg.maxBlockSize)
    (hdone : ∀ c v, ¬ s.nodeDownloadParams.Has c root v) :
    ∀ i, i < blockCount cfg dataLen → Fitting cfg blocks root dataLen s i := by
  have hall : ∀ i, i < blockCount cfg dataLen → resolved i := by
    intro i
    induction i using Nat.strong_induction_on with
    | _ i ih =>
      intro hi
      by_cases hzero : i = 0
      · rw [hzero]
        exact h.first
      · obtain ⟨p, t, hp, ht, hchild⟩ := exists_parent (linksPerBlock_pos hm) (Nat.pos_of_ne_zero hzero) hi
        rw [firstChild_eq (Nat.zero_lt_of_lt ht)] at hchild
        rw [hchild]
        exact (h.children p t (ih p hp (hp.trans hi)) ht).resolve_right (hdone _ _)
  exact fun i hi => h.fits i (hall i hi)

/-- **The root is reported as added** when its counter is zero, and the download goes on otherwise. -/
theorem Progress.reportAdded (h : Progress cfg blocks root tag dataLen resolved s)
    (hm : 34 < cfg.maxBlockSize) (hfiled : Filed s) (hnil : s.nodeDownloadParams.NoNil) :
    Progress cfg blocks root tag dataLen resolved (reportAdded noFaults s root) ∨
      Accepted cfg blocks root tag (reportAdded noFaults s root) := by
  obtain ⟨st, hst, -⟩ := h.state
  by_cases hzero : st.remainingNodeCounter = 0
  · refine .inr ?_
    have hdone : ∀ c v, ¬ s.nodeDownloadParams.Has c root v := by
      rintro c v ⟨vs, hl, -⟩
      have hlen := NestedMap.length_le_total hl
      rw [← hfiled.counter root st hst, hzero] at hlen
      exact hnil c root vs hl (List.eq_nil_of_length_eq_zero (by omega))
    have hall := h.allFit hm hdone
    have hfiled' : Filed (Bitswap.reportAdded noFaults s root) := hfiled.reportAdded root
    have hset : ∃ s₁, (setStatus noFaults s root .Full).getD s = s₁ ∧ s₁.storage = s.storage ∧
        s₁.resourceUpdates = s.resourceUpdates := by
      refine ⟨_, rfl, ?_⟩
      unfold setStatus
      split
      · exact ⟨rfl, rfl⟩
      · exact ⟨rfl, rfl⟩
    obtain ⟨s₁, hs₁, hstorage, hupdates⟩ := hset
    have heq : Bitswap.reportAdded noFaults s root = sendResourceUpdate (clearRootDownloadState s₁ root) .added root := by
      unfold Bitswap.reportAdded
      rw [hst]
      dsimp only
      rw [if_pos hzero, hs₁]
    have hstored : (Bitswap.reportAdded noFaults s root).storage = s.storage := by
      rw [heq, ← hstorage]
      exact storage_clear
    refine ⟨?_, fun c => ?_, dataLen, h.announces, fun i hi => (hall i hi).fits, fun i hi => ?_⟩
    · rw [heq]
      unfold sendResourceUpdate
      dsimp only
      rw [updates_clear, hupdates, h.quiet]
    · -- nothing can be pending for a root without a state
      cases hc : (Bitswap.reportAdded noFaults s root).nodeDownloadParams[c]? with
      | none => rfl
      | some inner =>
        obtain ⟨r, hr⟩ := hfiled'.noEmpty c inner hc
        obtain ⟨vs, hvs⟩ := Option.isSome_iff_exists.1 (ExtTreeMap.mem_iff_isSome_getElem?.1 hr)
        have hl := (NestedMap.lookup_eq_some_of_getElem? (l := r) hc).trans hvs
        obtain ⟨st', hst'⟩ := exists_of_mem (hfiled'.states c r vs hl)
        obtain ⟨hold, hne⟩ := of_states_reportAdded hst'
        obtain rfl := h.only r (mem_of_getElem? hold)
        rw [hst] at hold
        obtain rfl := Option.some.inj hold
        exact absurd hzero (hne rfl)
    · rw [hstored]
      exact (hall i hi).stored
  · rw [reportAdded_of_ne hst hzero]
    exact .inl h

/-! ### One block of a download -/

/-- A download that goes on. -/
def Going (cfg : BitswapConfig) (blocks : BlockMap) (root : Root) (tag : BitswapDataTag) (s : BitswapState) : Prop :=
  Waiting blocks root tag s ∨ ∃ dataLen resolved, Progress cfg blocks root tag dataLen resolved s

theorem Going.downloads (h : Going cfg blocks root tag s) : Downloads blocks root s := by
  rcases h with h | ⟨_, _, h⟩
  · exact h.toDownloads
  · exact h.toDownloads

theorem Going.state (h : Going cfg blocks root tag s) : ∃ st, s.rootDownloadStates[root]? = some st := by
  rcases h with h | ⟨_, _, h⟩
  · obtain ⟨st, hst, -⟩ := h.state
    exact ⟨st, hst⟩
  · obtain ⟨st, hst, -⟩ := h.state
    exact ⟨st, hst⟩

variable (hblock : blocks block.cid = some block.rawData) {work : List Block} {gone : List Root}

include hblock

theorem storage_store {c : Cid} :
    (storeDownloadedBlock noFaults s block).storage c = if c = block.cid then blocks c else s.storage c := by
  have hstorage : (storeDownloadedBlock noFaults s block).storage =
      Function.update s.storage block.cid (some block.rawData) := rfl
  rw [hstorage, Function.update_apply]
  split
  · rename_i hc
    rw [hc, hblock]
  · rfl

theorem Downloads.store (h : Downloads blocks root s) :
    Downloads blocks root (storeDownloadedBlock noFaults s block) where
  stored := by
    intro c b hb
    rw [storage_store hblock] at hb
    split at hb
    · exact hb
    · exact h.stored c b hb
  only := h.only
  quiet := h.quiet

theorem Going.store (h : Going cfg blocks root tag s) :
    Going cfg blocks root tag (storeDownloadedBlock noFaults s block) := by
  rcases h with h | ⟨dataLen, resolved, h⟩
  · exact .inl ⟨h.toDownloads.store hblock, h.state, h.pending⟩
  · refine .inr ⟨dataLen, resolved, h.toDownloads.store hblock, h.state, h.announces, h.first, fun i hi => ?_, h.children,
      h.pending⟩
    obtain ⟨hreached, hfits, hstored⟩ := h.fits i hi
    refine ⟨hreached, hfits, ?_⟩
    rw [storage_store hblock, hstored, ite_self]

theorem Accepted.store (h : Accepted cfg blocks root tag s) :
    Accepted cfg blocks root tag (storeDownloadedBlock noFaults s block) where
  updates := h.updates
  idle := h.idle
  tree := by
    obtain ⟨dataLen, hannounces, hfit, hstored⟩ := h.tree
    refine ⟨dataLen, hannounces, hfit, fun i hi => ?_⟩
    rw [storage_store hblock, hstored i hi, ite_self]

omit hblock

theorem Going.pending_root (h : Going cfg blocks root tag s) (hfiled : Filed s)
    (hps : s.nodeDownloadParams[block.cid]? = some oldPs) :
    (∀ r, r ∈ oldPs → r = root) ∧ ∃ ixs, oldPs[root]? = some ixs := by
  have honly : ∀ r, r ∈ oldPs → r = root := by
    intro r hr
    obtain ⟨vs, hvs⟩ := Option.isSome_iff_exists.1 (ExtTreeMap.mem_iff_isSome_getElem?.1 hr)
    exact h.downloads.only r (hfiled.states block.cid r vs ((NestedMap.lookup_eq_some_of_getElem? hps).trans hvs))
  refine ⟨honly, ?_⟩
  obtain ⟨r, hr⟩ := hfiled.noEmpty block.cid oldPs hps
  obtain rfl := honly r hr
  exact Option.isSome_iff_exists.1 (ExtTreeMap.mem_iff_isSome_getElem?.1 hr)

/-- The state after the loop and the requests, of which only what the download looks at matters. -/
structure AfterLoop (cfg : BitswapConfig) (order : MapOrder) (block : Block) (oldPs : ExtTreeMap Root (List NodeIndex))
    (s s₁ : BitswapState) : Prop where
  params : s₁.nodeDownloadParams = (childLoop cfg order noFaults block s oldPs).bs.nodeDownloadParams
  states : s₁.rootDownloadStates = (childLoop cfg order noFaults block s oldPs).bs.rootDownloadStates
  storage : s₁.storage = s.storage
  updates : s₁.resourceUpdates = s.resourceUpdates

include hset in
/-- **A pending block of a download** fits all its indices, and they are resolved; or it does not, and there
are no data to accept. -/
theorem Going.check (h : Going cfg blocks root tag s) (hfiled : Filed s)
    (hnil : s.nodeDownloadParams.NoNil) (hps : s.nodeDownloadParams[block.cid]? = some oldPs)
    (horder : OrderFits cfg order block s) (hblock : blocks block.cid = some block.rawData)
    (hstored : s.storage block.cid = some block.rawData) :
    ((processDownloadedBlockStep cfg oldPs block s.rootDownloadStates).malformed = [] ∧
      ∀ s₁, AfterLoop cfg order block oldPs s s₁ → ∃ dataLen resolved, Progress cfg blocks root tag dataLen resolved s₁) ∨
    ((processDownloadedBlockStep cfg oldPs block s.rootDownloadStates).malformed = [root] ∧
      ∀ d, ¬ EncodedData cfg hash tag conf root d) := by
  obtain ⟨honly, ixs, hix⟩ := h.pending_root hfiled hps
  have hlookup := (NestedMap.lookup_eq_some_of_getElem? (l := root) hps).trans hix
  have hne : ixs ≠ [] := hnil block.cid root ixs hlookup
  have hhas : ∀ v ∈ ixs, s.nodeDownloadParams.Has block.cid root v := fun v hv => ⟨ixs, hlookup, hv⟩
  rcases h with h | ⟨dataLen, resolved, h⟩
  · obtain ⟨st, hst, htag⟩ := h.state
    have hzero : ∀ v ∈ ixs, v = 0 := fun v hv => (h.pending _ _ (hhas v hv)).2
    obtain ⟨v₀, hv₀⟩ := List.exists_mem_of_ne_nil ixs hne
    have hcid := (h.pending _ _ (hhas v₀ hv₀)).1
    have hmem : (0 : NodeIndex) ∈ ixs := by
      rw [← hzero v₀ hv₀]
      exact hv₀
    have hat : ∀ (dataLen : Nat), ∀ v ∈ ixs, ∃ j : Nat, v = (j : Int) ∧ IsReached cfg blocks root dataLen j ∧
        block.cid = label cfg blocks root j := by
      intro dataLen v hv
      refine ⟨0, hzero v hv, .root, ?_⟩
      rw [hcid, label, labelAt_zero]
    cases hread : readBitswapBlock block.rawData with
    | none =>
      refine .inr ⟨malformed_of_unreadable honly hix hread, fun d hd => ?_⟩
      obtain ⟨links, data, hread', -⟩ := fits_of_encoded hset hd hblock hne (hat _)
      rw [hread] at hread'
      cases hread'
    | some read =>
      obtain ⟨links, data⟩ := read
      have hmalformed := malformed_eq cfg honly hix hst hread
      cases hlen : readRootLength cfg tag data with
      | none =>
        refine .inr ⟨?_, fun d hd => ?_⟩
        · rw [hmalformed]
          unfold checkRoot
          rw [if_pos hmem, htag, hlen]
          rfl
        · obtain ⟨links', data', hread', -, hannounced⟩ := fits_of_encoded hset hd hblock hne (hat _)
          rw [hread] at hread'
          obtain ⟨-, rfl⟩ := Prod.mk.inj (Option.some.inj hread')
          rw [hannounced hmem] at hlen
          cases hlen
      | some dataLen =>
        have hschema : schemaFor cfg st data ixs = some (mkBitswapBlockSchemaLengthPrefixed cfg.maxBlockSize dataLen) := by
          unfold schemaFor
          rw [if_pos hmem, htag, hlen, Option.map_some]
        rw [(checkRoot_fits _ _ hschema).1] at hmalformed
        by_cases hfit : ixs.all (fitsAt (mkBitswapBlockSchemaLengthPrefixed cfg.maxBlockSize dataLen) block.rawData.length
            links.length) = true
        · have hclean : (processDownloadedBlockStep cfg oldPs block s.rootDownloadStates).malformed = [] := by
            rw [hmalformed, hfit]
            rfl
          have hannounces : Announces cfg tag blocks root dataLen := ⟨block.rawData, links, data, by rw [← hcid, hblock], hread, hlen⟩
          refine .inl ⟨hclean, fun s₁ h₁ => ⟨dataLen, _, progress_of_fits hset h.toDownloads hps hix hst horder hread hannounces
            hschema hfit hclean hblock hstored (hat _) (fun _ => False) (fun i hi => hi.elim) (.inr hmem)
            (fun i t hi => hi.elim) (fun c v hc hv => absurd ((h.pending c v hv).1.trans hcid.symm) hc) h₁.params h₁.states
            h₁.storage h₁.updates⟩⟩
        · refine .inr ⟨?_, fun d hd => ?_⟩
          · rw [hmalformed, Bool.not_eq_true _ |>.mp hfit]
            rfl
          · obtain ⟨links', data', hread', hfit', hannounced⟩ := fits_of_encoded hset hd hblock hne (hat _)
            rw [hread] at hread'
            obtain ⟨rfl, rfl⟩ := Prod.mk.inj (Option.some.inj hread')
            rw [hannounced hmem] at hlen
            rw [Option.some.inj hlen] at hfit'
            exact hfit hfit'
  · obtain ⟨st, hst, hschema⟩ := h.state
    have hat : ∀ v ∈ ixs, ∃ j : Nat, v = (j : Int) ∧ IsReached cfg blocks root dataLen j ∧
        block.cid = label cfg blocks root j := by
      intro v hv
      obtain ⟨j, hj, -, hreached, hlabel⟩ := h.pending _ _ (hhas v hv)
      exact ⟨j, hj, hreached, hlabel⟩
    have hnotroot : (0 : NodeIndex) ∉ ixs := by
      intro hzero
      obtain ⟨j, hj, hpos, -⟩ := h.pending _ _ (hhas 0 hzero)
      exact absurd (Int.ofNat_inj.1 hj) hpos.ne
    have hencoded : ∀ d, EncodedData cfg hash tag conf root d →
        ∃ links data, readBitswapBlock block.rawData = some (links, data) ∧
          ixs.all (fitsAt (mkBitswapBlockSchemaLengthPrefixed cfg.maxBlockSize dataLen) block.rawData.length links.length) =
            true := by
      intro d hd
      have hlen := announced_eq hset hd h.announces
      rw [hlen] at hat
      obtain ⟨links, data, hread, hfit, -⟩ := fits_of_encoded hset hd hblock hne hat
      rw [hlen]
      exact ⟨links, data, hread, hfit⟩
    cases hread : readBitswapBlock block.rawData with
    | none =>
      refine .inr ⟨malformed_of_unreadable honly hix hread, fun d hd => ?_⟩
      obtain ⟨links, data, hread', -⟩ := hencoded d hd
      rw [hread] at hread'
      cases hread'
    | some read =>
      obtain ⟨links, data⟩ := read
      have hmalformed := malformed_eq cfg honly hix hst hread
      have hsch : schemaFor cfg st data ixs = some (mkBitswapBlockSchemaLengthPrefixed cfg.maxBlockSize dataLen) := by
        unfold schemaFor
        rw [if_neg hnotroot, hschema]
      rw [(checkRoot_fits _ _ hsch).1] at hmalformed
      by_cases hfit : ixs.all (fitsAt (mkBitswapBlockSchemaLengthPrefixed cfg.maxBlockSize dataLen) block.rawData.length
          links.length) = true
      · have hclean : (processDownloadedBlockStep cfg oldPs block s.rootDownloadStates).malformed = [] := by
          rw [hmalformed, hfit]
          rfl
        refine .inl ⟨hclean, fun s₁ h₁ => ⟨dataLen, _, progress_of_fits hset h.toDownloads hps hix hst horder hread h.announces
          hsch hfit hclean hblock hstored hat resolved h.fits (.inl h.first) h.children (fun c v _ hv => h.pending c v hv) h₁.params
          h₁.states h₁.storage h₁.updates⟩⟩
      · refine .inr ⟨?_, fun d hd => ?_⟩
        · rw [hmalformed, Bool.not_eq_true _ |>.mp hfit]
          rfl
        · obtain ⟨links', data', hread', hfit'⟩ := hencoded d hd
          rw [hread] at hread'
          obtain ⟨rfl, -⟩ := Prod.mk.inj (Option.some.inj hread')
          exact hfit hfit'

theorem noNil_foldl_reportBroken (hfiled : Filed s) (hnil : s.nodeDownloadParams.NoNil) :
    (gone.foldl reportBroken s).nodeDownloadParams.NoNil := by
  induction gone generalizing s with
  | nil => exact hnil
  | cons x gone ih => exact ih (hfiled.reportBroken x) (noNil_clear hfiled hnil)

theorem noNil_childLoop (hfiled : Filed s) (hps : s.nodeDownloadParams[block.cid]? = some oldPs)
    (hnil : s.nodeDownloadParams.NoNil) : (childLoop cfg order faults block s oldPs).bs.nodeDownloadParams.NoNil := by
  have hfold : ∀ (links : List BitswapBlockLink) (l : ChildLoop), l.bs.nodeDownloadParams.NoNil →
      (links.foldl (addChild faults (processDownloadedBlockStep cfg oldPs block s.rootDownloadStates).newParams
        order.roots) l).bs.nodeDownloadParams.NoNil := by
    intro links
    induction links with
    | nil => exact fun l hl => hl
    | cons link links ih =>
      intro l hl
      refine ih _ ?_
      rw [addChild_bs]
      exact noNil_addPendings hl fun p hp => noNil_newParams link p.1 p.2 (mem_rootsOf.1 hp).2
  unfold childLoop
  refine hfold order.links _ (noNil_foldl_reportBroken (hfiled.takeIndices hps) ?_)
  intro c r vs hl
  have hold : NestedMap.lookup (s.nodeDownloadParams.erase block.cid) c r = some vs := hl
  by_cases hc : c = block.cid
  · rw [hc, NestedMap.lookup_erase_self] at hold
    cases hold
  · rw [NestedMap.lookup_erase_of_ne hc] at hold
    exact hnil c r vs hold

theorem requestChildren_env {l : ChildLoop} (h : requestChildren faults l = some s') :
    s'.nodeDownloadParams = l.bs.nodeDownloadParams ∧ s'.rootDownloadStates = l.bs.rootDownloadStates ∧
      s'.storage = l.bs.storage ∧ s'.resourceUpdates = l.bs.resourceUpdates ∧ s'.statuses = l.bs.statuses := by
  unfold requestChildren at h
  split at h
  · obtain rfl := Option.some.inj h
    exact ⟨rfl, rfl, rfl, rfl, rfl⟩
  · split at h
    · cases h
    · obtain rfl := Option.some.inj h
      split <;> exact ⟨rfl, rfl, rfl, rfl, rfl⟩

include hset in
/-- **A block that fits** leaves the download going, or done. -/
theorem Going.processPending (h : Going cfg blocks root tag s)
    (hbook : Bookkeeping s) (hps : s.nodeDownloadParams[block.cid]? = some oldPs) (horder : OrderFits cfg order block s)
    (hnil : s.nodeDownloadParams.NoNil) (hclean : ¬ FitsThenNot cfg s block)
    (hmalformed : (processDownloadedBlockStep cfg oldPs block s.rootDownloadStates).malformed = [])
    (hfits : ∀ s₁, AfterLoop cfg order block oldPs s s₁ → ∃ dataLen resolved, Progress cfg blocks root tag dataLen resolved s₁)
    (hstep : processPending cfg order noFaults block s oldPs = some (s', work)) :
    (Going cfg blocks root tag s' ∨ Accepted cfg blocks root tag s') ∧ ∀ b ∈ work, blocks b.cid = some b.rawData := by
  obtain ⟨hm, -⟩ := hset.maxBlockSize_bound
  obtain ⟨honly, ixs, hix⟩ := h.pending_root hbook.toFiled hps
  have hfiled := (hbook.toFiled.childLoop noFaults hclean hps horder).1
  unfold Bitswap.processPending at hstep
  dsimp only at hstep
  obtain ⟨s₁, hs₁, heq⟩ := Option.map_eq_some_iff.1 hstep
  rw [toList_eq_singleton honly hix] at heq
  obtain ⟨rfl, rfl⟩ := Prod.mk.inj heq
  obtain ⟨hparams, hstates, hstorage, hupdates, -⟩ := requestChildren_env hs₁
  have hafter : AfterLoop cfg order block oldPs s s₁ :=
    ⟨hparams, hstates, hstorage.trans storage_childLoop, hupdates.trans (updates_childLoop hmalformed)⟩
  obtain ⟨dataLen, resolved, hprogress⟩ := hfits s₁ hafter
  have hnil₂ : s₁.nodeDownloadParams.NoNil := by
    rw [hparams]
    exact noNil_childLoop hbook.toFiled hps hnil
  refine ⟨?_, fun b hb => ?_⟩
  · rcases hprogress.reportAdded (by omega) (hfiled.congr hparams hstates) hnil₂ with hgoing | haccepted
    · exact .inl (.inr ⟨dataLen, resolved, hgoing⟩)
    · exact .inr haccepted
  · have hchecked : (checkBlock cfg s block oldPs).storage = s.storage := by
      unfold checkBlock
      dsimp only
      rw [hmalformed]
      rfl
    rcases mem_blocksToProcess hb with hold | hstored
    · cases hold
    · dsimp only at hstored
      rw [hchecked] at hstored
      exact h.downloads.stored _ _ hstored

/-- **A root that was rejected stays so** whatever block is processed. -/
theorem Rejected.foldl_reportBroken (h : Rejected cfg hash root tag conf s) :
    Rejected cfg hash root tag conf (gone.foldl reportBroken s) := by
  induction gone generalizing s with
  | nil => exact h
  | cons x gone ih =>
    have hclear : clearRootDownloadState s x = s := clear_of_none (h.noState x)
    refine ih ?_
    unfold reportBroken
    rw [hclear]
    refine ⟨List.mem_cons_of_mem _ h.broken, fun r hr => ?_, h.noState, h.refused⟩
    rcases List.mem_cons.1 hr with heq | hr
    · cases heq
    · exact h.notAdded r hr

theorem Rejected.checkBlock (h : Rejected cfg hash root tag conf s) :
    Rejected cfg hash root tag conf (checkBlock cfg s block oldPs) := by
  refine Rejected.foldl_reportBroken ⟨h.broken, h.notAdded, fun r => ?_, h.refused⟩
  unfold takeIndices
  dsimp only
  rw [getElem?_countDown, h.noState r, Option.map_none]

theorem Going.rejected (h : Going cfg blocks root tag s)
    (hmalformed : (processDownloadedBlockStep cfg oldPs block s.rootDownloadStates).malformed = [root])
    (hrefused : ∀ d, ¬ EncodedData cfg hash tag conf root d) :
    Rejected cfg hash root tag conf (Bitswap.checkBlock cfg s block oldPs) := by
  have hquiet := h.downloads.quiet
  unfold Bitswap.checkBlock
  dsimp only
  rw [hmalformed, List.foldl_cons, List.foldl_nil]
  have hupdates : (reportBroken (takeIndices s block.cid oldPs
      (processDownloadedBlockStep cfg oldPs block s.rootDownloadStates)) root).resourceUpdates = [(.broken, root)] := by
    unfold reportBroken sendResourceUpdate
    dsimp only
    rw [updates_clear]
    unfold takeIndices
    dsimp only
    rw [hquiet]
  refine ⟨?_, fun r hr => ?_, fun r => ?_, hrefused⟩
  · rw [hupdates]
    exact List.mem_cons_self
  · rw [hupdates] at hr
    cases List.mem_singleton.1 hr
  · unfold reportBroken sendResourceUpdate
    dsimp only
    by_cases hr : r = root
    · rw [hr, states_clear_self]
    · rw [states_clear_of_ne hr]
      unfold takeIndices
      dsimp only
      rw [getElem?_countDown]
      cases hst : s.rootDownloadStates[r]? with
      | none => rfl
      | some st => exact absurd (h.downloads.only r (mem_of_getElem? hst)) hr

theorem Rejected.childLoop (order : MapOrder) (h : Rejected cfg hash root tag conf (Bitswap.checkBlock cfg s block oldPs)) :
    Rejected cfg hash root tag conf (childLoop cfg order noFaults block s oldPs).bs := by
  unfold Bitswap.childLoop
  dsimp only
  refine ⟨?_, fun r => ?_, fun r => ?_, h.refused⟩
  · rw [updates_foldl_addChild]
    exact h.broken
  · rw [updates_foldl_addChild]
    exact h.notAdded r
  · have hstates := states_foldl_addChild noFaults (processDownloadedBlockStep cfg oldPs block s.rootDownloadStates).newParams
      order.roots order.links
      { bs := Bitswap.checkBlock cfg s block oldPs, blocksToProcess := [], toDownload := [], someRootState := none } r
      (f := fun _ => ()) fun _ _ _ => rfl
    dsimp only at hstates
    rw [h.noState r, Option.map_none, Option.map_eq_none_iff] at hstates
    exact hstates

theorem Rejected.processPending (h : Rejected cfg hash root tag conf (Bitswap.checkBlock cfg s block oldPs))
    (hstep : processPending cfg order noFaults block s oldPs = some (s', work)) : Rejected cfg hash root tag conf s' := by
  have hloop := h.childLoop order
  unfold Bitswap.processPending at hstep
  dsimp only at hstep
  obtain ⟨s₁, hs₁, heq⟩ := Option.map_eq_some_iff.1 hstep
  obtain ⟨rfl, rfl⟩ := Prod.mk.inj heq
  obtain ⟨-, hstates, -, hupdates, -⟩ := requestChildren_env hs₁
  have hrejected : Rejected cfg hash root tag conf s₁ := by
    refine ⟨?_, fun r => ?_, fun r => ?_, hloop.refused⟩
    · rw [hupdates]
      exact hloop.broken
    · rw [hupdates]
      exact hloop.notAdded r
    · rw [hstates]
      exact hloop.noState r
  have hsame : ∀ roots : List Root, roots.foldl (Bitswap.reportAdded noFaults) s₁ = s₁ := by
    intro roots
    induction roots with
    | nil => rfl
    | cons r roots ih => rw [List.foldl_cons, reportAdded_of_none (hrejected.noState r), ih]
  rw [hsame]
  exact hrejected

theorem not_fitsThenNot_of_clean (hclean : ∀ oldPs, s.nodeDownloadParams[block.cid]? = some oldPs →
      (processDownloadedBlockStep cfg oldPs block s.rootDownloadStates).malformed = []) : ¬ FitsThenNot cfg s block := by
  intro h
  obtain ⟨oldPs, links, data, r, rp, ix, ixs, schema, hps, hread, -, hix, hrp, hschema, -, ix', hix', hnot⟩ := h
  have hnil := hclean oldPs hps
  have hcheck : (checkFor cfg s.rootDownloadStates block.rawData.length links.length data r (ix :: ixs)).malformed = true := by
    unfold checkFor
    rw [hrp]
    dsimp only
    rw [(checkRoot_fits _ _ hschema).1, Bool.not_eq_true', List.all_eq_false]
    exact ⟨ix', List.mem_cons_of_mem _ hix', by rw [hnot]; exact Bool.false_ne_true⟩
  have hmem : r ∈ (processDownloadedBlockStep cfg oldPs block s.rootDownloadStates).malformed := by
    unfold processDownloadedBlockStep
    rw [hread]
    refine List.mem_map.2 ⟨(r, ix :: ixs), List.mem_filter.2 ⟨?_, hcheck⟩, rfl⟩
    exact ExtTreeMap.mem_toList_iff_getElem?_eq_some.2 hix
  rw [hnil] at hmem
  cases hmem

/-- The state after the loop over the children, where a block is pending. -/
def loopState (cfg : BitswapConfig) (order : MapOrder) (faults : Faults) (block : Block) (s : BitswapState) : BitswapState :=
  let s := storeDownloadedBlock faults s block
  (childLoop cfg order faults block s ((s.nodeDownloadParams[block.cid]?).getD ∅)).bs

include hset in
/-- **A block of a download is processed**: it is malformed for no root, and the download goes on or is done;
or the root is rejected, be it that the step panics afterwards. -/
theorem Going.process (h : Going cfg blocks root tag s)
    (hbook : Bookkeeping s) (hnil : s.nodeDownloadParams.NoNil) (hblock : blocks block.cid = some block.rawData)
    (horder : OrderFits cfg order block s) : ((∀ oldPs, s.nodeDownloadParams[block.cid]? = some oldPs →
        (processDownloadedBlockStep cfg oldPs block s.rootDownloadStates).malformed = []) ∧
      ∀ s' work, processDownloadedBlock cfg order noFaults block s = some (s', work) →
        (Going cfg blocks root tag s' ∨ Accepted cfg blocks root tag s') ∧ ∀ b ∈ work, blocks b.cid = some b.rawData) ∨
    (Rejected cfg hash root tag conf (loopState cfg order noFaults block s) ∧
      ∀ s' work, processDownloadedBlock cfg order noFaults block s = some (s', work) → Rejected cfg hash root tag conf s') := by
  have hgoing := h.store hblock
  have hbook₀ : Bookkeeping (storeDownloadedBlock noFaults s block) := hbook.congr rfl rfl
  have hstored : (storeDownloadedBlock noFaults s block).storage block.cid = some block.rawData := by
    rw [storage_store hblock, if_pos rfl, hblock]
  cases hps : s.nodeDownloadParams[block.cid]? with
  | none =>
    have hps₀ : (storeDownloadedBlock noFaults s block).nodeDownloadParams[block.cid]? = none := hps
    refine .inl ⟨fun oldPs hold => absurd hold.symm (Option.some_ne_none oldPs), fun s' work hstep => ?_⟩
    unfold processDownloadedBlock at hstep
    dsimp only at hstep
    rw [hps₀] at hstep
    obtain ⟨rfl, rfl⟩ := Prod.mk.inj (Option.some.inj hstep)
    exact ⟨.inl hgoing, fun b hb => absurd hb List.not_mem_nil⟩
  | some oldPs =>
    have hps₀ : (storeDownloadedBlock noFaults s block).nodeDownloadParams[block.cid]? = some oldPs := hps
    have horder₀ : OrderFits cfg order block (storeDownloadedBlock noFaults s block) := horder
    have hprocess : processDownloadedBlock cfg order noFaults block s =
        Bitswap.processPending cfg order noFaults block (storeDownloadedBlock noFaults s block) oldPs := by
      unfold processDownloadedBlock
      dsimp only
      rw [hps₀]
    rcases hgoing.check hset hbook₀.toFiled hnil hps₀ horder₀ hblock hstored with ⟨hmalformed, hfits⟩ | ⟨hmalformed, hrefused⟩
    · have hclean : ∀ oldPs', s.nodeDownloadParams[block.cid]? = some oldPs' →
          (processDownloadedBlockStep cfg oldPs' block s.rootDownloadStates).malformed = [] := by
        intro oldPs' hps'
        rw [hps] at hps'
        obtain rfl := Option.some.inj hps'
        exact hmalformed
      refine .inl ⟨fun oldPs' hps' => ?_, fun s' work hstep => ?_⟩
      · obtain rfl := Option.some.inj hps'
        exact hmalformed
      · rw [hprocess] at hstep
        exact hgoing.processPending hset hbook₀ hps₀ horder₀ hnil (not_fitsThenNot_of_clean hclean) hmalformed hfits hstep
    · have hchecked := hgoing.rejected hmalformed hrefused
      refine .inr ⟨?_, fun s' work hstep => ?_⟩
      · unfold loopState
        dsimp only
        rw [hps₀]
        exact hchecked.childLoop order
      · rw [hprocess] at hstep
        exact hchecked.processPending hstep

theorem Rejected.process (order : MapOrder) (block : Block) (h : Rejected cfg hash root tag conf s) :
    Rejected cfg hash root tag conf (loopState cfg order noFaults block s) ∧
      ∀ s' work, processDownloadedBlock cfg order noFaults block s = some (s', work) → Rejected cfg hash root tag conf s' := by
  have hstored : Rejected cfg hash root tag conf (storeDownloadedBlock noFaults s block) :=
    ⟨h.broken, h.notAdded, h.noState, h.refused⟩
  refine ⟨hstored.checkBlock.childLoop order, fun s' work hstep => ?_⟩
  unfold processDownloadedBlock at hstep
  dsimp only at hstep
  split at hstep
  · obtain ⟨rfl, -⟩ := Prod.mk.inj (Option.some.inj hstep)
    exact hstored
  · exact hstored.checkBlock.processPending hstep

theorem Accepted.process (cfg : BitswapConfig) (order : MapOrder) (h : Accepted cfg blocks root tag s) (hblock : blocks block.cid = some block.rawData) :
    ∃ s', processDownloadedBlock cfg order noFaults block s = some (s', []) ∧ Accepted cfg blocks root tag s' := by
  have hstored := h.store hblock
  refine ⟨_, ?_, hstored⟩
  unfold processDownloadedBlock
  dsimp only
  rw [hstored.idle]

end OneRoot

/-! ### Runs of one download -/

/-- A block of the store arrives, or a stored one is processed. -/
def Delivers (m : Machine) : Event → Prop
  | .arrive block order faults =>
    m.work = [] ∧ blocks block.cid = some block.rawData ∧ OrderFits cfg order block m.bs ∧ faults = noFaults
  | .resume order faults => ∃ block rest, m.work = block :: rest ∧ OrderFits cfg order block m.bs ∧ faults = noFaults
  | _ => False

/-- The download of a root that is not recorded as complete or being deleted: from the command on, blocks of
a store arrive in any order, some of them stored before. -/
inductive DownloadOf (cfg : BitswapConfig) (blocks : BlockMap) (root : Root) (tag : BitswapDataTag) : Machine → Prop
  | start {m m'} : Initial m → (∀ c b, m.bs.storage c = some b → blocks c = some b) →
      m.bs.statuses root = none ∨ m.bs.statuses root = some .Partial → m.bs.resourceUpdates = [] →
      step cfg m (.download root tag noFaults) = some m' → DownloadOf cfg blocks root tag m'
  | step {m m' e} : DownloadOf cfg blocks root tag m → Delivers cfg blocks m e → Bitswap.step cfg m e = some m' →
      DownloadOf cfg blocks root tag m'

/-- The state at which a step panics. -/
def panicState (m : Machine) : Event → BitswapState
  | .arrive block order faults => loopState cfg order faults block (answerRequests m.bs block.cid)
  | .resume order faults =>
    match m.work with
    | [] => m.bs
    | block :: _ => loopState cfg order faults block m.bs
  | _ => m.bs

/-- How far a download comes: to some state, or to the end, with every request answered or by a panic. -/
inductive Outcome (cfg : BitswapConfig) (blocks : BlockMap) (root : Root) (tag : BitswapDataTag) : BitswapState → Bool → Prop
  | running {m} : DownloadOf cfg blocks root tag m → Outcome cfg blocks root tag m.bs false
  | finished {m} : DownloadOf cfg blocks root tag m → m.work = [] → m.bs.requests = [] → Outcome cfg blocks root tag m.bs true
  | panicked {m e} : DownloadOf cfg blocks root tag m → Delivers cfg blocks m e → step cfg m e = none →
      Outcome cfg blocks root tag (panicState cfg m e) true

section Runs

variable {cfg : BitswapConfig} {hash : Bytes → BitswapBlockLink} {blocks : BlockMap} {root : Root} {m m' : Machine}
  {e : Event}

/-- The blocks to process are of the store. -/
def Sourced (blocks : BlockMap) (m : Machine) : Prop := ∀ b ∈ m.work, blocks b.cid = some b.rawData

/-- Where a download stands: it goes on, with what is pending supplied, or the root was added or rejected. -/
inductive Stage (cfg : BitswapConfig) (hash : Bytes → BitswapBlockLink) (blocks : BlockMap) (root : Root)
    (tag : BitswapDataTag) (conf : BitswapDataConfig) (m : Machine) : Prop
  | going : Supplied m → Sourced blocks m → Going cfg blocks root tag m.bs → Stage cfg hash blocks root tag conf m
  | accepted : Sourced blocks m → Accepted cfg blocks root tag m.bs → Stage cfg hash blocks root tag conf m
  | rejected : Rejected cfg hash root tag conf m.bs → Stage cfg hash blocks root tag conf m

theorem Going.answer {id : Cid} (h : Going cfg blocks root tag s) : Going cfg blocks root tag (answerRequests s id) := by
  rcases h with h | ⟨dataLen, resolved, h⟩
  · exact .inl ⟨⟨h.stored, h.only, h.quiet⟩, h.state, h.pending⟩
  · exact .inr ⟨dataLen, resolved, ⟨h.stored, h.only, h.quiet⟩, h.state, h.announces, h.first,
      fun i hi => ⟨(h.fits i hi).reached, (h.fits i hi).fits, (h.fits i hi).stored⟩, h.children, h.pending⟩

theorem sourced_append {work rest : List Block} (hwork : ∀ b ∈ work, blocks b.cid = some b.rawData)
    (hrest : ∀ b ∈ rest, blocks b.cid = some b.rawData) : Sourced blocks { bs := s, work := work ++ rest } := by
  intro b hb
  rcases List.mem_append.1 hb with hb | hb
  · exact hwork b hb
  · exact hrest b hb

theorem sparesOthers_of_clean {block : Block} (h : Supplied m)
    (hclean : ∀ oldPs, m.bs.nodeDownloadParams[block.cid]? = some oldPs →
      (processDownloadedBlockStep cfg oldPs block m.bs.rootDownloadStates).malformed = []) : SparesOthers cfg m block := by
  intro oldPs hps
  rw [hclean oldPs hps]
  exact h.served.weaken fun c hc => .inr hc

/-- **A step of a download** leads to a stage again, or panics with the root rejected. -/
theorem Stage.step (hset : Setting cfg hash blocks tag conf root) (h : Stage cfg hash blocks root tag conf m)
    (hdelivers : Delivers cfg blocks m e) :
    (∀ m', Bitswap.step cfg m e = some m' → Stage cfg hash blocks root tag conf m') ∧
      (Bitswap.step cfg m e = none → Rejected cfg hash root tag conf (panicState cfg m e)) := by
  cases e with
  | download root' tag' faults => exact hdelivers.elim
  | deadline root' session => exact hdelivers.elim
  | delete root' faults => exact hdelivers.elim
  | arrive block order faults =>
    obtain ⟨hwork, hblock, horder, rfl⟩ := hdelivers
    have hnone : Bitswap.step cfg m (.arrive block order noFaults) = none ↔
        processDownloadedBlock cfg order noFaults block (answerRequests m.bs block.cid) = none := Option.map_eq_none_iff
    cases h with
    | going hsupplied hsourced hgoing =>
      have hbook : Bookkeeping (answerRequests m.bs block.cid) := hsupplied.bookkeeping.congr rfl rfl
      rcases hgoing.answer.process hset hbook hsupplied.owned.noNil hblock horder with ⟨hclean, hnext⟩ | ⟨hpanic, hnext⟩
      · have hen : Enabled hash cfg m (.arrive block order noFaults) := ⟨hwork, hset.keyed _ _ hblock, horder⟩
        have horderly : Orderly cfg m (.arrive block order noFaults) := not_fitsThenNot_of_clean hclean
        have hcareful : Careful cfg m (.arrive block order noFaults) := sparesOthers_of_clean hsupplied hclean
        refine ⟨fun m' hstep => ?_, fun hpanic => ?_⟩
        · have hsupplied' := hsupplied.step hen rfl horderly hcareful hstep
          obtain ⟨⟨s', work⟩, hproc, rfl⟩ := Option.map_eq_some_iff.1 hstep
          obtain ⟨hstage, hwork'⟩ := hnext s' work hproc
          rcases hstage with hgoing' | haccepted
          · exact .going hsupplied' (sourced_append hwork' hsourced) hgoing'
          · exact .accepted (sourced_append hwork' hsourced) haccepted
        · obtain ⟨m', hm', -⟩ := hsupplied.bookkeeping.step hen horderly
          rw [hpanic] at hm'
          cases hm'
      · refine ⟨fun m' hstep => ?_, fun _ => hpanic⟩
        obtain ⟨⟨s', work⟩, hproc, rfl⟩ := Option.map_eq_some_iff.1 hstep
        exact .rejected (hnext s' work hproc)
    | accepted hsourced haccepted =>
      have hanswer : Accepted cfg blocks root tag (answerRequests m.bs block.cid) :=
        ⟨haccepted.updates, haccepted.idle, haccepted.tree⟩
      obtain ⟨s', hproc, haccepted'⟩ := hanswer.process cfg order hblock
      refine ⟨fun m' hstep => ?_, fun hpanic => ?_⟩
      · obtain ⟨⟨s'', work⟩, hproc', rfl⟩ := Option.map_eq_some_iff.1 hstep
        rw [hproc] at hproc'
        obtain ⟨rfl, rfl⟩ := Prod.mk.inj (Option.some.inj hproc')
        exact .accepted hsourced haccepted'
      · rw [hnone, hproc] at hpanic
        cases hpanic
    | rejected hrejected =>
      have hanswer : Rejected cfg hash root tag conf (answerRequests m.bs block.cid) :=
        ⟨hrejected.broken, hrejected.notAdded, hrejected.noState, hrejected.refused⟩
      obtain ⟨hpanic, hnext⟩ := hanswer.process order block
      refine ⟨fun m' hstep => ?_, fun _ => hpanic⟩
      obtain ⟨⟨s', work⟩, hproc, rfl⟩ := Option.map_eq_some_iff.1 hstep
      exact .rejected (hnext s' work hproc)
  | resume order faults =>
    obtain ⟨block, rest, hwork, horder, rfl⟩ := hdelivers
    have hstepEq : Bitswap.step cfg m (.resume order noFaults) =
        (processDownloadedBlock cfg order noFaults block m.bs).map fun r => { bs := r.1, work := r.2 ++ rest } := by
      unfold Bitswap.step
      dsimp only
      rw [hwork]
    have hpanicEq : panicState cfg m (.resume order noFaults) = loopState cfg order noFaults block m.bs := by
      unfold panicState
      dsimp only
      rw [hwork]
    have hmem : block ∈ m.work := by
      rw [hwork]
      exact List.mem_cons_self
    have hrest : ∀ b ∈ rest, b ∈ m.work := by
      intro b hb
      rw [hwork]
      exact List.mem_cons_of_mem _ hb
    have hhead : ∀ b ∈ m.work.head?, b = block := by
      intro b hb
      rw [hwork] at hb
      exact (Option.some.inj hb).symm
    rw [hstepEq, hpanicEq]
    cases h with
    | going hsupplied hsourced hgoing =>
      rcases hgoing.process hset hsupplied.bookkeeping hsupplied.owned.noNil (hsourced block hmem) horder with
        ⟨hclean, hnext⟩ | ⟨hpanic, hnext⟩
      · have hen : Enabled hash cfg m (.resume order noFaults) := ⟨block, rest, hwork, horder⟩
        have horderly : Orderly cfg m (.resume order noFaults) := by
          intro b hb
          rw [hhead b hb]
          exact not_fitsThenNot_of_clean hclean
        have hcareful : Careful cfg m (.resume order noFaults) := by
          intro b hb
          rw [hhead b hb]
          exact sparesOthers_of_clean hsupplied hclean
        refine ⟨fun m' hstep => ?_, fun hpanic => ?_⟩
        · have hsupplied' := hsupplied.step hen rfl horderly hcareful (hstepEq.trans hstep)
          obtain ⟨⟨s', work⟩, hproc, rfl⟩ := Option.map_eq_some_iff.1 hstep
          obtain ⟨hstage, hwork'⟩ := hnext s' work hproc
          have hsourced' := sourced_append (s := s') hwork' fun b hb => hsourced b (hrest b hb)
          rcases hstage with hgoing' | haccepted
          · exact .going hsupplied' hsourced' hgoing'
          · exact .accepted hsourced' haccepted
        · obtain ⟨m', hm', -⟩ := hsupplied.bookkeeping.step hen horderly
          rw [hstepEq, hpanic] at hm'
          cases hm'
      · refine ⟨fun m' hstep => ?_, fun _ => hpanic⟩
        obtain ⟨⟨s', work⟩, hproc, rfl⟩ := Option.map_eq_some_iff.1 hstep
        exact .rejected (hnext s' work hproc)
    | accepted hsourced haccepted =>
      obtain ⟨s', hproc, haccepted'⟩ := haccepted.process cfg order (hsourced block hmem)
      rw [hproc]
      refine ⟨fun m' hstep => ?_, fun hpanic => by cases hpanic⟩
      obtain rfl := Option.some.inj hstep
      exact .accepted (fun b hb => hsourced b (hrest b hb)) haccepted'
    | rejected hrejected =>
      obtain ⟨hpanic, hnext⟩ := hrejected.process order block
      refine ⟨fun m' hstep => ?_, fun _ => hpanic⟩
      obtain ⟨⟨s', work⟩, hproc, rfl⟩ := Option.map_eq_some_iff.1 hstep
      exact .rejected (hnext s' work hproc)

theorem waiting_startDownload (hparams : s.nodeDownloadParams = ∅) (hstates : s.rootDownloadStates = ∅)
    (hstored : ∀ c b, s.storage c = some b → blocks c = some b) (hquiet : s.resourceUpdates = []) :
    Waiting blocks root tag (startDownload s root tag) := by
  refine ⟨⟨hstored, fun r hr => ?_, hquiet⟩, ?_, fun c v hv => ?_⟩
  · unfold startDownload at hr
    dsimp only at hr
    rw [ExtTreeMap.mem_insert, hstates, NestedMap.eq_of_compare_eq] at hr
    rcases hr with hr | hr
    · exact hr.symm
    · exact absurd hr ExtTreeMap.not_mem_empty
  · unfold startDownload
    dsimp only
    rw [ExtTreeMap.getElem?_insert_self]
    exact ⟨_, rfl, rfl⟩
  · unfold startDownload at hv
    dsimp only at hv
    rw [hparams, NestedMap.has_append] at hv
    rcases hv with hv | ⟨hc, -, hzero⟩
    · exact absurd hv NestedMap.not_has_empty
    · exact ⟨hc, List.mem_singleton.1 hzero⟩

variable (hset : Setting cfg hash blocks tag conf root)

include hset

/-- **A download starts** by waiting for the root block. -/
theorem Stage.start (hinit : Initial m) (hstored : ∀ c b, m.bs.storage c = some b → blocks c = some b)
    (hstatus : m.bs.statuses root = none ∨ m.bs.statuses root = some .Partial) (hquiet : m.bs.resourceUpdates = [])
    (hstep : Bitswap.step cfg m (.download root tag noFaults) = some m') : Stage cfg hash blocks root tag conf m' := by
  obtain ⟨hwork, hparams, hstates, -, -⟩ := id hinit
  have hnotPending : root ∉ m.bs.nodeDownloadParams := by
    rw [hparams]
    exact ExtTreeMap.not_mem_empty
  have hnoState : root ∉ m.bs.rootDownloadStates := by
    rw [hstates]
    exact ExtTreeMap.not_mem_empty
  have hen : Enabled hash cfg m (.download root tag noFaults) := ⟨hwork, by rw [hset.configured]; rfl⟩
  have hsupplied := (supplied_initial hinit).step hen rfl (fun h => hnoState h.1) (fun h => absurd h hnotPending) hstep
  have hallowed : setStatus noFaults m.bs root .Partial = some (withStatus m.bs root .Partial) := by
    have hnofault : noFaults.setStatus = false := rfl
    unfold setStatus
    rw [hnofault]
    rcases hstatus with hst | hst
    · rw [hst]
      rfl
    · rw [hst]
      rfl
  have hwaiting : Waiting blocks root tag (startDownload (withStatus m.bs root .Partial) root tag) :=
    waiting_startDownload hparams hstates hstored hquiet
  have hview : noFaults.view root = false := rfl
  have hrequest : noFaults.request = false := rfl
  obtain rfl := Option.some.inj hstep
  unfold kickStartRootDownload at hsupplied ⊢
  rw [if_neg hnotPending, hallowed] at hsupplied ⊢
  dsimp only at hsupplied ⊢
  rw [hview, if_neg (by simp), hwork] at hsupplied ⊢
  cases hroot : m.bs.storage root with
  | some bytes =>
    have hroot₁ : (startDownload (withStatus m.bs root .Partial) root tag).storage root = some bytes := hroot
    rw [hroot₁] at hsupplied ⊢
    refine .going hsupplied (fun b hb => ?_) (.inl ⟨⟨hwaiting.stored, hwaiting.only, hwaiting.quiet⟩, hwaiting.state,
      hwaiting.pending⟩)
    obtain rfl := List.mem_singleton.1 hb
    exact hstored _ _ hroot
  | none =>
    have hroot₁ : (startDownload (withStatus m.bs root .Partial) root tag).storage root = none := hroot
    rw [hroot₁] at hsupplied ⊢
    dsimp only at hsupplied ⊢
    rw [hrequest, if_neg (by simp)] at hsupplied ⊢
    exact .going hsupplied (fun b hb => absurd hb List.not_mem_nil)
      (.inl ⟨⟨hwaiting.stored, hwaiting.only, hwaiting.quiet⟩, hwaiting.state, hwaiting.pending⟩)

/-- **Every state of a download is a stage.** -/
theorem DownloadOf.stage (h : DownloadOf cfg blocks root tag m) : Stage cfg hash blocks root tag conf m := by
  induction h with
  | start hinit hstored hstatus hquiet hstep => exact .start hset hinit hstored hstatus hquiet hstep
  | step _ hdelivers hstep ih => exact (ih.step hset hdelivers).1 _ hstep

omit hset

/-- **A download does not stop half-way**: while it goes on, something is requested or to be processed. -/
theorem Going.not_finished (h : Going cfg blocks root tag m.bs) (hsupplied : Supplied m) (hwork : m.work = [])
    (hrequests : m.bs.requests = []) : False := by
  obtain ⟨st, hst⟩ := h.state
  have hnone : ∀ c, m.bs.nodeDownloadParams.lookup c root = none := by
    intro c
    cases hl : m.bs.nodeDownloadParams.lookup c root with
    | none => rfl
    | some ixs =>
      rcases hsupplied.served c root List.not_mem_nil ⟨ixs, hl⟩ with htodo | ⟨session, hmem, -⟩
      · rw [hwork] at htodo
        exact absurd htodo List.not_mem_nil
      · rw [hrequests] at hmem
        exact absurd hmem List.not_mem_nil
  have hcounter := hsupplied.bookkeeping.counter root st hst
  have hpositive := hsupplied.bookkeeping.positive root st hst
  rw [NestedMap.total_eq_zero hnone] at hcounter
  omega

include hset in
/-- **A download ends with the root added or rejected**, and before it ends the root is not reported. -/
theorem Outcome.cases {ended : Bool} (h : Outcome cfg blocks root tag s ended) :
    (ended = false ∧ s.resourceUpdates = []) ∨ Accepted cfg blocks root tag s ∨ Rejected cfg hash root tag conf s := by
  cases h with
  | running hrun =>
    cases hrun.stage hset with
    | going _ _ hgoing => exact .inl ⟨rfl, hgoing.downloads.quiet⟩
    | accepted _ haccepted => exact .inr (.inl haccepted)
    | rejected hrejected => exact .inr (.inr hrejected)
  | finished hrun hwork hrequests =>
    cases hrun.stage hset with
    | going hsupplied _ hgoing => exact (hgoing.not_finished hsupplied hwork hrequests).elim
    | accepted _ haccepted => exact .inr (.inl haccepted)
    | rejected hrejected => exact .inr (.inr hrejected)
  | panicked hrun hdelivers hpanic => exact .inr (.inr (((hrun.stage hset).step hset hdelivers).2 hpanic))

theorem reached_of_present {k n : Nat} (hk : 0 < k) (h : ∀ i, i < n → (blocks (labelAt k blocks root i)).isSome) :
    ∀ i, i < n → Reached k n blocks root i := by
  intro i
  induction i using Nat.strong_induction_on with
  | _ i ih =>
    intro hi
    by_cases hzero : i = 0
    · rw [hzero]
      exact .root
    · obtain ⟨p, t, hp, ht, hchild⟩ := exists_parent hk (Nat.pos_of_ne_zero hzero) hi
      rw [firstChild_eq (Nat.zero_lt_of_lt ht)] at hchild
      rw [hchild]
      exact .child (ih p hp (hp.trans hi)) (h p (hp.trans hi)) ht

include hset

/-- **What is stored for a root that was added joins to the data.** -/
theorem Accepted.join (h : Accepted cfg blocks root tag s)
    (hd : EncodedData cfg hash tag conf root d) {fuel : Nat} (hfuel : blockCount cfg (d.length + 1) ≤ fuel) :
    joinBitswapBlocks s.storage fuel root = some (some (prefixedData tag d)) := by
  obtain ⟨hm, -⟩ := hset.maxBlockSize_bound
  have h34 : 34 < cfg.maxBlockSize := by omega
  have hk := linksPerBlock_pos h34
  obtain ⟨dataLen, hannounces, hfit, hstored⟩ := h.tree
  obtain rfl := announced_eq hset hd hannounces
  obtain ⟨-, tree, htree, hroot⟩ := (encodes_iff (by omega)).1 hd.2
  have hlength : (prefixedData tag d).length = d.length + 1 + 4 := length_prefixedData
  have hpresent : ∀ i, i < blockCount cfg (d.length + 1) → (blocks (label cfg blocks root i)).isSome := by
    intro i hi
    obtain ⟨b, links, chunk, hb, -⟩ := hfit i hi
    rw [hb]
    rfl
  have htreeStored : ∀ i, i < blockCount cfg (d.length + 1) → s.storage (hash (tree i)) = some (tree i) := by
    intro i hi
    have hlabel := (reached_of_present hk hpresent i hi).label_eq h34 htree hroot (hset.eq_tree hd htree)
    obtain ⟨b, hb⟩ := Option.isSome_iff_exists.1 (hpresent i hi)
    rw [← hlabel, hstored i hi, hb]
    rw [hlabel] at hb
    rw [hset.eq_tree hd htree i b hi hb]
  have hvisits : Visits (readLinkedBlock s.storage) [hash (tree 0)]
      ((List.range (blockCount cfg (d.length + 1))).map (chunk cfg.maxBlockSize (prefixedData tag d))) := by
    refine LevelOrder.visits (fun c => hash (tree c)) hk (requiredBitswapBlockCount_pos h34) fun i hi => ?_
    have hread := read_block htree (i := i) (by rw [hlength]; exact hi)
    rw [hlength] at hread
    unfold readLinkedBlock
    rw [htreeStored i hi, Option.bind_some, hread]
    rfl
  have hflat := flatten_all_chunks h34 (prefixedData tag d)
  rw [hlength] at hflat
  unfold joinBitswapBlocks
  rw [← hroot, joinLoop_of_visits hvisits (by rw [List.length_map, List.length_range]; exact hfuel), List.nil_append, hflat]

/-- **The schema and the indices describe the encoder's tree.** -/
theorem encoded_tree {encoded : BlockMap} {r : Root}
    (h : splitDataToBitswapBlocksLengthPrefixedWithTag cfg.maxBlockSize hash d tag = some (encoded, r)) :
    ∃ tree : Nat → Bytes, hash (tree 0) = r ∧
      (∀ c b, encoded c = some b → hash b = c ∧ ∃ i, i < blockCount cfg (d.length + 1) ∧ b = tree i) ∧
      ∀ i, i < blockCount cfg (d.length + 1) → (encoded (hash (tree i))).isSome ∧
        ∃ links data, readBitswapBlock (tree i) = some (links, data) ∧
          ((tree i).length : Int) = (mkBitswapBlockSchemaLengthPrefixed cfg.maxBlockSize (d.length + 1)).blockSize i ∧
          links.length = (mkBitswapBlockSchemaLengthPrefixed cfg.maxBlockSize (d.length + 1)).linkCount i ∧
          (links ≠ [] → cfg.depthIndices.firstChildId i = ((linksPerBlock cfg.maxBlockSize * i + 1 : Nat) : Int)) ∧
          ∀ t link, links[t]? = some link → link = hash (tree (linksPerBlock cfg.maxBlockSize * i + 1 + t)) := by
  obtain ⟨hm, -⟩ := hset.maxBlockSize_bound
  have h34 : 34 < cfg.maxBlockSize := by omega
  have hlength : (prefixedData tag d).length = d.length + 1 + 4 := length_prefixedData
  obtain ⟨hlen, -⟩ := (encodes_iff (by omega)).1 ⟨encoded, h⟩
  obtain ⟨tree, t, hbuilt, hsplit⟩ := splitDataToBitswapBlocksWithHashF_eq hash (prefixedData tag d) h34
  have heq : splitDataToBitswapBlocksLengthPrefixedWithTag cfg.maxBlockSize hash d tag = some (t.res, hash (tree 0)) := by
    rw [← hsplit]
    unfold splitDataToBitswapBlocksLengthPrefixedWithTag splitDataToBitswapBlocksLengthPrefixedWithHashF bitswapBlockLinkSize
    rw [if_neg (by omega), if_neg (by rw [List.length_cons]; omega)]
    rfl
  rw [heq] at h
  obtain ⟨rfl, rfl⟩ := Prod.mk.inj (Option.some.inj h)
  refine ⟨tree, rfl, fun c b hb => ?_, fun i hi => ⟨?_, ?_⟩⟩
  · obtain ⟨hhash, i, -, hi, hb⟩ := hbuilt.sound c b hb
    rw [hlength] at hi
    exact ⟨hhash, i, hi, hb⟩
  · exact hbuilt.complete i (Nat.zero_le i) (by rw [hlength]; exact hi)
  · obtain ⟨links, data, hread, hfit⟩ := fitsAt_of_tree h34 hbuilt.blocks hi
    have hread' := read_block hbuilt.blocks (i := i) (by rw [hlength]; exact hi)
    rw [hlength, hread] at hread'
    obtain ⟨hlinks, -⟩ := Prod.mk.inj (Option.some.inj hread')
    unfold fitsAt at hfit
    rw [Bool.and_eq_true, decide_eq_true_eq, decide_eq_true_eq] at hfit
    refine ⟨links, data, hread, hfit.1, hfit.2, fun hne => ?_, fun t link hlink => ?_⟩
    · have hlt : d.length + 1 < 2 ^ 32 := by omega
      refine hset.firstChildId_eq hlt (t := 0) ?_
      rw [← length_children (fun c => hash (tree c)), ← hlinks]
      exact List.length_pos_of_ne_nil hne
    · obtain ⟨ht, rfl⟩ := List.getElem?_eq_some_iff.1 hlink
      simp only [hlinks, getElem_children]

omit hset

end Runs

/-- **The downloader accepts the encoder's trees, and no others.** For a valid block size, a tag with a
maximal size, and a store of blocks without collisions: the root is reported as added only if it is that of
some data, and then the stored blocks join to these data with their length and tag; when the download ends,
it was added if there are such data, and reported as broken otherwise; it is never reported as both. -/
theorem downloader_accepts_encoded (cfg : BitswapConfig) (hash : Bytes → BitswapBlockLink) (blocks : BlockMap)
    (tag : BitswapDataTag) (conf : BitswapDataConfig) (root : Root) (hvalid : isValidMaxBlockSize cfg.maxBlockSize = true)
    (hindices : cfg.depthIndices = mkDepthIndices (linksPerBlock cfg.maxBlockSize) (2 ^ 31 - 1))
    (hconf : cfg.dataConfig tag = some conf) (hkeyed : ∀ c b, blocks c = some b → hash b = c)
    (hfree : ∀ b b', Known cfg hash blocks tag conf root b → Known cfg hash blocks tag conf root b' → hash b = hash b' → b = b') :
    (∀ s ended, Outcome cfg blocks root tag s ended →
      ((.added, root) ∈ s.resourceUpdates → ∃ d, EncodedData cfg hash tag conf root d) ∧
      (ended = true → (∃ d, EncodedData cfg hash tag conf root d) → (.added, root) ∈ s.resourceUpdates) ∧
      (ended = true → (∀ d, ¬ EncodedData cfg hash tag conf root d) → (.broken, root) ∈ s.resourceUpdates) ∧
      ¬ ((.added, root) ∈ s.resourceUpdates ∧ (.broken, root) ∈ s.resourceUpdates) ∧
      ((.added, root) ∈ s.resourceUpdates → ∀ d, EncodedData cfg hash tag conf root d →
        ∀ fuel, blockCount cfg (d.length + 1) ≤ fuel →
          joinBitswapBlocks s.storage fuel root = some (some (bytesLE 4 (d.length + 1) ++ tag :: d)))) ∧
    ∀ d encoded r, splitDataToBitswapBlocksLengthPrefixedWithTag cfg.maxBlockSize hash d tag = some (encoded, r) →
      ∃ tree : Nat → Bytes, hash (tree 0) = r ∧
        (∀ c b, encoded c = some b → hash b = c ∧ ∃ i, i < blockCount cfg (d.length + 1) ∧ b = tree i) ∧
        ∀ i, i < blockCount cfg (d.length + 1) → (encoded (hash (tree i))).isSome ∧
          ∃ links data, readBitswapBlock (tree i) = some (links, data) ∧
            ((tree i).length : Int) = (mkBitswapBlockSchemaLengthPrefixed cfg.maxBlockSize (d.length + 1)).blockSize i ∧
            links.length = (mkBitswapBlockSchemaLengthPrefixed cfg.maxBlockSize (d.length + 1)).linkCount i ∧
            (links ≠ [] → cfg.depthIndices.firstChildId i = ((linksPerBlock cfg.maxBlockSize * i + 1 : Nat) : Int)) ∧
            ∀ t link, links[t]? = some link → link = hash (tree (linksPerBlock cfg.maxBlockSize * i + 1 + t)) := by
  have hset : Setting cfg hash blocks tag conf root := ⟨hvalid, hindices, hconf, hkeyed, hfree⟩
  obtain ⟨hm, -⟩ := hset.maxBlockSize_bound
  refine ⟨fun s ended h => ?_, fun d encoded r h => encoded_tree hset h⟩
  rcases h.cases hset with ⟨hrunning, hquiet⟩ | haccepted | hrejected
  · have hnone : ∀ update, update ∉ s.resourceUpdates := by
      intro update
      rw [hquiet]
      exact List.not_mem_nil
    refine ⟨fun hadded => absurd hadded (hnone _), fun hended => ?_, fun hended => ?_, fun hboth => hnone _ hboth.1,
      fun hadded => absurd hadded (hnone _)⟩
    · rw [hrunning] at hended
      cases hended
    · rw [hrunning] at hended
      cases hended
  · obtain ⟨dataLen, hannounces, hfit, -⟩ := haccepted.tree
    obtain ⟨d, conf', hconf', hmax, hencodes⟩ := encodes_of_allFit (by omega) hkeyed hannounces hfit
    rw [hconf] at hconf'
    obtain rfl := Option.some.inj hconf'
    have hupdates := haccepted.updates
    refine ⟨fun _ => ⟨d, hmax, hencodes⟩, fun _ _ => ?_, fun _ hnone => absurd ⟨hmax, hencodes⟩ (hnone d), fun hboth => ?_,
      fun _ d hd fuel hfuel => haccepted.join hset hd hfuel⟩
    · rw [hupdates]
      exact List.mem_cons_self
    · rw [hupdates] at hboth
      cases List.mem_singleton.1 hboth.2
  · exact ⟨fun hadded => absurd hadded (hrejected.notAdded root), fun _ hex => hex.elim fun d hd => absurd hd (hrejected.refused d),
      fun _ _ => hrejected.broken, fun hboth => hrejected.notAdded root hboth.1,
      fun hadded => absurd hadded (hrejected.notAdded root)⟩

section Example

/-- Data of one block, with the tag 5. -/
def tinyBlock : Bytes := encodeBlock [] (prefixedData 5 [7, 8])

def tinyRoot : Root := prefixHash tinyBlock

/-- A hash that tells the block from all others. -/
def tinyHash (b : Bytes) : BitswapBlockLink := if b = tinyBlock then tinyRoot else prefixHash []

def tinyBlocks : BlockMap := fun c => if c = tinyRoot then some tinyBlock else none

def tinyConfig : BitswapConfig where
  maxBlockSize := 103
  dataConfig := fun _ => some { maxSize := 10 }
  depthIndices := mkDepthIndices (linksPerBlock 103) (2 ^ 31 - 1)

theorem eq_tinyBlock {b : Bytes} (h : tinyHash b = tinyRoot) : b = tinyBlock := by
  unfold tinyHash at h
  by_contra hne
  rw [if_neg hne] at h
  revert h
  decide

theorem known_tiny {b : Bytes} (h : Known tinyConfig tinyHash tinyBlocks 5 { maxSize := 10 } tinyRoot b) : b = tinyBlock := by
  rcases h with ⟨c, hc⟩ | ⟨d, tree, i, hd, htree, hi, rfl⟩
  · unfold tinyBlocks at hc
    split at hc
    · exact (Option.some.inj hc).symm
    · cases hc
  · -- data that are not too large make a single block
    have hsmall : d.length ≤ 10 := Int.ofNat_le.1 hd.1
    have hcount : blockCount tinyConfig (d.length + 1) = 1 := by
      have hmax : tinyConfig.maxBlockSize = 103 := rfl
      unfold blockCount requiredBitswapBlockCount
      rw [hmax, if_pos (by omega)]
    obtain ⟨-, tree', htree', hroot⟩ := (encodes_iff (by decide)).1 hd.2
    have hzero : tree 0 = tree' 0 := BlocksFrom.unique (by decide) htree htree' le_rfl (requiredBitswapBlockCount_pos (by decide))
    obtain rfl : i = 0 := by omega
    rw [hzero]
    exact eq_tinyBlock hroot

theorem encodedData_tiny : EncodedData tinyConfig tinyHash 5 { maxSize := 10 } tinyRoot [7, 8] := ⟨by decide, _, rfl⟩

def tinyArrives : Event := .arrive { cid := tinyRoot, rawData := tinyBlock } { links := [], roots := [tinyRoot] } noFaults

def tinyRequested : Machine := (step tinyConfig emptyMachine (.download tinyRoot 5 noFaults)).getD emptyMachine

def tinyDownloaded : Machine := (step tinyConfig tinyRequested tinyArrives).getD emptyMachine

theorem outcome_tiny : Outcome tinyConfig tinyBlocks tinyRoot 5 tinyDownloaded.bs true := by
  have hrequested : DownloadOf tinyConfig tinyBlocks tinyRoot 5 tinyRequested :=
    .start initial_emptyMachine (fun c b hb => by cases hb) (.inl rfl) rfl rfl
  have harrive : Delivers tinyConfig tinyBlocks tinyRequested tinyArrives :=
    ⟨rfl, by decide, orderFits_of (by with_unfolding_all decide), rfl⟩
  have hsome : (step tinyConfig tinyRequested tinyArrives).isSome = true := by with_unfolding_all decide
  have hstep : step tinyConfig tinyRequested tinyArrives = some tinyDownloaded := by
    obtain ⟨m, hm⟩ := Option.isSome_iff_exists.1 hsome
    unfold tinyDownloaded
    rw [hm]
    rfl
  have hdone : tinyDownloaded.work.isEmpty = true ∧ tinyDownloaded.bs.requests.isEmpty = true := by with_unfolding_all decide
  exact .finished (.step hrequested harrive hstep) (List.isEmpty_iff.1 hdone.1) (List.isEmpty_iff.1 hdone.2)

theorem downloader_accepts_encoded_tiny : (.added, tinyRoot) ∈ tinyDownloaded.bs.resourceUpdates ∧
      joinBitswapBlocks tinyDownloaded.bs.storage 1 tinyRoot = some (some (bytesLE 4 3 ++ [5, 7, 8])) := by
  have hkeyed : ∀ c b, tinyBlocks c = some b → tinyHash b = c := by
    intro c b hb
    unfold tinyBlocks at hb
    split at hb
    · rename_i hc
      rw [← Option.some.inj hb, hc]
      exact if_pos rfl
    · cases hb
  obtain ⟨houtcome, -⟩ := downloader_accepts_encoded tinyConfig tinyHash tinyBlocks 5 { maxSize := 10 } tinyRoot (by decide) rfl rfl
    hkeyed fun b b' hb hb' _ => (known_tiny hb).trans (known_tiny hb').symm
  obtain ⟨-, hadded, -, -, hjoin⟩ := houtcome tinyDownloaded.bs true outcome_tiny
  have hreported := hadded rfl ⟨[7, 8], encodedData_tiny⟩
  exact ⟨hreported, hjoin hreported [7, 8] encodedData_tiny 1 (by decide)⟩

end Example

end MinaProtocol.Bitswap
