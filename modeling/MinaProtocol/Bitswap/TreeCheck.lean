import Mathlib
import MinaProtocol.Bitswap.Agreement
import MinaProtocol.Bitswap.Downloader

/-!
# Bitswap.TreeCheck

What the checks of single blocks say of a tree. A store of blocks and a root give every node of a tree a
label, the link that its parent has for it. The blocks under all the labels fit the schema that the root
block announces if and only if the encoder makes this root from some data.
-/

namespace MinaProtocol.Bitswap

open LevelOrder

/-! ### Depth indices -/

section DepthIndices

variable {k maxTotalBlocks : Nat}

theorem leftmost_strictMono (hk : 0 < k) : StrictMono (leftmost k) := strictMono_nat_of_lt_succ (leftmost_lt_succ hk)

theorem mkIndices_eq (maxTotalBlocks : Nat) (hk : 0 < k) (fuel : Nat) {d : Nat} (hd : leftmost k d < maxTotalBlocks)
    (hfuel : maxTotalBlocks ≤ leftmost k d + fuel) :
    ∃ count, mkIndices k maxTotalBlocks fuel (k ^ d) (leftmost k d) = (List.range' d count).map (leftmost k) ∧
      maxTotalBlocks ≤ leftmost k (d + count) := by
  induction fuel generalizing d with
  | zero => omega
  | succ fuel ih =>
    have hsucc := leftmost_succ (k := k) d
    have hlt := leftmost_lt_succ hk d
    unfold mkIndices
    by_cases hnext : leftmost k d + k ^ d < maxTotalBlocks
    · rw [if_pos hnext, ← pow_succ, ← hsucc]
      obtain ⟨count, heq, hmax⟩ := ih (d := d + 1) (by omega) (by omega)
      refine ⟨count + 1, ?_, ?_⟩
      · rw [heq, List.range'_succ, List.map_cons]
      · rw [← Nat.add_assoc, Nat.add_right_comm]
        exact hmax
    · rw [if_neg hnext]
      exact ⟨1, rfl, by omega⟩

theorem exists_level (hk : 0 < k) (i : Nat) : ∃ d, leftmost k d ≤ i ∧ i < leftmost k (d + 1) := by
  have hgrows : ∃ d, i < leftmost k d := ⟨i + 1, (Nat.lt_succ_self i).trans_le ((leftmost_strictMono hk).le_apply)⟩
  obtain ⟨hfind, hmin⟩ := (Nat.find_eq_iff hgrows).1 rfl
  cases hd : Nat.find hgrows with
  | zero =>
    rw [hd] at hfind
    simp [leftmost] at hfind
  | succ d =>
    rw [hd] at hfind hmin
    exact ⟨d, not_lt.1 (hmin d (Nat.lt_succ_self d)), hfind⟩

/-- **The first child of a node** in level order, as far as the indices reach. -/
theorem firstChildId_eq (hk : 0 < k) {i : Nat} (h : k * i + 1 < maxTotalBlocks) :
    (mkDepthIndices k maxTotalBlocks).firstChildId (i : Int) = ((k * i + 1 : Nat) : Int) := by
  obtain ⟨d, hle, hlt⟩ := exists_level hk i
  have hnext : leftmost k (d + 1) = k * leftmost k d + 1 := rfl
  have hmul : k * leftmost k d ≤ k * i := Nat.mul_le_mul_left k hle
  have hloop : ∃ count, mkIndices k maxTotalBlocks maxTotalBlocks 1 0 = (List.range' 0 count).map (leftmost k) ∧
      maxTotalBlocks ≤ leftmost k (0 + count) := by
    have hzero : leftmost k 0 = 0 := rfl
    have hloop := mkIndices_eq maxTotalBlocks hk maxTotalBlocks (d := 0)
    rw [hzero, pow_zero] at hloop
    exact hloop (by omega) (by omega)
  obtain ⟨count, heq, hmax⟩ := hloop
  rw [Nat.zero_add] at hmax
  have hindices : (mkDepthIndices k maxTotalBlocks).indices = (List.range count).map (leftmost k) := by
    rw [List.range_eq_range', ← heq]
    rfl
  have hcount : d + 1 < count := (leftmost_strictMono hk).lt_iff_lt.1 (by omega)
  have hfind : (mkDepthIndices k maxTotalBlocks).indices.findIdx (fun ix : Nat => decide ((ix : Int) > (i : Int))) = d + 1 := by
    rw [hindices, List.findIdx_eq (by rw [List.length_map, List.length_range]; exact hcount)]
    refine ⟨?_, fun j hj => ?_⟩
    · rw [List.getElem_map, List.getElem_range]
      exact decide_eq_true (Int.ofNat_lt.2 hlt)
    · rw [List.getElem_map, List.getElem_range]
      have hmono : leftmost k j ≤ leftmost k d := (leftmost_strictMono hk).monotone (Nat.le_of_lt_succ hj)
      exact decide_eq_false (by omega)
  unfold DepthIndices.firstChildId
  dsimp only
  rw [hfind, hindices, List.length_map, List.length_range, if_neg (by omega), Nat.add_sub_cancel,
    List.getD_eq_getElem _ _ (by rw [List.length_map, List.length_range]; exact hcount),
    List.getD_eq_getElem _ _ (by rw [List.length_map, List.length_range]; omega), List.getElem_map, List.getElem_map,
    List.getElem_range, List.getElem_range, hnext]
  have hlinks : (mkDepthIndices k maxTotalBlocks).linksPerBlock = k := rfl
  rw [hlinks]
  push_cast
  ring

end DepthIndices

/-! ### Labels -/

/-- The links of the block under a label, where there is one that can be read. -/
def linksAt (blocks : BlockMap) (c : BitswapBlockLink) : List BitswapBlockLink :=
  match (blocks c).bind readBitswapBlock with
  | none => []
  | some read => read.1

/-- The label of a node: the root, or the link that the parent has for it. -/
def labelAt (k : Nat) (blocks : BlockMap) (root : BitswapBlockLink) : Nat → BitswapBlockLink
  | 0 => root
  | j + 1 => (linksAt blocks (labelAt k blocks root (j / k))).getD (j % k) root
termination_by j => j
decreasing_by exact Nat.lt_succ_of_le (Nat.div_le_self j k)

/-- The block under a label fits a node. -/
def FitsNode (schema : BitswapBlockSchema) (blocks : BlockMap) (c : BitswapBlockLink) (i : Nat) : Prop :=
  ∃ b links chunk, blocks c = some b ∧ readBitswapBlock b = some (links, chunk) ∧
    fitsAt schema b.length links.length (i : Int) = true

/-- The block under the root announces data of a length. -/
def Announces (cfg : BitswapConfig) (tag : BitswapDataTag) (blocks : BlockMap) (root : BitswapBlockLink) (dataLen : Nat) :
    Prop :=
  ∃ b links chunk, blocks root = some b ∧ readBitswapBlock b = some (links, chunk) ∧
    readRootLength cfg tag chunk = some dataLen

variable {i : Nat} {blocks : BlockMap} {root : BitswapBlockLink}

section Labels

variable {k n t : Nat} {b : Bytes} {links : List BitswapBlockLink} {chunk : Bytes}

theorem linksAt_eq {c : BitswapBlockLink} (hblock : blocks c = some b) (hread : readBitswapBlock b = some (links, chunk)) :
    linksAt blocks c = links := by
  unfold linksAt
  rw [hblock, Option.bind_some, hread]

theorem labelAt_zero : labelAt k blocks root 0 = root := by
  unfold labelAt
  rfl

/-- **The labels of the children** are the links of the block. -/
theorem labelAt_child (hblock : blocks (labelAt k blocks root i) = some b)
    (hread : readBitswapBlock b = some (links, chunk)) (ht : t < links.length) (hk : links.length ≤ k) :
    labelAt k blocks root (k * i + 1 + t) = links[t] := by
  have hdiv : (k * i + t) / k = i := by
    rw [Nat.mul_add_div (by omega), Nat.div_eq_of_lt (by omega), Nat.add_zero]
  have hmod : (k * i + t) % k = t := by
    rw [Nat.mul_add_mod, Nat.mod_eq_of_lt (by omega)]
  have hsucc : k * i + 1 + t = k * i + t + 1 := by omega
  rw [hsucc, labelAt, hdiv, hmod, linksAt_eq hblock hread, List.getD_eq_getElem _ _ ht]

end Labels

/-! ### The schema and the encoder's tree -/

section Schema

variable {m len : Nat}

theorem blockSize_eq (hm : 34 < m) (hi : i < requiredBitswapBlockCount m len) :
    (mkBitswapBlockSchema m len).blockSize (i : Int) =
      ((2 + bitswapBlockLinkSize * linksOf m len i + chunkSize m len i : Nat) : Int) := by
  unfold BitswapBlockSchema.blockSize mkBitswapBlockSchema
  dsimp only
  by_cases hlast : i + 1 = requiredBitswapBlockCount m len
  · rw [if_pos (show (i : Int) = (requiredBitswapBlockCount m len : Int) - 1 by omega), linksOf_last hm hlast, chunkSize,
      if_pos hlast, Nat.sub_sub]
    push_cast [bitswapBlockLinkSize]
    ring
  · rw [if_neg (show ¬ (i : Int) = (requiredBitswapBlockCount m len : Int) - 1 by omega), size_of_block hm (by omega)]

/-- **A block fits a node** when it has as many links and as much data as the block of the node. -/
theorem fitsAt_iff (hm : 34 < m) (hi : i < requiredBitswapBlockCount m len) {size numLinks : Nat} :
    fitsAt (mkBitswapBlockSchema m len) size numLinks (i : Int) = true ↔
      size = 2 + bitswapBlockLinkSize * linksOf m len i + chunkSize m len i ∧ numLinks = linksOf m len i := by
  unfold fitsAt
  rw [Bool.and_eq_true, decide_eq_true_eq, decide_eq_true_eq, blockSize_eq hm hi, linkCount_eq hm, Int.ofNat_inj]

theorem chunk_flatten (hm : 34 < m) {c : Nat → Bytes}
    (hc : ∀ i, i < requiredBitswapBlockCount m len → (c i).length = chunkSize m len i) :
    (((List.range (requiredBitswapBlockCount m len)).map c).flatten).length = len ∧
      ∀ i, i < requiredBitswapBlockCount m len →
        chunk m ((List.range (requiredBitswapBlockCount m len)).map c).flatten i = c i := by
  have hstart : ∀ i, i ≤ requiredBitswapBlockCount m len →
      (((List.range i).map c).flatten).length = chunkStart m len i := by
    intro i
    induction i with
    | zero =>
      intro _
      rw [chunkStart_zero hm]
      rfl
    | succ i ih =>
      intro hi
      rw [List.range_succ, List.map_append, List.flatten_append, List.length_append, ih (by omega), List.map_singleton,
        List.flatten_singleton, hc i hi, chunkStart_succ hm hi]
  have hlen := hstart _ le_rfl
  rw [chunkStart_blockCount] at hlen
  refine ⟨hlen, fun i hi => ?_⟩
  -- the data is what stands before the chunk, the chunk, and the rest
  have hsplit : ((List.range (requiredBitswapBlockCount m len)).map c).flatten =
      ((List.range (i + 1)).map c).flatten ++
        ((List.range' (i + 1) (requiredBitswapBlockCount m len - (i + 1))).map c).flatten := by
    have hrange := List.range'_append_1 (s := 0) (m := i + 1) (n := requiredBitswapBlockCount m len - (i + 1))
    rw [Nat.zero_add, Nat.add_sub_cancel' hi] at hrange
    rw [← List.flatten_append, ← List.map_append, List.range_eq_range', List.range_eq_range', hrange]
  unfold chunk
  rw [hlen, hsplit, List.take_left' (hstart (i + 1) hi), List.range_succ, List.map_append, List.flatten_append,
    List.drop_left' (hstart i hi.le), List.map_singleton, List.flatten_singleton]

end Schema

/-! ### Data with its length and tag -/

/-- The data that the blocks of a body hold: the length of the rest, the tag, the body. -/
def prefixedData (tag : BitswapDataTag) (d : Bytes) : Bytes := bytesLE 4 (d.length + 1) ++ tag :: d

/-- The encoder makes a root from data. -/
def Encodes (m : Nat) (hash : Bytes → BitswapBlockLink) (tag : BitswapDataTag) (root : BitswapBlockLink) (d : Bytes) : Prop :=
  ∃ blocks, splitDataToBitswapBlocksLengthPrefixedWithTag m hash d tag = some (blocks, root)

variable {hash : Bytes → BitswapBlockLink} {tag : BitswapDataTag} {d : Bytes}

section Encodes

variable {m : Nat}

theorem length_prefixedData : (prefixedData tag d).length = d.length + 1 + 4 := by
  unfold prefixedData
  rw [List.length_append, length_bytesLE, List.length_cons]
  omega

theorem take_prefixedData {n : Nat} (h : 5 ≤ n) :
    (prefixedData tag d).take n = bytesLE 4 (d.length + 1) ++ tag :: d.take (n - 5) := by
  have hrest : n - 4 = n - 5 + 1 := by omega
  unfold prefixedData
  rw [List.take_append, List.take_of_length_le (by rw [length_bytesLE]; omega), length_bytesLE, hrest, List.take_succ_cons]

theorem encodes_iff (hm : 38 ≤ m) : Encodes m hash tag root d ↔
      d.length + 1 ≤ 2 ^ 32 - 1 ∧ ∃ tree, IsBlockTree m hash (prefixedData tag d) tree ∧ hash (tree 0) = root := by
  obtain ⟨tree, s, hbuilt, hsplit⟩ := splitDataToBitswapBlocksWithHashF_eq (m := m) hash (prefixedData tag d) (by omega)
  have heq : splitDataToBitswapBlocksLengthPrefixedWithTag m hash d tag =
      if d.length + 1 > 2 ^ 32 - 1 then none else some (s.res, hash (tree 0)) := by
    rw [← hsplit]
    unfold splitDataToBitswapBlocksLengthPrefixedWithTag splitDataToBitswapBlocksLengthPrefixedWithHashF bitswapBlockLinkSize
    rw [if_neg (by omega)]
    rfl
  unfold Encodes
  rw [heq]
  constructor
  · intro h
    obtain ⟨blocks, h⟩ := h
    split at h
    · cases h
    · rename_i hlen
      obtain ⟨-, hroot⟩ := Prod.mk.inj (Option.some.inj h)
      exact ⟨not_lt.1 hlen, tree, hbuilt.blocks, hroot⟩
  · intro h
    obtain ⟨hlen, tree', htree', hroot⟩ := h
    have hzero : tree 0 = tree' 0 := BlocksFrom.unique (by omega) hbuilt.blocks htree' le_rfl
      (requiredBitswapBlockCount_pos (by omega))
    refine ⟨s.res, ?_⟩
    rw [if_neg (not_lt.2 hlen), hzero, hroot]

/-- **What the data of a root block announces.** -/
theorem readRootLength_eq_some {cfg : BitswapConfig} {data : Bytes} {dataLen : Nat} :
    readRootLength cfg tag data = some dataLen ↔
      dataLen < 2 ^ 32 ∧ (∃ rest, data = bytesLE 4 dataLen ++ tag :: rest) ∧
        ∃ conf, cfg.dataConfig tag = some conf ∧ (dataLen : Int) - 1 ≤ conf.maxSize := by
  constructor
  · intro h
    unfold readRootLength extractLengthFromRootBlockData at h
    by_cases hshort : data.length < 4
    · rw [if_pos hshort] at h
      cases h
    · rw [if_neg hshort] at h
      dsimp only at h
      have htake : (data.take 4).length = 4 := by
        rw [List.length_take]
        omega
      have hbound := natLE_lt (data.take 4)
      rw [htake] at hbound
      cases hhead : (data.drop 4).head? with
      | none =>
        rw [hhead] at h
        cases h
      | some tag' =>
        rw [hhead] at h
        dsimp only at h
        obtain ⟨rest, hrest⟩ : ∃ rest, data.drop 4 = tag' :: rest := List.head?_eq_some_iff.1 hhead
        by_cases htag : tag' ≠ tag
        · rw [if_pos htag] at h
          cases h
        · rw [if_neg htag] at h
          rw [not_not] at htag
          subst htag
          cases hconf : cfg.dataConfig tag' with
          | none =>
            rw [hconf] at h
            cases h
          | some conf =>
            rw [hconf] at h
            dsimp only at h
            by_cases hlarge : conf.maxSize < (natLE (data.take 4) : Int) - 1
            · rw [if_pos hlarge] at h
              cases h
            · rw [if_neg hlarge] at h
              obtain rfl := Option.some.inj h
              refine ⟨by omega, ⟨rest, ?_⟩, conf, rfl, not_lt.1 hlarge⟩
              rw [bytesLE_natLE htake, ← hrest, List.take_append_drop]
  · intro h
    obtain ⟨hbound, ⟨rest, rfl⟩, conf, hconf, hmax⟩ := h
    have hlen : (bytesLE 4 dataLen).length = 4 := length_bytesLE 4 dataLen
    unfold readRootLength extractLengthFromRootBlockData
    rw [if_neg (by rw [List.length_append, hlen]; omega)]
    dsimp only
    rw [List.drop_left' hlen, List.head?_cons, List.take_left' hlen, natLE_bytesLE (by omega)]
    dsimp only
    rw [if_neg (by simp), hconf]
    dsimp only
    rw [if_neg (not_lt.2 hmax)]

end Encodes

/-! ### From fitting blocks to data -/

section Decode

variable {cfg : BitswapConfig} {dataLen : Nat}

/-- The number of blocks of the tree for data of an announced length. -/
abbrev blockCount (cfg : BitswapConfig) (dataLen : Nat) : Nat := requiredBitswapBlockCount cfg.maxBlockSize (dataLen + 4)

/-- The labels of the nodes of a tree of the configuration. -/
abbrev label (cfg : BitswapConfig) (blocks : BlockMap) (root : BitswapBlockLink) : Nat → BitswapBlockLink :=
  labelAt (linksPerBlock cfg.maxBlockSize) blocks root

/-- The blocks under the labels of all nodes fit the schema. -/
def AllFit (cfg : BitswapConfig) (blocks : BlockMap) (root : BitswapBlockLink) (dataLen : Nat) : Prop :=
  ∀ i, i < blockCount cfg dataLen →
    FitsNode (mkBitswapBlockSchemaLengthPrefixed cfg.maxBlockSize dataLen) blocks (label cfg blocks root i) i

/-- **Fitting blocks are the encoder's**: they make data of the announced length. -/
theorem encodes_of_allFit (hm : 38 ≤ cfg.maxBlockSize) (hblocks : ∀ c b, blocks c = some b → hash b = c)
    (hannounces : Announces cfg tag blocks root dataLen) (hfit : AllFit cfg blocks root dataLen) :
    ∃ d conf, cfg.dataConfig tag = some conf ∧ (d.length : Int) ≤ conf.maxSize ∧
      Encodes cfg.maxBlockSize hash tag root d := by
  have h34 : 34 < cfg.maxBlockSize := by omega
  have hn : 0 < blockCount cfg dataLen := requiredBitswapBlockCount_pos h34
  choose! b links chunkOf hblock hread hfits using hfit
  have hencode : ∀ i, i < blockCount cfg dataLen → b i = encodeBlock (links i) (chunkOf i) :=
    fun i hi => (encodeBlock_of_read (hread i hi)).1
  have hcount : ∀ i, i < blockCount cfg dataLen →
      (links i).length = linksOf cfg.maxBlockSize (dataLen + 4) i ∧
        (chunkOf i).length = chunkSize cfg.maxBlockSize (dataLen + 4) i := by
    intro i hi
    obtain ⟨hsize, hlinks⟩ := (fitsAt_iff h34 hi).1 (hfits i hi)
    rw [hencode i hi, length_encodeBlock, hlinks] at hsize
    exact ⟨hlinks, by omega⟩
  obtain ⟨hlen, hchunk⟩ := chunk_flatten h34 fun i hi => (hcount i hi).2
  -- the chunks make the length, the tag and the data
  obtain ⟨b₀, links₀, chunk₀, hblock₀, hread₀, hannounced⟩ := hannounces
  have hroot : chunkOf 0 = chunk₀ := by
    have hzero := hblock 0 hn
    rw [label, labelAt_zero, hblock₀] at hzero
    have hsame := hread 0 hn
    rw [← Option.some.inj hzero, hread₀] at hsame
    exact (Prod.mk.inj (Option.some.inj hsame)).2.symm
  obtain ⟨hbound, ⟨rest, hrest⟩, conf, hconf, hmax⟩ := readRootLength_eq_some.1 hannounced
  obtain ⟨more, hmore⟩ : ∃ more, ((List.range (blockCount cfg dataLen)).map chunkOf).flatten = chunk₀ ++ more := by
    obtain ⟨count, hcount⟩ : ∃ count, blockCount cfg dataLen = count + 1 := ⟨blockCount cfg dataLen - 1, by omega⟩
    rw [hcount, List.range_succ_eq_map, List.map_cons, List.flatten_cons, hroot]
    exact ⟨_, rfl⟩
  have hdata : ((List.range (blockCount cfg dataLen)).map chunkOf).flatten = bytesLE 4 dataLen ++ tag :: (rest ++ more) := by
    rw [hmore, hrest, List.append_assoc]
    rfl
  have hlength : (rest ++ more).length + 1 = dataLen := by
    have hlen' := hlen
    rw [hdata, List.length_append, length_bytesLE, List.length_cons] at hlen'
    omega
  have hprefixed : ((List.range (blockCount cfg dataLen)).map chunkOf).flatten = prefixedData tag (rest ++ more) := by
    rw [hdata, prefixedData, hlength]
  refine ⟨rest ++ more, conf, hconf, by omega, (encodes_iff hm).2 ⟨by omega, b, ?_, ?_⟩⟩
  · intro i _ hi
    rw [length_prefixedData, hlength] at hi ⊢
    rw [← hprefixed, hchunk i hi, hencode i hi]
    congr 1
    -- the links are the hashes of the blocks that they label
    refine List.ext_getElem (by rw [(hcount i hi).1, length_children]) fun t ht ht' => ?_
    have hchild : t < childCount (linksPerBlock cfg.maxBlockSize) (blockCount cfg dataLen) i := ht.trans_eq (hcount i hi).1
    have hlabel := labelAt_child (hblock i hi) (hread i hi) ht (by rw [(hcount i hi).1]; exact childCount_le)
    rw [getElem_children, ← hlabel]
    exact (hblocks _ _ (hblock _ (child_lt hchild))).symm
  · have hzero := hblocks _ _ (hblock 0 hn)
    rw [hzero, label, labelAt_zero]

end Decode

/-! ### From data to fitting blocks -/

/-- The nodes that a root leads to through blocks of a store. -/
inductive Reached (k n : Nat) (blocks : BlockMap) (root : BitswapBlockLink) : Nat → Prop
  | root : Reached k n blocks root 0
  | child {i t} : Reached k n blocks root i → (blocks (labelAt k blocks root i)).isSome → t < childCount k n i →
      Reached k n blocks root (k * i + 1 + t)

theorem Reached.lt {k n i : Nat} {blocks : BlockMap} {root : BitswapBlockLink} (hn : 0 < n)
    (h : Reached k n blocks root i) : i < n := by
  induction h with
  | root => exact hn
  | child _ _ ht _ => exact child_lt ht

section Encode

variable {cfg : BitswapConfig} {tree : Nat → Bytes}

/-- **The labels are the hashes of the tree**, as far as the store reaches. -/
theorem Reached.label_eq (hm : 34 < cfg.maxBlockSize)
    (htree : IsBlockTree cfg.maxBlockSize hash (prefixedData tag d) tree) (hroot : hash (tree 0) = root)
    (hfree : ∀ i b, i < blockCount cfg (d.length + 1) → blocks (hash (tree i)) = some b → b = tree i)
    (h : Reached (linksPerBlock cfg.maxBlockSize) (blockCount cfg (d.length + 1)) blocks root i) :
    label cfg blocks root i = hash (tree i) := by
  have hn : 0 < blockCount cfg (d.length + 1) := requiredBitswapBlockCount_pos hm
  have hdata : (prefixedData tag d).length = d.length + 1 + 4 := length_prefixedData
  induction h with
  | root => rw [label, labelAt_zero, hroot]
  | @child i t hreached hsome ht ih =>
    obtain ⟨b, hb⟩ := Option.isSome_iff_exists.1 hsome
    have hi : i < blockCount cfg (d.length + 1) := hreached.lt hn
    have hblock := hb
    rw [show labelAt (linksPerBlock cfg.maxBlockSize) blocks root i = hash (tree i) from ih] at hblock
    obtain rfl := hfree i b hi hblock
    have hread := read_block htree (i := i) (by rw [hdata]; exact hi)
    rw [hdata] at hread
    have hlabel := labelAt_child hb hread (t := t) (by rw [length_children]; exact ht)
      (by rw [length_children]; exact childCount_le)
    rw [label, hlabel, getElem_children]

/-- **The encoder's blocks fit.** -/
theorem fitsAt_of_tree (hm : 34 < cfg.maxBlockSize)
    (htree : IsBlockTree cfg.maxBlockSize hash (prefixedData tag d) tree) (hi : i < blockCount cfg (d.length + 1)) :
    ∃ links chunk, readBitswapBlock (tree i) = some (links, chunk) ∧
      fitsAt (mkBitswapBlockSchemaLengthPrefixed cfg.maxBlockSize (d.length + 1)) (tree i).length links.length (i : Int) =
        true := by
  have hdata : (prefixedData tag d).length = d.length + 1 + 4 := length_prefixedData
  have hi' : i < requiredBitswapBlockCount cfg.maxBlockSize (prefixedData tag d).length := by
    rw [hdata]
    exact hi
  refine ⟨_, _, read_block htree hi', (fitsAt_iff hm hi).2 ⟨?_, ?_⟩⟩
  · rw [length_block hm htree (Nat.zero_le i) hi', hdata]
  · rw [length_children, hdata]

theorem chunkSize_zero {m : Nat} (len : Nat) (hm : 34 < m) (hvalid : 5 ≤ (m - 2) % 32) (hlen : 5 ≤ len) : 5 ≤ chunkSize m len 0 := by
  have hn : 0 < requiredBitswapBlockCount m len := requiredBitswapBlockCount_pos hm
  unfold chunkSize
  by_cases hlast : 0 + 1 = requiredBitswapBlockCount m len
  · rw [if_pos hlast, ← hlast]
    omega
  · have hlinks : linksOf m len 0 ≤ (m - 2) / 32 := by
      refine childCount_le.trans ?_
      unfold linksPerBlock bitswapBlockLinkSize
      dsimp only
      split
      · omega
      · exact le_rfl
    have hdiv := Nat.div_add_mod (m - 2) 32
    rw [if_neg hlast, bitswapBlockLinkSize]
    omega

/-- **The encoder's root block announces** the length of the data. -/
theorem announces_of_tree {conf : BitswapDataConfig} (hm : 34 < cfg.maxBlockSize) (hvalid : 5 ≤ (cfg.maxBlockSize - 2) % 32)
    (hconf : cfg.dataConfig tag = some conf) (hlen : d.length + 1 ≤ 2 ^ 32 - 1) (hmax : (d.length : Int) ≤ conf.maxSize)
    (htree : IsBlockTree cfg.maxBlockSize hash (prefixedData tag d) tree) :
    ∃ links chunk, readBitswapBlock (tree 0) = some (links, chunk) ∧ readRootLength cfg tag chunk = some (d.length + 1) := by
  have hn : 0 < requiredBitswapBlockCount cfg.maxBlockSize (prefixedData tag d).length := requiredBitswapBlockCount_pos hm
  have hlength : (prefixedData tag d).length = d.length + 1 + 4 := length_prefixedData
  have hsize := chunkSize_zero (prefixedData tag d).length hm hvalid (by omega)
  have hchunk := length_chunk hm hn
  refine ⟨_, _, read_block htree hn, readRootLength_eq_some.2 ⟨by omega, ?_, conf, hconf, by push_cast; omega⟩⟩
  have hstart : chunkStart cfg.maxBlockSize (prefixedData tag d).length 0 = 0 := chunkStart_zero hm
  have hsucc := chunkStart_succ hm hn
  rw [hstart, Nat.zero_add, Nat.zero_add] at hsucc
  refine ⟨d.take (chunkSize cfg.maxBlockSize (prefixedData tag d).length 0 - 5), ?_⟩
  unfold chunk
  rw [hstart, List.drop_zero, Nat.zero_add, hsucc, take_prefixedData hsize]

end Encode

end MinaProtocol.Bitswap
