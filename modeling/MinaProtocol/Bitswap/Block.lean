import Mathlib.Data.List.GetD
import Mathlib.Tactic
import MinaProtocol.Lib.LittleEndian

/-!
# Bitswap.Block

Bitswap blocks of the Go helper: the layout of a block, the schema of a block tree, the splitting of
data into a block tree and its reading back. Blocks are built from the last to the first, their links
taken from a queue; `none` is a panic.

A Go map of blocks is the function that looks a link up.
-/

namespace MinaProtocol.Bitswap

abbrev Bytes := List UInt8

def bitswapBlockLinkSize : Nat := 32

/-- A 256-bit hash. -/
abbrev BitswapBlockLink := Vector UInt8 32

/-- The index of a node within a block tree. -/
abbrev NodeIndex := Int

abbrev BlockMap := BitswapBlockLink → Option Bytes

/-! ### The schema of a block tree -/

structure BitswapBlockSchema where
  numTotalBlocks : Nat
  numFullBranchBlocks : Nat
  numLinksInPartialBranchBlock : Nat
  lastLeafBlockDataSize : Nat
  maxBlockDataSize : Nat
  maxLinksPerBlock : Nat
deriving DecidableEq

variable (maxBlockDataSize : Nat)

def linksPerBlock : Nat :=
  let links := (maxBlockDataSize - 2) / bitswapBlockLinkSize
  if links > 65535 then 65535 else links

def requiredBitswapBlockCount (maxBlockDataSize dataLength : Nat) : Nat :=
  if dataLength ≤ maxBlockDataSize - 2 then 1
  else
    let n1 := dataLength - bitswapBlockLinkSize
    let n2 := maxBlockDataSize - bitswapBlockLinkSize - 2
    (n1 + n2 - 1) / n2

def mkBitswapBlockSchema (maxBlockDataSize dataLength : Nat) : BitswapBlockSchema :=
  let numTotalBlocks := requiredBitswapBlockCount maxBlockDataSize dataLength
  let lastBlockDataSz := dataLength - (maxBlockDataSize - bitswapBlockLinkSize - 2) * (numTotalBlocks - 1)
  let maxLinksPerBlock := linksPerBlock maxBlockDataSize
  let numFullBranchBlocks := (numTotalBlocks - 1) / maxLinksPerBlock
  { numTotalBlocks
    lastLeafBlockDataSize := lastBlockDataSz
    numFullBranchBlocks
    numLinksInPartialBranchBlock := numTotalBlocks - 1 - numFullBranchBlocks * maxLinksPerBlock
    maxBlockDataSize
    maxLinksPerBlock }

def mkBitswapBlockSchemaLengthPrefixed (maxBlockDataSize dataLength : Nat) : BitswapBlockSchema :=
  mkBitswapBlockSchema maxBlockDataSize (dataLength + 4)

def BitswapBlockSchema.blockSize (schema : BitswapBlockSchema) (id : NodeIndex) : Int :=
  if id = (schema.numTotalBlocks : Int) - 1 then schema.lastLeafBlockDataSize + 2 else schema.maxBlockDataSize

def BitswapBlockSchema.linkCount (schema : BitswapBlockSchema) (id : NodeIndex) : Nat :=
  if id < schema.numFullBranchBlocks then schema.maxLinksPerBlock
  else if id = schema.numFullBranchBlocks then schema.numLinksInPartialBranchBlock
  else 0

/-! ### Indices of leftmost vertices -/

/-- The indices of the left-most vertex on each depth of a block tree. -/
structure DepthIndices where
  indices : List Nat
  linksPerBlock : Nat

/-- The loop of `mkDepthIndices` from the last index found. An iteration adds at least one to it, so
`maxTotalBlocks` of them are enough. -/
def mkIndices (linksPerBlock maxTotalBlocks : Nat) : Nat → Nat → Nat → List Nat
  | 0, _, last => [last]
  | fuel + 1, val, last =>
    if last + val < maxTotalBlocks then
      last :: mkIndices linksPerBlock maxTotalBlocks fuel (val * linksPerBlock) (last + val)
    else [last]

def mkDepthIndices (linksPerBlock maxTotalBlocks : Nat) : DepthIndices :=
  { indices := mkIndices linksPerBlock maxTotalBlocks maxTotalBlocks 1 0, linksPerBlock }

/-- The index of the first child of a node, or -1. The search is for the first index past the node. -/
def DepthIndices.firstChildId (di : DepthIndices) (id : NodeIndex) : NodeIndex :=
  let depth := di.indices.findIdx fun ix : Nat => decide ((ix : Int) > id)
  if depth ≥ di.indices.length ∨ depth = 0 then -1
  else
    ((di.indices.getD depth 0 : Nat) : Int) + (id - (di.indices.getD (depth - 1) 0 : Nat)) * di.linksPerBlock

/-! ### One block -/

/-- The bytes of a block: the number of links, the links, the data. -/
def encodeBlock (links : List BitswapBlockLink) (chunk : Bytes) : Bytes :=
  bytesLE 2 links.length ++ links.flatMap Vector.toList ++ chunk

/-- The link at a position among those of a block. -/
def linkAt (block : Bytes) (i : Nat) : BitswapBlockLink :=
  Vector.ofFn fun j => block.getD (2 + i * bitswapBlockLinkSize + j) 0

/-- The links and the data of a block, unless it is too short for them. -/
def readBitswapBlock (block : Bytes) : Option (List BitswapBlockLink × Bytes) :=
  if block.length ≥ 2 then
    let l := natLE (block.take 2)
    let endOfLinks := bitswapBlockLinkSize * l + 2
    if block.length ≥ endOfLinks then some ((List.range l).map (linkAt block), block.drop endOfLinks) else none
  else none

/-- The length that the data of a root block starts with, and the rest of the data. -/
def extractLengthFromRootBlockData (data : Bytes) : Option (Bytes × Nat) :=
  if data.length < 4 then none else some (data.drop 4, natLE (data.take 4))

/-- The tag of the data of a block body. -/
def blockBodyTag : UInt8 := 0

/-! ### Splitting data into blocks -/

structure SplitState where
  res : BlockMap
  queue : List BitswapBlockLink
  /-- The end of the data not yet allocated to some block. -/
  dataEnd : Nat

variable (hashF : Bytes → BitswapBlockLink)

/-- Add the block with these links, in the order in which they left the queue. -/
def addBlock (links : List BitswapBlockLink) (chunk : Bytes) (s : SplitState) : Option SplitState :=
  let sz := links.length * bitswapBlockLinkSize + 2 + chunk.length
  if links.length > 65535 ∨ sz > maxBlockDataSize then none
  else
    let block := encodeBlock links.reverse chunk
    let blockLink := hashF block
    some { s with res := Function.update s.res blockLink (some block), queue := s.queue ++ [blockLink] }

/-- Add a block of `numLinks` links from the queue and of the `dsz` last bytes of the data left. -/
def addBlockOf (data : Bytes) (numLinks dsz : Nat) (s : SplitState) : Option SplitState :=
  if s.dataEnd < dsz ∨ s.queue.length < numLinks then none
  else
    let chunk := (data.take s.dataEnd).drop (s.dataEnd - dsz)
    addBlock maxBlockDataSize hashF (s.queue.take numLinks) chunk
      { s with queue := s.queue.drop numLinks, dataEnd := s.dataEnd - dsz }

/-- Repeat a step that may panic. -/
def repeatM {S : Type} (step : S → Option S) : Nat → S → Option S
  | 0, s => some s
  | n + 1, s => (step s).bind (repeatM step n)

/-- Add the block with fewer links than a full one, where there is one. -/
def addPartialBranchBlock (data : Bytes) (lRem : Nat) (s : SplitState) : Option SplitState :=
  if lRem > 0 then
    addBlockOf maxBlockDataSize hashF data lRem (maxBlockDataSize - 2 - lRem * bitswapBlockLinkSize) s
  else some s

/-- Add the blocks before the last one: those of data only, the partial one, the full ones. -/
def addOtherBlocks (data : Bytes) (schema : BitswapBlockSchema) (s : SplitState) : Option SplitState :=
  let maxSize := schema.maxBlockDataSize
  let lRem := schema.numLinksInPartialBranchBlock
  let dataBlocks := schema.numTotalBlocks - schema.numFullBranchBlocks - 1 - (if lRem > 0 then 1 else 0)
  let dsz := maxSize - 2 - schema.maxLinksPerBlock * bitswapBlockLinkSize
  (repeatM (addBlockOf maxSize hashF data 0 (maxSize - 2)) dataBlocks s).bind fun s =>
    (addPartialBranchBlock maxSize hashF data lRem s).bind fun s =>
      repeatM (addBlockOf maxSize hashF data schema.maxLinksPerBlock dsz) schema.numFullBranchBlocks s

def splitDataToBitswapBlocksWithHashF (data : Bytes) : Option (BlockMap × BitswapBlockLink) :=
  if maxBlockDataSize ≤ 2 + bitswapBlockLinkSize then none
  else
    let schema := mkBitswapBlockSchema maxBlockDataSize data.length
    let start : SplitState := { res := fun _ => none, queue := [], dataEnd := data.length }
    (addBlockOf maxBlockDataSize hashF data 0 schema.lastLeafBlockDataSize start).bind fun s =>
      (if schema.numTotalBlocks > 1 then addOtherBlocks hashF data schema s else some s).bind fun s =>
        s.queue.head?.map fun root => (s.res, root)

/-- The data with its length in front. -/
def splitDataToBitswapBlocksLengthPrefixedWithHashF (data : Bytes) : Option (BlockMap × BitswapBlockLink) :=
  if maxBlockDataSize < 2 + bitswapBlockLinkSize + 4 then none
  else if data.length > 2 ^ 32 - 1 then none
  else splitDataToBitswapBlocksWithHashF maxBlockDataSize hashF (bytesLE 4 data.length ++ data)

/-- The data with its tag and the length of both in front. -/
def splitDataToBitswapBlocksLengthPrefixedWithTag (data : Bytes) (tag : UInt8) : Option (BlockMap × BitswapBlockLink) :=
  splitDataToBitswapBlocksLengthPrefixedWithHashF maxBlockDataSize hashF (tag :: data)

/-! ### Joining blocks -/

/-- What one iteration of a traversal reads: the data and the links of the block of a link. -/
def readLinkedBlock (blocks : BlockMap) (link : BitswapBlockLink) : Option (Bytes × List BitswapBlockLink) :=
  (blocks link).bind fun block => (readBitswapBlock block).map fun r => (r.2, r.1)

/-- The loop of `joinBitswapBlocks`; the outer `none` is no more fuel, the inner an error. -/
def joinLoop (blocks : BlockMap) : Nat → List BitswapBlockLink → List Bytes → Option (Option Bytes)
  | _, [], res => some (some res.flatten)
  | 0, _ :: _, _ => none
  | fuel + 1, link :: queue, res =>
    match readLinkedBlock blocks link with
    | none => some none
    | some (data, links) => joinLoop blocks fuel (queue ++ links) (res ++ [data])

/-- Join the data of the blocks in level order. -/
def joinBitswapBlocks (blocks : BlockMap) (fuel : Nat) (root : BitswapBlockLink) : Option (Option Bytes) :=
  joinLoop blocks fuel [root] []

/-- A hash for examples: it keeps the first 32 bytes. -/
def prefixHash (block : Bytes) : BitswapBlockLink := Vector.ofFn fun i => block.getD i 0

/-! ### Reading what was written -/

theorem length_flatMap_toList (links : List BitswapBlockLink) :
    (links.flatMap Vector.toList).length = bitswapBlockLinkSize * links.length := by
  induction links with
  | nil => rfl
  | cons l links ih =>
    rw [List.flatMap_cons, List.length_append, ih, Vector.length_toList, List.length_cons]
    unfold bitswapBlockLinkSize
    omega

theorem length_encodeBlock (links : List BitswapBlockLink) (chunk : Bytes) :
    (encodeBlock links chunk).length = 2 + bitswapBlockLinkSize * links.length + chunk.length := by
  unfold encodeBlock
  rw [List.length_append, List.length_append, length_bytesLE, length_flatMap_toList]

variable {links : List BitswapBlockLink} {block : Bytes} {chunk : Bytes} {i j : Nat}

theorem getD_flatMap_toList (hi : i < links.length) (hj : j < 32) :
    (links.flatMap Vector.toList).getD (i * 32 + j) 0 = (links[i])[j] := by
  induction links generalizing i with
  | nil => simp at hi
  | cons l links ih =>
    rw [List.flatMap_cons]
    cases i with
    | zero =>
      rw [Nat.zero_mul, Nat.zero_add, List.getD_append _ _ _ _ (by simpa using hj), List.getD_eq_getElem _ _ (by simpa using hj)]
      simp
    | succ i =>
      have hle : l.toList.length ≤ (i + 1) * 32 + j := by
        rw [Vector.length_toList]
        omega
      have hsub : (i + 1) * 32 + j - l.toList.length = i * 32 + j := by
        rw [Vector.length_toList]
        omega
      rw [List.getD_append_right _ _ _ _ hle, hsub, ih (by simpa using hi)]
      simp

theorem getElem_linkAt (hj : j < 32) : (linkAt block i)[j] = block.getD (2 + i * bitswapBlockLinkSize + j) 0 := by
  unfold linkAt
  rw [Vector.getElem_ofFn]

theorem linkAt_encodeBlock (hi : i < links.length) : linkAt (encodeBlock links chunk) i = links[i] := by
  refine Vector.ext fun j hj => ?_
  have hlt : i * 32 + j < (links.flatMap Vector.toList).length := by
    rw [length_flatMap_toList]
    unfold bitswapBlockLinkSize
    omega
  have hoff : 2 + i * bitswapBlockLinkSize + j - (bytesLE 2 links.length).length = i * 32 + j := by
    rw [length_bytesLE]
    unfold bitswapBlockLinkSize
    omega
  unfold encodeBlock
  rw [getElem_linkAt hj, List.append_assoc, List.getD_append_right _ _ _ _ (by rw [length_bytesLE]; omega), hoff,
    List.getD_append _ _ _ _ hlt, getD_flatMap_toList hi hj]

/-- **A block is read as it was written.** -/
theorem readBitswapBlock_encodeBlock (h : links.length ≤ 65535) :
    readBitswapBlock (encodeBlock links chunk) = some (links, chunk) := by
  have hlen := length_encodeBlock links chunk
  have hcount : natLE ((encodeBlock links chunk).take 2) = links.length := by
    unfold encodeBlock
    rw [List.append_assoc, List.take_append_of_le_length (by rw [length_bytesLE]),
      List.take_of_length_le (by rw [length_bytesLE]), natLE_bytesLE (by omega)]
  unfold readBitswapBlock
  rw [if_pos (by omega)]
  dsimp only
  rw [hcount, if_pos (by omega)]
  congr 2
  · refine List.ext_getElem (by simp) fun i hi hi' => ?_
    rw [List.getElem_map, List.getElem_range, linkAt_encodeBlock hi']
  · unfold encodeBlock
    rw [List.drop_left' ?_]
    rw [List.length_append, length_bytesLE, length_flatMap_toList]
    omega

theorem toList_linkAt (h : 2 + bitswapBlockLinkSize * (i + 1) ≤ block.length) :
    (linkAt block i).toList = (block.drop (2 + bitswapBlockLinkSize * i)).take bitswapBlockLinkSize := by
  unfold bitswapBlockLinkSize at h
  refine List.ext_getElem ?_ fun j hj hj' => ?_
  · rw [Vector.length_toList, List.length_take, List.length_drop]
    unfold bitswapBlockLinkSize
    omega
  · have hj32 := hj
    rw [Vector.length_toList] at hj32
    rw [Vector.getElem_toList, getElem_linkAt hj32, List.getElem_take, List.getElem_drop, Nat.mul_comm i]
    exact List.getD_eq_getElem _ _ _

theorem flatMap_linkAt {l : Nat} (h : 2 + bitswapBlockLinkSize * l ≤ block.length) :
    ((List.range l).map (linkAt block)).flatMap Vector.toList = (block.drop 2).take (bitswapBlockLinkSize * l) := by
  induction l with
  | zero => simp
  | succ l ih =>
    have hl : 2 + bitswapBlockLinkSize * l ≤ block.length := by
      rw [Nat.mul_succ] at h
      omega
    rw [List.range_succ, List.map_append, List.flatMap_append, ih hl, List.map_singleton, List.flatMap_singleton,
      toList_linkAt h, Nat.mul_succ, List.take_add, List.drop_drop]

/-- **A block that is read is that of its links and data.** -/
theorem encodeBlock_of_read
    (h : readBitswapBlock block = some (links, chunk)) : block = encodeBlock links chunk ∧ links.length ≤ 65535 := by
  unfold readBitswapBlock at h
  dsimp only at h
  split at h
  · rename_i h2
    split at h
    · rename_i hlinks
      obtain ⟨rfl, rfl⟩ := Prod.mk.inj (Option.some.inj h)
      have htake : (block.take 2).length = 2 := by
        rw [List.length_take]
        omega
      have hcount := natLE_lt (block.take 2)
      rw [htake] at hcount
      refine ⟨?_, by rw [List.length_map, List.length_range]; omega⟩
      unfold encodeBlock
      rw [List.length_map, List.length_range, bytesLE_natLE htake, flatMap_linkAt (by omega), List.append_assoc]
      conv_lhs => rw [← List.take_append_drop 2 block, ← List.take_append_drop (bitswapBlockLinkSize * natLE (block.take 2)) (block.drop 2), List.drop_drop]
      rw [Nat.add_comm 2]
    · cases h
  · cases h

end MinaProtocol.Bitswap
