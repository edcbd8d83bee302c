import Mathlib.Tactic
import MinaProtocol.Bitswap.Block

/-!
# Bitswap.BodyBlocks

Bitswap blocks of the OCaml node (`Bitswap_block`) and the reference of a block body. The node and the Go
helper lay blocks out alike, so `linkAt` and `encodeBlock` are shared; schema, splitting and joining are
the node's own. `none` is a failed assertion or an exception.
-/

namespace MinaProtocol.BitswapBlock

open Bitswap

def linkSize : Nat := 32

def absoluteMaxLinksPerBlock : Nat := 2 ^ 16 - 1

structure Schema where
  numTotalBlocks : Nat
  numFullBranchBlocks : Nat
  /-- 0 where there is no block with fewer links than the maximum. -/
  numLinksInPartialBranchBlock : Nat
  lastLeafBlockDataSize : Nat
  maxBlockDataSize : Nat
  maxLinksPerBlock : Nat
deriving DecidableEq

def requiredBitswapBlockCount (maxBlockSize dataLength : Nat) : Nat :=
  if dataLength ≤ maxBlockSize - 2 then 1
  else
    let n1 := dataLength - linkSize
    let n2 := maxBlockSize - linkSize - 2
    (n1 + n2 - 1) / n2

variable (maxBlockSize : Nat)

def maxLinksPerBlock : Nat :=
  min ((maxBlockSize - 2) / linkSize) absoluteMaxLinksPerBlock

def createSchema (maxBlockSize dataLength : Nat) : Schema :=
  let numTotalBlocks := requiredBitswapBlockCount maxBlockSize dataLength
  let lastLeafBlockDataSize := dataLength - (maxBlockSize - linkSize - 2) * (numTotalBlocks - 1)
  let maxLinksPerBlock := maxLinksPerBlock maxBlockSize
  let numFullBranchBlocks := (numTotalBlocks - 1) / maxLinksPerBlock
  { numTotalBlocks
    numFullBranchBlocks
    numLinksInPartialBranchBlock := numTotalBlocks - 1 - numFullBranchBlocks * maxLinksPerBlock
    lastLeafBlockDataSize
    maxBlockDataSize := maxBlockSize
    maxLinksPerBlock }

/-! ### Splitting -/

/-- What `blocks_of_data` updates. -/
structure State where
  remainingData : Nat
  blocks : BlockMap
  linkQueue : List BitswapBlockLink

/-- Take the last bytes of the data left. -/
def dequeueChunk (data : Bytes) (chunkSize : Nat) (s : State) : Option (Bytes × State) :=
  if s.remainingData ≥ chunkSize then
    let pos := s.remainingData - chunkSize
    some ((data.drop pos).take chunkSize, { s with remainingData := pos })
  else none

/-- Take links off the queue, each in front of those before it. -/
def dequeueLoop : Nat → List BitswapBlockLink → State → Option (List BitswapBlockLink × State)
  | 0, links, s => some (links, s)
  | n + 1, links, s =>
    match s.linkQueue with
    | [] => none
    | link :: queue => dequeueLoop n (link :: links) { s with linkQueue := queue }

def dequeueLinks (numLinks : Nat) (s : State) : Option (List BitswapBlockLink × State) :=
  if s.linkQueue.length ≥ numLinks then dequeueLoop numLinks [] s else none

variable (digest : Bytes → BitswapBlockLink)

def createBlock (data : Bytes) (links : List BitswapBlockLink) (chunkSize : Nat) (s : State) : Option State :=
  (dequeueChunk data chunkSize s).bind fun (chunk, s) =>
    let numLinks := links.length
    let size := 2 + numLinks * linkSize + chunkSize
    if numLinks > absoluteMaxLinksPerBlock ∨ size > maxBlockSize then none
    else
      let block := encodeBlock links chunk
      let hash := digest block
      some { s with
        blocks := Function.update s.blocks hash (some block)
        linkQueue := s.linkQueue ++ [hash] }

/-- Create a block with links from the queue. -/
def createLinkBlock (data : Bytes) (numLinks chunkSize : Nat) (s : State) : Option State :=
  (dequeueLinks numLinks s).bind fun (links, s) => createBlock maxBlockSize digest data links chunkSize s

/-- Create the block with fewer links than the maximum, if there is one. -/
def createNonMaxLinkBlock (data : Bytes) (numLinks : Nat) (s : State) : Option State :=
  if numLinks > 0 then
    createLinkBlock maxBlockSize digest data numLinks (maxBlockSize - 2 - numLinks * linkSize) s
  else some s

/-- Create the blocks before the last one. -/
def createOtherBlocks (data : Bytes) (schema : Schema) (s : State) : Option State :=
  let partialLinks := schema.numLinksInPartialBranchBlock
  let numDataOnlyBlocks :=
    schema.numTotalBlocks - schema.numFullBranchBlocks - 1 - (if partialLinks > 0 then 1 else 0)
  let fullLinkChunkSize := maxBlockSize - 2 - schema.maxLinksPerBlock * linkSize
  (repeatM (createBlock maxBlockSize digest data [] (maxBlockSize - 2)) numDataOnlyBlocks s).bind fun s =>
    (createNonMaxLinkBlock maxBlockSize digest data partialLinks s).bind fun s =>
      repeatM (createLinkBlock maxBlockSize digest data schema.maxLinksPerBlock fullLinkChunkSize)
        schema.numFullBranchBlocks s

def blocksOfData (data : Bytes) : Option (BlockMap × BitswapBlockLink) :=
  if maxBlockSize ≤ 2 + linkSize then none
  else
    let schema := createSchema maxBlockSize data.length
    let start : State := { remainingData := data.length, blocks := fun _ => none, linkQueue := [] }
    (createBlock maxBlockSize digest data [] schema.lastLeafBlockDataSize start).bind fun s =>
      (if schema.numTotalBlocks > 1 then createOtherBlocks maxBlockSize digest data schema s else some s).bind fun s =>
        if s.remainingData = 0 ∧ s.linkQueue.length = 1 then s.linkQueue.head?.map fun root => (s.blocks, root)
        else none

/-! ### Joining -/

def parseBlock (block : Bytes) : Option (List BitswapBlockLink × Bytes) :=
  if block.length < 2 then none
  else
    let numLinks := natLE (block.take 2)
    if block.length < 2 + numLinks * linkSize then none
    else some ((List.range numLinks).map (linkAt block), block.drop (2 + numLinks * linkSize))

/-- The loop over the queue of links, with the chunks reported so far; the outer `none` is no more fuel,
the inner an error. -/
def iterLinks (findBlock : BlockMap) : Nat → List BitswapBlockLink → List Bytes → Option (Option (List Bytes))
  | _, [], chunks => some (some chunks)
  | 0, _ :: _, _ => none
  | fuel + 1, hash :: linkQueue, chunks =>
    match findBlock hash with
    | none => some none
    | some block =>
      match parseBlock block with
      | none => some none
      | some (successiveLinks, chunk) => iterLinks findBlock fuel (linkQueue ++ successiveLinks) (chunks ++ [chunk])

def dataOfBlocks (blocks : BlockMap) (fuel : Nat) (rootHash : BitswapBlockLink) : Option (Option Bytes) :=
  (iterLinks blocks fuel [rootHash] []).map fun chunks => chunks.map List.flatten

/-! ### The reference of a body -/

/-- `Tag.to_enum Body`. -/
def bodyTag : UInt8 := 0

/-- A serialised body with its tag and the length of both in front. -/
def serializeWithLenAndTag (body : Bytes) : Option Bytes :=
  if body.length + 1 > 2 ^ 32 - 1 then none else some (bytesLE 4 (body.length + 1) ++ bodyTag :: body)

def computeReference (body : Bytes) : Option BitswapBlockLink :=
  (serializeWithLenAndTag body).bind fun bytes => (blocksOfData 262144 digest bytes).map Prod.snd

end MinaProtocol.BitswapBlock
