import Mathlib.Tactic
import MinaProtocol.Bitswap.BodyBlocks
import MinaProtocol.Bitswap.Tree

/-!
# Bitswap.Agreement

The node and the helper write and read one format. The node's splitting follows the helper's block by
block, with its assertions true along the way; both joinings visit the tree of blocks in level order and
return the data.
-/

namespace MinaProtocol.Bitswap

open LevelOrder

/-! ### The node splits as the helper does -/

/-- The state of the helper's splitting that a state of the node's stands for. -/
def splitState (s : BitswapBlock.State) : SplitState :=
  { res := s.blocks, queue := s.linkQueue, dataEnd := s.remainingData }

theorem linksPerBlock_eq (m : Nat) : BitswapBlock.maxLinksPerBlock m = linksPerBlock m := by
  unfold BitswapBlock.maxLinksPerBlock linksPerBlock BitswapBlock.absoluteMaxLinksPerBlock BitswapBlock.linkSize
    bitswapBlockLinkSize
  dsimp only
  split <;> omega

variable {s : BitswapBlock.State} {t t' : SplitState} {links : List BitswapBlockLink} {n : Nat}

theorem dequeueLoop_eq (h : n ≤ s.linkQueue.length) : BitswapBlock.dequeueLoop n links s =
      some ((s.linkQueue.take n).reverse ++ links, { s with linkQueue := s.linkQueue.drop n }) := by
  induction n generalizing links s with
  | zero => rfl
  | succ n ih =>
    unfold BitswapBlock.dequeueLoop
    cases hq : s.linkQueue with
    | nil =>
      rw [hq, List.length_nil] at h
      omega
    | cons link queue =>
      rw [hq, List.length_cons] at h
      dsimp only
      rw [ih (by dsimp only; omega)]
      simp

variable {m : Nat} {hash : Bytes → BitswapBlockLink} {data : Bytes}
  {queue : List BitswapBlockLink} {chunks res : List Bytes} {blocks : BlockMap} {fuel : Nat}

theorem addBlock_eq_some {chunk : Bytes} (h : addBlock m hash links chunk t = some t') :
    links.length ≤ 65535 ∧ links.length * bitswapBlockLinkSize + 2 + chunk.length ≤ m ∧
      t' = { t with
        res := Function.update t.res (hash (encodeBlock links.reverse chunk)) (some (encodeBlock links.reverse chunk))
        queue := t.queue ++ [hash (encodeBlock links.reverse chunk)] } := by
  unfold addBlock at h
  dsimp only at h
  by_cases hbig : links.length > 65535 ∨ links.length * bitswapBlockLinkSize + 2 + chunk.length > m
  · rw [if_pos hbig] at h
    cases h
  · rw [if_neg hbig] at h
    exact ⟨by omega, by omega, (Option.some.inj h).symm⟩

/-- A state of the node's splitting with the helper's state for it. -/
structure Sim (data : Bytes) (s : BitswapBlock.State) (t : SplitState) : Prop where
  eq : splitState s = t
  remaining : s.remainingData ≤ data.length

theorem Sim.createLinkBlock {numLinks dsz : Nat} (h : Sim data s t)
    (hadd : addBlockOf m hash data numLinks dsz t = some t') :
    ∃ s', BitswapBlock.createLinkBlock m hash data numLinks dsz s = some s' ∧ Sim data s' t' := by
  obtain ⟨rfl, hrem⟩ := h
  unfold addBlockOf at hadd
  split at hadd
  · cases hadd
  · rename_i henough
    dsimp only [splitState] at henough
    have hlen : ((data.drop (s.remainingData - dsz)).take dsz).length = dsz := by
      rw [List.length_take, List.length_drop]
      omega
    have hcut : (data.take s.remainingData).drop (s.remainingData - dsz) =
        (data.drop (s.remainingData - dsz)).take dsz := by
      rw [List.drop_take]
      congr 1
      omega
    obtain ⟨hlinks, hsize, rfl⟩ := addBlock_eq_some hadd
    dsimp only [splitState] at hlinks hsize ⊢
    have hcount : (s.linkQueue.take numLinks).length = numLinks := by
      rw [List.length_take]
      omega
    rw [hcount] at hlinks hsize
    rw [hcut] at hsize ⊢
    rw [hlen] at hsize
    set block := encodeBlock (s.linkQueue.take numLinks).reverse ((data.drop (s.remainingData - dsz)).take dsz) with hblock
    refine ⟨{ remainingData := s.remainingData - dsz
              blocks := Function.update s.blocks (hash block) (some block)
              linkQueue := s.linkQueue.drop numLinks ++ [hash block] }, ?_, rfl, by dsimp only; omega⟩
    unfold BitswapBlock.createLinkBlock BitswapBlock.dequeueLinks
    rw [if_pos (by omega), dequeueLoop_eq (by omega), Option.bind_some, List.append_nil]
    unfold BitswapBlock.createBlock BitswapBlock.dequeueChunk
    dsimp only
    rw [if_pos (by omega), Option.bind_some]
    dsimp only
    rw [List.length_reverse, hcount, ← hblock]
    have hfits : ¬ (numLinks > BitswapBlock.absoluteMaxLinksPerBlock ∨ 2 + numLinks * BitswapBlock.linkSize + dsz > m) := by
      unfold BitswapBlock.absoluteMaxLinksPerBlock BitswapBlock.linkSize
      unfold bitswapBlockLinkSize at hsize
      omega
    rw [if_neg hfits]

theorem createBlock_nil (s : BitswapBlock.State) (dsz : Nat) :
    BitswapBlock.createBlock m hash data [] dsz s = BitswapBlock.createLinkBlock m hash data 0 dsz s := by
  unfold BitswapBlock.createLinkBlock BitswapBlock.dequeueLinks
  rw [if_pos (Nat.zero_le _)]
  rfl

theorem Sim.repeatM (step : BitswapBlock.State → Option BitswapBlock.State) {step' : SplitState → Option SplitState}
    (hstep : ∀ s t t', Sim data s t → step' t = some t' → ∃ s', step s = some s' ∧ Sim data s' t')
    (h : Sim data s t) (hrun : Bitswap.repeatM step' n t = some t') :
    ∃ s', Bitswap.repeatM step n s = some s' ∧ Sim data s' t' := by
  induction n generalizing s t with
  | zero =>
    obtain rfl := Option.some.inj hrun
    exact ⟨s, rfl, h⟩
  | succ n ih =>
    obtain ⟨t₁, hfirst, hrest⟩ := Option.bind_eq_some_iff.1 hrun
    obtain ⟨s₁, hs₁, h₁⟩ := hstep s t t₁ h hfirst
    obtain ⟨s', hs', h'⟩ := ih h₁ hrest
    exact ⟨s', by rw [Bitswap.repeatM, hs₁, Option.bind_some, hs'], h'⟩

theorem createSchema_eq (m len : Nat) : BitswapBlock.createSchema m len =
      { numTotalBlocks := (mkBitswapBlockSchema m len).numTotalBlocks
        numFullBranchBlocks := (mkBitswapBlockSchema m len).numFullBranchBlocks
        numLinksInPartialBranchBlock := (mkBitswapBlockSchema m len).numLinksInPartialBranchBlock
        lastLeafBlockDataSize := (mkBitswapBlockSchema m len).lastLeafBlockDataSize
        maxBlockDataSize := (mkBitswapBlockSchema m len).maxBlockDataSize
        maxLinksPerBlock := (mkBitswapBlockSchema m len).maxLinksPerBlock } := by
  unfold BitswapBlock.createSchema mkBitswapBlockSchema
  dsimp only
  rw [linksPerBlock_eq]
  rfl

theorem Sim.createOtherBlocks (h : Sim data s t)
    (hadd : addOtherBlocks hash data (mkBitswapBlockSchema m data.length) t = some t') :
    ∃ s', BitswapBlock.createOtherBlocks m hash data (BitswapBlock.createSchema m data.length) s = some s' ∧
      Sim data s' t' := by
  rw [createSchema_eq]
  unfold addOtherBlocks at hadd
  obtain ⟨t₁, hdata, hadd⟩ := Option.bind_eq_some_iff.1 hadd
  obtain ⟨t₂, hpartial, hfull⟩ := Option.bind_eq_some_iff.1 hadd
  have hm : (mkBitswapBlockSchema m data.length).maxBlockDataSize = m := rfl
  rw [hm] at hdata hpartial hfull
  obtain ⟨s₁, hs₁, h₁⟩ := h.repeatM (BitswapBlock.createBlock m hash data [] (m - 2))
    (fun s t t' hst hstep => by rw [createBlock_nil]; exact hst.createLinkBlock hstep) hdata
  have hmid : ∃ s₂, BitswapBlock.createNonMaxLinkBlock m hash data
      (mkBitswapBlockSchema m data.length).numLinksInPartialBranchBlock s₁ = some s₂ ∧ Sim data s₂ t₂ := by
    unfold addPartialBranchBlock at hpartial
    unfold BitswapBlock.createNonMaxLinkBlock
    split at hpartial
    · rename_i hpos
      rw [if_pos hpos]
      exact h₁.createLinkBlock hpartial
    · rename_i hpos
      obtain rfl := Option.some.inj hpartial
      rw [if_neg hpos]
      exact ⟨s₁, rfl, h₁⟩
  obtain ⟨s₂, hs₂, h₂⟩ := hmid
  obtain ⟨s₃, hs₃, h₃⟩ := h₂.repeatM
    (BitswapBlock.createLinkBlock m hash data (mkBitswapBlockSchema m data.length).maxLinksPerBlock
      (m - 2 - (mkBitswapBlockSchema m data.length).maxLinksPerBlock * BitswapBlock.linkSize))
    (fun s t t' hst hstep => hst.createLinkBlock hstep) hfull
  refine ⟨s₃, ?_, h₃⟩
  unfold BitswapBlock.createOtherBlocks
  dsimp only at hs₁ hs₂ hs₃ ⊢
  rw [hs₁, Option.bind_some, hs₂, Option.bind_some, hs₃]

/-- **The node and the helper split data into the same blocks.** -/
theorem blocksOfData_eq (hm : 34 < m) : BitswapBlock.blocksOfData m hash data = splitDataToBitswapBlocksWithHashF m hash data := by
  obtain ⟨t₀, tree, t, hlast, hothers, h⟩ := built_all hash data hm
  have hstart : Sim data { remainingData := data.length, blocks := fun _ => none, linkQueue := [] }
      { res := fun _ => none, queue := [], dataEnd := data.length } := ⟨rfl, le_rfl⟩
  obtain ⟨s₀, hs₀, h₀⟩ := hstart.createLinkBlock hlast
  have hend : ∃ s, (if (mkBitswapBlockSchema m data.length).numTotalBlocks > 1 then
      BitswapBlock.createOtherBlocks m hash data (BitswapBlock.createSchema m data.length) s₀ else some s₀) = some s ∧
      Sim data s t := by
    split at hothers
    · rename_i hmany
      obtain ⟨s, hs, hsim⟩ := h₀.createOtherBlocks hothers
      exact ⟨s, by rw [if_pos hmany]; exact hs, hsim⟩
    · rename_i hmany
      obtain rfl := Option.some.inj hothers
      exact ⟨s₀, by rw [if_neg hmany], h₀⟩
  obtain ⟨s, hs, hsim⟩ := hend
  have hqueue := h.queue_zero hm
  have hremaining : s.remainingData = 0 := by
    have hd := h.dataEnd
    rw [← hsim.eq, chunkStart_zero hm] at hd
    exact hd
  have hlinks : s.linkQueue = [hash (tree 0)] := by
    rw [← hsim.eq] at hqueue
    exact hqueue
  have hblocks : s.blocks = t.res := by
    rw [← hsim.eq]
    rfl
  have hfirst : (BitswapBlock.createSchema m data.length).lastLeafBlockDataSize =
      (mkBitswapBlockSchema m data.length).lastLeafBlockDataSize := by rw [createSchema_eq]
  have hcount : (BitswapBlock.createSchema m data.length).numTotalBlocks =
      (mkBitswapBlockSchema m data.length).numTotalBlocks := by rw [createSchema_eq]
  have hsmall : ¬ m ≤ 2 + 32 := by omega
  unfold BitswapBlock.blocksOfData splitDataToBitswapBlocksWithHashF BitswapBlock.linkSize bitswapBlockLinkSize
  rw [if_neg hsmall, if_neg hsmall]
  dsimp only
  rw [createBlock_nil, hfirst, hs₀, Option.bind_some, hcount, hs, Option.bind_some, hlast, Option.bind_some, hothers,
    Option.bind_some, if_pos ⟨hremaining, by rw [hlinks]; rfl⟩, hlinks, hqueue, hblocks]

/-! ### Joining -/

/-- What a traversal of a map of blocks visits: a block and its links. -/
def visitBlock (blocks : BlockMap) (link : BitswapBlockLink) : Option (Bytes × List BitswapBlockLink) :=
  (blocks link).bind fun block => (readBitswapBlock block).map fun r => (block, r.1)

theorem parseBlock_eq (block : Bytes) : BitswapBlock.parseBlock block = readBitswapBlock block := by
  unfold BitswapBlock.parseBlock readBitswapBlock BitswapBlock.linkSize bitswapBlockLinkSize
  dsimp only
  have hcomm : 32 * natLE (block.take 2) + 2 = 2 + natLE (block.take 2) * 32 := by omega
  rw [hcomm]
  by_cases h2 : block.length < 2
  · rw [if_pos h2, if_neg (show ¬ block.length ≥ 2 by omega)]
  · rw [if_neg h2, if_pos (show block.length ≥ 2 by omega)]
    by_cases hlinks : block.length < 2 + natLE (block.take 2) * 32
    · rw [if_pos hlinks, if_neg (show ¬ block.length ≥ 2 + natLE (block.take 2) * 32 by omega)]
    · rw [if_neg hlinks, if_pos (show block.length ≥ 2 + natLE (block.take 2) * 32 by omega)]

/-- **The helper joins what a traversal visits.** -/
theorem joinLoop_of_visits (h : Visits (readLinkedBlock blocks) queue chunks) (hfuel : chunks.length ≤ fuel) :
    joinLoop blocks fuel queue res = some (some (res ++ chunks).flatten) := by
  induction h generalizing res fuel with
  | nil =>
    rw [List.append_nil]
    cases fuel <;> rfl
  | cons hl _ ih =>
    cases fuel with
    | zero => simp at hfuel
    | succ fuel =>
      unfold joinLoop
      rw [hl]
      dsimp only
      rw [ih (Nat.le_of_succ_le_succ hfuel), List.append_assoc]
      rfl

/-- **The node joins what a traversal visits.** -/
theorem iterLinks_of_visits (h : Visits (readLinkedBlock blocks) queue chunks) (hfuel : chunks.length ≤ fuel) :
    BitswapBlock.iterLinks blocks fuel queue res = some (some (res ++ chunks)) := by
  induction h generalizing res fuel with
  | nil =>
    rw [List.append_nil]
    cases fuel <;> rfl
  | @cons l chunk links queue chunks hl _ ih =>
    cases fuel with
    | zero => simp at hfuel
    | succ fuel =>
      obtain ⟨block, hblock, hread⟩ := Option.bind_eq_some_iff.1 hl
      obtain ⟨⟨links', chunk'⟩, hparse, heq⟩ := Option.map_eq_some_iff.1 hread
      obtain ⟨rfl, rfl⟩ := Prod.mk.inj heq
      unfold BitswapBlock.iterLinks
      rw [hblock]
      dsimp only
      rw [parseBlock_eq, hparse]
      dsimp only
      rw [ih (Nat.le_of_succ_le_succ hfuel), List.append_assoc]
      rfl

section Traversal

variable {tree : Nat → Bytes} {i : Nat}

/-- No two blocks of the tree for the data collide. -/
def CollisionFree (m : Nat) (hash : Bytes → BitswapBlockLink) (data : Bytes) (tree : Nat → Bytes) : Prop :=
  ∀ i j, i < requiredBitswapBlockCount m data.length → j < requiredBitswapBlockCount m data.length →
    hash (tree i) = hash (tree j) → tree i = tree j

theorem read_block (h : IsBlockTree m hash data tree) (hi : i < requiredBitswapBlockCount m data.length) :
    readBitswapBlock (tree i) =
      some (children (linksPerBlock m) (requiredBitswapBlockCount m data.length) (fun c => hash (tree c)) i,
        chunk m data i) := by
  rw [h i (Nat.zero_le i) hi, readBitswapBlock_encodeBlock]
  rw [length_children]
  exact childCount_le.trans linksPerBlock_le

theorem Built.lookup {t : SplitState} (h : Built m hash data tree 0 t) (hfree : CollisionFree m hash data tree)
    (hi : i < requiredBitswapBlockCount m data.length) : t.res (hash (tree i)) = some (tree i) := by
  obtain ⟨b, hb⟩ := Option.isSome_iff_exists.1 (h.complete i (Nat.zero_le i) hi)
  obtain ⟨hhash, j, -, hj, rfl⟩ := h.sound _ b hb
  rw [hb, hfree j i hj hi hhash]

/-- **The tree is visited block by block.** -/
theorem Built.visits {t : SplitState} (hm : 34 < m) (h : Built m hash data tree 0 t)
    (hfree : CollisionFree m hash data tree) :
    Visits (visitBlock t.res) [hash (tree 0)] ((List.range (requiredBitswapBlockCount m data.length)).map tree) := by
  refine LevelOrder.visits (fun c => hash (tree c)) (linksPerBlock_pos hm) (requiredBitswapBlockCount_pos hm)
    fun i hi => ?_
  unfold visitBlock
  rw [h.lookup hfree hi, Option.bind_some, read_block h.blocks hi]
  rfl

/-- **The data is visited chunk by chunk.** -/
theorem Built.visits_chunks {t : SplitState} (hm : 34 < m) (h : Built m hash data tree 0 t)
    (hfree : CollisionFree m hash data tree) : Visits (readLinkedBlock t.res) [hash (tree 0)]
      ((List.range (requiredBitswapBlockCount m data.length)).map (chunk m data)) := by
  refine LevelOrder.visits (fun c => hash (tree c)) (linksPerBlock_pos hm) (requiredBitswapBlockCount_pos hm)
    fun i hi => ?_
  unfold readLinkedBlock
  rw [h.lookup hfree hi, Option.bind_some, read_block h.blocks hi]
  rfl

theorem flatten_all_chunks (hm : 34 < m) (data : Bytes) :
    ((List.range (requiredBitswapBlockCount m data.length)).map (chunk m data)).flatten = data := by
  rw [flatten_chunks hm le_rfl, chunkStart_blockCount, List.take_length]

theorem Built.join {t : SplitState} (hm : 34 < m) (h : Built m hash data tree 0 t)
    (hfree : CollisionFree m hash data tree) {fuel : Nat} (hfuel : requiredBitswapBlockCount m data.length ≤ fuel) :
    joinBitswapBlocks t.res fuel (hash (tree 0)) = some (some data) ∧
      BitswapBlock.dataOfBlocks t.res fuel (hash (tree 0)) = some (some data) := by
  have hvisits := h.visits_chunks hm hfree
  have hlen : ((List.range (requiredBitswapBlockCount m data.length)).map (chunk m data)).length ≤ fuel := by
    rw [List.length_map, List.length_range]
    exact hfuel
  constructor
  · unfold joinBitswapBlocks
    rw [joinLoop_of_visits hvisits hlen, List.nil_append, flatten_all_chunks hm]
  · unfold BitswapBlock.dataOfBlocks
    rw [iterLinks_of_visits hvisits hlen, List.nil_append]
    dsimp only [Option.map_some]
    rw [flatten_all_chunks hm]

end Traversal

theorem computeReference_eq (hash : Bytes → BitswapBlockLink) (body : Bytes) : BitswapBlock.computeReference hash body =
      (splitDataToBitswapBlocksLengthPrefixedWithTag (2 ^ 18) hash body blockBodyTag).map Prod.snd := by
  unfold BitswapBlock.computeReference BitswapBlock.serializeWithLenAndTag
    splitDataToBitswapBlocksLengthPrefixedWithTag splitDataToBitswapBlocksLengthPrefixedWithHashF
  have htag : BitswapBlock.bodyTag = blockBodyTag := rfl
  have hpow : 2 ^ 18 = 262144 := by norm_num
  have hsize : ¬ 262144 < 2 + bitswapBlockLinkSize + 4 := by
    unfold bitswapBlockLinkSize
    norm_num
  rw [hpow, htag, List.length_cons, if_neg hsize]
  by_cases hlarge : body.length + 1 > 2 ^ 32 - 1
  · rw [if_pos hlarge, if_pos hlarge]
    rfl
  · rw [if_neg hlarge, if_neg hlarge, Option.bind_some, blocksOfData_eq (by norm_num)]

/-- **One format, two implementations.** The helper and the node split data into the same blocks with the
same root. The tree of these has as many blocks as required, all but the last of the maximal size, the last
without links, and both sides join it to the data. A body's reference is the root the helper announces. -/
theorem bitswap_blocks_agree (m : Nat) (hm : 34 < m) (hash : Bytes → BitswapBlockLink) (data : Bytes)
    (hfree : ∀ tree, IsBlockTree m hash data tree → CollisionFree m hash data tree) : (∃ blocks root,
      splitDataToBitswapBlocksWithHashF m hash data = some (blocks, root) ∧
      BitswapBlock.blocksOfData m hash data = some (blocks, root) ∧
      (∃ bs last, Visits (visitBlock blocks) [root] (bs ++ [last]) ∧
        (bs ++ [last]).length = requiredBitswapBlockCount m data.length ∧
        (bs ++ [last]).length = BitswapBlock.requiredBitswapBlockCount m data.length ∧
        (∀ b ∈ bs, b.length = m) ∧ ∃ chunk, readBitswapBlock last = some ([], chunk)) ∧
      ∀ fuel, requiredBitswapBlockCount m data.length ≤ fuel → joinBitswapBlocks blocks fuel root = some (some data) ∧
          BitswapBlock.dataOfBlocks blocks fuel root = some (some data)) ∧
    ∀ body, BitswapBlock.computeReference hash body =
      (splitDataToBitswapBlocksLengthPrefixedWithTag (2 ^ 18) hash body blockBodyTag).map Prod.snd := by
  obtain ⟨tree, t, h, hsplit⟩ := splitDataToBitswapBlocksWithHashF_eq hash data hm
  have hn : 0 < requiredBitswapBlockCount m data.length := requiredBitswapBlockCount_pos hm
  have hlast : requiredBitswapBlockCount m data.length - 1 + 1 = requiredBitswapBlockCount m data.length := by omega
  have hfree := hfree tree h.blocks
  have hvisits := h.visits hm hfree
  rw [← hlast, List.range_succ, List.map_append, List.map_singleton] at hvisits
  refine ⟨⟨t.res, hash (tree 0), hsplit, by rw [blocksOfData_eq hm, hsplit], ⟨_, _, hvisits, ?_, ?_, ?_, ?_⟩,
    fun fuel hfuel => h.join hm hfree hfuel⟩, computeReference_eq hash⟩
  · simp [hlast]
  · rw [List.length_append, List.length_map, List.length_range, List.length_singleton, hlast]
    rfl
  · intro b hb
    obtain ⟨i, hi, rfl⟩ := List.mem_map.1 hb
    rw [List.mem_range] at hi
    rw [length_block hm h.blocks (Nat.zero_le i) (by omega), size_of_block hm (by omega)]
  · refine ⟨chunk m data (requiredBitswapBlockCount m data.length - 1), ?_⟩
    have hnone : childCount (linksPerBlock m) (requiredBitswapBlockCount m data.length)
        (requiredBitswapBlockCount m data.length - 1) = 0 := linksOf_last hm hlast
    rw [read_block h.blocks (by omega), children, hnone]
    rfl

theorem getD_prefixHash {b b' : Bytes} (h : prefixHash b = prefixHash b') : b.getD 0 0 = b'.getD 0 0 := by
  have h0 := congrArg (fun v : BitswapBlockLink => v[0]) h
  unfold prefixHash at h0
  simpa using h0

theorem getD_encodeBlock (links : List BitswapBlockLink) (chunk : Bytes) :
    (encodeBlock links chunk).getD 0 0 = UInt8.ofNat (links.length % 256) := by
  unfold encodeBlock
  rw [bytesLE_succ]
  rfl

/-- Data for two blocks, one linking the other. -/
theorem bitswap_blocks_agree_two : requiredBitswapBlockCount 39 40 = 2 ∧
      ((splitDataToBitswapBlocksWithHashF 39 prefixHash (List.replicate 40 7)).isSome ∧
      (BitswapBlock.blocksOfData 39 prefixHash (List.replicate 40 7)).isSome) := by
  obtain ⟨⟨blocks, root, hgo, hocaml, -⟩, -⟩ :=
    bitswap_blocks_agree 39 (by decide) prefixHash (List.replicate 40 7) fun tree h i j hi hj heq => by
      have hcount : requiredBitswapBlockCount 39 40 = 2 := by decide
      rw [List.length_replicate, hcount] at hi hj
      have hhead : ∀ c, c < 2 → (tree c).getD 0 0 = UInt8.ofNat (linksOf 39 40 c % 256) := by
        intro c hc
        rw [h c (Nat.zero_le c) (by rw [List.length_replicate, hcount]; exact hc), getD_encodeBlock, length_children,
          List.length_replicate]
      have hlinks := getD_prefixHash heq
      rw [hhead i hi, hhead j hj] at hlinks
      have hij : i = j := by
        interval_cases i <;> interval_cases j <;> first | rfl | exact absurd hlinks (by decide)
      rw [hij]
  exact ⟨by decide, by rw [hgo]; rfl, by rw [hocaml]; rfl⟩

end MinaProtocol.Bitswap
