import Mathlib.Tactic
import MinaProtocol.Bitswap.Block
import MinaProtocol.Lib.LevelOrder

/-!
# Bitswap.Tree

The block tree that splitting builds. The schema describes a tree numbered in level order: node `i`
has `childCount k n i` links, and the data is cut into the chunks of the nodes one after another. The
blocks are built from the last to the first; `Built i` is what holds when those from `i` on are there.
-/

namespace MinaProtocol.Bitswap

open LevelOrder

/-! ### The schema -/

variable {m len : Nat}

section Schema

variable (hm : 34 < m)
include hm

theorem linksPerBlock_pos : 0 < linksPerBlock m := by
  have h : 0 < (m - 2) / 32 := Nat.div_pos (by omega) (by omega)
  unfold linksPerBlock bitswapBlockLinkSize
  dsimp only
  split
  · omega
  · exact h

omit hm in
theorem linksPerBlock_size : bitswapBlockLinkSize * linksPerBlock m ≤ m - 2 := by
  have h := Nat.mul_div_le (m - 2) 32
  unfold linksPerBlock bitswapBlockLinkSize
  dsimp only
  split
  · omega
  · exact h

omit hm in
theorem linksPerBlock_le : linksPerBlock m ≤ 65535 := by
  unfold linksPerBlock
  dsimp only
  split <;> omega

theorem requiredBitswapBlockCount_pos : 0 < requiredBitswapBlockCount m len := by
  unfold requiredBitswapBlockCount bitswapBlockLinkSize
  split
  · omega
  · exact Nat.div_pos (by omega) (by omega)

/-- Blocks but the last hold `m - 34` bytes of data each, not counting the link to each. -/
theorem requiredBitswapBlockCount_bounds (len : Nat) : (m - 34) * (requiredBitswapBlockCount m len - 1) ≤ len ∧
      len ≤ (m - 34) * (requiredBitswapBlockCount m len - 1) + (m - 2) := by
  unfold requiredBitswapBlockCount bitswapBlockLinkSize
  split
  · rw [Nat.sub_self, Nat.mul_zero]
    omega
  · rename_i hlen
    have hsize : m - 32 - 2 = m - 34 := by omega
    dsimp only
    rw [hsize]
    have hdiv := Nat.div_add_mod (len - 32 + (m - 34) - 1) (m - 34)
    have hmod := Nat.mod_lt (len - 32 + (m - 34) - 1) (show 0 < m - 34 by omega)
    have hpos : 0 < (len - 32 + (m - 34) - 1) / (m - 34) := Nat.div_pos (by omega) (by omega)
    obtain ⟨q, hq⟩ := Nat.exists_eq_succ_of_ne_zero hpos.ne'
    rw [hq, Nat.succ_eq_add_one, Nat.mul_succ] at hdiv
    rw [hq, Nat.succ_eq_add_one, Nat.add_sub_cancel]
    omega

theorem linkCount_eq (i : Nat) :
    (mkBitswapBlockSchema m len).linkCount i = childCount (linksPerBlock m) (requiredBitswapBlockCount m len) i := by
  have hk := linksPerBlock_pos hm
  have hn : 0 < requiredBitswapBlockCount m len := requiredBitswapBlockCount_pos hm
  unfold BitswapBlockSchema.linkCount mkBitswapBlockSchema
  dsimp only
  split
  · rename_i hlt
    exact (childCount_of_lt hk (by exact_mod_cast hlt)).symm
  · rename_i hlt
    split
    · rename_i heq
      have hi : i = (requiredBitswapBlockCount m len - 1) / linksPerBlock m := by exact_mod_cast heq
      rw [hi, childCount_div hn hk]
    · rename_i heq
      have hlt' : ¬ i < (requiredBitswapBlockCount m len - 1) / linksPerBlock m := by exact_mod_cast hlt
      have heq' : i ≠ (requiredBitswapBlockCount m len - 1) / linksPerBlock m := by exact_mod_cast heq
      exact (childCount_of_gt hk (by omega)).symm

end Schema

/-! ### Chunks of data -/

section Chunks

/-- The number of links of a node in the tree for data of a length. -/
abbrev linksOf (m len i : Nat) : Nat := childCount (linksPerBlock m) (requiredBitswapBlockCount m len) i

/-- The first link of a node. -/
abbrev firstLinkOf (m len i : Nat) : Nat := firstChild (linksPerBlock m) (requiredBitswapBlockCount m len) i

/-- How much data the block of a node holds. -/
def chunkSize (m len i : Nat) : Nat :=
  if i + 1 = requiredBitswapBlockCount m len then len - (m - 34) * (requiredBitswapBlockCount m len - 1)
  else m - 2 - linksOf m len i * bitswapBlockLinkSize

/-- Where in the data the chunk of a node starts: before it are as many blocks, less their links. -/
def chunkStart (m len i : Nat) : Nat :=
  if i < requiredBitswapBlockCount m len then (m - 2) * i - bitswapBlockLinkSize * (firstLinkOf m len i - 1) else len

variable {i : Nat} (hm : 34 < m)
include hm

theorem chunkStart_zero : chunkStart m len 0 = 0 := by
  have hn : 0 < requiredBitswapBlockCount m len := requiredBitswapBlockCount_pos hm
  unfold chunkStart
  rw [if_pos hn, firstLinkOf, firstChild_zero hn]
  omega

omit hm in
theorem chunkStart_blockCount : chunkStart m len (requiredBitswapBlockCount m len) = len := by
  unfold chunkStart
  rw [if_neg (by omega)]

omit hm in
theorem links_size (m len i : Nat) : bitswapBlockLinkSize * linksOf m len i ≤ m - 2 :=
  (Nat.mul_le_mul_left _ childCount_le).trans linksPerBlock_size

omit hm in
theorem links_before_size (m len i : Nat) : bitswapBlockLinkSize * (firstLinkOf m len i - 1) ≤ (m - 2) * i := by
  have hle : firstLinkOf m len i - 1 ≤ linksPerBlock m * i := by
    unfold firstLinkOf firstChild
    omega
  calc bitswapBlockLinkSize * (firstLinkOf m len i - 1)
      ≤ bitswapBlockLinkSize * (linksPerBlock m * i) := Nat.mul_le_mul_left _ hle
    _ = bitswapBlockLinkSize * linksPerBlock m * i := (Nat.mul_assoc ..).symm
    _ ≤ (m - 2) * i := Nat.mul_le_mul_right _ linksPerBlock_size

/-- **The chunks are the data**, one after another. -/
theorem chunkStart_succ (hi : i < requiredBitswapBlockCount m len) :
    chunkStart m len (i + 1) = chunkStart m len i + chunkSize m len i := by
  have hbounds := requiredBitswapBlockCount_bounds hm len
  have hfirst : firstLinkOf m len i + linksOf m len i = firstLinkOf m len (i + 1) := firstChild_add_childCount
  have hpos : i < firstLinkOf m len i := lt_firstChild (linksPerBlock_pos hm) hi
  have hbefore := links_before_size m len i
  have hlinks := links_size m len i
  unfold chunkStart chunkSize
  rw [if_pos hi]
  unfold bitswapBlockLinkSize at *
  by_cases hlast : i + 1 = requiredBitswapBlockCount m len
  · -- as many links come before the last block as there are blocks before it
    have hall : firstLinkOf m len i - 1 = i := by
      have hle : firstLinkOf m len i ≤ _ := firstChild_le
      omega
    have hsub : (m - 34) * i + 32 * i = (m - 2) * i := by
      rw [← Nat.add_mul]
      congr 1
      omega
    rw [if_neg (by omega), if_pos hlast, hall, ← hlast, Nat.add_sub_cancel]
    rw [← hlast, Nat.add_sub_cancel] at hbounds
    omega
  · rw [if_pos (by omega), if_neg hlast, ← hfirst, Nat.mul_succ]
    omega

omit hm in
theorem linksOf_last (hm : 34 < m) (hi : i + 1 = requiredBitswapBlockCount m len) : linksOf m len i = 0 := by
  have hpos : i < firstLinkOf m len i := lt_firstChild (linksPerBlock_pos hm) (by omega)
  have hle : firstLinkOf m len (i + 1) ≤ _ := firstChild_le
  have hfirst : firstLinkOf m len i + linksOf m len i = firstLinkOf m len (i + 1) := firstChild_add_childCount
  omega

theorem size_of_block (hi : i + 1 < requiredBitswapBlockCount m len) :
    2 + bitswapBlockLinkSize * linksOf m len i + chunkSize m len i = m := by
  have hlinks := links_size m len i
  unfold chunkSize
  rw [if_neg (by omega), Nat.mul_comm bitswapBlockLinkSize] at *
  omega

theorem size_of_block_le (hi : i < requiredBitswapBlockCount m len) :
    2 + bitswapBlockLinkSize * linksOf m len i + chunkSize m len i ≤ m := by
  by_cases hlast : i + 1 = requiredBitswapBlockCount m len
  · have hbounds := requiredBitswapBlockCount_bounds hm len
    unfold chunkSize
    rw [if_pos hlast, linksOf_last hm hlast]
    omega
  · exact (size_of_block hm (by omega)).le

theorem chunkStart_le (len : Nat) {i : Nat} (hi : i ≤ requiredBitswapBlockCount m len) : chunkStart m len i ≤ len := by
  induction hd : requiredBitswapBlockCount m len - i generalizing i with
  | zero =>
    obtain rfl : i = requiredBitswapBlockCount m len := by omega
    exact chunkStart_blockCount.le
  | succ d ih =>
    have hnext := ih (i := i + 1) (by omega) (by omega)
    rw [chunkStart_succ hm (by omega)] at hnext
    omega

end Chunks

/-! ### The tree of blocks -/

section Tree

variable {hashF : Bytes → BitswapBlockLink} {data : Bytes} {i : Nat} {tree : Nat → Bytes} {s : SplitState} {j : Nat}

/-- The data in the block of a node. -/
def chunk (m : Nat) (data : Bytes) (i : Nat) : Bytes :=
  (data.take (chunkStart m data.length (i + 1))).drop (chunkStart m data.length i)

theorem length_chunk (hm : 34 < m) (hi : i < requiredBitswapBlockCount m data.length) :
    (chunk m data i).length = chunkSize m data.length i := by
  have hle := chunkStart_le hm data.length (i := i + 1) (by omega)
  have hsucc := chunkStart_succ hm hi
  unfold chunk
  rw [List.length_drop, List.length_take]
  omega

theorem flatten_chunks (hm : 34 < m) (hi : i ≤ requiredBitswapBlockCount m data.length) :
    ((List.range i).map (chunk m data)).flatten = data.take (chunkStart m data.length i) := by
  induction i with
  | zero => rw [chunkStart_zero hm]; rfl
  | succ i ih =>
    have hsucc : chunkStart m data.length (i + 1) = _ := chunkStart_succ hm (by omega)
    have hle : chunkStart m data.length i ≤ chunkStart m data.length (i + 1) := by omega
    rw [List.range_succ, List.map_append, List.flatten_append, ih (by omega), List.map_singleton, List.flatten_singleton]
    unfold chunk
    conv_rhs => rw [← List.take_append_drop (chunkStart m data.length i) (data.take (chunkStart m data.length (i + 1))),
      List.take_take, Nat.min_eq_left hle]

/-- `tree` gives the blocks of the nodes from `i` on: each has the hashes of its children and its chunk. -/
def BlocksFrom (m : Nat) (hashF : Bytes → BitswapBlockLink) (data : Bytes) (tree : Nat → Bytes) (i : Nat) : Prop :=
  ∀ j, i ≤ j → j < requiredBitswapBlockCount m data.length →
    tree j = encodeBlock
      (children (linksPerBlock m) (requiredBitswapBlockCount m data.length) (fun c => hashF (tree c)) j)
      (chunk m data j)

/-- The tree of blocks for the data. -/
def IsBlockTree (m : Nat) (hashF : Bytes → BitswapBlockLink) (data : Bytes) (tree : Nat → Bytes) : Prop :=
  BlocksFrom m hashF data tree 0

theorem length_block (hm : 34 < m) (h : BlocksFrom m hashF data tree i) (hij : i ≤ j)
    (hj : j < requiredBitswapBlockCount m data.length) :
    (tree j).length = 2 + bitswapBlockLinkSize * linksOf m data.length j + chunkSize m data.length j := by
  rw [h j hij hj, length_encodeBlock, length_children, length_chunk hm hj]

/-- **There is at most one tree.** -/
theorem BlocksFrom.unique {tree' : Nat → Bytes} (hm : 34 < m) (h : BlocksFrom m hashF data tree i)
    (h' : BlocksFrom m hashF data tree' i) (hij : i ≤ j)
    (hj : j < requiredBitswapBlockCount m data.length) : tree j = tree' j := by
  induction hd : requiredBitswapBlockCount m data.length - j using Nat.strong_induction_on generalizing j with
  | _ d ih =>
    rw [h j hij hj, h' j hij hj]
    congr 1
    refine List.map_congr_left fun c hc => ?_
    have hfirst := lt_firstChild (linksPerBlock_pos hm) hj
    have hcn : c < requiredBitswapBlockCount m data.length := by
      rw [List.mem_range'_1, firstChild_add_childCount] at hc
      exact hc.2.trans_le firstChild_le
    have hjc : j < c := by
      rw [List.mem_range'_1] at hc
      omega
    rw [ih _ (by omega) (by omega) hcn rfl]

/-- The state of the splitting when the blocks from `i` on are built: the queue holds their links that no
block has yet, the last first. -/
structure Built (m : Nat) (hashF : Bytes → BitswapBlockLink) (data : Bytes) (tree : Nat → Bytes) (i : Nat)
    (s : SplitState) : Prop where
  le : i ≤ requiredBitswapBlockCount m data.length
  blocks : BlocksFrom m hashF data tree i
  queue : s.queue = ((List.range' i (firstLinkOf m data.length i - i)).map fun j => hashF (tree j)).reverse
  dataEnd : s.dataEnd = chunkStart m data.length i
  sound : ∀ l b, s.res l = some b →
    hashF b = l ∧ ∃ j, i ≤ j ∧ j < requiredBitswapBlockCount m data.length ∧ b = tree j
  complete : ∀ j, i ≤ j → j < requiredBitswapBlockCount m data.length → (s.res (hashF (tree j))).isSome

theorem built_start (m : Nat) (hashF : Bytes → BitswapBlockLink) (data : Bytes) (tree : Nat → Bytes) :
    Built m hashF data tree (requiredBitswapBlockCount m data.length)
      { res := fun _ => none, queue := [], dataEnd := data.length } where
  le := le_rfl
  blocks := fun j hj hlt => absurd hlt (by omega)
  queue := by
    have hz : firstLinkOf m data.length (requiredBitswapBlockCount m data.length) -
        requiredBitswapBlockCount m data.length = 0 := by
      have hle : firstLinkOf m data.length (requiredBitswapBlockCount m data.length) ≤ _ := firstChild_le
      omega
    rw [hz]
    rfl
  dataEnd := chunkStart_blockCount.symm
  sound := fun l b h => by cases h
  complete := fun j hj hlt => absurd hlt (by omega)

theorem Built.queue_eq (hm : 34 < m) (h : Built m hashF data tree (i + 1) s) : s.queue =
      (children (linksPerBlock m) (requiredBitswapBlockCount m data.length) (fun c => hashF (tree c)) i).reverse ++
        ((List.range' (i + 1) (firstLinkOf m data.length i - (i + 1))).map fun j => hashF (tree j)).reverse := by
  have hpos : i < firstLinkOf m data.length i := lt_firstChild (linksPerBlock_pos hm) h.le
  have hfirst : firstLinkOf m data.length i + linksOf m data.length i = firstLinkOf m data.length (i + 1) :=
    firstChild_add_childCount
  have hlen : firstLinkOf m data.length (i + 1) - (i + 1) =
      firstLinkOf m data.length i - (i + 1) + linksOf m data.length i := by omega
  have hstart : i + 1 + (firstLinkOf m data.length i - (i + 1)) = firstLinkOf m data.length i := by omega
  rw [h.queue, hlen, ← List.range'_append_1, hstart, List.map_append, List.reverse_append]
  rfl

theorem BlocksFrom.update (hm : 34 < m) {tree : Nat → Bytes} (h : BlocksFrom m hashF data tree (i + 1))
    (hi : i < requiredBitswapBlockCount m data.length) : BlocksFrom m hashF data
      (Function.update tree i (encodeBlock
        (children (linksPerBlock m) (requiredBitswapBlockCount m data.length) (fun c => hashF (tree c)) i)
        (chunk m data i))) i := by
  intro j hij hj
  have hsame : ∀ j, i ≤ j → j < requiredBitswapBlockCount m data.length → ∀ b,
      children (linksPerBlock m) (requiredBitswapBlockCount m data.length)
        (fun c => hashF (Function.update tree i b c)) j =
      children (linksPerBlock m) (requiredBitswapBlockCount m data.length) (fun c => hashF (tree c)) j := by
    intro j hij hj b
    have hpos := lt_firstChild (linksPerBlock_pos hm) hj
    refine List.map_congr_left fun c hc => ?_
    rw [List.mem_range'_1] at hc
    rw [Function.update_of_ne (by omega)]
  rw [hsame j hij hj]
  by_cases hji : j = i
  · subst hji
    rw [Function.update_self]
  · rw [Function.update_of_ne hji]
    exact h j (by omega) hj

/-- **The next block is built**, from the links at the front of the queue and the end of the data left. -/
theorem Built.step (hm : 34 < m) {tree : Nat → Bytes} {s : SplitState} (h : Built m hashF data tree (i + 1) s) :
    ∃ tree' s', addBlockOf m hashF data (linksOf m data.length i) (chunkSize m data.length i) s = some s' ∧
      Built m hashF data tree' i s' := by
  have hi : i < requiredBitswapBlockCount m data.length := h.le
  have hend : s.dataEnd = chunkStart m data.length i + chunkSize m data.length i := by
    rw [h.dataEnd, chunkStart_succ hm hi]
  have hqueue := h.queue_eq hm
  set links := children (linksPerBlock m) (requiredBitswapBlockCount m data.length) (fun c => hashF (tree c)) i with hlinks
  have hcount : links.reverse.length = linksOf m data.length i := by
    rw [List.length_reverse, hlinks, length_children]
  have htake : s.queue.take (linksOf m data.length i) = links.reverse := by
    rw [hqueue, ← hcount, List.take_left' rfl]
  have hdrop : s.queue.drop (linksOf m data.length i) =
      ((List.range' (i + 1) (firstLinkOf m data.length i - (i + 1))).map fun j => hashF (tree j)).reverse := by
    rw [hqueue, ← hcount, List.drop_left' rfl]
  have hcut : (data.take s.dataEnd).drop (s.dataEnd - chunkSize m data.length i) = chunk m data i := by
    unfold chunk
    rw [hend, chunkStart_succ hm hi, Nat.add_sub_cancel]
  have hfits : ¬ (links.reverse.length > 65535 ∨
      links.reverse.length * bitswapBlockLinkSize + 2 + (chunk m data i).length > m) := by
    have hle := (childCount_le (k := linksPerBlock m) (n := requiredBitswapBlockCount m data.length) (i := i)).trans
      linksPerBlock_le
    have hsize := size_of_block_le hm hi
    rw [hcount, length_chunk hm hi, Nat.mul_comm]
    have hlinksOf : linksOf m data.length i ≤ 65535 := hle
    omega
  have henough : ¬ (s.dataEnd < chunkSize m data.length i ∨ s.queue.length < linksOf m data.length i) := by
    have hq := congrArg List.length hqueue
    rw [List.length_append, hcount] at hq
    omega
  refine ⟨Function.update tree i (encodeBlock links (chunk m data i)),
    { res := Function.update s.res (hashF (encodeBlock links (chunk m data i))) (some (encodeBlock links (chunk m data i)))
      queue := ((List.range' (i + 1) (firstLinkOf m data.length i - (i + 1))).map fun j => hashF (tree j)).reverse ++
        [hashF (encodeBlock links (chunk m data i))]
      dataEnd := s.dataEnd - chunkSize m data.length i }, ?_, ?_⟩
  · unfold addBlockOf addBlock
    rw [if_neg henough]
    dsimp only
    rw [hcut, htake, if_neg hfits, List.reverse_reverse, hdrop]
  · have hpos : i < firstLinkOf m data.length i := lt_firstChild (linksPerBlock_pos hm) hi
    have hsplit : firstLinkOf m data.length i - i = firstLinkOf m data.length i - (i + 1) + 1 := by omega
    refine ⟨by omega, h.blocks.update hm hi, ?_, by rw [hend]; dsimp only; omega, ?_, ?_⟩
    · rw [hsplit, List.range'_succ, List.map_cons, List.reverse_cons, Function.update_self]
      dsimp only
      congr 2
      refine List.map_congr_left fun c hc => ?_
      rw [List.mem_range'_1] at hc
      rw [Function.update_of_ne (by omega)]
    · intro l b hb
      dsimp only at hb
      by_cases hl : l = hashF (encodeBlock links (chunk m data i))
      · subst hl
        rw [Function.update_self] at hb
        obtain rfl := Option.some.inj hb
        exact ⟨rfl, i, le_rfl, hi, by rw [Function.update_self]⟩
      · rw [Function.update_of_ne hl] at hb
        obtain ⟨hhash, j, hij, hj, rfl⟩ := h.sound l b hb
        exact ⟨hhash, j, by omega, hj, by rw [Function.update_of_ne (by omega)]⟩
    · intro j hij hj
      dsimp only
      by_cases hji : j = i
      · subst hji
        rw [Function.update_self, Function.update_self]
        rfl
      · rw [Function.update_of_ne hji]
        by_cases hl : hashF (tree j) = hashF (encodeBlock links (chunk m data i))
        · rw [hl, Function.update_self]
          rfl
        · rw [Function.update_of_ne hl]
          exact h.complete j (by omega) hj

/-- **A loop builds blocks** that have as many links and as much data as each iteration takes. -/
theorem Built.loop {t : Nat} (h : Built m hashF data tree (i + t) s) (hm : 34 < m) (numLinks dsz : Nat)
    (hsame : ∀ j, i ≤ j → j < i + t → linksOf m data.length j = numLinks ∧ chunkSize m data.length j = dsz) :
    ∃ tree' s', repeatM (addBlockOf m hashF data numLinks dsz) t s = some s' ∧ Built m hashF data tree' i s' := by
  induction t generalizing tree s with
  | zero => exact ⟨tree, s, rfl, h⟩
  | succ t ih =>
    obtain ⟨tree₁, s₁, hstep, h₁⟩ := Built.step (i := i + t) hm h
    obtain ⟨hnum, hdsz⟩ := hsame (i + t) (by omega) (by omega)
    obtain ⟨tree₂, s₂, hrest, h₂⟩ := ih h₁ fun j hij hj => hsame j hij (by omega)
    refine ⟨tree₂, s₂, ?_, h₂⟩
    rw [repeatM, ← hnum, ← hdsz, hstep, Option.bind_some, hnum, hdsz, hrest]

/-! ### Splitting builds the tree -/

theorem branch_blocks_lt {n k : Nat} (hk : 0 < k) :
    (n - 1) / k + (if n - 1 - (n - 1) / k * k > 0 then 1 else 0) ≤ n - 1 := by
  have hdiv := Nat.div_mul_le_self (n - 1) k
  have hle := Nat.le_mul_of_pos_right ((n - 1) / k) hk
  split <;> omega

theorem Built.others (hm : 34 < m) (h : Built m hashF data tree (requiredBitswapBlockCount m data.length - 1) s) :
    ∃ tree' s', addOtherBlocks hashF data (mkBitswapBlockSchema m data.length) s = some s' ∧
      Built m hashF data tree' 0 s' := by
  have hk := linksPerBlock_pos hm
  have hn : 0 < requiredBitswapBlockCount m data.length := requiredBitswapBlockCount_pos hm
  have hbranch := branch_blocks_lt (n := requiredBitswapBlockCount m data.length) hk
  unfold addOtherBlocks
  dsimp only [mkBitswapBlockSchema]
  set n := requiredBitswapBlockCount m data.length with hndef
  set flb := (n - 1) / linksPerBlock m with hflb
  set lRem := n - 1 - flb * linksPerBlock m with hlRem
  have hfull : ∀ j, j < flb → linksOf m data.length j = linksPerBlock m := fun j hj => childCount_of_lt hk hj
  have hpartial : linksOf m data.length flb = lRem := childCount_div hn hk
  have hleaf : ∀ j, flb < j → linksOf m data.length j = 0 := fun j hj => childCount_of_gt hk hj
  have hsize : ∀ j, j + 1 < n →
      chunkSize m data.length j = m - 2 - linksOf m data.length j * bitswapBlockLinkSize := by
    intro j hj
    unfold chunkSize
    rw [if_neg (by omega)]
  set partials := if lRem > 0 then 1 else 0 with hpartials
  -- the blocks of data only
  have h₀ : Built m hashF data tree (flb + partials + (n - flb - 1 - partials)) s := by
    have heq : flb + partials + (n - flb - 1 - partials) = n - 1 := by omega
    rw [heq]
    exact h
  obtain ⟨tree₁, s₁, hloop₁, h₁⟩ := h₀.loop hm 0 (m - 2) (by
    intro j hj hjn
    have hzero : linksOf m data.length j = 0 := by
      by_cases hjf : j = flb
      · have hlz : ¬ lRem > 0 := by
          intro hpos
          rw [hpartials, if_pos hpos] at hj
          omega
        rw [hjf, hpartial]
        omega
      · exact hleaf j (by omega)
    refine ⟨hzero, ?_⟩
    rw [hsize j (by omega), hzero, Nat.zero_mul, Nat.sub_zero])
  -- the partial block, where there is one
  have hmid : ∃ tree₂ s₂, addPartialBranchBlock m hashF data lRem s₁ = some s₂ ∧ Built m hashF data tree₂ (0 + flb) s₂ := by
    rw [Nat.zero_add]
    unfold addPartialBranchBlock
    by_cases hpos : lRem > 0
    · rw [if_pos hpos]
      rw [hpartials, if_pos hpos] at h₁ hbranch
      obtain ⟨tree₂, s₂, hstep, h₂⟩ := h₁.step hm
      rw [hsize flb (by omega), hpartial] at hstep
      exact ⟨tree₂, s₂, hstep, h₂⟩
    · rw [if_neg hpos]
      rw [hpartials, if_neg hpos] at h₁
      exact ⟨tree₁, s₁, rfl, h₁⟩
  obtain ⟨tree₂, s₂, hstep₂, h₂⟩ := hmid
  -- the full blocks
  obtain ⟨tree₃, s₃, hloop₃, h₃⟩ := h₂.loop hm (linksPerBlock m)
    (m - 2 - linksPerBlock m * bitswapBlockLinkSize) (by
      intro j _ hj
      rw [Nat.zero_add] at hj
      refine ⟨hfull j hj, ?_⟩
      rw [hsize j (by omega), hfull j hj])
  refine ⟨tree₃, s₃, ?_, h₃⟩
  rw [hloop₁, Option.bind_some, hstep₂, Option.bind_some, hloop₃]

theorem built_last (hashF : Bytes → BitswapBlockLink) (data : Bytes) (hm : 34 < m) :
    ∃ tree s, addBlockOf m hashF data 0 (mkBitswapBlockSchema m data.length).lastLeafBlockDataSize
        { res := fun _ => none, queue := [], dataEnd := data.length } = some s ∧
      Built m hashF data tree (requiredBitswapBlockCount m data.length - 1) s := by
  have hn : 0 < requiredBitswapBlockCount m data.length := requiredBitswapBlockCount_pos hm
  have hlast : requiredBitswapBlockCount m data.length - 1 + 1 = requiredBitswapBlockCount m data.length := by omega
  have h₀ := built_start m hashF data fun _ => []
  rw [← hlast] at h₀
  obtain ⟨tree, s, hstep, h⟩ := h₀.step hm
  refine ⟨tree, s, ?_, h⟩
  have hsize : m - bitswapBlockLinkSize - 2 = m - 34 := by
    unfold bitswapBlockLinkSize
    omega
  rw [linksOf_last hm hlast, chunkSize, if_pos hlast] at hstep
  dsimp only [mkBitswapBlockSchema]
  rw [hsize]
  exact hstep

/-- **All blocks are built**, without a panic. -/
theorem built_all (hashF : Bytes → BitswapBlockLink) (data : Bytes) (hm : 34 < m) :
    ∃ s₀ tree s, addBlockOf m hashF data 0 (mkBitswapBlockSchema m data.length).lastLeafBlockDataSize
        { res := fun _ => none, queue := [], dataEnd := data.length } = some s₀ ∧
      (if (mkBitswapBlockSchema m data.length).numTotalBlocks > 1 then
        addOtherBlocks hashF data (mkBitswapBlockSchema m data.length) s₀ else some s₀) = some s ∧
      Built m hashF data tree 0 s := by
  obtain ⟨tree₀, s₀, hlast, h₀⟩ := built_last hashF data hm
  by_cases hmany : (mkBitswapBlockSchema m data.length).numTotalBlocks > 1
  · obtain ⟨tree, s, hothers, h⟩ := h₀.others hm
    exact ⟨s₀, tree, s, hlast, by rw [if_pos hmany]; exact hothers, h⟩
  · have hone : requiredBitswapBlockCount m data.length - 1 = 0 := by
      dsimp only [mkBitswapBlockSchema] at hmany
      omega
    rw [hone] at h₀
    exact ⟨s₀, tree₀, s₀, hlast, by rw [if_neg hmany], h₀⟩

theorem Built.queue_zero (hm : 34 < m) (h : Built m hashF data tree 0 s) : s.queue = [hashF (tree 0)] := by
  rw [h.queue, firstLinkOf, firstChild_zero (requiredBitswapBlockCount_pos hm)]
  rfl

/-- **Splitting returns the blocks of the tree and the hash of its root.** -/
theorem splitDataToBitswapBlocksWithHashF_eq (hashF : Bytes → BitswapBlockLink) (data : Bytes) (hm : 34 < m) :
    ∃ tree s, Built m hashF data tree 0 s ∧
      splitDataToBitswapBlocksWithHashF m hashF data = some (s.res, hashF (tree 0)) := by
  obtain ⟨s₀, tree, s, hlast, hothers, h⟩ := built_all hashF data hm
  refine ⟨tree, s, h, ?_⟩
  unfold splitDataToBitswapBlocksWithHashF
  rw [if_neg (by unfold bitswapBlockLinkSize; omega)]
  dsimp only
  rw [hlast, Option.bind_some, hothers, Option.bind_some, h.queue_zero hm]
  rfl

end Tree

end MinaProtocol.Bitswap
