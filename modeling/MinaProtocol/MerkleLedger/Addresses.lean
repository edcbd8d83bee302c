import MinaProtocol.MerkleLedger.Maskable

/-!
# MerkleLedger.Addresses

The arithmetic of addresses, and ranges of them (`merkle_address.ml`). An address of a depth is the integer that
its bits are, from the root on: the next one, the one before, the orders and the leaves below a node are those of
integers. That ends at a depth of 61, since `1 lsl 62` is the least integer.
-/

namespace MinaProtocol.MerkleLedger

open AddressTree

/-- The elements of `Sequence.unfold`, of a sequence that ends. -/
inductive Unfolds {S A : Type} (f : S → Option (A × S)) : S → List A → Prop
  | done {s : S} (h : f s = none) : Unfolds f s []
  | more {s s' : S} {x : A} {xs : List A} (h : f s = some (x, s')) (hrest : Unfolds f s' xs) : Unfolds f s (x :: xs)

/-! ### Positions -/

section Positions

variable {n i : Nat} {a b : Addr}

/-- **The position before.** -/
theorem Addr.prev_ofIndex (h : i < 2 ^ n) : Addr.prev (ofIndex n i) = if i = 0 then none else some (ofIndex n (i - 1)) := by
  induction n generalizing i with
  | zero =>
    have hi : i = 0 := by simpa using h
    rw [if_pos hi, ofIndex, Addr.prev]
  | succ n ih =>
    rw [pow_succ] at h
    by_cases hodd : i % 2 = 1
    · have hhalf : (i - 1) / 2 = i / 2 := by omega
      have heven : (i - 1) % 2 ≠ 1 := by omega
      have hpos : i ≠ 0 := by omega
      rw [if_neg hpos, ofIndex, ofIndex, hhalf, decide_eq_true hodd, decide_eq_false heven, Addr.prev]
    · rw [ofIndex, decide_eq_false hodd, Addr.prev, ih (by omega)]
      by_cases hi : i = 0
      · have hhalf : i / 2 = 0 := by rw [hi]
        rw [if_pos hi, if_pos hhalf, Option.map_none]
      · have hhalf : (i - 1) / 2 = i / 2 - 1 := by omega
        have hpred : (i - 1) % 2 = 1 := by omega
        have hpos : i / 2 ≠ 0 := by omega
        rw [if_neg hi, if_neg hpos, Option.map_some, ofIndex, hhalf, decide_eq_true hpred]

theorem next_eq (a : Addr) :
    next a = if index a + 1 < 2 ^ a.length then some (ofIndex a.length (index a + 1)) else none := by
  have h := next_ofIndex (index_lt a)
  rwa [ofIndex_index] at h

theorem Addr.prev_eq (a : Addr) : Addr.prev a = if index a = 0 then none else some (ofIndex a.length (index a - 1)) := by
  have h := Addr.prev_ofIndex (index_lt a)
  rwa [ofIndex_index] at h

theorem next_eq_some (h : next a = some b) : b.length = a.length ∧ index b = index a + 1 := by
  rw [next_eq] at h
  by_cases hlt : index a + 1 < 2 ^ a.length
  · rw [if_pos hlt] at h
    rw [← Option.some.inj h]
    exact ⟨length_ofIndex, index_ofIndex hlt⟩
  · rw [if_neg hlt] at h
    exact absurd h.symm (Option.some_ne_none b)

@[simp] theorem index_replicate_true (n : Nat) : index (List.replicate n true) + 1 = 2 ^ n := by
  induction n with
  | zero => rfl
  | succ n ih =>
    rw [List.replicate_succ, index, pow_succ, ← ih, Bool.toNat_true]
    ring

theorem index_replicate_false (n : Nat) : index (List.replicate n false) = 0 := by
  rw [← ofIndex_zero, index_ofIndex (Nat.two_pow_pos n)]

end Positions

/-! ### Ranges -/

namespace Addr

/-- `is_parent_of`, where `Bitstring.is_prefix` looks for its second argument at the beginning of the first. -/
def isParentOf (parent maybeChild : Addr) : Bool := parent.reverse.isPrefixOf maybeChild.reverse

namespace Range

/-- `fold_exl`. -/
def foldExl {B : Type} (f : Addr → B → B) (last : Addr) (first : Addr) (init : B) : Option B :=
  match Addr.compare first last with
  | .gt => none
  | .eq => some init
  | .lt =>
    match _h : next first with
    | none => none
    | some first' => foldExl f last first' (f first init)
termination_by 2 ^ first.length - index first
decreasing_by
  obtain ⟨hlen, hindex⟩ := next_eq_some _h
  have hlt := index_lt first'
  rw [hlen] at hlt
  rw [hlen]
  omega

/-- `fold_incl`. -/
def foldIncl {B : Type} (f : Addr → B → B) (last : Addr) (first : Addr) (init : B) : Option B :=
  (foldExl f last first init).map (f last)

/-- Where a fold stops. -/
inductive Stop
  | inclusive
  | exclusive

/-- `fold`. -/
def fold {B : Type} (stop : Stop) (range : Addr × Addr) (init : B) (f : Addr → B → B) : Option B :=
  if range.1.length = range.2.length then
    match stop with
    | .inclusive => foldIncl f range.2 range.1 init
    | .exclusive => foldExl f range.2 range.1 init
  else none

/-- `subtree_range`; a bitstring of negative length is an exception. -/
def subtreeRange (ledgerDepth : Nat) (address : Addr) : Option (Addr × Addr) :=
  if address.length ≤ ledgerDepth then
    some (List.replicate (height ledgerDepth address) false ++ address, List.replicate (height ledgerDepth address) true ++ address)
  else none

/-- The function that `subtree_range_seq` unfolds, the flag being `` `Stop ``. -/
def seqStep (lastNode : Addr) : Addr × Bool → Option (Addr × (Addr × Bool))
  | (_, true) => none
  | (currentNode, false) =>
    if Addr.compare currentNode lastNode = .eq then some (currentNode, (currentNode, true))
    else (next currentNode).map fun nextNode => (currentNode, (nextNode, false))

end Range

end Addr

section Ranges

variable {d i j : Nat} {a b than path leaf : Addr}

/-- The leaves of a ledger of this depth at these positions. -/
def leavesAt (d i n : Nat) : List Addr := (List.range' i n).map (ofIndex d)

/-- Positions from one to another are those from the next one on, after it. -/
theorem leavesAt_succ (d i n : Nat) : leavesAt d i (n + 1) = ofIndex d i :: leavesAt d (i + 1) n := by
  rw [leavesAt, List.range'_succ, List.map_cons, leavesAt]

theorem leavesAt_concat (d i n : Nat) : leavesAt d i (n + 1) = leavesAt d i n ++ [ofIndex d (i + n)] := by
  rw [leavesAt, List.range'_1_concat, List.map_append, List.map_singleton, leavesAt]

/-- **A fold over a range** meets the positions before the last one. -/
theorem Addr.Range.foldExl_eq {B : Type} (f : Addr → B → B) (init : B) (hlen : a.length = b.length) (hle : index a ≤ index b) :
    Range.foldExl f b a init = some ((leavesAt b.length (index a) (index b - index a)).foldl (fun acc leaf => f leaf acc) init) := by
  fun_induction Range.foldExl f b a init with
  | case1 a init hcmp =>
    rw [Addr.compare_eq hlen, Nat.compare_eq_gt] at hcmp
    omega
  | case2 a init hcmp =>
    rw [Addr.compare_eq hlen, Nat.compare_eq_eq] at hcmp
    rw [hcmp, Nat.sub_self]
    rfl
  | case3 a init hcmp hnext =>
    have hlast := index_lt b
    rw [Addr.compare_eq hlen, Nat.compare_eq_lt] at hcmp
    rw [next_eq, hlen, if_pos (by omega)] at hnext
    exact absurd hnext (Option.some_ne_none _)
  | case4 a init hcmp a' hnext ih =>
    rw [Addr.compare_eq hlen, Nat.compare_eq_lt] at hcmp
    obtain ⟨hlen', hindex⟩ := next_eq_some hnext
    have hstep : index b - index a = index b - index a' + 1 := by omega
    rw [ih (hlen'.trans hlen) (by omega), hstep, leavesAt_succ, List.foldl_cons, hindex, ← hlen, ofIndex_index]

/-- **The sequence of a range** has the positions up to the last one. -/
theorem Addr.Range.unfolds_seqStep (hlen : a.length = b.length) (hle : index a ≤ index b) :
    Unfolds (Range.seqStep b) (a, false) (leavesAt b.length (index a) (index b - index a + 1)) := by
  induction hn : index b - index a generalizing a with
  | zero =>
    have hindex : index a = index b := by omega
    obtain rfl := index_inj hlen hindex
    have hone : leavesAt a.length (index a) (0 + 1) = [a] := by rw [leavesAt_succ, ofIndex_index]; rfl
    have hstep : Range.seqStep a (a, false) = some (a, (a, true)) := by
      rw [Range.seqStep, if_pos (by rw [Addr.compare_eq rfl, Nat.compare_eq_eq])]
    rw [hone]
    exact Unfolds.more hstep (Unfolds.done rfl)
  | succ n ih =>
    have hlast := index_lt b
    have hnext : next a = some (ofIndex a.length (index a + 1)) := by rw [next_eq, hlen, if_pos (by omega)]
    obtain ⟨hlen', hindex⟩ := next_eq_some hnext
    have hcmp : Addr.compare a b ≠ .eq := by
      rw [Addr.compare_eq hlen, Ne, Nat.compare_eq_eq]
      omega
    have hstep : Range.seqStep b (a, false) = some (a, (ofIndex a.length (index a + 1), false)) := by
      rw [Range.seqStep, if_neg hcmp, hnext, Option.map_some]
    have hrest := ih (hlen'.trans hlen) (by omega) (by omega)
    rw [hindex] at hrest
    rw [leavesAt_succ, ← hlen, ofIndex_index, hlen]
    exact Unfolds.more hstep hrest

/-! ### Leaves below a node -/

theorem Addr.isParentOf_iff : Addr.isParentOf a b = true ↔ a <:+ b := by
  rw [Addr.isParentOf, List.isPrefixOf_iff_prefix, List.reverse_prefix]

theorem isParentOf_iff_index (hleaf : leaf.length = d) (ha : a.length ≤ d) :
    Addr.isParentOf a leaf = true ↔ index leaf / 2 ^ (d - a.length) = index a := by
  have hlen : (leaf.drop (d - a.length)).length = a.length := by rw [List.length_drop]; omega
  rw [Addr.isParentOf_iff, List.suffix_iff_eq_drop, hleaf, ← index_drop]
  exact ⟨fun h => by rw [← h], fun h => (index_inj hlen h).symm⟩

theorem leaves_le (ha : a.length ≤ d) : index a * 2 ^ (d - a.length) + 2 ^ (d - a.length) ≤ 2 ^ d := by
  have hsplit : 2 ^ d = 2 ^ a.length * 2 ^ (d - a.length) := by rw [← pow_add, Nat.add_sub_cancel' ha]
  rw [← Nat.succ_mul, hsplit]
  exact Nat.mul_le_mul_right _ (index_lt a)

/-- **The leaves below a node**: those at the positions from its first leaf on. -/
theorem mem_leavesAt (ha : a.length ≤ d) :
    leaf ∈ leavesAt d (index a * 2 ^ (d - a.length)) (2 ^ (d - a.length)) ↔ leaf.length = d ∧ Addr.isParentOf a leaf = true := by
  have hpos := Nat.two_pow_pos (d - a.length)
  have hbound := leaves_le ha
  rw [leavesAt, List.mem_map]
  constructor
  · intro ⟨k, hk, hleaf⟩
    obtain ⟨hlow, hhigh⟩ := List.mem_range'_1.1 hk
    rw [← hleaf, isParentOf_iff_index length_ofIndex ha, index_ofIndex (by omega)]
    refine ⟨length_ofIndex, (Nat.div_eq_iff hpos).2 ⟨hlow, ?_⟩⟩
    omega
  · intro ⟨hlen, hparent⟩
    rw [isParentOf_iff_index hlen ha, Nat.div_eq_iff hpos] at hparent
    obtain ⟨hlow, hhigh⟩ := hparent
    refine ⟨index leaf, List.mem_range'_1.2 ⟨hlow, by omega⟩, ?_⟩
    rw [← hlen, ofIndex_index]

/-- **Further right** is past the last leaf, whichever of the two nodes is higher. -/
theorem isFurtherRight_iff_le (hthan : than.length ≤ d) (hpath : path.length ≤ d) :
    Addr.isFurtherRight than path = true ↔ (index than + 1) * 2 ^ (d - than.length) ≤ index path * 2 ^ (d - path.length) := by
  rcases Nat.lt_or_ge than.length path.length with hlt | hge
  · have hlen : than.length = (path.drop (path.length - than.length)).length := by rw [List.length_drop]; omega
    have hheight : d - than.length = path.length - than.length + (d - path.length) := by omega
    have hpos := Nat.two_pow_pos (path.length - than.length)
    rw [Addr.isFurtherRight, Addr.sameHeightAncestors, if_pos hlt, Addr.compare_eq hlen, decide_eq_true_iff, Nat.compare_eq_lt, index_drop,
      hheight, pow_add, ← Nat.mul_assoc, Nat.mul_le_mul_right_iff (Nat.two_pow_pos _), ← Nat.le_div_iff_mul_le hpos]
    rfl
  · have hheight : d - path.length = than.length - path.length + (d - than.length) := by omega
    have hpos := Nat.two_pow_pos (than.length - path.length)
    rw [Addr.isFurtherRight_eq hge, decide_eq_true_iff, Nat.div_lt_iff_lt_mul hpos, hheight, pow_add, ← Nat.mul_assoc,
      Nat.mul_le_mul_right_iff (Nat.two_pow_pos _)]
    rfl

/-- **Further right** is right of every leaf. -/
theorem isFurtherRight_iff_index (hthan : than.length ≤ d) (hpath : path.length ≤ d) :
    Addr.isFurtherRight than path = true ↔
      ∀ leaf leaf' : Addr, leaf.length = d → leaf'.length = d → Addr.isParentOf than leaf = true → Addr.isParentOf path leaf' = true →
        index leaf < index leaf' := by
  have hpos := Nat.two_pow_pos (d - than.length)
  have hpos' := Nat.two_pow_pos (d - path.length)
  have hle := leaves_le hthan
  have hle' := leaves_le hpath
  rw [isFurtherRight_iff_le hthan hpath, Nat.succ_mul]
  constructor
  · intro hright leaf leaf' hlen hlen' hparent hparent'
    rw [isParentOf_iff_index hlen hthan, Nat.div_eq_iff hpos] at hparent
    rw [isParentOf_iff_index hlen' hpath, Nat.div_eq_iff hpos'] at hparent'
    omega
  · intro hleaves
    -- the last leaf below the one, and the first below the other
    have hlast : index than * 2 ^ (d - than.length) + (2 ^ (d - than.length) - 1) < 2 ^ d := by omega
    have hfirst : index path * 2 ^ (d - path.length) < 2 ^ d := by omega
    have h := hleaves _ _ (length_ofIndex (i := index than * 2 ^ (d - than.length) + (2 ^ (d - than.length) - 1)))
      (length_ofIndex (i := index path * 2 ^ (d - path.length)))
    rw [isParentOf_iff_index length_ofIndex hthan, isParentOf_iff_index length_ofIndex hpath, index_ofIndex hlast, index_ofIndex hfirst,
      Nat.div_eq_iff hpos, Nat.div_eq_iff hpos'] at h
    have hlt := h (by omega) (by omega)
    omega

end Ranges

/-! ### The arithmetic as a whole -/

open Addr (toInt ofIntExn isParentOf isFurtherRight)

variable (lslBeyond : Int → Nat → Int)

/-- A visit of the leaves below an address: each once and in order, by the sequence and by the fold. -/
structure VisitsLeaves (d : Nat) (a : Addr) (leaves : List Addr) : Prop where
  mem_iff : ∀ leaf : Addr, leaf ∈ leaves ↔ leaf.length = d ∧ isParentOf a leaf = true
  increasing : leaves.Pairwise fun leaf leaf' => toInt lslBeyond leaf < toInt lslBeyond leaf'
  seq : ∃ first last : Addr, Addr.Range.subtreeRange d a = some (first, last) ∧ Unfolds (Addr.Range.seqStep last) (first, false) leaves
  fold : ∀ {B : Type} (init : B) (f : Addr → B → B),
    ((Addr.Range.subtreeRange d a).bind fun range => Addr.Range.fold .inclusive range init f) =
      some (leaves.foldl (fun acc leaf => f leaf acc) init)

/-- What is relied on of the addresses of a ledger of this depth. -/
structure AddressArithmetic (d : Nat) : Prop where
  ofIntExn_toInt : ∀ path : Addr, path.length = d → 0 ≤ toInt lslBeyond path ∧ toInt lslBeyond path < 2 ^ d ∧
    ofIntExn lslBeyond d (toInt lslBeyond path) = some path
  toInt_ofIntExn : ∀ i : Int, 0 ≤ i → i < 2 ^ d → ∃ path : Addr, path.length = d ∧ ofIntExn lslBeyond d i = some path ∧ toInt lslBeyond path = i
  next_eq : ∀ path : Addr, path.length = d → if toInt lslBeyond path = 2 ^ d - 1 then next path = none else
    ∃ path' : Addr, next path = some path' ∧ path'.length = d ∧ toInt lslBeyond path' = toInt lslBeyond path + 1
  prev_eq : ∀ path : Addr, path.length = d → if toInt lslBeyond path = 0 then Addr.prev path = none else
    ∃ path' : Addr, Addr.prev path = some path' ∧ path'.length = d ∧ toInt lslBeyond path' = toInt lslBeyond path - 1
  compare_eq : ∀ path path' : Addr, path.length = d → path'.length = d →
    Addr.compare path path' = Ord.compare (toInt lslBeyond path) (toInt lslBeyond path')
  isFurtherRight_iff : ∀ than path : Addr, than.length ≤ d → path.length ≤ d → (isFurtherRight than path = true ↔
    ∀ leaf leaf' : Addr, leaf.length = d → leaf'.length = d → isParentOf than leaf = true → isParentOf path leaf' = true →
      toInt lslBeyond leaf < toInt lslBeyond leaf')
  exists_leaves : ∀ a : Addr, a.length ≤ d → ∃ leaves : List Addr, VisitsLeaves lslBeyond d a leaves

variable {lslBeyond} {d : Nat} {a path path' : Addr}

/-! ### Depths of at most 61 -/

theorem visitsLeaves (hd : d ≤ 61) (ha : a.length ≤ d) :
    VisitsLeaves lslBeyond d a (leavesAt d (index a * 2 ^ (d - a.length)) (2 ^ (d - a.length))) := by
  have hpos := Nat.two_pow_pos (d - a.length)
  have hfalse := index_replicate_false (d - a.length)
  have htrue := index_replicate_true (d - a.length)
  have hrange : Addr.Range.subtreeRange d a =
      some (List.replicate (d - a.length) false ++ a, List.replicate (d - a.length) true ++ a) := by
    rw [Addr.Range.subtreeRange, if_pos ha, Addr.height]
  have hlen : ∀ b : Bool, (List.replicate (d - a.length) b ++ a).length = d := by
    intro b
    rw [List.length_append, List.length_replicate]
    omega
  have hfirst : index (List.replicate (d - a.length) false ++ a) = index a * 2 ^ (d - a.length) := by
    rw [index_append, hfalse, List.length_replicate, Nat.zero_add, Nat.mul_comm]
  have hlast : index (List.replicate (d - a.length) true ++ a) + 1 = index a * 2 ^ (d - a.length) + 2 ^ (d - a.length) := by
    rw [index_append, List.length_replicate, Nat.mul_comm (2 ^ (d - a.length)), ← htrue]
    omega
  have hcount : index (List.replicate (d - a.length) true ++ a) - index (List.replicate (d - a.length) false ++ a) =
      2 ^ (d - a.length) - 1 := by omega
  refine ⟨fun leaf => mem_leavesAt ha, ?_, ⟨_, _, hrange, ?_⟩, fun init f => ?_⟩
  · have hbound := leaves_le ha
    refine List.pairwise_map.2 (List.Pairwise.imp_of_mem (fun {i j} hi hj hlt => ?_) (List.pairwise_lt_range' 1))
    obtain ⟨-, hi⟩ := List.mem_range'_1.1 hi
    obtain ⟨-, hj⟩ := List.mem_range'_1.1 hj
    rw [Addr.toInt_eq lslBeyond (length_ofIndex.trans_le hd), Addr.toInt_eq lslBeyond (length_ofIndex.trans_le hd),
      index_ofIndex (by omega), index_ofIndex (by omega)]
    exact Int.ofNat_lt.2 hlt
  · have hseq := Addr.Range.unfolds_seqStep ((hlen false).trans (hlen true).symm) (by omega)
    rwa [hcount, hfirst, hlen, Nat.sub_add_cancel hpos] at hseq
  · have hfold := Addr.Range.foldExl_eq f init ((hlen false).trans (hlen true).symm) (by omega)
    have hleaves := leavesAt_concat d (index a * 2 ^ (d - a.length)) (2 ^ (d - a.length) - 1)
    rw [Nat.sub_add_cancel hpos] at hleaves
    rw [hrange, Option.bind_some, Addr.Range.fold, if_pos ((hlen false).trans (hlen true).symm)]
    change (Addr.Range.foldExl _ _ _ _).map (f _) = _
    have hnode : List.replicate (d - a.length) true ++ a = ofIndex d (index a * 2 ^ (d - a.length) + (2 ^ (d - a.length) - 1)) := by
      refine index_inj ((hlen true).trans length_ofIndex.symm) ?_
      have hbound := leaves_le ha
      rw [index_ofIndex (by omega)]
      omega
    rw [hfold, hcount, hfirst, hlen, Option.map_some, hleaves, List.foldl_concat, hnode]

theorem addressArithmetic_of_le (hd : d ≤ 61) : AddressArithmetic lslBeyond d where
  ofIntExn_toInt path hlen := by
    have hlt := index_lt path
    rw [hlen] at hlt
    rw [Addr.toInt_eq lslBeyond (hlen.trans_le hd), Addr.ofIntExn_natCast hd, if_pos hlt, ← hlen, ofIndex_index, hlen]
    exact ⟨by omega, by exact_mod_cast hlt, rfl⟩
  toInt_ofIntExn i hlow hhigh := by
    obtain ⟨k, rfl⟩ := Int.eq_ofNat_of_zero_le hlow
    have hlt : k < 2 ^ d := by exact_mod_cast hhigh
    refine ⟨ofIndex d k, length_ofIndex, ?_, ?_⟩
    · rw [Addr.ofIntExn_natCast hd, if_pos hlt]
    · rw [Addr.toInt_eq lslBeyond (length_ofIndex.trans_le hd), index_ofIndex hlt]
  next_eq path hlen := by
    have hlt := index_lt path
    have hcast : ((2 ^ d : Nat) : Int) = 2 ^ d := by push_cast; rfl
    rw [hlen] at hlt
    rw [Addr.toInt_eq lslBeyond (hlen.trans_le hd), next_eq, hlen, ← hcast]
    by_cases hlast : index path + 1 < 2 ^ d
    · rw [if_neg (by omega), if_pos hlast]
      refine ⟨_, rfl, length_ofIndex, ?_⟩
      rw [Addr.toInt_eq lslBeyond (length_ofIndex.trans_le hd), index_ofIndex hlast, Nat.cast_succ]
    · rw [if_pos (by omega), if_neg hlast]
  prev_eq path hlen := by
    have hlt := index_lt path
    rw [hlen] at hlt
    rw [Addr.toInt_eq lslBeyond (hlen.trans_le hd), Addr.prev_eq, hlen]
    by_cases hzero : index path = 0
    · rw [if_pos (by omega), if_pos hzero]
    · rw [if_neg (by omega), if_neg hzero]
      refine ⟨_, rfl, length_ofIndex, ?_⟩
      rw [Addr.toInt_eq lslBeyond (length_ofIndex.trans_le hd), index_ofIndex (by omega)]
      omega
  compare_eq path path' hlen hlen' := by
    rw [Addr.compare_eq (hlen.trans hlen'.symm), Addr.toInt_eq lslBeyond (hlen.trans_le hd), Addr.toInt_eq lslBeyond (hlen'.trans_le hd)]
    rcases Nat.lt_trichotomy (index path) (index path') with hlt | heq | hgt
    · rw [Nat.compare_eq_lt.2 hlt, compare_lt_iff_lt.2 (Int.ofNat_lt.2 hlt)]
    · rw [heq, Nat.compare_eq_eq.2 rfl, compare_eq_iff_eq.2 rfl]
    · rw [Nat.compare_eq_gt.2 hgt, compare_gt_iff_gt.2 (Int.ofNat_lt.2 hgt)]
  isFurtherRight_iff than path hthan hpath := by
    rw [isFurtherRight_iff_index hthan hpath]
    refine forall₂_congr fun leaf leaf' => forall₄_congr fun hlen hlen' _ _ => ?_
    rw [Addr.toInt_eq lslBeyond (hlen.trans_le hd), Addr.toInt_eq lslBeyond (hlen'.trans_le hd), Int.ofNat_lt]
  exists_leaves a ha := ⟨_, visitsLeaves hd ha⟩

/-! ### Depths beyond -/

theorem Addr.toIntFrom_lt {i : Nat} {acc : Int} (hacc : acc < 2 ^ 62) : Addr.toIntFrom lslBeyond i acc path < 2 ^ 62 := by
  induction path generalizing i acc with
  | nil => exact hacc
  | cons b path ih =>
    refine ih ?_
    rw [Addr.wrap63]
    omega

/-- **Beyond a depth of 61** some index has no address: any index at 62, and from there on that which no integer is. -/
theorem not_addressArithmetic (hd : 61 < d) : ¬ AddressArithmetic lslBeyond d := by
  intro harith
  rcases Nat.lt_or_ge d 63 with hlt | hge
  · obtain rfl : d = 62 := by omega
    obtain ⟨path, -, hpath, -⟩ := harith.toInt_ofIntExn 0 le_rfl (by norm_num)
    rw [Addr.ofIntExn_62 (by norm_num)] at hpath
    exact absurd hpath.symm (Option.some_ne_none path)
  · have hpow : (2 : Int) ^ 62 < 2 ^ d := pow_lt_pow_right₀ (by norm_num) (by omega)
    obtain ⟨path, -, -, hint⟩ := harith.toInt_ofIntExn (2 ^ 62) (by norm_num) hpow
    have hlt : toInt lslBeyond path < 2 ^ 62 := Addr.toIntFrom_lt (by norm_num)
    omega

/-- **The arithmetic of addresses** is that of integers at the depths up to 61, and at no other. -/
theorem addressArithmetic_iff (lslBeyond : Int → Nat → Int) (d : Nat) : AddressArithmetic lslBeyond d ↔ d ≤ 61 :=
  ⟨fun harith => Nat.le_of_not_lt fun hd => not_addressArithmetic hd harith, addressArithmetic_of_le⟩

/-- At a depth of 62 not even the first index has an address, whatever the shifts are that are not specified. -/
theorem addressArithmetic_fails_62 : ofIntExn (fun _ _ => 0) 62 0 = none ∧ ¬ AddressArithmetic (fun _ _ => 0) 62 :=
  ⟨Addr.ofIntExn_62 (by norm_num), not_addressArithmetic (by norm_num)⟩

end MinaProtocol.MerkleLedger
