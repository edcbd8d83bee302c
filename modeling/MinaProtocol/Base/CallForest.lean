import MinaProtocol.Base.UserCommand
import Mathlib.Data.List.Basic

/-!
# Base.CallForest

Call forests with their digests and stack hashes, their wire form, which has neither, and their list form, where a
depth with each account update stands for the tree.

The list form is read by cutting off what is deeper. So a forest comes back from its list; a list comes back with its
depths if they start at zero, stay above and only go down one level at a time, and without them always.
-/

namespace MinaProtocol.HashedForest

/-- `Call_forest.t`: the account update of the first tree with its digest, its calls, the stack hash, and the rest. -/
inductive T (A D H : Type) where
  | nil
  | cons (accountUpdate : A) (accountUpdateDigest : D) (calls : T A D H) (stackHash : H) (rest : T A D H)

/-- `Call_forest.Tree.t`. -/
structure Tree (A D H : Type) where
  accountUpdate : A
  accountUpdateDigest : D
  calls : T A D H

variable {A B D H P F S : Type}

/-! ### Traversals -/

def fold (f : B → A → B) : B → T A D H → B
  | init, .nil => init
  | init, .cons accountUpdate _ calls _ rest => fold f (fold f (f init accountUpdate) calls) rest

/-- The account updates in the order of `fold`. -/
def toList (t : T A D H) : List A := (fold (fun acc p => p :: acc) [] t).reverse

/-- `mapi_forest_with_trees'`, with a function that reads and writes a state: the next index and the new forest. -/
def mapiForestWithTrees' (f : Nat → A → Tree A D H → S → B × S) : Nat → T A D H → S → (Nat × T B D H) × S
  | i, .nil, s => ((i, .nil), s)
  | i, .cons accountUpdate digest calls stackHash rest, s =>
    let update' := f i accountUpdate ⟨accountUpdate, digest, calls⟩ s
    let calls' := mapiForestWithTrees' f (i + 1) calls update'.2
    let rest' := mapiForestWithTrees' f calls'.1.1 rest calls'.2
    ((rest'.1.1, .cons update'.1 digest calls'.1.2 stackHash rest'.1.2), rest'.2)

/-- `mapi`. -/
def mapi (f : Nat → A → S → B × S) (t : T A D H) (s : S) : T B D H × S :=
  let result := mapiForestWithTrees' (fun i accountUpdate _ => f i accountUpdate) 0 t s
  (result.1.2, result.2)

/-- `map`. -/
def map (f : A → B) (t : T A D H) : T B D H := (mapi (fun _ accountUpdate (s : Unit) => (f accountUpdate, s)) t ()).1

/-! ### The list form -/

/-- `of_account_updates_map`. -/
def ofAccountUpdatesMap (f : P → A) (accountUpdateDepth : P → Int) : List P → T A Unit Unit
  | [] => .nil
  | p :: ps =>
    let isDeeper := fun p' => decide (accountUpdateDepth p < accountUpdateDepth p')
    .cons (f p) () (ofAccountUpdatesMap f accountUpdateDepth (ps.takeWhile isDeeper)) ()
      (ofAccountUpdatesMap f accountUpdateDepth (ps.dropWhile isDeeper))
termination_by ps => ps.length
decreasing_by
  · exact Nat.lt_succ_of_le (List.takeWhile_sublist _).length_le
  · exact Nat.lt_succ_of_le (List.dropWhile_sublist _).length_le

def collect (f : Int → A → P) : Int → T A D H → List P → List P
  | _, .nil, acc => acc
  | depth, .cons accountUpdate _ calls _ rest, acc =>
    collect f depth rest (collect f (depth + 1) calls (f depth accountUpdate :: acc))

/-- `to_account_updates_map`. -/
def toAccountUpdatesMap (f : Int → A → P) (t : T A D H) : List P := (collect f 0 t []).reverse

/-- `to_account_updates`. -/
def toAccountUpdates (t : T A D H) : List A := toAccountUpdatesMap (fun _ accountUpdate => accountUpdate) t

/-! ### Hashes -/

/-- The prefixes of `Hash_prefix_states` that forests are hashed with. -/
inductive HashPrefix where
  | accountUpdateNode
  | accountUpdateCons

/-- The random oracle, and `Outside_hash_image.t`. -/
structure Oracle (F : Type) where
  hash : HashPrefix → List F → F
  outsideHashImage : F

/-- The oracle has no collisions across its prefixes and does not hit `Outside_hash_image.t`. -/
structure Oracle.CollisionFree (oracle : Oracle F) : Prop where
  inj : ∀ p q xs ys, oracle.hash p xs = oracle.hash q ys → p = q ∧ xs = ys
  outside : ∀ p xs, oracle.hash p xs ≠ oracle.outsideHashImage

section Hashes

variable (oracle : Oracle F)

/-- `Call_forest.hash`. -/
def hash : T A D F → F
  | .nil => oracle.outsideHashImage
  | .cons _ _ _ stackHash _ => stackHash

/-- `Digest.Tree.create`. -/
def treeDigest (tree : Tree A F F) : F := oracle.hash .accountUpdateNode [tree.accountUpdateDigest, hash oracle tree.calls]

/-- `Digest.Forest.cons`. -/
def forestCons (treeHash tailHash : F) : F := oracle.hash .accountUpdateCons [treeHash, tailHash]

def consTree (tree : Tree A F F) (forest : T A F F) : T A F F :=
  .cons tree.accountUpdate tree.accountUpdateDigest tree.calls (forestCons oracle (treeDigest oracle tree) (hash oracle forest)) forest

/-- `cons`, with the digest of the account update as a parameter. -/
def cons (digestAccountUpdate : A → F) (calls : T A F F) (accountUpdate : A) (xs : T A F F) : T A F F :=
  consTree oracle ⟨accountUpdate, digestAccountUpdate accountUpdate, calls⟩ xs

def accumulateHashes (hashAccountUpdate : A → F) : T A D H → T A F F
  | .nil => .nil
  | .cons accountUpdate _ calls _ rest =>
    let calls := accumulateHashes hashAccountUpdate calls
    let rest := accumulateHashes hashAccountUpdate rest
    let node : Tree A F F := ⟨accountUpdate, hashAccountUpdate accountUpdate, calls⟩
    let nodeHash := treeDigest oracle node
    .cons node.accountUpdate node.accountUpdateDigest node.calls (forestCons oracle nodeHash (hash oracle rest)) rest

end Hashes

/-- `forget_hashes`. -/
def forgetHashes : T A D H → T A Unit Unit
  | .nil => .nil
  | .cons accountUpdate _ calls _ rest => .cons accountUpdate () (forgetHashes calls) () (forgetHashes rest)

/-- The forest as the transaction logic reads it, without hashes. -/
def toCallForest : T A D H → CallForest A
  | .nil => .nil
  | .cons accountUpdate _ calls _ rest => .cons accountUpdate (toCallForest calls) (toCallForest rest)

/-! ### Commands -/

/-- A command with a forest, or a list, of account updates. -/
structure Command (FeePayer Memo Updates : Type) where
  feePayer : FeePayer
  accountUpdates : Updates
  memo : Memo

variable {FeePayer Memo : Type}

section Commands

variable (oracle : Oracle F) (digestAccountUpdate : A → F)

def ofWire (w : Command FeePayer Memo (T A Unit Unit)) : Command FeePayer Memo (T A F F) where
  feePayer := w.feePayer
  memo := w.memo
  accountUpdates := accumulateHashes oracle digestAccountUpdate w.accountUpdates

def toWire (t : Command FeePayer Memo (T A F F)) : Command FeePayer Memo (T A Unit Unit) where
  feePayer := t.feePayer
  memo := t.memo
  accountUpdates := forgetHashes t.accountUpdates

/-- `of_simple`; `ofSimpleUpdate` drops the depth of an account update. -/
def ofSimple (ofSimpleUpdate : P → A) (callDepth : P → Int) (w : Command FeePayer Memo (List P)) : Command FeePayer Memo (T A F F) where
  feePayer := w.feePayer
  memo := w.memo
  accountUpdates := accumulateHashes oracle digestAccountUpdate (map ofSimpleUpdate (ofAccountUpdatesMap id callDepth w.accountUpdates))

/-- `to_simple`; `toSimpleUpdate` adds the depth. -/
def toSimple (toSimpleUpdate : Int → A → P) (t : Command FeePayer Memo (T A F F)) : Command FeePayer Memo (List P) where
  feePayer := t.feePayer
  memo := t.memo
  accountUpdates := toAccountUpdatesMap toSimpleUpdate t.accountUpdates

end Commands

/-! ### What the forms agree on -/

/-- The account updates in pre-order. -/
def preOrder : T A D H → List A
  | .nil => []
  | .cons accountUpdate _ calls _ rest => accountUpdate :: (preOrder calls ++ preOrder rest)

/-- The account updates in pre-order, each with its depth. -/
def withDepths : Int → T A D H → List (Int × A)
  | _, .nil => []
  | depth, .cons accountUpdate _ calls _ rest => (depth, accountUpdate) :: (withDepths (depth + 1) calls ++ withDepths depth rest)

/-- A list of a forest at a depth: it starts there, stays there or deeper, and goes down one level at a time. -/
structure Nested (accountUpdateDepth : P → Int) (depth : Int) (ps : List P) : Prop where
  head : ∀ p, ps.head? = some p → accountUpdateDepth p = depth
  above : ∀ p ∈ ps, depth ≤ accountUpdateDepth p
  steps : ps.IsChain fun p q => accountUpdateDepth q ≤ accountUpdateDepth p + 1

/-- A function on all account updates of a list, from an index on. -/
def visits (f : Nat → A → S → B × S) : Nat → List A → S → List B × S
  | _, [], s => ([], s)
  | i, a :: as, s =>
    let b := f i a s
    let bs := visits f (i + 1) as b.2
    (b.1 :: bs.1, bs.2)

/-- The forest without account updates. -/
def labels : T A D H → T Unit D H
  | .nil => .nil
  | .cons _ digest calls stackHash rest => .cons () digest (labels calls) stackHash (labels rest)

/-- The shape of a forest with the digests of its account updates. -/
def digests : T A D H → T Unit D Unit
  | .nil => .nil
  | .cons _ digest calls _ rest => .cons () digest (digests calls) () (digests rest)

/-- The forest of a list is built from the right with `cons`. -/
def rebuild (oracle : Oracle F) (digestAccountUpdate : A → F) : T A D H → T A F F
  | .nil => .nil
  | .cons accountUpdate _ calls _ rest =>
    cons oracle digestAccountUpdate (rebuild oracle digestAccountUpdate calls) accountUpdate (rebuild oracle digestAccountUpdate rest)

/-- The forests that `cons` and `accumulate_hashes` make. -/
inductive Built (oracle : Oracle F) (digestAccountUpdate : A → F) : T A F F → Prop where
  | nil : Built oracle digestAccountUpdate .nil
  | cons {calls xs : T A F F} (accountUpdate : A) : Built oracle digestAccountUpdate calls → Built oracle digestAccountUpdate xs →
      Built oracle digestAccountUpdate (cons oracle digestAccountUpdate calls accountUpdate xs)
  | accumulated (D H : Type) (t : T A D H) : Built oracle digestAccountUpdate (accumulateHashes oracle digestAccountUpdate t)

/-- All stack hashes are those of `cons_tree`. -/
def Hashed (oracle : Oracle F) : T A F F → Prop
  | .nil => True
  | .cons accountUpdate digest calls stackHash rest => Hashed oracle calls ∧ Hashed oracle rest ∧
      stackHash = forestCons oracle (treeDigest oracle ⟨accountUpdate, digest, calls⟩) (hash oracle rest)

/-! ### Traversals agree -/

attribute [local simp] preOrder withDepths forgetHashes rebuild

section Traversals

variable {t : T A D H}

theorem fold_eq (f : B → A → B) (init : B) (t : T A D H) : fold f init t = (preOrder t).foldl f init := by
  induction t generalizing init with
  | nil => rfl
  | cons u _ calls _ rest ihCalls ihRest => rw [fold, ihRest, ihCalls, preOrder, List.foldl_cons, List.foldl_append]

theorem toList_eq (t : T A D H) : toList t = preOrder t := by
  rw [toList, fold_eq, List.foldl_flip_cons_eq_append, List.append_nil, List.reverse_reverse, List.map_id']

/-- The transaction logic goes through the account updates in the same order. -/
theorem toList_toCallForest (t : T A D H) : (toCallForest t).toList = toList t := by
  rw [toList_eq]
  induction t with
  | nil => rfl
  | cons u _ calls _ rest ihCalls ihRest => rw [toCallForest, CallForest.toList, ihCalls, ihRest, preOrder]

theorem collect_eq (f : Int → A → P) (depth : Int) (t : T A D H) (acc : List P) :
    collect f depth t acc = ((withDepths depth t).map fun p => f p.1 p.2).reverse ++ acc := by
  induction t generalizing depth acc with
  | nil => rfl
  | cons u _ calls _ rest ihCalls ihRest =>
    rw [collect, ihRest, ihCalls]
    simp

theorem toAccountUpdatesMap_eq (f : Int → A → P) (t : T A D H) :
    toAccountUpdatesMap f t = (withDepths 0 t).map fun p => f p.1 p.2 := by
  rw [toAccountUpdatesMap, collect_eq, List.append_nil, List.reverse_reverse]

theorem withDepths_snd (depth : Int) (t : T A D H) : (withDepths depth t).map (·.2) = preOrder t := by
  induction t generalizing depth with
  | nil => rfl
  | cons u _ calls _ rest ihCalls ihRest => rw [withDepths, List.map_cons, List.map_append, ihCalls, ihRest, preOrder]

theorem toAccountUpdates_eq (t : T A D H) : toAccountUpdates t = preOrder t := by
  rw [toAccountUpdates, toAccountUpdatesMap_eq]
  exact withDepths_snd 0 t

variable (f : Nat → A → S → B × S)

theorem visits_append (i : Nat) (as as' : List A) (s : S) : visits f i (as ++ as') s =
      ((visits f i as s).1 ++ (visits f (i + as.length) as' (visits f i as s).2).1, (visits f (i + as.length) as' (visits f i as s).2).2) := by
  induction as generalizing i s with
  | nil => rfl
  | cons a as ih =>
    have hindex : i + (as.length + 1) = i + 1 + as.length := by omega
    rw [List.length_cons, hindex]
    show ((f i a s).1 :: (visits f (i + 1) (as ++ as') (f i a s).2).1, (visits f (i + 1) (as ++ as') (f i a s).2).2) = _
    rw [ih]
    rfl

/-- What `mapi` does from an index on: the next index, the account updates that it makes with the state that it leaves, and
all else as it was. -/
structure Visits (i : Nat) (t : T A D H) (s : S) (result : (Nat × T B D H) × S) : Prop where
  next : result.1.1 = i + (preOrder t).length
  updates : (preOrder result.1.2, result.2) = visits f i (preOrder t) s
  labels : labels result.1.2 = labels t

theorem mapiForest_visits (i : Nat) (t : T A D H) (s : S) :
    Visits f i t s (mapiForestWithTrees' (fun i accountUpdate _ => f i accountUpdate) i t s) := by
  induction t generalizing i s with
  | nil => exact ⟨rfl, rfl, rfl⟩
  | cons u digest calls stackHash rest ihCalls ihRest =>
    have hcalls := ihCalls (i + 1) (f i u s).2
    generalize hc : mapiForestWithTrees' (fun i u _ => f i u) (i + 1) calls (f i u s).2 = calls' at hcalls
    have hrest := ihRest calls'.1.1 calls'.2
    generalize hr : mapiForestWithTrees' (fun i u _ => f i u) calls'.1.1 rest calls'.2 = rest' at hrest
    have hresult : mapiForestWithTrees' (fun i u _ => f i u) i (.cons u digest calls stackHash rest) s =
        ((rest'.1.1, .cons (f i u s).1 digest calls'.1.2 stackHash rest'.1.2), rest'.2) := by
      rw [← hr, ← hc]
      rfl
    rw [hresult]
    refine ⟨?_, ?_, ?_⟩
    · rw [preOrder, List.length_cons, List.length_append]
      show rest'.1.1 = _
      rw [hrest.next, hcalls.next]
      omega
    · have hupdates : visits f (i + 1) (preOrder calls ++ preOrder rest) (f i u s).2 =
          (preOrder calls'.1.2 ++ preOrder rest'.1.2, rest'.2) := by
        rw [visits_append, ← hcalls.updates, ← hcalls.next, ← hrest.updates]
      show ((f i u s).1 :: (preOrder calls'.1.2 ++ preOrder rest'.1.2), rest'.2) =
        ((f i u s).1 :: (visits f (i + 1) (preOrder calls ++ preOrder rest) (f i u s).2).1,
          (visits f (i + 1) (preOrder calls ++ preOrder rest) (f i u s).2).2)
      rw [hupdates]
    · show T.cons () digest (HashedForest.labels calls'.1.2) stackHash (HashedForest.labels rest'.1.2) = _
      rw [hcalls.labels, hrest.labels]
      rfl

/-- `mapi` visits the account updates in pre-order, with the indices from 0 on. -/
theorem mapi_visits (t : T A D H) (s : S) :
    (preOrder (mapi f t s).1, (mapi f t s).2) = visits f 0 (preOrder t) s ∧ labels (mapi f t s).1 = labels t := by
  have hvisits := mapiForest_visits f 0 t s
  exact ⟨hvisits.updates, hvisits.labels⟩

end Traversals

/-! ### The list form -/

section Lists

variable {f : P → A} {accountUpdateDepth : P → Int} {depth : Int} {p : P} {ps : List P} {t : T A D H} {e : Int × A}

theorem preOrder_ofAccountUpdatesMap (f : P → A) (accountUpdateDepth : P → Int) (ps : List P) :
    preOrder (ofAccountUpdatesMap f accountUpdateDepth ps) = ps.map f := by
  fun_induction ofAccountUpdatesMap f accountUpdateDepth ps with
  | case1 => rfl
  | case2 p ps isDeeper ihChildren ihSiblings =>
    rw [preOrder, ihChildren, ihSiblings, ← List.map_append, List.takeWhile_append_dropWhile, List.map_cons]

theorem le_of_mem_withDepths (he : e ∈ withDepths depth t) : depth ≤ e.1 := by
  induction t generalizing depth with
  | nil => cases he
  | cons u _ calls _ rest ihCalls ihRest =>
    rcases List.mem_cons.mp he with rfl | he
    · exact Int.le_refl _
    · rcases List.mem_append.mp he with he | he
      · have := ihCalls he
        omega
      · exact ihRest he

theorem head_withDepths (he : (withDepths depth t).head? = some e) : e.1 = depth := by
  cases t with
  | nil => cases he
  | cons u _ calls _ rest =>
    cases he
    rfl

/-- A forest comes back from its list. -/
theorem ofAccountUpdatesMap_withDepths {g : Int → A → P} (hdepth : ∀ d a, accountUpdateDepth (g d a) = d) (hf : ∀ d a, f (g d a) = a)
    (depth : Int) (t : T A D H) : ofAccountUpdatesMap f accountUpdateDepth ((withDepths depth t).map fun e => g e.1 e.2) = forgetHashes t := by
  induction t generalizing depth with
  | nil => rw [withDepths, List.map_nil, ofAccountUpdatesMap, forgetHashes]
  | cons u _ calls _ rest ihCalls ihRest =>
    -- the calls are all deeper, and what follows them is not
    have hcalls : ∀ p ∈ (withDepths (depth + 1) calls).map (fun e => g e.1 e.2),
        decide (accountUpdateDepth (g depth u) < accountUpdateDepth p) = true := by
      intro p hp
      obtain ⟨e, he, rfl⟩ := List.mem_map.mp hp
      have hle := le_of_mem_withDepths he
      rw [hdepth, hdepth, decide_eq_true_eq]
      omega
    have hrest : ∀ p, ((withDepths depth rest).map fun e => g e.1 e.2).head? = some p →
        decide (accountUpdateDepth (g depth u) < accountUpdateDepth p) = false := by
      intro p hp
      rw [List.head?_map] at hp
      obtain ⟨e, he, rfl⟩ := Option.map_eq_some_iff.mp hp
      rw [hdepth, hdepth, head_withDepths he, decide_eq_false_iff_not]
      exact Int.lt_irrefl _
    have hnotaken : ((withDepths depth rest).map fun e => g e.1 e.2).takeWhile
        (fun p => decide (accountUpdateDepth (g depth u) < accountUpdateDepth p)) = [] := by
      generalize (withDepths depth rest).map (fun e => g e.1 e.2) = ps at hrest
      cases ps with
      | nil => rfl
      | cons p ps => rw [List.takeWhile_cons, hrest p rfl, if_neg Bool.false_ne_true]
    have hdropped : ((withDepths depth rest).map fun e => g e.1 e.2).dropWhile
        (fun p => decide (accountUpdateDepth (g depth u) < accountUpdateDepth p)) = (withDepths depth rest).map fun e => g e.1 e.2 := by
      generalize (withDepths depth rest).map (fun e => g e.1 e.2) = ps at hrest
      cases ps with
      | nil => rfl
      | cons p ps => rw [List.dropWhile_cons, hrest p rfl, if_neg Bool.false_ne_true]
    rw [withDepths, List.map_cons, List.map_append, ofAccountUpdatesMap, List.takeWhile_append_of_pos hcalls,
      List.dropWhile_append_of_pos hcalls, hnotaken, hdropped, List.append_nil, ihCalls, ihRest, hf, forgetHashes]

variable (h : Nested accountUpdateDepth depth (p :: ps))

include h

theorem Nested.tail_le : ∀ q ∈ ps, depth ≤ accountUpdateDepth q :=
  fun q hq => h.above q (List.mem_cons_of_mem _ hq)

theorem Nested.children :
    Nested accountUpdateDepth (depth + 1) (ps.takeWhile fun q => decide (accountUpdateDepth p < accountUpdateDepth q)) := by
  have hp := h.head p rfl
  refine ⟨fun q hq => ?_, fun q hq => ?_, ?_⟩
  · cases ps with
    | nil => cases hq
    | cons q' ps =>
      rw [List.takeWhile_cons] at hq
      by_cases hlt : accountUpdateDepth p < accountUpdateDepth q'
      · rw [if_pos (by simpa using hlt)] at hq
        cases hq
        have hstep := (List.isChain_cons_cons.mp h.steps).1
        omega
      · rw [if_neg (by simpa using hlt)] at hq
        cases hq
  · have hlt := List.mem_takeWhile_imp hq
    rw [decide_eq_true_eq] at hlt
    omega
  · exact h.steps.tail.prefix (List.takeWhile_prefix _)

theorem Nested.siblings :
    Nested accountUpdateDepth depth (ps.dropWhile fun q => decide (accountUpdateDepth p < accountUpdateDepth q)) := by
  have hp := h.head p rfl
  have hsuffix := List.dropWhile_suffix (l := ps) fun q => decide (accountUpdateDepth p < accountUpdateDepth q)
  refine ⟨fun q hq => ?_, fun q hq => h.tail_le q (hsuffix.subset hq), h.steps.tail.suffix hsuffix⟩
  have hnot := List.head?_dropWhile_not (fun q => decide (accountUpdateDepth p < accountUpdateDepth q)) ps
  rw [hq] at hnot
  have hle := h.tail_le q (hsuffix.subset (List.mem_of_mem_head? hq))
  have hge : ¬ accountUpdateDepth p < accountUpdateDepth q := by simpa using hnot
  omega

omit h

theorem withDepths_ofAccountUpdatesMap (h : Nested accountUpdateDepth depth ps) :
    withDepths depth (ofAccountUpdatesMap f accountUpdateDepth ps) = ps.map fun p => (accountUpdateDepth p, f p) := by
  fun_induction ofAccountUpdatesMap f accountUpdateDepth ps generalizing depth with
  | case1 => rfl
  | case2 p ps isDeeper ihChildren =>
    rename_i ihSiblings
    rw [withDepths, ihChildren h.children, ihSiblings h.siblings, ← List.map_append, List.takeWhile_append_dropWhile, List.map_cons,
      h.head p rfl]

end Lists

/-! ### Hashes -/

variable {oracle : Oracle F} {digestAccountUpdate : A → F}

section Hashing

variable {s t : T A F F}

theorem accumulateHashes_eq (oracle : Oracle F) (digestAccountUpdate : A → F) (t : T A D H) :
    accumulateHashes oracle digestAccountUpdate t = rebuild oracle digestAccountUpdate t := by
  induction t with
  | nil => rfl
  | cons u _ calls _ rest ihCalls ihRest =>
    rw [accumulateHashes, rebuild, ihCalls, ihRest]
    rfl

theorem rebuild_forgetHashes (t : T A D H) :
    rebuild oracle digestAccountUpdate (forgetHashes t) = rebuild oracle digestAccountUpdate t := by
  induction t with
  | nil => rfl
  | cons u _ calls _ rest ihCalls ihRest => rw [forgetHashes, rebuild, rebuild, ihCalls, ihRest]

theorem rebuild_rebuild (t : T A D H) :
    rebuild oracle digestAccountUpdate (rebuild oracle digestAccountUpdate t) = rebuild oracle digestAccountUpdate t := by
  induction t with
  | nil => rfl
  | cons u _ calls _ rest ihCalls ihRest =>
    show cons oracle digestAccountUpdate (rebuild _ _ (rebuild _ _ calls)) u (rebuild _ _ (rebuild _ _ rest)) = _
    rw [ihCalls, ihRest, rebuild]

variable (hbuilt : Built oracle digestAccountUpdate t)

include hbuilt

theorem Built.rebuild_eq : rebuild oracle digestAccountUpdate t = t := by
  induction hbuilt with
  | nil => rfl
  | cons u _ _ ihCalls ihRest =>
    show HashedForest.cons oracle digestAccountUpdate (rebuild _ _ _) u (rebuild _ _ _) = _
    rw [ihCalls, ihRest]
  | accumulated D H t => rw [accumulateHashes_eq, rebuild_rebuild]

theorem Built.accumulate_forget :
    accumulateHashes oracle digestAccountUpdate (forgetHashes t) = t := by
  rw [accumulateHashes_eq, rebuild_forgetHashes, hbuilt.rebuild_eq]

omit hbuilt

theorem hashed_rebuild (t : T A D H) : Hashed oracle (rebuild oracle digestAccountUpdate t) := by
  induction t with
  | nil => trivial
  | cons u _ calls _ rest ihCalls ihRest => exact ⟨ihCalls, ihRest, rfl⟩

include hbuilt in
theorem Built.hashed : Hashed oracle t := by
  rw [← hbuilt.rebuild_eq]
  exact hashed_rebuild t

theorem digests_eq_of_hash (hfree : oracle.CollisionFree) {s : T A F F} {t : T B F F} (hs : Hashed oracle s) (ht : Hashed oracle t)
    (hhash : hash oracle s = hash oracle t) : digests s = digests t := by
  induction s generalizing t with
  | nil =>
    cases t with
    | nil => rfl
    | cons u digest calls stackHash rest =>
      obtain ⟨-, -, hstack⟩ := ht
      rw [hash, hash, hstack] at hhash
      exact absurd hhash.symm (hfree.outside _ _)
  | cons u digest calls stackHash rest ihCalls ihRest =>
    obtain ⟨hcalls, hrest, hstack⟩ := hs
    cases t with
    | nil =>
      rw [hash, hash, hstack] at hhash
      exact absurd hhash (hfree.outside _ _)
    | cons u' digest' calls' stackHash' rest' =>
      obtain ⟨hcalls', hrest', hstack'⟩ := ht
      rw [hash, hash, hstack, hstack'] at hhash
      obtain ⟨-, hcons⟩ := hfree.inj _ _ _ _ hhash
      obtain ⟨htree, htail⟩ := List.cons_eq_cons.mp hcons
      obtain ⟨-, hnode⟩ := hfree.inj _ _ _ _ htree
      obtain ⟨hdigest, hcallsHash⟩ := List.cons_eq_cons.mp hnode
      rw [digests, digests, show digest = digest' from hdigest, ihCalls hcalls hcalls' (List.cons_eq_cons.mp hcallsHash).1,
        ihRest hrest hrest' (List.cons_eq_cons.mp htail).1]

end Hashing

/-! ### Commands -/

section Forms

theorem map_cons (f : A → B) (u : A) (digest : D) (calls : T A D H) (stackHash : H) (rest : T A D H) :
    map f (.cons u digest calls stackHash rest) = .cons (f u) digest (map f calls) stackHash (map f rest) := by
  -- the indices do not matter
  have hindex : ∀ (i j : Nat) (t : T A D H), (mapiForestWithTrees' (fun _ u _ (s : Unit) => (f u, s)) i t ()).1.2 =
      (mapiForestWithTrees' (fun _ u _ (s : Unit) => (f u, s)) j t ()).1.2 := by
    intro i j t
    induction t generalizing i j with
    | nil => rfl
    | cons u digest calls stackHash rest ihCalls ihRest =>
      show T.cons _ _ _ _ _ = T.cons _ _ _ _ _
      rw [ihCalls (i + 1) (j + 1), ihRest]
  exact congrArg₂ (fun calls' rest' => T.cons (f u) digest calls' stackHash rest') (hindex 1 0 calls) (hindex _ 0 rest)

theorem withDepths_map (f : A → B) (depth : Int) (t : T A D H) :
    withDepths depth (map f t) = (withDepths depth t).map fun e => (e.1, f e.2) := by
  induction t generalizing depth with
  | nil => rfl
  | cons u digest calls stackHash rest ihCalls ihRest =>
    rw [map_cons, withDepths, withDepths, ihCalls, ihRest, List.map_cons, List.map_append]

theorem withDepths_accumulateHashes (depth : Int) (t : T A D H) :
    withDepths depth (accumulateHashes oracle digestAccountUpdate t) = withDepths depth t := by
  induction t generalizing depth with
  | nil => rfl
  | cons u _ calls _ rest ihCalls ihRest =>
    rw [withDepths, ← ihCalls, ← ihRest]
    rfl

theorem toSimple_ofSimple {ofSimpleUpdate : P → A} {callDepth : P → Int} {toSimpleUpdate : Int → A → P}
    (hlaw : ∀ p, toSimpleUpdate (callDepth p) (ofSimpleUpdate p) = p) (w : Command FeePayer Memo (List P))
    (hnested : Nested callDepth 0 w.accountUpdates) :
    toSimple toSimpleUpdate (ofSimple oracle digestAccountUpdate ofSimpleUpdate callDepth w) = w := by
  rw [toSimple, ofSimple, toAccountUpdatesMap_eq, withDepths_accumulateHashes, withDepths_map, withDepths_ofAccountUpdatesMap hnested,
    List.map_map, List.map_map]
  show Command.mk w.feePayer (w.accountUpdates.map fun p => toSimpleUpdate (callDepth p) (ofSimpleUpdate p)) w.memo = w
  rw [List.map_id'' hlaw]

theorem ofWire_toWire (t : Command FeePayer Memo (T A F F)) (hbuilt : Built oracle digestAccountUpdate t.accountUpdates) :
    ofWire oracle digestAccountUpdate (toWire t) = t := by
  rw [ofWire, toWire, hbuilt.accumulate_forget]

/-- The list form and the wire form keep a forest, the traversals go through it in pre-order, and its hash commits to it. -/
theorem forms_agree (oracle : Oracle F) (digestAccountUpdate : A → F) :
    (∀ (P D H : Type) (f : P → A) (g : Int → A → P) (accountUpdateDepth : P → Int), (∀ d a, accountUpdateDepth (g d a) = d) →
      (∀ d a, f (g d a) = a) → ∀ t : T A D H, ofAccountUpdatesMap f accountUpdateDepth (toAccountUpdatesMap g t) = forgetHashes t) ∧
    (∀ (P : Type) (f : P → A) (accountUpdateDepth : P → Int) (ps : List P), Nested accountUpdateDepth 0 ps →
      toAccountUpdatesMap Prod.mk (ofAccountUpdatesMap f accountUpdateDepth ps) = ps.map fun p => (accountUpdateDepth p, f p)) ∧
    (∀ (P : Type) (f : P → A) (accountUpdateDepth : P → Int) (ps : List P),
      toAccountUpdates (ofAccountUpdatesMap f accountUpdateDepth ps) = ps.map f) ∧
    (∀ (D H : Type) (t : T A D H), accumulateHashes oracle digestAccountUpdate t = rebuild oracle digestAccountUpdate t) ∧
    (∀ (FeePayer Memo : Type) (t : Command FeePayer Memo (T A F F)), Built oracle digestAccountUpdate t.accountUpdates →
      ofWire oracle digestAccountUpdate (toWire t) = t) ∧
    (∀ (D H : Type) (t : T A D H), toList t = preOrder t ∧ toAccountUpdates t = preOrder t ∧
      (∀ (B : Type) (f : B → A → B) (init : B), fold f init t = (preOrder t).foldl f init) ∧
      ∀ (B S : Type) (f : Nat → A → S → B × S) (s : S),
        (preOrder (mapi f t s).1, (mapi f t s).2) = visits f 0 (preOrder t) s ∧ labels (mapi f t s).1 = labels t) ∧
    (∀ t : T A F F, Built oracle digestAccountUpdate t → Hashed oracle t) ∧
    (oracle.CollisionFree → ∀ (B : Type) (s : T A F F) (t : T B F F), Hashed oracle s → Hashed oracle t →
      hash oracle s = hash oracle t → digests s = digests t) := by
  refine ⟨fun P D H f g depth hdepth hf t => ?_, fun P f depth ps hnested => ?_, fun P f depth ps => ?_, fun D H t => accumulateHashes_eq _ _ t,
    fun FeePayer Memo t hbuilt => ofWire_toWire t hbuilt, fun D H t => ?_, fun t hbuilt => hbuilt.hashed,
    fun hfree B s t hs ht hhash => digests_eq_of_hash hfree hs ht hhash⟩
  · rw [toAccountUpdatesMap_eq]
    exact ofAccountUpdatesMap_withDepths hdepth hf 0 t
  · rw [toAccountUpdatesMap_eq, withDepths_ofAccountUpdatesMap hnested]
    exact List.map_id _
  · rw [toAccountUpdates_eq, preOrder_ofAccountUpdatesMap]
  · exact ⟨toList_eq t, toAccountUpdates_eq t, fun B f init => fold_eq f init t, fun B S f s => mapi_visits f t s⟩

/-- An oracle without collisions: a hash is what was hashed. -/
inductive FreeHash where
  | outside
  | leaf (n : Nat)
  | hash (p : HashPrefix) (xs : List FreeHash)

def freeOracle : Oracle FreeHash := ⟨.hash, .outside⟩

theorem freeOracle_collisionFree : freeOracle.CollisionFree :=
  ⟨fun _ _ _ _ h => FreeHash.hash.inj h, fun _ _ h => FreeHash.noConfusion h⟩

/-- The depths of a list with two trees, and a forest that its hash gives. -/
theorem forms_agree_two :
    toAccountUpdatesMap Prod.mk (ofAccountUpdatesMap (fun p : Int × Nat => p.2) (·.1) [(0, 5), (1, 6), (2, 7), (1, 8), (0, 9)]) =
        [(0, 5), (1, 6), (2, 7), (1, 8), (0, 9)] ∧
      ∀ t : T Nat FreeHash FreeHash, Hashed freeOracle t →
        hash freeOracle (cons freeOracle .leaf .nil 5 (cons freeOracle .leaf .nil 6 .nil)) = hash freeOracle t →
        T.cons () (.leaf 5) .nil () (.cons () (.leaf 6) .nil () .nil) = digests t := by
  obtain ⟨-, hlist, -, -, -, -, -, hhash⟩ := forms_agree freeOracle FreeHash.leaf
  refine ⟨?_, fun t ht heq => ?_⟩
  · exact hlist _ _ _ _ ⟨by simp, by simp, by decide⟩
  · exact hhash freeOracle_collisionFree Nat (cons freeOracle .leaf .nil 5 (cons freeOracle .leaf .nil 6 .nil)) t
      ⟨trivial, ⟨trivial, trivial, rfl⟩, rfl⟩ ht heq

end Forms

end MinaProtocol.HashedForest
