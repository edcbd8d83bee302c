import MinaProtocol.Lib.AddressTree

/-!
# MerkleLedger.SparseLedger

Sparse ledgers (`sparse_ledger.ml`): the accounts of a ledger that are needed, with the hashes of the parts
that are not. Paths are added to a tree that already has some; the hashes that it has are kept, and what
hangs below a hash that is taken apart is built from the leaf up.

Whatever paths of a full tree are added, in whatever order, what comes out is the full tree with the subtrees
cut off in which no leaf was asked for. Reading, writing and paths are those of the full tree at its leaves.

Indexes are natural numbers: a tree has no more leaves than a machine has integers.
-/

namespace MinaProtocol.SparseLedger

open AddressTree

/-! ### Sparse ledgers -/

/-- `Tree.t`. -/
inductive Tree (Hash Account : Type) where
  | account (account : Account)
  | hash (hash : Hash)
  | node (hash : Hash) (l r : Tree Hash Account)
deriving DecidableEq

/-- `T.t`. -/
structure T (Hash Key Account : Type) where
  indexes : List (Key × Nat)
  depth : Nat
  tree : Tree Hash Account
deriving DecidableEq

/-- An element of a path: the node is on this side. -/
inductive PathElem (A : Type) where
  | left (a : A)
  | right (a : A)
deriving DecidableEq

/-- What the functor is applied to. -/
structure Hashing (Hash Account : Type) where
  merge : Nat → Hash → Hash → Hash
  dataHash : Account → Hash

inductive Kind where
  | account
  | hash
  | node
deriving DecidableEq

/-- Where an operation fails, with what its text says; that of `get` shows the tree besides. -/
inductive Error where
  | pathTooLong
  | pathTooShort
  | get (index : Nat) (expected got : Kind) (depth : Int)
  | set (index : Nat) (expected got : Kind) (depth : Int)
  | pathBadDepth (index : Nat)
  | pathDeadEnd (index : Nat)
deriving DecidableEq

variable {Hash Key Account E : Type}

def ofHash (depth : Nat) (h : Hash) : T Hash Key Account := ⟨[], depth, .hash h⟩

variable (hashing : Hashing Hash Account)

def hash : Tree Hash Account → Hash
  | .account a => hashing.dataHash a
  | .hash h => h
  | .node h _ _ => h

variable (t : T Hash Key Account)

def merkleRoot : Hash := hash hashing t.tree

/-! ### Adding paths -/

/-- `replace_self`: the children of a node, of which one is made by the function from its hash, if that is known. -/
abbrev ReplaceSelf (Hash Account E : Type) :=
  (Option Hash → Tree Hash Account) → PathElem E → Tree Hash Account × Tree Hash Account

/-- `Nonempty_list.rev`. -/
def rev {A : Type} (list : A × List A) : A × List A :=
  list.2.foldl (fun acc x => (x, acc.1 :: acc.2)) (list.1, [])

/-- `build_tail_f`. -/
def buildTailF (replaceSelf : ReplaceSelf Hash Account E) (height : Nat)
    (prev : Tree Hash Account × Tree Hash Account) : PathElem E → Tree Hash Account × Tree Hash Account :=
  replaceSelf fun mself =>
    .node (mself.getD (hashing.merge height (hash hashing prev.1) (hash hashing prev.2))) prev.1 prev.2

/-- `build_tail`. -/
def buildTail (replaceSelf : ReplaceSelf Hash Account E) (account : Account)
    (hashNodeToBottomPath : PathElem E × List (PathElem E)) : Tree Hash Account × Tree Hash Account :=
  let bottomToHashNodePath := rev hashNodeToBottomPath
  bottomToHashNodePath.2.zipIdx.foldl (fun prev el => buildTailF hashing replaceSelf el.2 prev el.1)
    (replaceSelf (fun _ => .account account) bottomToHashNodePath.1)

/-- `traverse_through_nodes`. -/
def traverseThroughNodes (hashing : Hashing Hash Account) (replaceSelf : ReplaceSelf Hash Account E) (account : Account) :
    Tree Hash Account → List (PathElem E) → Except Error (Tree Hash Account)
  | .account _, _ :: _ => .error .pathTooLong
  | .account _, [] => .ok (.account account)
  | .hash _, [] => .ok (.account account)
  | .hash h, fstEl :: rest =>
    let tail := buildTail hashing replaceSelf account (fstEl, rest)
    .ok (.node h tail.1 tail.2)
  | .node h l r, .left _ :: rest =>
    (traverseThroughNodes hashing replaceSelf account l rest).map fun l => .node h l r
  | .node h l r, .right _ :: rest =>
    (traverseThroughNodes hashing replaceSelf account r rest).map fun r => .node h l r
  | .node _ _ _, [] => .error .pathTooShort

/-- `add_path_impl`. -/
def addPathImpl (replaceSelf : ReplaceSelf Hash Account E) (tree0 : Tree Hash Account)
    (path0 : List (PathElem E)) (account : Account) : Except Error (Tree Hash Account) :=
  traverseThroughNodes hashing replaceSelf account tree0 path0.reverse

/-- A step of the fold for the index. -/
def addBit (acc : Nat) : PathElem E × Nat → Nat
  | (.right _, i) => acc + 1 <<< i
  | (.left _, _) => acc

/-- The index of a path. -/
def pathIndex (path : List (PathElem E)) : Nat := path.zipIdx.foldl addBit 0

/-- `replace_self` of `add_path`. -/
def replaceSelf : ReplaceSelf Hash Account Hash
  | f, .left hR => (f none, .hash hR)
  | f, .right hL => (.hash hL, f none)

/-- `replace_self` of `add_wide_path_unsafe`. -/
def replaceSelfWide : ReplaceSelf Hash Account (Hash × Hash)
  | f, .left (hL, hR) => (f (some hL), .hash hR)
  | f, .right (hL, hR) => (.hash hL, f (some hR))

def addPath (path : List (PathElem Hash)) (accountId : Key) (account : Account) : Except Error (T Hash Key Account) :=
  (addPathImpl hashing replaceSelf t.tree path account).map fun tree =>
    { t with tree, indexes := (accountId, pathIndex path) :: t.indexes }

def addWidePathUnsafe (path : List (PathElem (Hash × Hash))) (accountId : Key) (account : Account) :
    Except Error (T Hash Key Account) :=
  (addPathImpl hashing replaceSelfWide t.tree path account).map fun tree =>
    { t with tree, indexes := (accountId, pathIndex path) :: t.indexes }

/-! ### Reading and writing

The source counts the levels that are left from `depth - 1` to below zero; here they are counted to zero. -/

/-- `iteri`: what the function is called with, call by call. -/
def iteriFrom : Nat → Nat → Tree Hash Account → List (Nat × Account)
  | acc, _, .account a => [(acc, a)]
  | _, _, .hash _ => []
  | acc, levels, .node _ l r =>
    iteriFrom acc (levels - 1) l ++ iteriFrom (acc + 1 <<< (levels - 1)) (levels - 1) r

def iteri : List (Nat × Account) := iteriFrom 0 t.depth t.tree

def ithBit (idx i : Nat) : Bool := decide ((idx >>> i) &&& 1 = 1)

def Tree.kind : Tree Hash Account → Kind
  | .account _ => .account
  | .hash _ => .hash
  | .node _ _ _ => .node

def expectedKind (levels : Nat) : Kind := if levels = 0 then .account else .node

def getExnFrom (depth idx : Nat) : Nat → Tree Hash Account → Except Error Account
  | 0, .account acct => .ok acct
  | i + 1, .node _ l r => if ithBit idx i then getExnFrom depth idx i r else getExnFrom depth idx i l
  | levels, tree => .error (.get idx (expectedKind levels) tree.kind (depth - levels + 1))

def getExn (idx : Nat) : Except Error Account := getExnFrom t.depth idx t.depth t.tree

def setExnFrom (hashing : Hashing Hash Account) (depth idx : Nat) (acct : Account) :
    Nat → Tree Hash Account → Except Error (Tree Hash Account)
  | 0, .account _ => .ok (.account acct)
  | i + 1, .node _ l r =>
    let children :=
      if ithBit idx i then (setExnFrom hashing depth idx acct i r).map fun r => (l, r)
      else (setExnFrom hashing depth idx acct i l).map fun l => (l, r)
    children.map fun p => .node (hashing.merge i (hash hashing p.1) (hash hashing p.2)) p.1 p.2
  | levels, tree => .error (.set idx (expectedKind levels) tree.kind (depth - levels + 1))

def setExn (idx : Nat) (acct : Account) : Except Error (T Hash Key Account) :=
  (setExnFrom hashing t.depth idx acct t.depth t.tree).map fun tree => { t with tree }

def pathExnFrom (hashing : Hashing Hash Account) (idx : Nat) :
    List (PathElem Hash) → Nat → Tree Hash Account → Except Error (List (PathElem Hash))
  | acc, 0, _ => .ok acc
  | _, _ + 1, .account _ => .error (.pathBadDepth idx)
  | _, _ + 1, .hash _ => .error (.pathDeadEnd idx)
  | acc, i + 1, .node _ l r =>
    if ithBit idx i then pathExnFrom hashing idx (.right (hash hashing l) :: acc) i r
    else pathExnFrom hashing idx (.left (hash hashing r) :: acc) i l

def pathExn (idx : Nat) : Except Error (List (PathElem Hash)) :=
  pathExnFrom hashing idx [] t.depth t.tree

/-! ### The full tree -/

section Full

variable (hashing : Hashing Hash Account) (accounts : Nat → Account)

/-- The hash of a node of the tree with these accounts. -/
def nodeHash (h : Nat) (a : Addr) : Hash := hashAt hashing.merge (fun a => hashing.dataHash (accounts (index a))) h a

/-- The root of the full tree. -/
def fullRoot (depth : Nat) : Hash := nodeHash hashing accounts depth []

/-- An element of a path from the hashes of both children. -/
def elem (right : Bool) (hL hR : Hash) : PathElem Hash := if right then .right hL else .left hR

def elemWide (right : Bool) (hL hR : Hash) : PathElem (Hash × Hash) := if right then .right (hL, hR) else .left (hL, hR)

/-- The way up from the node `a' ++ a`, at a height, to the node `a`. -/
def pathTo (elem : Bool → Hash → Hash → PathElem E) : Nat → Addr → Addr → List (PathElem E)
  | _, [], _ => []
  | h, b :: a', a =>
    elem b (nodeHash hashing accounts h (false :: (a' ++ a))) (nodeHash hashing accounts h (true :: (a' ++ a))) ::
      pathTo elem (h + 1) a' a

/-- The Merkle path of a leaf of the full tree. -/
def merklePath (depth i : Nat) : List (PathElem Hash) := pathTo hashing accounts elem 0 (ofIndex depth i) []

/-- The wide Merkle path: the hash of the node itself is there too. -/
def wideMerklePath (depth i : Nat) : List (PathElem (Hash × Hash)) :=
  pathTo hashing accounts elemWide 0 (ofIndex depth i) []

/-- **The full tree, cut off** where there is none of the leaves below. -/
def pruned (leaves : List Addr) : Nat → Addr → Tree Hash Account
  | 0, a => if Above leaves a then .account (accounts (index a)) else .hash (nodeHash hashing accounts 0 a)
  | h + 1, a =>
    if Above leaves a then
      .node (nodeHash hashing accounts (h + 1) a) (pruned leaves h (false :: a)) (pruned leaves h (true :: a))
    else .hash (nodeHash hashing accounts (h + 1) a)

variable {hashing : Hashing Hash Account} {accounts : Nat → Account} {leaves : List Addr} {p a : Addr} {h : Nat}
  {accounts' : Nat → Account} {acct : Account} {idx : Nat}

/-! ### The tree cut off -/

section Equations

attribute [local simp] pruned

theorem hash_pruned : hash hashing (pruned hashing accounts leaves h a) = nodeHash hashing accounts h a := by
  cases h <;> simp only [pruned] <;> split <;> rfl

theorem pruned_of_not (hnot : ¬ Above leaves a) :
    pruned hashing accounts leaves h a = .hash (nodeHash hashing accounts h a) := by
  cases h <;> rw [pruned, if_neg hnot]

theorem pruned_zero (habove : Above leaves a) : pruned hashing accounts leaves 0 a = .account (accounts (index a)) := by
  rw [pruned, if_pos habove]

theorem pruned_succ (habove : Above leaves a) : pruned hashing accounts leaves (h + 1) a =
      .node (nodeHash hashing accounts (h + 1) a) (pruned hashing accounts leaves h (false :: a))
        (pruned hashing accounts leaves h (true :: a)) := by
  rw [pruned, if_pos habove]

theorem pruned_congr {leaves' : List Addr} (hiff : ∀ a' : Addr, Above leaves (a' ++ a) ↔ Above leaves' (a' ++ a)) :
    pruned hashing accounts leaves h a = pruned hashing accounts leaves' h a := by
  induction h generalizing a with
  | zero =>
    have ha := hiff []
    rw [List.nil_append] at ha
    simp only [pruned, ha]
  | succ h ih =>
    have ha := hiff []
    rw [List.nil_append] at ha
    have hchild : ∀ b : Bool, pruned hashing accounts leaves h (b :: a) = pruned hashing accounts leaves' h (b :: a) := by
      intro b
      refine ih fun a' => ?_
      simpa using hiff (a' ++ [b])
    simp only [pruned, ha, hchild]

end Equations

/-- A leaf elsewhere changes nothing. -/
theorem pruned_cons_of_not_suffix (hnot : ¬ a <:+ p) :
    pruned hashing accounts (p :: leaves) h a = pruned hashing accounts leaves h a := by
  refine pruned_congr fun a' => ?_
  rw [above_cons, or_iff_right fun hsuffix => hnot ((List.suffix_append a' a).trans hsuffix)]

/-! ### Adding a path -/

/-- How the two ways of adding paths read an element: its direction, the hash of the sibling, and for the node
its own hash or none. -/
structure Reads (replaceSelf : ReplaceSelf Hash Account E) (elem : Bool → Hash → Hash → PathElem E) : Prop where
  left : ∀ hL hR, ∃ e mself, elem false hL hR = .left e ∧ mself.getD hL = hL ∧
    ∀ f, replaceSelf f (.left e) = (f mself, .hash hR)
  right : ∀ hL hR, ∃ e mself, elem true hL hR = .right e ∧ mself.getD hR = hR ∧
    ∀ f, replaceSelf f (.right e) = (.hash hL, f mself)

theorem reads : @Reads Hash Account Hash replaceSelf elem where
  left _ hR := ⟨hR, none, rfl, rfl, fun _ => rfl⟩
  right hL _ := ⟨hL, none, rfl, rfl, fun _ => rfl⟩

theorem reads_wide : @Reads Hash Account (Hash × Hash) replaceSelfWide elemWide where
  left hL hR := ⟨(hL, hR), some hL, rfl, rfl, fun _ => rfl⟩
  right hL hR := ⟨(hL, hR), some hR, rfl, rfl, fun _ => rfl⟩

theorem rev_eq {A : Type} (x : A) (xs : List A) : (rev (x, xs)).1 :: (rev (x, xs)).2 = (x :: xs).reverse := by
  have hfold : ∀ (xs : List A) (acc : A × List A),
      (xs.foldl (fun acc x => (x, acc.1 :: acc.2)) acc).1 :: (xs.foldl (fun acc x => (x, acc.1 :: acc.2)) acc).2 =
        xs.reverse ++ acc.1 :: acc.2 := by
    intro xs
    induction xs with
    | nil => intro acc; rfl
    | cons x xs ih => intro acc; simp [ih]
  simpa [rev] using hfold xs (x, [])

/-- The children of a node, of which the other one is cut off. -/
def children (hashing : Hashing Hash Account) (accounts : Nat → Account) (leaves : List Addr) (h : Nat) (a : Addr) :
    Tree Hash Account × Tree Hash Account :=
  (pruned hashing accounts leaves h (false :: a), pruned hashing accounts leaves h (true :: a))

theorem pathTo_append {elem : Bool → Hash → Hash → PathElem E} {a₁ a₂ : Addr} : pathTo hashing accounts elem h (a₁ ++ a₂) a =
      pathTo hashing accounts elem h a₁ (a₂ ++ a) ++ pathTo hashing accounts elem (h + a₁.length) a₂ a := by
  induction a₁ generalizing h with
  | nil => rfl
  | cons b a₁ ih =>
    have hheight : h + 1 + a₁.length = h + (b :: a₁).length := by rw [List.length_cons]; omega
    simp only [List.cons_append, pathTo, ih, hheight, List.append_assoc]

variable {replaceSelf : ReplaceSelf Hash Account E}

section Adding

variable {elem : Bool → Hash → Hash → PathElem E}

variable (hr : Reads replaceSelf elem) {a' : Addr} {b : Bool}

include hr

theorem replaceSelf_bottom (hnot : ¬ Above leaves a) : replaceSelf (fun _ => .account (accounts (index (b :: a))))
        (elem b (nodeHash hashing accounts 0 (false :: a)) (nodeHash hashing accounts 0 (true :: a))) =
      children hashing accounts ((b :: a) :: leaves) 0 a := by
  have habove : Above ((b :: a) :: leaves) (b :: a) := above_of_mem List.mem_cons_self List.suffix_rfl
  cases b with
  | false =>
    have hother : ¬ Above ((false :: a) :: leaves) (true :: a) := not_above_sibling List.suffix_rfl hnot
    obtain ⟨e, mself, helem, -, hself⟩ := hr.left (nodeHash hashing accounts 0 (false :: a)) (nodeHash hashing accounts 0 (true :: a))
    rw [helem, hself, children, pruned_zero habove, pruned_of_not hother]
  | true =>
    have hother : ¬ Above ((true :: a) :: leaves) (false :: a) := not_above_sibling List.suffix_rfl hnot
    obtain ⟨e, mself, helem, -, hself⟩ := hr.right (nodeHash hashing accounts 0 (false :: a)) (nodeHash hashing accounts 0 (true :: a))
    rw [helem, hself, children, pruned_zero habove, pruned_of_not hother]

/-- **One level up.** -/
theorem buildTailF_children (hsuffix : b :: a <:+ p) (hnot : ¬ Above leaves a) :
    buildTailF hashing replaceSelf h (children hashing accounts (p :: leaves) h (b :: a))
        (elem b (nodeHash hashing accounts (h + 1) (false :: a)) (nodeHash hashing accounts (h + 1) (true :: a))) =
      children hashing accounts (p :: leaves) (h + 1) a := by
  have habove : Above (p :: leaves) (b :: a) := above_of_mem List.mem_cons_self hsuffix
  have hmerge : ∀ a : Addr, hashing.merge h (nodeHash hashing accounts h (false :: a)) (nodeHash hashing accounts h (true :: a)) =
      nodeHash hashing accounts (h + 1) a := fun _ => rfl
  unfold buildTailF
  cases b with
  | false =>
    have hother : ¬ Above (p :: leaves) (true :: a) := not_above_sibling hsuffix hnot
    obtain ⟨e, mself, helem, hmself, hself⟩ :=
      hr.left (nodeHash hashing accounts (h + 1) (false :: a)) (nodeHash hashing accounts (h + 1) (true :: a))
    rw [helem, hself]
    simp only [children]
    rw [pruned_succ habove, pruned_of_not hother, hash_pruned, hash_pruned, hmerge, hmself]
  | true =>
    have hother : ¬ Above (p :: leaves) (false :: a) := not_above_sibling hsuffix hnot
    obtain ⟨e, mself, helem, hmself, hself⟩ :=
      hr.right (nodeHash hashing accounts (h + 1) (false :: a)) (nodeHash hashing accounts (h + 1) (true :: a))
    rw [helem, hself]
    simp only [children]
    rw [pruned_succ habove, pruned_of_not hother, hash_pruned, hash_pruned, hmerge, hmself]

/-- **Up the rest of the path**: what is built are the children of the node where it ends. -/
theorem foldl_buildTailF (hsuffix : a' ++ a <:+ p) (hnot : ¬ Above leaves a) :
    ((pathTo hashing accounts elem (h + 1) a' a).zipIdx h).foldl (fun prev el => buildTailF hashing replaceSelf el.2 prev el.1)
        (children hashing accounts (p :: leaves) h (a' ++ a)) =
      children hashing accounts (p :: leaves) (h + a'.length) a := by
  induction a' generalizing h with
  | nil => rfl
  | cons b a' ih =>
    have hheight : h + 1 + a'.length = h + (b :: a').length := by rw [List.length_cons]; omega
    rw [List.cons_append] at hsuffix
    simp only [pathTo, List.zipIdx_cons, List.foldl_cons, List.cons_append]
    rw [buildTailF_children hr hsuffix fun habove => hnot habove.append,
      ih ((List.suffix_cons b _).trans hsuffix), hheight]

/-- **The tail of a path** below a node under which there was nothing. -/
theorem buildTail_eq {fstEl : PathElem E} {rest : List (PathElem E)}
    (hlen : a'.length = h + 1) (hpath : (pathTo hashing accounts elem 0 a' a).reverse = fstEl :: rest) (hnot : ¬ Above leaves a) :
    buildTail hashing replaceSelf (accounts (index (a' ++ a))) (fstEl, rest) =
      children hashing accounts ((a' ++ a) :: leaves) h a := by
  cases a' with
  | nil => simp at hlen
  | cons b a' =>
    have hrev := rev_eq fstEl rest
    rw [← hpath, List.reverse_reverse, pathTo, List.cons.injEq] at hrev
    simp only [buildTail, hrev.1, hrev.2]
    rw [List.cons_append, replaceSelf_bottom hr fun habove => hnot habove.append]
    rw [List.length_cons] at hlen
    rw [← Nat.succ.inj hlen, ← Nat.zero_add a'.length]
    exact foldl_buildTailF (h := 0) hr (List.suffix_cons b (a' ++ a)) hnot

/-- **A path added.** The tree is cut off as before, but not above the new leaf. -/
theorem traverseThroughNodes_pruned (a' a : Addr) :
    traverseThroughNodes hashing replaceSelf (accounts (index (a' ++ a))) (pruned hashing accounts leaves a'.length a)
        (pathTo hashing accounts elem 0 a' a).reverse =
      .ok (pruned hashing accounts ((a' ++ a) :: leaves) a'.length a) := by
  induction a' using List.reverseRecOn generalizing a with
  | nil =>
    have habove : Above (a :: leaves) a := above_of_mem List.mem_cons_self List.suffix_rfl
    simp only [List.nil_append, List.length_nil, pathTo, List.reverse_nil, pruned_zero habove]
    rw [pruned]
    split <;> rfl
  | append_singleton a' b ih =>
    have hleaf : a' ++ [b] ++ a = a' ++ b :: a := by simp
    have habove : Above ((a' ++ b :: a) :: leaves) a :=
      above_of_mem List.mem_cons_self ((List.suffix_cons b a).trans (List.suffix_append a' (b :: a)))
    have hpath : (pathTo hashing accounts elem 0 (a' ++ [b]) a).reverse =
        elem b (nodeHash hashing accounts a'.length (false :: a)) (nodeHash hashing accounts a'.length (true :: a)) ::
          (pathTo hashing accounts elem 0 a' (b :: a)).reverse := by
      simp [pathTo_append, pathTo]
    have hlen : (a' ++ [b]).length = a'.length + 1 := by simp
    have hchild := ih (b :: a)
    have hother := not_suffix_sibling (List.suffix_append a' (b :: a))
    rw [hleaf, List.length_append, List.length_singleton, pruned_succ habove, hpath]
    by_cases hold : Above leaves a
    · rw [pruned_succ hold]
      cases b with
      | false =>
        obtain ⟨e, -, helem, -⟩ := hr.left (nodeHash hashing accounts a'.length (false :: a)) (nodeHash hashing accounts a'.length (true :: a))
        rw [helem, traverseThroughNodes, hchild, pruned_cons_of_not_suffix (a := true :: a) hother]
        rfl
      | true =>
        obtain ⟨e, -, helem, -⟩ := hr.right (nodeHash hashing accounts a'.length (false :: a)) (nodeHash hashing accounts a'.length (true :: a))
        rw [helem, traverseThroughNodes, hchild, pruned_cons_of_not_suffix (a := false :: a) hother]
        rfl
    · have htail := buildTail_eq hr hlen hpath hold
      rw [hleaf] at htail
      rw [pruned_of_not hold, traverseThroughNodes, htail]
      rfl

omit hr

end Adding

/-! ### The bits of an index -/

theorem ithBit_eq (idx i : Nat) : ithBit idx i = idx.testBit i := by
  simp [ithBit, Nat.and_one_is_mod, Nat.testBit_eq_decide_div_mod_eq, Nat.shiftRight_eq_div_pow]

theorem ofIndex_succ_append' (idx : Nat) : ofIndex (h + 1) idx ++ a = ofIndex h idx ++ ithBit idx h :: a := by
  rw [ofIndex_succ_append, ithBit_eq, List.append_assoc, List.singleton_append]

/-! ### Reading -/

theorem getExnFrom_pruned {depth : Nat} (habove : Above leaves (ofIndex h idx ++ a)) :
    getExnFrom depth idx h (pruned hashing accounts leaves h a) = .ok (accounts (index (ofIndex h idx ++ a))) := by
  induction h generalizing a with
  | zero =>
    have ha : Above leaves a := habove
    rw [pruned_zero ha]
    rfl
  | succ h ih =>
    rw [pruned_succ habove.append, getExnFrom]
    rw [ofIndex_succ_append'] at habove ⊢
    cases hbit : ithBit idx h <;> rw [hbit] at habove <;> simpa using ih habove

theorem pathExnFrom_pruned {acc : List (PathElem Hash)} (habove : Above leaves (ofIndex h idx ++ a)) :
    pathExnFrom hashing idx acc h (pruned hashing accounts leaves h a) =
      .ok (pathTo hashing accounts elem 0 (ofIndex h idx) a ++ acc) := by
  induction h generalizing a acc with
  | zero => rfl
  | succ h ih =>
    rw [pruned_succ habove.append, pathExnFrom]
    rw [ofIndex_succ_append'] at habove
    rw [ofIndex_succ_append, ← ithBit_eq, pathTo_append, length_ofIndex, hash_pruned, hash_pruned]
    cases hbit : ithBit idx h <;> rw [hbit] at habove <;> simpa [pathTo, elem] using ih habove

/-! ### Writing -/

variable (haccounts : ∀ a' : Addr, a'.length = h → accounts (index (a' ++ a)) = accounts' (index (a' ++ a)))

include haccounts

theorem nodeHash_congr : nodeHash hashing accounts h a = nodeHash hashing accounts' h a :=
  hashAt_congr fun a' ha' => by rw [haccounts a' ha']

theorem pruned_congr_accounts : pruned hashing accounts leaves h a = pruned hashing accounts' leaves h a := by
  have hhash : nodeHash hashing accounts h a = nodeHash hashing accounts' h a := nodeHash_congr haccounts
  induction h generalizing a with
  | zero =>
    have ha := haccounts [] rfl
    rw [List.nil_append] at ha
    rw [pruned, pruned, hhash, ha]
  | succ h ih =>
    have hchild : ∀ b : Bool, pruned hashing accounts leaves h (b :: a) = pruned hashing accounts' leaves h (b :: a) := by
      intro b
      have hbelow : ∀ a' : Addr, a'.length = h → accounts (index (a' ++ b :: a)) = accounts' (index (a' ++ b :: a)) := by
        intro a' ha'
        simpa using haccounts (a' ++ [b]) (by simp [ha'])
      exact ih hbelow (nodeHash_congr hbelow)
    rw [pruned, pruned, hhash, hchild, hchild]

omit haccounts

/-- **A leaf written** is that of the full tree. -/
theorem setExnFrom_pruned {depth : Nat} (habove : Above leaves (ofIndex h idx ++ a)) :
    setExnFrom hashing depth idx acct h (pruned hashing accounts leaves h a) =
      .ok (pruned hashing (Function.update accounts (index (ofIndex h idx ++ a)) acct) leaves h a) := by
  induction h generalizing a with
  | zero =>
    have hself : Function.update accounts (index (ofIndex 0 idx ++ a)) acct (index a) = acct := Function.update_self _ _ _
    have ha : Above leaves a := habove
    rw [pruned_zero ha, pruned_zero ha, hself]
    rfl
  | succ h ih =>
    have hnode := habove.append
    rw [ofIndex_succ_append'] at habove ⊢
    have hother : pruned hashing (Function.update accounts (index (ofIndex h idx ++ ithBit idx h :: a)) acct) leaves h ((!ithBit idx h) :: a) =
        pruned hashing accounts leaves h ((!ithBit idx h) :: a) := by
      refine pruned_congr_accounts fun a' ha' => Function.update_of_ne ?_ _ _
      intro heq
      have hlist := index_inj (by simp [ha']) heq
      obtain ⟨-, hbit⟩ := List.append_inj hlist (by simp [ha'])
      simp at hbit
    have hmerge : ∀ accounts : Nat → Account, hashing.merge h (nodeHash hashing accounts h (false :: a)) (nodeHash hashing accounts h (true :: a)) =
        nodeHash hashing accounts (h + 1) a := fun _ => rfl
    have hchild := ih habove
    rw [pruned_succ hnode, pruned_succ hnode, setExnFrom]
    cases hbit : ithBit idx h with
    | false =>
      simp only [hbit, Bool.not_false] at hchild hother
      rw [if_neg Bool.false_ne_true, hchild, ← hother]
      simp only [Except.map, hash_pruned, hmerge]
    | true =>
      simp only [hbit, Bool.not_true] at hchild hother
      rw [if_pos rfl, hchild, ← hother]
      simp only [Except.map, hash_pruned, hmerge]

/-! ### All leaves -/

theorem filter_above_of_not (hnot : ¬ Above leaves a) :
    ((List.range' (index a * 2 ^ h) (2 ^ h)).filter fun i => Above leaves (ofIndex (h + a.length) i)) = [] := by
  refine List.filter_eq_nil_iff.2 fun i hi => ?_
  rw [List.mem_range'_1] at hi
  have hquotient : i / 2 ^ h = index a := by
    refine Nat.div_eq_of_lt_le hi.1 ?_
    rw [Nat.succ_mul]
    exact hi.2
  rw [ofIndex_add, hquotient, ofIndex_index, decide_eq_true_eq]
  exact fun habove => hnot habove.append

/-- **The leaves below a node**, in the order of their indexes. -/
theorem iteriFrom_pruned : iteriFrom (index a * 2 ^ h) h (pruned hashing accounts leaves h a) =
      ((List.range' (index a * 2 ^ h) (2 ^ h)).filter fun i => Above leaves (ofIndex (h + a.length) i)).map
        fun i => (i, accounts i) := by
  induction h generalizing a with
  | zero =>
    by_cases habove : Above leaves a
    · have hleaf : Above leaves (ofIndex (0 + a.length) (index a)) := by rwa [Nat.zero_add, ofIndex_index]
      rw [pruned_zero habove, pow_zero, mul_one, List.range'_one]
      simp only [List.filter_cons, hleaf, decide_true, if_true, List.filter_nil]
      rfl
    · rw [filter_above_of_not habove, pruned_of_not habove]
      rfl
  | succ h ih =>
    by_cases habove : Above leaves a
    · have hleft : index a * 2 ^ (h + 1) = index (false :: a) * 2 ^ h := by
        simp only [index, Bool.toNat_false]
        ring
      have hright : index (false :: a) * 2 ^ h + 2 ^ h = index (true :: a) * 2 ^ h := by
        simp only [index, Bool.toNat_false, Bool.toNat_true]
        ring
      have hlen : h + 1 + a.length = h + (a.length + 1) := by omega
      have hboth : 2 ^ (h + 1) = 2 ^ h + 2 ^ h := by omega
      rw [pruned_succ habove, iteriFrom, Nat.add_sub_cancel, Nat.one_shiftLeft, hleft, hright, ih, ih, hboth, ← List.range'_append_1,
        hright, List.filter_append, List.map_append, hlen]
      rfl
    · rw [filter_above_of_not habove, pruned_of_not habove]
      rfl

theorem foldl_addBit {replaceSelf : ReplaceSelf Hash Account E} {elem : Bool → Hash → Hash → PathElem E}
    (hr : Reads replaceSelf elem) (a' : Addr) (i acc : Nat) :
    ((pathTo hashing accounts elem h a' a).zipIdx i).foldl addBit acc = acc + index a' * 2 ^ i := by
  induction a' generalizing h i acc with
  | nil => simp [pathTo, index]
  | cons b a' ih =>
    simp only [pathTo, List.zipIdx_cons, List.foldl_cons, ih, index]
    cases b with
    | false =>
      obtain ⟨e, -, helem, -⟩ := hr.left (nodeHash hashing accounts h (false :: (a' ++ a))) (nodeHash hashing accounts h (true :: (a' ++ a)))
      rw [helem, addBit, Bool.toNat_false]
      ring
    | true =>
      obtain ⟨e, -, helem, -⟩ := hr.right (nodeHash hashing accounts h (false :: (a' ++ a))) (nodeHash hashing accounts h (true :: (a' ++ a)))
      rw [helem, addBit, Bool.toNat_true, Nat.one_shiftLeft]
      ring

/-! ### Sparse ledgers of a full tree -/

/-- The sparse ledger with these leaves of the full tree. -/
def sparse (hashing : Hashing Hash Account) (accounts : Nat → Account) (depth : Nat) (included : List (Key × Nat)) : T Hash Key Account :=
  ⟨included, depth, pruned hashing accounts (included.map fun p => ofIndex depth p.2) depth []⟩

/-- The sparse ledger stands for the full tree at these indexes. -/
structure Simulates (hashing : Hashing Hash Account) (accounts : Nat → Account) (depth : Nat) (indexes : List Nat)
    (t : T Hash Key Account) : Prop where
  merkleRoot : merkleRoot hashing t = fullRoot hashing accounts depth
  getExn : ∀ i ∈ indexes, getExn t i = .ok (accounts i)
  pathExn : ∀ i ∈ indexes, pathExn hashing t i = .ok (merklePath hashing accounts depth i)
  iteri : iteri t = ((List.range (2 ^ depth)).filter (· ∈ indexes)).map fun i => (i, accounts i)

variable {depth : Nat} {included : List (Key × Nat)} {i : Nat} {id : Key}

theorem sparse_congr (haccounts : ∀ i < 2 ^ depth, accounts i = accounts' i) :
    sparse hashing accounts depth included = sparse hashing accounts' depth included := by
  rw [sparse, sparse, pruned_congr_accounts]
  intro a ha
  refine haccounts _ ?_
  rw [List.append_nil, ← ha]
  exact index_lt a

theorem above_ofIndex (hi : i ∈ included.map Prod.snd) :
    Above (included.map fun p => ofIndex depth p.2) (ofIndex depth i ++ []) := by
  obtain ⟨p, hp, rfl⟩ := List.mem_map.1 hi
  rw [List.append_nil]
  exact above_of_mem (List.mem_map.2 ⟨p, hp, rfl⟩) List.suffix_rfl

variable (hincluded : ∀ p ∈ included, p.2 < 2 ^ depth) {updates : List (Nat × Account)}

include hincluded

theorem above_ofIndex_iff (hi : i < 2 ^ depth) :
    Above (included.map fun p => ofIndex depth p.2) (ofIndex depth i) ↔ i ∈ included.map Prod.snd := by
  constructor
  · rintro ⟨a, ha, hsuffix⟩
    obtain ⟨p, hp, rfl⟩ := List.mem_map.1 ha
    have heq := hsuffix.eq_of_length (by simp)
    rw [ofIndex_inj hi (hincluded p hp) heq]
    exact List.mem_map.2 ⟨p, hp, rfl⟩
  · intro hi
    simpa using above_ofIndex hi

theorem simulates_sparse :
    Simulates hashing accounts depth (included.map Prod.snd) (sparse hashing accounts depth included) where
  merkleRoot := hash_pruned
  getExn i hi := by
    obtain ⟨p, hp, rfl⟩ := List.mem_map.1 hi
    have hget : getExnFrom depth p.2 depth (sparse hashing accounts depth included).tree = _ := getExnFrom_pruned (above_ofIndex hi)
    rw [List.append_nil, index_ofIndex (hincluded p hp)] at hget
    exact hget
  pathExn i hi := by
    refine (pathExnFrom_pruned (above_ofIndex hi)).trans ?_
    rw [List.append_nil]
    rfl
  iteri := by
    have hall : iteriFrom (index [] * 2 ^ depth) depth (sparse hashing accounts depth included).tree = _ := iteriFrom_pruned
    rw [index, Nat.zero_mul, ← List.range_eq_range', List.length_nil, Nat.add_zero] at hall
    refine hall.trans (congrArg (List.map _) (List.filter_congr fun i hi => ?_))
    exact decide_eq_decide.2 (above_ofIndex_iff hincluded (List.mem_range.1 hi))

omit hincluded

section Adding

variable {elem : Bool → Hash → Hash → PathElem E}

theorem addPathImpl_sparse (hr : Reads replaceSelf elem) (hi : i < 2 ^ depth) :
    addPathImpl hashing replaceSelf (sparse hashing accounts depth included).tree
        (pathTo hashing accounts elem 0 (ofIndex depth i) []) (accounts i) =
      .ok (pruned hashing accounts (ofIndex depth i :: included.map fun p => ofIndex depth p.2) depth []) := by
  have htraverse : traverseThroughNodes hashing replaceSelf (accounts (index (ofIndex depth i ++ [])))
      (pruned hashing accounts (included.map fun p => ofIndex depth p.2) (ofIndex depth i).length [])
      (pathTo hashing accounts elem 0 (ofIndex depth i) []).reverse = _ := traverseThroughNodes_pruned hr (ofIndex depth i) []
  rw [List.append_nil, length_ofIndex, index_ofIndex hi] at htraverse
  exact htraverse

theorem pathIndex_pathTo (hr : Reads replaceSelf elem) (hi : i < 2 ^ depth) :
    pathIndex (pathTo hashing accounts elem 0 (ofIndex depth i) []) = i := by
  rw [pathIndex, foldl_addBit hr, index_ofIndex hi, Nat.zero_add, pow_zero, mul_one]

end Adding

theorem addPath_sparse (hi : i < 2 ^ depth) :
    addPath hashing (sparse hashing accounts depth included) (merklePath hashing accounts depth i) id (accounts i) =
      .ok (sparse hashing accounts depth ((id, i) :: included)) := by
  rw [addPath, merklePath, addPathImpl_sparse reads hi, pathIndex_pathTo reads hi]
  rfl

theorem addWidePathUnsafe_sparse (hi : i < 2 ^ depth) :
    addWidePathUnsafe hashing (sparse hashing accounts depth included) (wideMerklePath hashing accounts depth i) id (accounts i) =
      .ok (sparse hashing accounts depth ((id, i) :: included)) := by
  rw [addWidePathUnsafe, wideMerklePath, addPathImpl_sparse reads_wide hi, pathIndex_pathTo reads_wide hi]
  rfl

include hincluded in
theorem setExn_sparse (hi : i ∈ included.map Prod.snd) :
    setExn hashing (sparse hashing accounts depth included) i acct =
      .ok (sparse hashing (Function.update accounts i acct) depth included) := by
  obtain ⟨p, hp, rfl⟩ := List.mem_map.1 hi
  have hset : setExnFrom hashing depth p.2 acct depth (sparse hashing accounts depth included).tree = _ :=
    setExnFrom_pruned (above_ofIndex hi)
  rw [List.append_nil, index_ofIndex (hincluded p hp)] at hset
  exact congrArg (Except.map fun tree => (⟨included, depth, tree⟩ : T Hash Key Account)) hset

/-- **Adding one after the other**, by either of the two. -/
theorem foldlM_sparse {add : T Hash Key Account → Key × Nat → Except Error (T Hash Key Account)} {paths : List (Key × Nat)}
    (hadd : ∀ included, ∀ p ∈ paths, add (sparse hashing accounts depth included) p = .ok (sparse hashing accounts depth (p :: included))) :
    paths.foldlM add (sparse hashing accounts depth included) = .ok (sparse hashing accounts depth (paths.reverse ++ included)) := by
  induction paths generalizing included with
  | nil => rfl
  | cons p paths ih =>
    rw [List.foldlM_cons, hadd included p List.mem_cons_self, List.reverse_cons, List.append_assoc, List.singleton_append]
    exact ih fun included q hq => hadd included q (List.mem_cons_of_mem p hq)

/-- The accounts after these are written. -/
def written (accounts : Nat → Account) (updates : List (Nat × Account)) : Nat → Account :=
  updates.foldl (fun accounts u => Function.update accounts u.1 u.2) accounts

theorem written_of_not_mem (hnot : i ∉ updates.map Prod.fst) : written accounts updates i = accounts i := by
  induction updates generalizing accounts with
  | nil => rfl
  | cons u updates ih =>
    rw [List.map_cons, List.mem_cons, not_or] at hnot
    exact (ih hnot.2).trans (Function.update_of_ne hnot.1 _ _)

include hincluded in
theorem foldlM_setExn_sparse (hupdates : ∀ u ∈ updates, u.1 ∈ included.map Prod.snd) :
    updates.foldlM (fun t u => setExn hashing t u.1 u.2) (sparse hashing accounts depth included) =
      .ok (sparse hashing (written accounts updates) depth included) := by
  induction updates generalizing accounts with
  | nil => rfl
  | cons u updates ih =>
    rw [List.foldlM_cons, setExn_sparse hincluded (hupdates u List.mem_cons_self)]
    exact ih fun u hu => hupdates u (List.mem_cons_of_mem _ hu)

/-- Hashes that show what they are made from. -/
def shown : Hashing (List Nat) Nat := ⟨fun height l r => height :: l ++ r, fun account => [account]⟩

end Full

end MinaProtocol.SparseLedger
