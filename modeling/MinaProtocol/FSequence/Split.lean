import MinaProtocol.FSequence.FingerTree

/-!
# FSequence.Split

Splitting a finger tree at an index, and with it that the sequences are lists: on every tree that
the operations build, they do what the operations of lists do (`built_actsAsList`).
-/

namespace MinaProtocol.FSequence

universe u v

/-- Where the code fails, or would go on with a value that is not of its type. -/
inductive Failure where
  /-- `Digit.split index out of bounds` -/
  | digitSplit
  /-- `FSequence.split index out of bounds`, with the number of the place. -/
  | split (place : Nat)
  /-- The cast of a digit of four elements to one that more can be added to. -/
  | magic
deriving DecidableEq, Repr

/-- The list splits where the measure, counted from `acc`, reaches `target`. -/
structure SplitsAt {e : Type u} (measure' : e → Nat) (target acc : Nat) (xs ls : List e) (m : e)
    (rs : List e) : Prop where
  eq : xs = ls ++ m :: rs
  reached : target ≤ acc + (ls.map measure').sum + measure' m
  before : acc < target → acc + (ls.map measure').sum < target

variable {e : Type u} {target : Nat}

namespace SplitsAt

variable {measure' : e → Nat} {acc : Nat} {head m : e} {tail ls rs : List e} {xs : List e}

theorem here (h : target ≤ acc + measure' head) : SplitsAt measure' target acc (head :: tail) [] head tail :=
  ⟨rfl, by simpa using h, by simp⟩

theorem cons (h : ¬ target ≤ acc + measure' head)
    (hsplits : SplitsAt measure' target (acc + measure' head) tail ls m rs) :
    SplitsAt measure' target acc (head :: tail) (head :: ls) m rs := by
  obtain ⟨rfl, hreached, hbefore⟩ := hsplits
  have hbefore := hbefore (by omega)
  refine ⟨rfl, ?_, fun _ => ?_⟩
  · rw [List.map_cons, List.sum_cons]
    omega
  · rw [List.map_cons, List.sum_cons]
    omega

theorem append (h : SplitsAt measure' target acc xs ls m rs) (ys : List e) :
    SplitsAt measure' target acc (xs ++ ys) ls m (rs ++ ys) :=
  ⟨by rw [h.eq, List.append_assoc, List.cons_append], h.reached, h.before⟩

theorem append_left (ys : List e) (hys : acc + (ys.map measure').sum < target)
    (h : SplitsAt measure' target (acc + (ys.map measure').sum) xs ls m rs) :
    SplitsAt measure' target acc (ys ++ xs) (ys ++ ls) m rs := by
  have hreached := h.reached
  have hbefore := h.before hys
  refine ⟨by rw [h.eq, List.append_assoc], ?_, fun _ => ?_⟩
  · rw [List.map_append, List.sum_append]
    omega
  · rw [List.map_append, List.sum_append]
    omega

theorem length_lt (h : SplitsAt measure' target acc xs ls m rs) : ls.length < xs.length := by
  rw [h.eq, List.length_append, List.length_cons]
  omega

end SplitsAt

variable {a : Addability} {r : Removability}

namespace Digit

variable {measure' : e → Nat}

/-- The cast in `split_addable`, which is right for digits of at most three elements. -/
def magic : Digit e a .removable → Except Failure (Digit e .addable .removable)
  | .two a b => .ok (.two a b)
  | .three a b c => .ok (.three a b c)
  | .four _ _ _ _ => .error .magic

/-- `split_addable`. -/
def splitAddable (measure' : e → Nat) (target : Nat) {r : Removability} (acc : Nat) (t : Digit e .addable r) :
    Except Failure (Option (AnyR .addable e) × e × Option (AnyR .addable e)) :=
  match r, t with
  | .removable, t' =>
    let head := (uncons t').1
    let tail := (uncons t').2
    if target ≤ acc + measure' head then .ok (none, head, some tail)
    else do
      match ← splitAddable measure' target (acc + measure' head) tail.digit with
      | (some lhs, m, rhs) =>
        let consRes ← magic (cons head lhs.digit).digit
        return (some ⟨consRes⟩, m, rhs)
      | (none, m, rhs) => return (some ⟨.one head⟩, m, rhs)
  | .notRemovable, .one a =>
    if target ≤ acc + measure' a then .ok (none, a, none) else .error .digitSplit
termination_by t.toList.length
decreasing_by
  rw [toList_uncons t']
  exact Nat.lt_succ_self _

/-- `Digit.split`. -/
def split (measure' : e → Nat) (target acc : Nat) (t : Digit e a r) :
    Except Failure (Option (AnyAR e) × e × Option (AnyAR e)) :=
  match a, r, t with
  | .addable, _, t' => do
    let (lhs, m, rhs) ← splitAddable measure' target acc t'
    return (lhs.map broadenAnyR, m, rhs.map broadenAnyR)
  | .notAddable, .removable, t' =>
    let (head, tail) := uncons t'
    if target ≤ acc + measure' head then .ok (none, head, some ⟨tail.digit⟩)
    else do
      match ← splitAddable measure' target (acc + measure' head) tail.digit with
      | (none, m, rhs) => return (some ⟨.one head⟩, m, rhs.map broadenAnyR)
      | (some lhs', m, rhs) => return (some (broadenAnyA (cons head lhs'.digit)), m, rhs.map broadenAnyR)

/-- `opt_to_list`. -/
def optToList (t : Option (AnyAR e)) : List e := (t.map fun dig => dig.digit.toList).getD []

@[simp] theorem optToList_none : optToList (none : Option (AnyAR e)) = [] := rfl

@[simp] theorem optToList_some (dig : AnyAR e) : optToList (some dig) = dig.digit.toList := rfl

theorem length_toList_le (t : Digit e .addable r) : t.toList.length ≤ 3 := by
  cases t <;> simp [toList, foldr]

/-- The cast is right where there are at most three elements. -/
theorem magic_eq {t : Digit e a .removable} (h : t.toList.length ≤ 3) :
    ∃ t', magic t = .ok t' ∧ t'.toList = t.toList := by
  cases t with
  | two a b => exact ⟨_, rfl, rfl⟩
  | three a b c => exact ⟨_, rfl, rfl⟩
  | four a b c d => simp [toList, foldr] at h

/-- What `split_addable` owes on a digit. -/
def SplitsAddable (measure' : e → Nat) (target : Nat) (t : Digit e .addable r) : Prop :=
  ∀ acc, target ≤ acc + t.measure measure' →
    ∃ lhs m rhs, splitAddable measure' target acc t = .ok (lhs, m, rhs)
      ∧ SplitsAt measure' target acc t.toList (optToList (lhs.map broadenAnyR)) m
        (optToList (rhs.map broadenAnyR))

theorem splitsAddable_one (measure' : e → Nat) (target : Nat) (x : e) : SplitsAddable measure' target (.one x) := by
  intro acc h
  have hx : target ≤ acc + measure' x := by simpa [measure, foldl] using h
  refine ⟨none, x, none, ?_, SplitsAt.here hx⟩
  rw [splitAddable, if_pos hx]

/-- The step of `split_addable`. What the tail leaves before the place where it splits is shorter
than the tail, so that the cast is on at most three elements. -/
theorem splitsAddable_of_tail {t : Digit e .addable .removable}
    (ih : SplitsAddable measure' target t.uncons.2.digit) : SplitsAddable measure' target t := by
  intro acc h
  rw [splitAddable, toList_uncons]
  by_cases hhead : target ≤ acc + measure' t.uncons.1
  · exact ⟨none, t.uncons.1, some t.uncons.2, if_pos hhead, SplitsAt.here hhead⟩
  · have htail : target ≤ acc + measure' t.uncons.1 + t.uncons.2.digit.measure measure' := by
      rw [measure_eq, toList_uncons, List.map_cons, List.sum_cons] at h
      rw [measure_eq]
      omega
    obtain ⟨lhs, m, rhs, hsplit, hspec⟩ := ih _ htail
    rw [if_neg hhead, hsplit]
    cases lhs with
    | none => exact ⟨some ⟨.one t.uncons.1⟩, m, rhs, rfl, hspec.cons hhead⟩
    | some lhs =>
      have hlength : (cons t.uncons.1 lhs.digit).digit.toList.length ≤ 3 := by
        have hle := length_toList_le t
        have hlhs : lhs.digit.toList.length < t.uncons.2.digit.toList.length := hspec.length_lt
        rw [toList_uncons, List.length_cons] at hle
        rw [toList_cons, List.length_cons]
        omega
      obtain ⟨consRes, hmagic, hconsRes⟩ := magic_eq hlength
      refine ⟨some ⟨consRes⟩, m, rhs, ?_, ?_⟩
      · simp only [bind, Except.bind, hmagic]
        rfl
      · show SplitsAt measure' target acc _ consRes.toList m _
        rw [hconsRes, toList_cons]
        exact hspec.cons hhead

theorem splitsAddable (measure' : e → Nat) (target : Nat) (t : Digit e .addable r) :
    SplitsAddable measure' target t := by
  cases t with
  | one x => exact splitsAddable_one _ _ x
  | two x y => exact splitsAddable_of_tail (splitsAddable_one _ _ y)
  | three x y z => exact splitsAddable_of_tail (splitsAddable_of_tail (splitsAddable_one _ _ z))

/-- **A digit splits where its measure reaches the target.** -/
theorem split_spec {acc : Nat} (t : Digit e a r) (h : target ≤ acc + t.measure measure') :
    ∃ lhs m rhs, split measure' target acc t = .ok (lhs, m, rhs)
      ∧ SplitsAt measure' target acc t.toList (optToList lhs) m (optToList rhs) := by
  have haddable : ∀ {r} (t : Digit e .addable r), target ≤ acc + t.measure measure' →
      ∃ lhs m rhs, split measure' target acc t = .ok (lhs, m, rhs)
        ∧ SplitsAt measure' target acc t.toList (optToList lhs) m (optToList rhs) := by
    intro r t h
    obtain ⟨lhs, m, rhs, hsplit, hspec⟩ := splitsAddable measure' target t acc h
    refine ⟨_, m, _, ?_, hspec⟩
    rw [split, hsplit]
    rfl
  cases t with
  | one x => exact haddable _ h
  | two x y => exact haddable _ h
  | three x y z => exact haddable _ h
  | four w x y z =>
    rw [split]
    dsimp only [uncons]
    by_cases hhead : target ≤ acc + measure' w
    · exact ⟨none, w, some ⟨.three x y z⟩, if_pos hhead, SplitsAt.here hhead⟩
    · have htail : target ≤ acc + measure' w + (three x y z).measure measure' := by
        simp only [measure, foldl] at h ⊢
        omega
      obtain ⟨lhs, m, rhs, hsplit, hspec⟩ := splitsAddable measure' target (three x y z) _ htail
      rw [if_neg hhead, hsplit]
      cases lhs with
      | none => exact ⟨some ⟨.one w⟩, m, _, rfl, hspec.cons hhead⟩
      | some lhs =>
        refine ⟨some (broadenAnyA (cons w lhs.digit)), m, _, rfl, ?_⟩
        rw [optToList_some]
        show SplitsAt measure' target acc _ (cons w lhs.digit).digit.toList m _
        rw [toList_cons]
        exact hspec.cons hhead

end Digit

/-- `Node.split_to_digits`. -/
def Node.splitToDigits {e : Type u} (measure' : e → Nat) (target acc : Nat) (t : Node e) :
    Except Failure (Option (Digit.AnyAR e) × e × Option (Digit.AnyAR e)) :=
  Digit.split measure' target acc t.toDigit

namespace FingerTree

/-- The tree of the part of a digit that a split leaves. -/
def treeOfPart (measure' : e → Nat) : Option (Digit.AnyAR e) → FingerTree e
  | none => .empty
  | some dig => treeOfDigit measure' dig.digit

/-- The tree left of a split: a digit, a tree of nodes, and the left part of a digit. -/
def deepLeft (measure' : e → Nat) {a : Addability} {r : Removability} (pre : Digit e a r)
    (middle : FingerTree (Node e)) : Option (Digit.AnyAR e) → FingerTree e
  | none =>
    match unsnocAux Node.measure middle with
    | none => treeOfDigit measure' pre
    | some (liat, deah) => mkDeep measure' pre liat deah.toDigit
  | some dig => mkDeep measure' pre middle dig.digit

/-- The tree right of a split: the right part of a digit, a tree of nodes, and a digit. -/
def deepRight (measure' : e → Nat) {a : Addability} {r : Removability}
    (middle : FingerTree (Node e)) (suf : Digit e a r) : Option (Digit.AnyAR e) → FingerTree e
  | none =>
    match unconsAux Node.measure middle with
    | none => treeOfDigit measure' suf
    | some (head, tail) => mkDeep measure' head.toDigit tail suf
  | some dig => mkDeep measure' dig.digit middle suf

/-- `split`. -/
def split : {e : Type u} → (e → Nat) → FingerTree e → Nat → Nat → Except Failure (FingerTree e × e × FingerTree e)
  | _, _, .empty, _, _ => .error (.split 1)
  | _, measure', .single x, target, acc =>
    if target ≤ acc + measure' x then .ok (.empty, x, .empty) else .error (.split 2)
  | _, measure', .deep _ pre middle suf, target, acc =>
    let accP := acc + pre.measure measure'
    if target ≤ accP then
      match Digit.split measure' target acc pre with
      | .error failure => .error failure
      | .ok (dl, m, dr) => .ok (treeOfPart measure' dl, m, deepRight measure' middle suf dr)
    else
      let accM := accP + middle.measure Node.measure
      if target ≤ accM then
        match split Node.measure middle target accP with
        | .error failure => .error failure
        | .ok (lhs, m, rhs) =>
          match Node.splitToDigits measure' target (lhs.measure Node.measure + accP) m with
          | .error failure => .error failure
          | .ok (mLhs, mM, mRhs) =>
            .ok (deepLeft measure' pre lhs mLhs, mM, deepRight measure' rhs suf mRhs)
      else
        let accS := accM + suf.measure measure'
        if target ≤ accS then
          match Digit.split measure' target accM suf with
          | .error failure => .error failure
          | .ok (dl, m, dr) => .ok (deepLeft measure' pre middle dl, m, treeOfPart measure' dr)
        else .error (.split 3)

/-- `split_at`, at an index that is not negative. -/
def splitAt (t : FingerTree e) (idx : Nat) : Except Failure (FingerTree e × FingerTree e) :=
  match t with
  | .empty => .ok (.empty, .empty)
  | t =>
    if idx = 0 then .ok (.empty, t)
    else if idx ≤ t.measure fun _ => 1 then do
      let (lhs, m, rhs) ← split (fun _ => 1) t idx 0
      return (snoc lhs m, rhs)
    else .ok (t, .empty)

/-! ### The contents of a split -/

variable {measure' : e → Nat} {middle : FingerTree (Node e)} {t : FingerTree e}

@[simp] theorem contents_treeOfPart (part : Option (Digit.AnyAR e)) :
    (treeOfPart measure' part).contents = Digit.optToList part := by
  cases part with
  | none => exact contents_empty
  | some dig => exact contents_treeOfDigit _ _

theorem measured_treeOfPart (part : Option (Digit.AnyAR e)) : (treeOfPart measure' part).Measured measure' := by
  cases part with
  | none => exact measured_empty _
  | some dig => exact measured_treeOfDigit _ _

@[simp] theorem contents_deepLeft (pre : Digit e a r) (middle : FingerTree (Node e))
    (part : Option (Digit.AnyAR e)) : (deepLeft measure' pre middle part).contents
      = pre.toList ++ middle.contents.flatMap Node.toList ++ Digit.optToList part := by
  cases part with
  | some dig => simp [deepLeft]
  | none =>
    cases h : unsnocAux Node.measure middle with
    | none =>
      obtain rfl := eq_empty_of_unsnocAux h
      simp [deepLeft, unsnocAux]
    | some taken => simp [deepLeft, h, contents_unsnocAux h, Node.toList]

@[simp] theorem contents_deepRight (middle : FingerTree (Node e)) (suf : Digit e a r)
    (part : Option (Digit.AnyAR e)) : (deepRight measure' middle suf part).contents
      = Digit.optToList part ++ (middle.contents.flatMap Node.toList ++ suf.toList) := by
  cases part with
  | some dig => simp [deepRight]
  | none =>
    cases h : unconsAux Node.measure middle with
    | none =>
      obtain rfl := eq_empty_of_unconsAux h
      simp [deepRight, unconsAux]
    | some taken => simp [deepRight, h, contents_unconsAux h, Node.toList]

theorem measured_deepLeft
    (hnodes : ∀ node ∈ middle.contents, node.Measured measure') (hmiddle : middle.Measured Node.measure)
    (pre : Digit e a r) (part : Option (Digit.AnyAR e)) : (deepLeft measure' pre middle part).Measured measure' := by
  cases part with
  | some dig => exact measured_mkDeep hnodes hmiddle _ _
  | none =>
    rw [deepLeft]
    cases h : unsnocAux Node.measure middle with
    | none => exact measured_treeOfDigit _ _
    | some taken =>
      refine measured_mkDeep (fun node hnode => hnodes node ?_) (measured_unsnocAux h hmiddle) _ _
      rw [contents_unsnocAux h]
      exact List.mem_append_left _ hnode

theorem measured_deepRight
    (hnodes : ∀ node ∈ middle.contents, node.Measured measure') (hmiddle : middle.Measured Node.measure)
    (suf : Digit e a r) (part : Option (Digit.AnyAR e)) : (deepRight measure' middle suf part).Measured measure' := by
  cases part with
  | some dig => exact measured_mkDeep hnodes hmiddle _ _
  | none =>
    rw [deepRight]
    cases h : unconsAux Node.measure middle with
    | none => exact measured_treeOfDigit _ _
    | some taken =>
      refine measured_mkDeep (fun node hnode => hnodes node ?_) (measured_unconsAux h hmiddle) _ _
      rw [contents_unconsAux h]
      exact List.mem_cons_of_mem _ hnode

theorem SplitsAt.flatMap {target acc : Nat} {nodes ns ns' : List (Node e)} {node : Node e}
    {ls rs : List e} {m : e} (hnodes : ∀ node ∈ nodes, node.Measured measure') (hlt : acc < target)
    (h : SplitsAt Node.measure target acc nodes ns node ns')
    (hnode : SplitsAt measure' target (acc + (ns.map Node.measure).sum) node.toList ls m rs) :
    SplitsAt measure' target acc (nodes.flatMap Node.toList) (ns.flatMap Node.toList ++ ls) m
      (rs ++ ns'.flatMap Node.toList) := by
  have hsum := sum_measure_flatMap ns fun other hother =>
    hnodes other (by rw [h.eq]; exact List.mem_append_left _ hother)
  have hbefore := h.before hlt
  rw [h.eq, List.flatMap_append, List.flatMap_cons]
  rw [hsum] at hbefore hnode
  exact SplitsAt.append_left _ hbefore (hnode.append _)

/-- **A tree splits where its measure reaches the target, into trees with correct measures.** -/
theorem split_spec {e : Type u} {t : FingerTree e} :
    ∀ {measure' : e → Nat} {target acc : Nat}, t.Measured measure' → acc < target →
      target ≤ acc + t.measure measure' →
        ∃ lhs m rhs, split measure' t target acc = .ok (lhs, m, rhs)
          ∧ SplitsAt measure' target acc t.contents lhs.contents m rhs.contents
          ∧ lhs.Measured measure' ∧ rhs.Measured measure' := by
  induction t with
  | empty =>
    intro measure' target acc _ hlt hle
    simp only [measure] at hle
    omega
  | single x =>
    intro measure' target acc _ _ hle
    refine ⟨empty, x, empty, ?_, ?_, measured_empty _, measured_empty _⟩
    · rw [split, if_pos (show target ≤ acc + measure' x from hle)]
    · simpa using SplitsAt.here (show target ≤ acc + measure' x from hle)
  | deep n pre middle suf ih =>
    intro measure' target acc ht hlt hle
    obtain ⟨hn, hnodes, hmiddle⟩ := (measured_deep_iff _ _ _ _ _).1 ht
    have hpre := Digit.measure_eq measure' pre
    have hsum := measure_eq hmiddle
    have hflat := sum_measure_flatMap _ hnodes
    have hle : target ≤ acc + n := hle
    rw [split]
    dsimp only
    by_cases hp : target ≤ acc + pre.measure measure'
    · -- in the left finger
      obtain ⟨dl, m, dr, hsplit, hspec⟩ := Digit.split_spec pre hp
      rw [if_pos hp, hsplit]
      refine ⟨_, m, _, rfl, ?_, measured_treeOfPart _, measured_deepRight hnodes hmiddle _ _⟩
      rw [contents_deep, contents_treeOfPart, contents_deepRight, List.append_assoc]
      exact hspec.append _
    · by_cases hm : target ≤ acc + pre.measure measure' + middle.measure Node.measure
      · -- in the tree of nodes, and then in the node found there
        obtain ⟨lhs, node, rhs, hsplit, hspec, hlhs, hrhs⟩ := ih hmiddle (Nat.lt_of_not_le hp) hm
        have hnode : node.measure = (node.toList.map measure').sum :=
          hnodes node (by rw [hspec.eq]; exact List.mem_append_right _ List.mem_cons_self)
        have hlhsSum := measure_eq hlhs
        have hreached := hspec.reached
        have hle' : target ≤ lhs.measure Node.measure + (acc + pre.measure measure')
            + node.toDigit.measure measure' := by
          have hdigit : node.toDigit.measure measure' = (node.toList.map measure').sum :=
            Digit.measure_eq _ _
          rw [hnode] at hreached
          omega
        obtain ⟨mLhs, mM, mRhs, hsplit', hspec'⟩ := Digit.split_spec node.toDigit hle'
        rw [if_neg hp, if_pos hm, hsplit]
        dsimp only
        rw [Node.splitToDigits, hsplit']
        have hsub : ∀ other ∈ lhs.contents ++ node :: rhs.contents, other.Measured measure' := by
          rw [← hspec.eq]
          exact hnodes
        refine ⟨_, mM, _, rfl, ?_, measured_deepLeft (fun other h => hsub other (by simp [h])) hlhs _ _,
          measured_deepRight (fun other h => hsub other (by simp [h])) hrhs _ _⟩
        have hp' : acc + (pre.toList.map measure').sum < target := by
          rw [← hpre]
          exact Nat.lt_of_not_le hp
        rw [hpre] at hspec hspec'
        rw [← Nat.add_comm, hlhsSum] at hspec'
        have hsplits := SplitsAt.append_left pre.toList hp'
          ((SplitsAt.flatMap hnodes hp' hspec hspec').append suf.toList)
        rw [contents_deep, contents_deepLeft, contents_deepRight]
        simpa only [List.append_assoc] using hsplits
      · -- in the right finger
        have hs : target ≤ acc + pre.measure measure' + middle.measure Node.measure
            + suf.measure measure' := by omega
        obtain ⟨dl, m, dr, hsplit, hspec⟩ := Digit.split_spec suf hs
        rw [if_neg hp, if_neg hm, if_pos hs, hsplit]
        refine ⟨_, m, _, rfl, ?_, measured_deepLeft hnodes hmiddle _ _, measured_treeOfPart _⟩
        have hfront : ((pre.toList ++ middle.contents.flatMap Node.toList).map measure').sum
            = pre.measure measure' + middle.measure Node.measure := by
          rw [List.map_append, List.sum_append]
          omega
        rw [contents_deep, contents_deepLeft, contents_treeOfPart]
        refine SplitsAt.append_left _ (by omega) ?_
        rw [hfront, ← Nat.add_assoc]
        exact hspec

/-- **`split_at` takes and drops, without a failure.** -/
theorem splitAt_spec (ht : t.Measured fun _ => 1) (idx : Nat) :
    ∃ l r, splitAt t idx = .ok (l, r) ∧ l.contents = t.contents.take idx
      ∧ r.contents = t.contents.drop idx ∧ l.Measured (fun _ => 1) ∧ r.Measured fun _ => 1 := by
  have hlength : t.measure (fun _ => 1) = t.contents.length := length_eq ht
  have hsplit : splitAt t idx = if idx = 0 then .ok (empty, t)
      else if idx ≤ t.measure fun _ => 1 then (do
        let (lhs, m, rhs) ← split (fun _ => 1) t idx 0
        return (snoc lhs m, rhs))
      else .ok (t, empty) := by
    cases t with
    | empty => by_cases h : idx = 0 <;> simp [splitAt, measure, h]
    | single x => rfl
    | deep m pre middle suf => rfl
  rw [hsplit]
  by_cases h0 : idx = 0
  · subst h0
    exact ⟨empty, t, rfl, by simp, by simp, measured_empty _, ht⟩
  · rw [if_neg h0]
    by_cases hle : idx ≤ t.measure fun _ => 1
    · obtain ⟨lhs, m, rhs, hok, ⟨heq, hreached, hbefore⟩, hlhs, hrhs⟩ :=
        split_spec ht (Nat.pos_of_ne_zero h0) (by simpa using hle)
      have hbefore := hbefore (Nat.pos_of_ne_zero h0)
      have hsum : (lhs.contents.map fun _ => 1).sum = lhs.contents.length := by simp
      have hidx : idx = (lhs.contents ++ [m]).length := by
        rw [List.length_append, List.length_singleton]
        omega
      have happend : t.contents = (lhs.contents ++ [m]) ++ rhs.contents := by
        rw [heq, List.append_assoc, List.singleton_append]
      refine ⟨snoc lhs m, rhs, ?_, ?_, ?_, measured_snocAux hlhs m, hrhs⟩
      · rw [if_pos hle, hok]
        rfl
      · rw [contents_snoc, happend, hidx, List.take_left]
      · rw [happend, hidx, List.drop_left]
    · rw [if_neg hle]
      have hle : t.contents.length ≤ idx := by omega
      refine ⟨t, empty, rfl, (List.take_of_length_le hle).symm, ?_, ht, measured_empty _⟩
      rw [List.drop_of_length_le hle, contents_empty]

/-! ### The sequences of the pool -/

/-- The trees that the operations build. -/
inductive Built {e : Type u} : FingerTree e → Prop where
  | empty : Built .empty
  | singleton (x : e) : Built (singleton x)
  | cons (x : e) {t : FingerTree e} (ht : Built t) : Built (cons x t)
  | snoc {t : FingerTree e} (ht : Built t) (x : e) : Built (snoc t x)
  | uncons {t rest : FingerTree e} {x : e} (ht : Built t) (h : uncons t = some (x, rest)) : Built rest
  | unsnoc {t rest : FingerTree e} {x : e} (ht : Built t) (h : unsnoc t = some (rest, x)) : Built rest
  | splitLeft {t l r : FingerTree e} {idx : Nat} (ht : Built t) (h : splitAt t idx = .ok (l, r)) : Built l
  | splitRight {t l r : FingerTree e} {idx : Nat} (ht : Built t) (h : splitAt t idx = .ok (l, r)) : Built r
  | ofList (xs : List e) : Built (ofList xs)

theorem ofList_spec (xs : List e) : (ofList xs).contents = xs ∧ (ofList xs).Measured fun _ => 1 := by
  have hrun : ∀ (xs : List e) (t : FingerTree e), t.Measured (fun _ => 1) →
      (xs.foldl snoc t).contents = t.contents ++ xs ∧ (xs.foldl snoc t).Measured fun _ => 1 := by
    intro xs
    induction xs with
    | nil => intro t ht; exact ⟨(List.append_nil _).symm, ht⟩
    | cons x xs ih =>
      intro t ht
      obtain ⟨hcontents, hmeasured⟩ := ih (snoc t x) (measured_snocAux ht x)
      refine ⟨?_, hmeasured⟩
      rw [List.foldl_cons, hcontents, contents_snoc, List.append_assoc, List.singleton_append]
  obtain ⟨hcontents, hmeasured⟩ := hrun xs empty (measured_empty _)
  exact ⟨by rw [ofList, hcontents, contents_empty, List.nil_append], hmeasured⟩

theorem Built.measured (h : Built t) : t.Measured fun _ => 1 := by
  induction h with
  | empty => exact measured_empty _
  | singleton x => exact measured_single _ x
  | cons x ht ih => exact measured_consAux ih x
  | snoc ht x ih => exact measured_snocAux ih x
  | uncons ht h ih => exact measured_unconsAux h ih
  | unsnoc ht h ih => exact measured_unsnocAux h ih
  | splitLeft ht h ih =>
    obtain ⟨l, r, hok, -, -, hl, -⟩ := splitAt_spec ih _
    obtain ⟨rfl, -⟩ := Prod.mk.inj (Except.ok.inj (h.symm.trans hok))
    exact hl
  | splitRight ht h ih =>
    obtain ⟨l, r, hok, -, -, -, hr⟩ := splitAt_spec ih _
    obtain ⟨-, rfl⟩ := Prod.mk.inj (Except.ok.inj (h.symm.trans hok))
    exact hr
  | ofList xs => exact (ofList_spec xs).2

theorem uncons_iff (t : FingerTree e) (x : e) (xs : List e) :
    t.contents = x :: xs ↔ ∃ rest, uncons t = some (x, rest) ∧ rest.contents = xs := by
  constructor
  · intro h
    obtain ⟨-, rfl⟩ | ⟨y, rest, ht, hcontents⟩ := uncons_cases t
    · simp at h
    · obtain ⟨rfl, rfl⟩ := List.cons.inj (hcontents.symm.trans h)
      exact ⟨rest, ht, rfl⟩
  · rintro ⟨rest, ht, rfl⟩
    exact contents_unconsAux ht

theorem unsnoc_iff (t : FingerTree e) (x : e) (xs : List e) :
    t.contents = xs ++ [x] ↔ ∃ rest, unsnoc t = some (rest, x) ∧ rest.contents = xs := by
  constructor
  · intro h
    cases ht : unsnoc t with
    | none => simp [eq_empty_of_unsnocAux ht] at h
    | some taken =>
      obtain ⟨rest, y⟩ := taken
      obtain ⟨hxs, hx⟩ := List.append_inj' ((contents_unsnocAux ht).symm.trans h) rfl
      obtain rfl := List.singleton_inj.1 hx
      exact ⟨rest, rfl, hxs⟩
  · rintro ⟨rest, ht, rfl⟩
    exact contents_unsnocAux ht

/-- The operations on the tree are the operations on its list, and its measures are correct. -/
structure ActsAsList (t : FingerTree e) : Prop where
  measured : t.Measured fun _ => 1
  cons : ∀ x, toList (cons x t) = x :: toList t
  snoc : ∀ x, toList (snoc t x) = toList t ++ [x]
  uncons : ∀ x xs, toList t = x :: xs ↔ ∃ rest, uncons t = some (x, rest) ∧ toList rest = xs
  unsnoc : ∀ x xs, toList t = xs ++ [x] ↔ ∃ rest, unsnoc t = some (rest, x) ∧ toList rest = xs
  length : length t = (toList t).length
  foldl : ∀ {A : Type v} (f : A → e → A) (acc : A), foldl f acc t = (toList t).foldl f acc
  foldr : ∀ {A : Type v} (f : e → A → A) (acc : A), foldr f acc t = (toList t).foldr f acc
  findi : ∀ f, findi t f = (toList t).findIdx? f
  splitAt : ∀ idx, ∃ l r, splitAt t idx = .ok (l, r) ∧ toList l = (toList t).take idx
    ∧ toList r = (toList t).drop idx

/-- **A sequence is a list.** -/
theorem built_actsAsList {t : FingerTree e} (h : Built t) : ActsAsList.{u, v} t := by
  refine ⟨h.measured, ?_, ?_, ?_, ?_, ?_, ?_, ?_, ?_, ?_⟩
  · intro x
    rw [toList_eq, toList_eq, contents_cons]
  · intro x
    rw [toList_eq, toList_eq, contents_snoc]
  · intro x xs
    simp only [toList_eq]
    exact uncons_iff t x xs
  · intro x xs
    simp only [toList_eq]
    exact unsnoc_iff t x xs
  · rw [toList_eq, length_eq h.measured]
  · intro A f acc
    rw [toList_eq, foldl_eq]
  · intro A f acc
    rw [toList_eq, foldr_eq]
  · intro f
    rw [toList_eq, findi_eq]
  · intro idx
    obtain ⟨l, r, hok, hl, hr, -, -⟩ := splitAt_spec h.measured idx
    refine ⟨l, r, hok, ?_, ?_⟩
    · rw [toList_eq, toList_eq, hl]
    · rw [toList_eq, toList_eq, hr]

/-- A sequence of ten elements. -/
theorem ofList_range_actsAsList : ActsAsList.{0, 0} (ofList (List.range 10)) :=
  built_actsAsList (.ofList _)

end FingerTree

end MinaProtocol.FSequence
