import Mathlib

/-!
# FSequence.FingerTree

The sequences that the pool keeps a sender's commands in: a finger tree, whose middle is a tree of
nodes of two or three elements, each tree and node with the measure of what is below it. The
contents of a tree are read off its shape (`contents`), and the operations at its ends are the
ones of lists on these contents, with measures that stay correct (`Measured`).
-/

namespace MinaProtocol.FSequence

universe u v

/-! ### Digits -/

/-- `Digit.addable` and `Digit.not_addable`. -/
inductive Addability where
  | addable
  | notAddable
deriving DecidableEq, Repr

/-- `Digit.removable` and `Digit.not_removable`. -/
inductive Removability where
  | removable
  | notRemovable
deriving DecidableEq, Repr

/-- `Digit.t`: one to four elements, and in the type whether an element can be added or removed. -/
inductive Digit (e : Type u) : Addability → Removability → Type u where
  | one (a : e) : Digit e .addable .notRemovable
  | two (a b : e) : Digit e .addable .removable
  | three (a b c : e) : Digit e .addable .removable
  | four (a b c d : e) : Digit e .notAddable .removable

variable {e : Type u} {a : Addability} {r : Removability}

namespace Digit

/-- `Digit.t_any_a`. -/
structure AnyA (r : Removability) (e : Type u) where
  {a : Addability}
  digit : Digit e a r

/-- `Digit.t_any_r`. -/
structure AnyR (a : Addability) (e : Type u) where
  {r : Removability}
  digit : Digit e a r

/-- `Digit.t_any_ar`. -/
structure AnyAR (e : Type u) where
  {a : Addability}
  {r : Removability}
  digit : Digit e a r

/-- `Digit.broaden_any_a`. -/
def broadenAnyA (t : AnyA r e) : AnyAR e := ⟨t.digit⟩

/-- `Digit.broaden_any_r`. -/
def broadenAnyR (t : AnyR a e) : AnyAR e := ⟨t.digit⟩

/-- `Digit.cons`. -/
def cons (x : e) : Digit e .addable r → AnyA .removable e
  | .one a => ⟨.two x a⟩
  | .two a b => ⟨.three x a b⟩
  | .three a b c => ⟨.four x a b c⟩

/-- `Digit.snoc`. -/
def snoc : Digit e .addable r → e → AnyA .removable e
  | .one a, x => ⟨.two a x⟩
  | .two a b, x => ⟨.three a b x⟩
  | .three a b c, x => ⟨.four a b c x⟩

/-- `Digit.uncons`. -/
def uncons : Digit e a .removable → e × AnyR .addable e
  | .two a b => (a, ⟨.one b⟩)
  | .three a b c => (a, ⟨.two b c⟩)
  | .four a b c d => (a, ⟨.three b c d⟩)

/-- `Digit.unsnoc`. -/
def unsnoc : Digit e a .removable → AnyR .addable e × e
  | .two a b => (⟨.one a⟩, b)
  | .three a b c => (⟨.two a b⟩, c)
  | .four a b c d => (⟨.three a b c⟩, d)

/-- `Digit.foldr`. -/
def foldr {A : Type v} (f : e → A → A) (z : A) : Digit e a r → A
  | .one a => f a z
  | .two a b => f a (f b z)
  | .three a b c => f a (f b (f c z))
  | .four a b c d => f a (f b (f c (f d z)))

/-- `Digit.foldl`. -/
def foldl {A : Type v} (f : A → e → A) (z : A) : Digit e a r → A
  | .one a => f z a
  | .two a b => f (f z a) b
  | .three a b c => f (f (f z a) b) c
  | .four a b c d => f (f (f (f z a) b) c) d

/-- `Digit.to_list`. -/
def toList (t : Digit e a r) : List e := foldr List.cons [] t

/-- `Digit.measure`. -/
def measure (measure' : e → Nat) (t : Digit e a r) : Nat := foldl (fun m x => m + measure' x) 0 t

@[simp] theorem toList_cons (x : e) (t : Digit e .addable r) : (cons x t).digit.toList = x :: t.toList := by
  cases t <;> rfl

@[simp] theorem toList_snoc (t : Digit e .addable r) (x : e) : (snoc t x).digit.toList = t.toList ++ [x] := by
  cases t <;> rfl

theorem toList_uncons (t : Digit e a .removable) : t.toList = (uncons t).1 :: (uncons t).2.digit.toList := by
  cases t <;> rfl

theorem toList_unsnoc (t : Digit e a .removable) : t.toList = (unsnoc t).1.digit.toList ++ [(unsnoc t).2] := by
  cases t <;> rfl

theorem foldr_eq {A : Type v} (f : e → A → A) (z : A) (t : Digit e a r) : foldr f z t = t.toList.foldr f z := by
  cases t <;> rfl

theorem measure_eq (measure' : e → Nat) (t : Digit e a r) : t.measure measure' = (t.toList.map measure').sum := by
  cases t <;> simp [measure, foldl, toList, foldr] <;> omega

end Digit

/-! ### Nodes -/

/-- `Node.t`: two or three elements with their measure. -/
inductive Node (e : Type u) where
  | two (m : Nat) (a b : e)
  | three (m : Nat) (a b c : e)

namespace Node

/-- `Node.measure`. -/
def measure : Node e → Nat
  | .two m _ _ => m
  | .three m _ _ _ => m

/-- `Node.to_digit`. -/
def toDigit : Node e → Digit e .addable .removable
  | .two _ a b => .two a b
  | .three _ a b c => .three a b c

/-- `Node.mk_3`. -/
def mk3 (f : e → Nat) (a b c : e) : Node e := .three (f a + f b + f c) a b c

/-- The elements of a node. -/
def toList (node : Node e) : List e := node.toDigit.toList

/-- The measure kept in the node is the one of its elements. -/
def Measured (measure' : e → Nat) (node : Node e) : Prop :=
  node.measure = (node.toList.map measure').sum

@[simp] theorem toList_mk3 (f : e → Nat) (a b c : e) : (mk3 f a b c).toList = [a, b, c] := rfl

theorem measured_mk3 (f : e → Nat) (a b c : e) : (mk3 f a b c).Measured f := by
  simp [Measured, mk3, measure, toList, toDigit, Digit.toList, Digit.foldr, Nat.add_assoc]

end Node

/-! ### Trees -/

/-- `F_sequence.t`. -/
inductive FingerTree : Type u → Type (u + 1) where
  | empty {e : Type u} : FingerTree e
  | single {e : Type u} (x : e) : FingerTree e
  | deep {e : Type u} {a a' : Addability} {r r' : Removability} (m : Nat) (pre : Digit e a r)
      (middle : FingerTree (Node e)) (suf : Digit e a' r') : FingerTree e

namespace FingerTree

variable {a' : Addability} {r' : Removability} {measure' : e → Nat} {middle : FingerTree (Node e)}
  {t rest : FingerTree e} {suf : Digit e a' r'} {pre : Digit e a r} {A : Type v} {m : Nat} {x : e}

/-- `measure`. -/
def measure (measure' : e → Nat) : FingerTree e → Nat
  | .empty => 0
  | .single x => measure' x
  | .deep m _ _ _ => m

/-- `deep`. -/
def mkDeep (measure' : e → Nat) (pre : Digit e a r) (middle : FingerTree (Node e))
    (suf : Digit e a' r') : FingerTree e :=
  .deep (pre.measure measure' + middle.measure Node.measure + suf.measure measure') pre middle suf

/-- `cons'`. -/
def consAux : {e : Type u} → (e → Nat) → e → FingerTree e → FingerTree e
  | _, _, x, .empty => .single x
  | _, measure', x, .single y => mkDeep measure' (.one x) .empty (.one y)
  | _, measure', x, @deep _ a _ _ _ _ pre middle suf =>
    match a, pre with
    | .addable, pre => mkDeep measure' (Digit.cons x pre).digit middle suf
    | .notAddable, .four a b c d =>
      mkDeep measure' (.two x a) (consAux Node.measure (Node.mk3 measure' b c d) middle) suf

/-- `cons`. -/
def cons (x : e) (xs : FingerTree e) : FingerTree e := consAux (fun _ => 1) x xs

/-- `snoc'`. -/
def snocAux : {e : Type u} → (e → Nat) → FingerTree e → e → FingerTree e
  | _, _, .empty, x => .single x
  | _, measure', .single y, x => mkDeep measure' (.one y) .empty (.one x)
  | _, measure', @deep _ _ a _ _ _ pre middle suf, x =>
    match a, suf with
    | .addable, suf => mkDeep measure' pre middle (Digit.snoc suf x).digit
    | .notAddable, .four a b c d =>
      mkDeep measure' pre (snocAux Node.measure middle (Node.mk3 measure' a b c)) (.two d x)

/-- `snoc`. -/
def snoc (xs : FingerTree e) (x : e) : FingerTree e := snocAux (fun _ => 1) xs x

/-- `tree_of_digit`. -/
def treeOfDigit (measure' : e → Nat) (dig : Digit e a r) : FingerTree e :=
  Digit.foldr (consAux measure') .empty dig

/-- `uncons'`. -/
def unconsAux : {e : Type u} → (e → Nat) → FingerTree e → Option (e × FingerTree e)
  | _, _, .empty => none
  | _, _, .single x => some (x, .empty)
  | _, measure', @deep _ _ _ r _ _ pre middle suf =>
    match r, pre with
    | .removable, pre =>
      let (head, rest) := Digit.uncons pre
      some (head, mkDeep measure' rest.digit middle suf)
    | .notRemovable, .one x =>
      match unconsAux Node.measure middle with
      | none => some (x, treeOfDigit measure' suf)
      | some (node, rest) => some (x, mkDeep measure' node.toDigit rest suf)

/-- `uncons`. -/
def uncons (t : FingerTree e) : Option (e × FingerTree e) := unconsAux (fun _ => 1) t

/-- `unsnoc'`. -/
def unsnocAux : {e : Type u} → (e → Nat) → FingerTree e → Option (FingerTree e × e)
  | _, _, .empty => none
  | _, _, .single x => some (.empty, x)
  | _, measure', @deep _ _ _ _ r _ pre middle suf =>
    match r, suf with
    | .removable, suf =>
      let (liat, deah) := Digit.unsnoc suf
      some (mkDeep measure' pre middle liat.digit, deah)
    | .notRemovable, .one x =>
      match unsnocAux Node.measure middle with
      | none => some (treeOfDigit measure' pre, x)
      | some (rest, node) => some (mkDeep measure' pre rest node.toDigit, x)

/-- `unsnoc`. -/
def unsnoc (t : FingerTree e) : Option (FingerTree e × e) := unsnocAux (fun _ => 1) t

/-- `singleton`. -/
def singleton (x : e) : FingerTree e := .single x

/-- `of_list`. -/
def ofList (xs : List e) : FingerTree e := xs.foldl snoc .empty

/-- `length`. -/
def length (t : FingerTree e) : Nat := t.measure fun _ => 1

/-! ### Contents -/

/-- The elements of a tree, as they lie in it. -/
def contents : {e : Type u} → FingerTree e → List e
  | _, .empty => []
  | _, .single x => [x]
  | _, .deep _ pre middle suf => pre.toList ++ middle.contents.flatMap Node.toList ++ suf.toList

/-- The measures in a tree are correct: `assert_measure`, for every node. -/
def Measured : {e : Type u} → (e → Nat) → FingerTree e → Prop
  | _, _, .empty => True
  | _, _, .single _ => True
  | _, measure', .deep m pre middle suf =>
    m = pre.measure measure' + middle.measure Node.measure + suf.measure measure'
      ∧ (∀ node ∈ middle.contents, node.Measured measure') ∧ middle.Measured Node.measure

section Equations

attribute [local simp] contents Measured

@[simp] theorem contents_empty : (empty : FingerTree e).contents = [] := by rw [contents]

@[simp] theorem contents_single (x : e) : (single x).contents = [x] := by rw [contents]

@[simp] theorem contents_deep (m : Nat) (pre : Digit e a r) (middle : FingerTree (Node e))
    (suf : Digit e a' r') : (deep m pre middle suf).contents
      = pre.toList ++ middle.contents.flatMap Node.toList ++ suf.toList := by
  rw [contents]

@[simp] theorem contents_mkDeep (measure' : e → Nat) (pre : Digit e a r)
    (middle : FingerTree (Node e)) (suf : Digit e a' r') : (mkDeep measure' pre middle suf).contents
      = pre.toList ++ middle.contents.flatMap Node.toList ++ suf.toList :=
  contents_deep _ _ _ _

@[simp] theorem measured_empty (measure' : e → Nat) : (empty : FingerTree e).Measured measure' := by
  rw [Measured]
  trivial

@[simp] theorem measured_single (measure' : e → Nat) (x : e) : (single x).Measured measure' := by
  rw [Measured]
  trivial

theorem measured_deep_iff (measure' : e → Nat) (m : Nat) (pre : Digit e a r)
    (middle : FingerTree (Node e)) (suf : Digit e a' r') : (deep m pre middle suf).Measured measure'
      ↔ m = pre.measure measure' + middle.measure Node.measure + suf.measure measure'
        ∧ (∀ node ∈ middle.contents, node.Measured measure') ∧ middle.Measured Node.measure := by
  rw [Measured]

end Equations

/-- The smart constructor counts what it is given. -/
theorem measured_mkDeep
    (hnodes : ∀ node ∈ middle.contents, node.Measured measure') (hmiddle : middle.Measured Node.measure)
    (pre : Digit e a r) (suf : Digit e a' r') : (mkDeep measure' pre middle suf).Measured measure' :=
  (measured_deep_iff _ _ _ _ _).2 ⟨rfl, hnodes, hmiddle⟩

theorem sum_measure_flatMap (nodes : List (Node e)) (h : ∀ node ∈ nodes, node.Measured measure') :
    (nodes.map Node.measure).sum = ((nodes.flatMap Node.toList).map measure').sum := by
  induction nodes with
  | nil => rfl
  | cons node nodes ih =>
    have hnode := h node List.mem_cons_self
    have hnodes := ih fun other hother => h other (List.mem_cons_of_mem _ hother)
    rw [List.map_cons, List.sum_cons, hnodes, List.flatMap_cons, List.map_append, List.sum_append, ← hnode]

/-- **The cached measure of a tree is the sum over its contents.** -/
theorem measure_eq {e : Type u} {t : FingerTree e} :
    ∀ {measure' : e → Nat}, t.Measured measure' → t.measure measure' = (t.contents.map measure').sum := by
  induction t with
  | empty => intro measure' h; simp [measure]
  | single x => intro measure' h; simp [measure]
  | deep m pre middle suf ih =>
    intro measure' h
    obtain ⟨hm, hnodes, hmiddle⟩ := (measured_deep_iff _ _ _ _ _).1 h
    rw [contents_deep, List.map_append, List.map_append, List.sum_append, List.sum_append,
      ← sum_measure_flatMap _ hnodes, ← ih hmiddle, ← Digit.measure_eq, ← Digit.measure_eq]
    exact hm

theorem length_eq (h : t.Measured fun _ => 1) : t.length = t.contents.length := by
  rw [length, measure_eq h]
  simp

/-! ### The left end -/

attribute [local simp] consAux unconsAux

theorem consAux_deep (measure' : e → Nat) (x : e) (m : Nat) (pre : Digit e .addable r)
    (middle : FingerTree (Node e)) (suf : Digit e a' r') : consAux measure' x (deep m pre middle suf)
      = mkDeep measure' (Digit.cons x pre).digit middle suf := by
  rw [consAux]

theorem consAux_four (measure' : e → Nat) (x : e) (m : Nat) (a b c d : e)
    (middle : FingerTree (Node e)) (suf : Digit e a' r') : consAux measure' x (deep m (.four a b c d) middle suf)
      = mkDeep measure' (.two x a) (consAux Node.measure (Node.mk3 measure' b c d) middle) suf := by
  rw [consAux]

@[simp] theorem contents_consAux {e : Type u} (t : FingerTree e) :
    ∀ (measure' : e → Nat) (x : e), (consAux measure' x t).contents = x :: t.contents := by
  induction t with
  | empty => intro measure' x; simp
  | single y => intro measure' x; simp [Digit.toList, Digit.foldr]
  | deep m pre middle suf ih =>
    intro measure' x
    cases pre with
    | four a b c d => simp [ih, Digit.toList, Digit.foldr]
    | one a => simp
    | two a b => simp
    | three a b c => simp

theorem measured_consAux {e : Type u} {t : FingerTree e} :
    ∀ {measure' : e → Nat}, t.Measured measure' → ∀ x, (consAux measure' x t).Measured measure' := by
  induction t with
  | empty => intro measure' h x; simp
  | single y =>
    intro measure' h x
    rw [consAux]
    exact measured_mkDeep (by simp) (measured_empty _) _ _
  | deep m pre middle suf ih =>
    intro measure' h x
    obtain ⟨-, hnodes, hmiddle⟩ := (measured_deep_iff _ _ _ _ _).1 h
    cases pre with
    | four a b c d =>
      rw [consAux_four]
      refine measured_mkDeep (fun node hnode => ?_) (ih hmiddle _) _ _
      rw [contents_consAux] at hnode
      obtain rfl | hnode := List.mem_cons.1 hnode
      · exact Node.measured_mk3 _ _ _ _
      · exact hnodes node hnode
    | one a => rw [consAux_deep]; exact measured_mkDeep hnodes hmiddle _ _
    | two a b => rw [consAux_deep]; exact measured_mkDeep hnodes hmiddle _ _
    | three a b c => rw [consAux_deep]; exact measured_mkDeep hnodes hmiddle _ _

theorem contents_cons (x : e) (t : FingerTree e) : (cons x t).contents = x :: t.contents :=
  contents_consAux _ _ _

@[simp] theorem contents_treeOfDigit (measure' : e → Nat) (dig : Digit e a r) :
    (treeOfDigit measure' dig).contents = dig.toList := by
  rw [treeOfDigit, Digit.foldr_eq]
  induction dig.toList with
  | nil => simp
  | cons x xs ih => rw [List.foldr_cons, contents_consAux, ih]

theorem measured_treeOfDigit (measure' : e → Nat) (dig : Digit e a r) :
    (treeOfDigit measure' dig).Measured measure' := by
  rw [treeOfDigit, Digit.foldr_eq]
  induction dig.toList with
  | nil => exact measured_empty _
  | cons x xs ih => exact measured_consAux ih x

theorem unconsAux_deep_cases (h : unconsAux measure' (deep m pre middle suf) = some (x, rest)) :
    (∃ (r₁ : Removability) (pre₁ : Digit e .addable r₁), pre.toList = x :: pre₁.toList
        ∧ rest = mkDeep measure' pre₁ middle suf)
      ∨ pre.toList = [x] ∧ unconsAux Node.measure middle = none ∧ rest = treeOfDigit measure' suf
      ∨ ∃ node middle₁, pre.toList = [x] ∧ unconsAux Node.measure middle = some (node, middle₁)
        ∧ rest = mkDeep measure' node.toDigit middle₁ suf := by
  have hremovable : ∀ {a} (pre : Digit e a .removable),
      unconsAux measure' (deep m pre middle suf) = some (x, rest) →
        ∃ (r₁ : Removability) (pre₁ : Digit e .addable r₁), pre.toList = x :: pre₁.toList
          ∧ rest = mkDeep measure' pre₁ middle suf := by
    intro a pre h
    rw [unconsAux] at h
    obtain ⟨rfl, rfl⟩ := Prod.mk.inj (Option.some.inj h)
    exact ⟨_, _, Digit.toList_uncons pre, rfl⟩
  cases pre with
  | one y =>
    cases hmiddle : unconsAux Node.measure middle with
    | none =>
      rw [unconsAux, hmiddle] at h
      obtain ⟨rfl, rfl⟩ := Prod.mk.inj (Option.some.inj h)
      exact .inr (.inl ⟨rfl, rfl, rfl⟩)
    | some taken =>
      rw [unconsAux, hmiddle] at h
      obtain ⟨rfl, rfl⟩ := Prod.mk.inj (Option.some.inj h)
      exact .inr (.inr ⟨_, _, rfl, rfl, rfl⟩)
  | two a b => exact .inl (hremovable _ h)
  | three a b c => exact .inl (hremovable _ h)
  | four a b c d => exact .inl (hremovable _ h)

theorem eq_empty_of_unconsAux (h : unconsAux measure' t = none) : t = empty := by
  cases t with
  | empty => rfl
  | single x => rw [unconsAux] at h; cases h
  | deep m pre middle suf =>
    cases pre with
    | one y => cases hmiddle : unconsAux Node.measure middle <;> rw [unconsAux, hmiddle] at h <;> cases h
    | two a b => rw [unconsAux] at h; cases h
    | three a b c => rw [unconsAux] at h; cases h
    | four a b c d => rw [unconsAux] at h; cases h

/-- **What is taken off the left end is the first element.** -/
theorem contents_unconsAux {e : Type u} {t : FingerTree e} :
    ∀ {measure' : e → Nat} {x : e} {rest : FingerTree e}, unconsAux measure' t = some (x, rest) →
      t.contents = x :: rest.contents := by
  induction t with
  | empty => intro measure' x rest h; simp at h
  | single y =>
    intro measure' x rest h
    obtain ⟨rfl, rfl⟩ : y = x ∧ empty = rest := by simpa using h
    simp
  | deep m pre middle suf ih =>
    intro measure' x rest h
    obtain ⟨r₁, pre₁, hpre, rfl⟩ | ⟨hpre, hmiddle, rfl⟩ | ⟨node, middle₁, hpre, hmiddle, rfl⟩ :=
      unconsAux_deep_cases h
    · simp [hpre]
    · simp [hpre, eq_empty_of_unconsAux hmiddle]
    · simp [hpre, ih hmiddle, Node.toList]

theorem measured_unconsAux {e : Type u} {t : FingerTree e} :
    ∀ {measure' : e → Nat} {x : e} {rest : FingerTree e}, unconsAux measure' t = some (x, rest) →
      t.Measured measure' → rest.Measured measure' := by
  induction t with
  | empty => intro measure' x rest h; simp at h
  | single y =>
    intro measure' x rest h _
    obtain ⟨rfl, rfl⟩ : y = x ∧ empty = rest := by simpa using h
    exact measured_empty _
  | deep m pre middle suf ih =>
    intro measure' x rest h ht
    obtain ⟨-, hnodes, hmeasured⟩ := (measured_deep_iff _ _ _ _ _).1 ht
    obtain ⟨r₁, pre₁, -, rfl⟩ | ⟨-, -, rfl⟩ | ⟨node, middle₁, -, hmiddle, rfl⟩ := unconsAux_deep_cases h
    · exact measured_mkDeep hnodes hmeasured _ _
    · exact measured_treeOfDigit _ _
    · refine measured_mkDeep (fun other hother => hnodes other ?_) (ih hmiddle hmeasured) _ _
      rw [contents_unconsAux hmiddle]
      exact List.mem_cons_of_mem _ hother

/-! ### The right end -/

attribute [local simp] snocAux unsnocAux

theorem snocAux_deep (measure' : e → Nat) (x : e) (m : Nat) (pre : Digit e a r)
    (middle : FingerTree (Node e)) (suf : Digit e .addable r') :
    snocAux measure' (deep m pre middle suf) x = mkDeep measure' pre middle (Digit.snoc suf x).digit := by
  rw [snocAux]

theorem snocAux_four (measure' : e → Nat) (x : e) (m : Nat) (a₁ b c d : e) (pre : Digit e a r)
    (middle : FingerTree (Node e)) : snocAux measure' (deep m pre middle (.four a₁ b c d)) x
      = mkDeep measure' pre (snocAux Node.measure middle (Node.mk3 measure' a₁ b c)) (.two d x) := by
  rw [snocAux]

@[simp] theorem contents_snocAux {e : Type u} (t : FingerTree e) :
    ∀ (measure' : e → Nat) (x : e), (snocAux measure' t x).contents = t.contents ++ [x] := by
  induction t with
  | empty => intro measure' x; simp
  | single y => intro measure' x; simp [Digit.toList, Digit.foldr]
  | deep m pre middle suf ih =>
    intro measure' x
    cases suf with
    | four a b c d => simp [ih, Digit.toList, Digit.foldr]
    | one a => simp
    | two a b => simp
    | three a b c => simp

theorem measured_snocAux {e : Type u} {t : FingerTree e} :
    ∀ {measure' : e → Nat}, t.Measured measure' → ∀ x, (snocAux measure' t x).Measured measure' := by
  induction t with
  | empty => intro measure' h x; simp
  | single y =>
    intro measure' h x
    rw [snocAux]
    exact measured_mkDeep (by simp) (measured_empty _) _ _
  | deep m pre middle suf ih =>
    intro measure' h x
    obtain ⟨-, hnodes, hmiddle⟩ := (measured_deep_iff _ _ _ _ _).1 h
    cases suf with
    | four a b c d =>
      rw [snocAux_four]
      refine measured_mkDeep (fun node hnode => ?_) (ih hmiddle _) _ _
      rw [contents_snocAux, List.mem_append, List.mem_singleton] at hnode
      obtain hnode | rfl := hnode
      · exact hnodes node hnode
      · exact Node.measured_mk3 _ _ _ _
    | one a => rw [snocAux_deep]; exact measured_mkDeep hnodes hmiddle _ _
    | two a b => rw [snocAux_deep]; exact measured_mkDeep hnodes hmiddle _ _
    | three a b c => rw [snocAux_deep]; exact measured_mkDeep hnodes hmiddle _ _

theorem contents_snoc (t : FingerTree e) (x : e) : (snoc t x).contents = t.contents ++ [x] :=
  contents_snocAux _ _ _

theorem unsnocAux_deep_cases (h : unsnocAux measure' (deep m pre middle suf) = some (rest, x)) :
    (∃ (r₁ : Removability) (suf₁ : Digit e .addable r₁), suf.toList = suf₁.toList ++ [x]
        ∧ rest = mkDeep measure' pre middle suf₁)
      ∨ suf.toList = [x] ∧ unsnocAux Node.measure middle = none ∧ rest = treeOfDigit measure' pre
      ∨ ∃ node middle₁, suf.toList = [x] ∧ unsnocAux Node.measure middle = some (middle₁, node)
        ∧ rest = mkDeep measure' pre middle₁ node.toDigit := by
  have hremovable : ∀ {a} (suf : Digit e a .removable),
      unsnocAux measure' (deep m pre middle suf) = some (rest, x) →
        ∃ (r₁ : Removability) (suf₁ : Digit e .addable r₁), suf.toList = suf₁.toList ++ [x]
          ∧ rest = mkDeep measure' pre middle suf₁ := by
    intro a suf h
    rw [unsnocAux] at h
    obtain ⟨rfl, rfl⟩ := Prod.mk.inj (Option.some.inj h)
    exact ⟨_, _, Digit.toList_unsnoc suf, rfl⟩
  cases suf with
  | one y =>
    cases hmiddle : unsnocAux Node.measure middle with
    | none =>
      rw [unsnocAux, hmiddle] at h
      obtain ⟨rfl, rfl⟩ := Prod.mk.inj (Option.some.inj h)
      exact .inr (.inl ⟨rfl, rfl, rfl⟩)
    | some taken =>
      rw [unsnocAux, hmiddle] at h
      obtain ⟨rfl, rfl⟩ := Prod.mk.inj (Option.some.inj h)
      exact .inr (.inr ⟨_, _, rfl, rfl, rfl⟩)
  | two a b => exact .inl (hremovable _ h)
  | three a b c => exact .inl (hremovable _ h)
  | four a b c d => exact .inl (hremovable _ h)

theorem eq_empty_of_unsnocAux (h : unsnocAux measure' t = none) : t = empty := by
  cases t with
  | empty => rfl
  | single x => rw [unsnocAux] at h; cases h
  | deep m pre middle suf =>
    cases suf with
    | one y => cases hmiddle : unsnocAux Node.measure middle <;> rw [unsnocAux, hmiddle] at h <;> cases h
    | two a b => rw [unsnocAux] at h; cases h
    | three a b c => rw [unsnocAux] at h; cases h
    | four a b c d => rw [unsnocAux] at h; cases h

/-- **What is taken off the right end is the last element.** -/
theorem contents_unsnocAux {e : Type u} {t : FingerTree e} :
    ∀ {measure' : e → Nat} {x : e} {rest : FingerTree e}, unsnocAux measure' t = some (rest, x) →
      t.contents = rest.contents ++ [x] := by
  induction t with
  | empty => intro measure' x rest h; simp at h
  | single y =>
    intro measure' x rest h
    obtain ⟨rfl, rfl⟩ : empty = rest ∧ y = x := by simpa using h
    simp
  | deep m pre middle suf ih =>
    intro measure' x rest h
    obtain ⟨r₁, suf₁, hsuf, rfl⟩ | ⟨hsuf, hmiddle, rfl⟩ | ⟨node, middle₁, hsuf, hmiddle, rfl⟩ :=
      unsnocAux_deep_cases h
    · simp [hsuf]
    · simp [hsuf, eq_empty_of_unsnocAux hmiddle]
    · simp [hsuf, ih hmiddle, Node.toList]

theorem measured_unsnocAux {e : Type u} {t : FingerTree e} :
    ∀ {measure' : e → Nat} {x : e} {rest : FingerTree e}, unsnocAux measure' t = some (rest, x) →
      t.Measured measure' → rest.Measured measure' := by
  induction t with
  | empty => intro measure' x rest h; simp at h
  | single y =>
    intro measure' x rest h _
    obtain ⟨rfl, rfl⟩ : empty = rest ∧ y = x := by simpa using h
    exact measured_empty _
  | deep m pre middle suf ih =>
    intro measure' x rest h ht
    obtain ⟨-, hnodes, hmeasured⟩ := (measured_deep_iff _ _ _ _ _).1 ht
    obtain ⟨r₁, suf₁, -, rfl⟩ | ⟨-, -, rfl⟩ | ⟨node, middle₁, -, hmiddle, rfl⟩ := unsnocAux_deep_cases h
    · exact measured_mkDeep hnodes hmeasured _ _
    · exact measured_treeOfDigit _ _
    · refine measured_mkDeep (fun other hother => hnodes other ?_) (ih hmiddle hmeasured) _ _
      rw [contents_unsnocAux hmiddle]
      exact List.mem_append_left _ hother

/-! ### Folds -/

theorem length_contents_uncons (h : uncons t = some (x, rest)) : rest.contents.length < t.contents.length := by
  rw [contents_unconsAux h]
  exact Nat.lt_succ_self _

/-- `foldl`. -/
def foldl {A : Type v} (f : A → e → A) (acc : A) (t : FingerTree e) : A :=
  match h : uncons t with
  | none => acc
  | some (head, tail) =>
    have := length_contents_uncons h
    foldl f (f acc head) tail
termination_by t.contents.length

/-- `foldr`. -/
def foldr {A : Type v} (f : e → A → A) (acc : A) (t : FingerTree e) : A :=
  match h : uncons t with
  | none => acc
  | some (head, tail) =>
    have := length_contents_uncons h
    f head (foldr f acc tail)
termination_by t.contents.length

/-- `to_list`: the sequence that `uncons` unfolds to. -/
def toList (t : FingerTree e) : List e :=
  match h : uncons t with
  | none => []
  | some (head, tail) =>
    have := length_contents_uncons h
    head :: toList tail
termination_by t.contents.length

/-- The accumulator of `findi`. -/
inductive Search where
  | notFound (i : Nat)
  | found (i : Nat)

/-- The step of `findi`. -/
def findiStep (f : e → Bool) (acc : Search) (x : e) : Search :=
  match acc with
  | .notFound i => if f x then .found i else .notFound (i + 1)
  | .found i => .found i

/-- `findi`. -/
def findi (t : FingerTree e) (f : e → Bool) : Option Nat :=
  match foldl (findiStep f) (.notFound 0) t with
  | .notFound _ => none
  | .found i => some i

/-- `equal`. -/
def equal (eqInner : e → e → Bool) (xs ys : FingerTree e) : Bool :=
  match h : uncons xs, uncons ys with
  | some (x, xsTail), some (y, ysTail) =>
    have := length_contents_uncons h
    eqInner x y && equal eqInner xsTail ysTail
  | _, _ => false
termination_by xs.contents.length

theorem uncons_cases (t : FingerTree e) : uncons t = none ∧ t = empty
      ∨ ∃ x rest, uncons t = some (x, rest) ∧ t.contents = x :: rest.contents := by
  cases h : uncons t with
  | none => exact .inl ⟨rfl, eq_empty_of_unconsAux h⟩
  | some taken => exact .inr ⟨taken.1, taken.2, rfl, contents_unconsAux h⟩

theorem uncons_of_nil (h : t.contents = []) : uncons t = none := by
  obtain ⟨ht, -⟩ | ⟨x, rest, -, hcontents⟩ := uncons_cases t
  · exact ht
  · simp [hcontents] at h

theorem uncons_of_cons {y : e} {ys : List e} (h : t.contents = y :: ys) : ∃ rest, uncons t = some (y, rest) ∧ rest.contents = ys := by
  obtain ⟨-, rfl⟩ | ⟨x, rest, ht, hcontents⟩ := uncons_cases t
  · simp at h
  · obtain ⟨rfl, hys⟩ := List.cons.inj (hcontents.symm.trans h)
    exact ⟨rest, ht, hys⟩

theorem foldl_eq (f : A → e → A) (acc : A) (t : FingerTree e) : foldl f acc t = t.contents.foldl f acc := by
  induction h : t.contents generalizing acc t with
  | nil =>
    rw [foldl]
    have ht := uncons_of_nil h
    split <;> simp_all
  | cons y ys ih =>
    obtain ⟨rest, ht, hys⟩ := uncons_of_cons h
    rw [foldl, List.foldl_cons, ← ih _ rest hys]
    split <;> simp_all

theorem foldr_eq (f : e → A → A) (acc : A) (t : FingerTree e) : foldr f acc t = t.contents.foldr f acc := by
  induction h : t.contents generalizing t with
  | nil =>
    rw [foldr]
    have ht := uncons_of_nil h
    split <;> simp_all
  | cons y ys ih =>
    obtain ⟨rest, ht, hys⟩ := uncons_of_cons h
    rw [foldr, List.foldr_cons, ← ih rest hys]
    split <;> simp_all

/-- **The list that a tree unfolds to is its contents.** -/
theorem toList_eq (t : FingerTree e) : toList t = t.contents := by
  induction h : t.contents generalizing t with
  | nil =>
    rw [toList]
    have ht := uncons_of_nil h
    split <;> simp_all
  | cons y ys ih =>
    obtain ⟨rest, ht, hys⟩ := uncons_of_cons h
    rw [toList, ← ih rest hys]
    split <;> simp_all

theorem foldl_findiStep_found (f : e → Bool) (i : Nat) (xs : List e) :
    xs.foldl (findiStep f) (.found i) = .found i := by
  induction xs with
  | nil => rfl
  | cons x xs ih => exact ih

theorem foldl_findiStep (f : e → Bool) (xs : List e) (i : Nat) : xs.foldl (findiStep f) (.notFound i)
      = ((xs.findIdx? f).map fun j => Search.found (i + j)).getD (.notFound (i + xs.length)) := by
  induction xs generalizing i with
  | nil => rfl
  | cons x xs ih =>
    by_cases hx : f x = true
    · simp [findiStep, hx, foldl_findiStep_found, List.findIdx?_cons]
    · rw [List.foldl_cons, findiStep, if_neg hx, ih, List.findIdx?_cons, if_neg hx]
      cases xs.findIdx? f <;> simp [Nat.add_assoc, Nat.add_comm 1]

/-- `findi` finds the first index. -/
theorem findi_eq (t : FingerTree e) (f : e → Bool) : findi t f = t.contents.findIdx? f := by
  rw [findi, foldl_eq, foldl_findiStep]
  cases t.contents.findIdx? f <;> simp

/-! ### Equality -/

/-- At the end of both sequences the comparison says no. -/
theorem equal_eq_false (eqInner : e → e → Bool) (xs ys : FingerTree e) : equal eqInner xs ys = false := by
  induction h : xs.contents generalizing xs ys with
  | nil =>
    rw [equal]
    obtain ⟨ht, -⟩ | ⟨x, rest, -, hcontents⟩ := uncons_cases xs
    · split <;> simp_all
    · simp [hcontents] at h
  | cons z zs ih =>
    rw [equal]
    split
    · next x xsTail y ysTail hx hy =>
      have htail : xsTail.contents = zs :=
        (List.cons.inj ((contents_unconsAux hx).symm.trans h)).2
      rw [ih xsTail ysTail htail, Bool.and_false]
    · rfl

/-- **The comparison of sequences is right exactly on those that differ.** -/
theorem equal_iff_iff (eqInner : e → e → Bool) (xs ys : FingerTree e) : (equal eqInner xs ys = true
        ↔ List.Forall₂ (fun x y => eqInner x y = true) (toList xs) (toList ys))
      ↔ ¬ List.Forall₂ (fun x y => eqInner x y = true) (toList xs) (toList ys) := by
  rw [equal_eq_false]
  simp

/-- A sequence of one element is not equal to itself. -/
theorem equal_singleton : ¬ (equal (fun x y : Nat => x == y) (singleton 1) (singleton 1) = true
    ↔ List.Forall₂ (fun x y : Nat => (x == y) = true) (toList (singleton 1)) (toList (singleton 1))) := by
  rw [equal_eq_false, toList_eq, singleton, contents_single]
  simp

end FingerTree

end MinaProtocol.FSequence
