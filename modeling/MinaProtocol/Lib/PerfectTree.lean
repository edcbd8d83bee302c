import Mathlib.Data.Option.NAry
import Mathlib.Tactic

/-!
# Lib.PerfectTree

PerfectTree binary trees of a given height with a label at every inner node and at
every leaf, and the traversals a level-by-level representation of such trees
supports: mapping with the depth, sending data downwards while splitting it,
accumulating data upwards, and reading the levels in order.

`pair` is the operation behind level-by-level storage: it superposes two trees
of the same height, so that the pair at every position of the result holds two
*siblings* of the forest. Every traversal of a superposition by doubled functions
is the superposition of the two traversals.
-/

namespace MinaProtocol

/-- PerfectTree binary trees of height `n`. -/
inductive PerfectTree (M B : Type) : Nat → Type where
  | leaf (b : B) : PerfectTree M B 0
  | node {n : Nat} (m : M) (l r : PerfectTree M B n) : PerfectTree M B (n + 1)

namespace PerfectTree

variable {M N B C D W R : Type} {n : Nat}

/-- Superpose two trees of the same height: the roots are paired, and below them
hang the superpositions of the two children of either tree. -/
def pair {M B : Type} : {n : Nat} → PerfectTree M B n → PerfectTree M B n → PerfectTree (M × M) (B × B) n
  | 0, .leaf b, .leaf b' => .leaf (b, b')
  | _ + 1, .node m l r, .node m' l' r' => .node (m, m') (pair l r) (pair l' r')

/-! ### Mapping -/

/-- Map with the depth, the root being at depth `d`. -/
def mapDepth (f : Int → M → N) (g : B → C) : {n : Nat} → Int → PerfectTree M B n → PerfectTree N C n
  | 0, _, .leaf b => .leaf (g b)
  | _ + 1, d, .node m l r => .node (f d m) (mapDepth f g (d + 1) l) (mapDepth f g (d + 1) r)

theorem mapDepth_pair (f : Int → M → N) (g : B → C) (d : Int) (l r : PerfectTree M B n) :
    mapDepth (fun i (x : M × M) => (f i x.1, f i x.2)) (fun (x : B × B) => (g x.1, g x.2)) d
      (pair l r) = pair (mapDepth f g d l) (mapDepth f g d r) := by
  induction n generalizing d with
  | zero => cases l; cases r; rfl
  | succ n ih =>
    cases l with | node m ll lr =>
    cases r with | node m' rl rr =>
    simp only [pair, mapDepth, ih]

theorem mapDepth_const_depth (f : M → N) (g : B → C) (d d' : Int) (t : PerfectTree M B n) :
    mapDepth (fun _ => f) g d t = mapDepth (fun _ => f) g d' t := by
  induction n generalizing d d' with
  | zero => cases t; rfl
  | succ n ih =>
    cases t with | node m l r =>
    rw [mapDepth, mapDepth, ih (d + 1) (d' + 1), ih (d + 1) (d' + 1)]

/-- The tree with label `f d` at every node of depth `d` and `b` at every leaf. -/
def const (f : Int → M) (b : B) : (n : Nat) → Int → PerfectTree M B n
  | 0, _ => .leaf b
  | n + 1, d => .node (f d) (const f b n (d + 1)) (const f b n (d + 1))

theorem pair_const (f : Int → M) (b : B) (n : Nat) (d : Int) :
    pair (const f b n d) (const f b n d) = const (fun i => (f i, f i)) (b, b) n d := by
  induction n generalizing d with
  | zero => rfl
  | succ n ih => simp only [const, pair, ih]

/-! ### Splitting downwards -/

/-- Send `jobs` down to depth `level`, splitting them at every node. The second
component is what the root returned. -/
def split (fM : D → Int → M → Option (M × Option R)) (fB : D → B → Option B)
    (weight : M → W × W) (jobsSplit : W × W → D → D × D) (level : Int) :
    {n : Nat} → D → Int → PerfectTree M B n → Option (PerfectTree M B n × Option R)
  | 0, jobs, _, .leaf b => (fB jobs b).map fun b' => (.leaf b', none)
  | _ + 1, jobs, d, .node m l r =>
    (fM jobs d m).bind fun v =>
      if level = d then some (.node v.1 l r, v.2)
      else
        (split fM fB weight jobsSplit level (jobsSplit (weight m) jobs).1 (d + 1) l).bind
          fun l' =>
            (split fM fB weight jobsSplit level (jobsSplit (weight m) jobs).2 (d + 1) r).map
              fun r' => (.node v.1 l'.1 r'.1, v.2)

/-- The doubled node function of `split`. -/
def pairM (fM : D → Int → M → Option (M × Option R)) (b : D × D) (i : Int) (x : M × M) :
    Option ((M × M) × Option (R × R)) :=
  (fM b.1 i x.1).bind fun left =>
    (fM b.2 i x.2).map fun right => ((left.1, right.1), Option.map₂ Prod.mk left.2 right.2)

/-- The doubled leaf function of `split`. -/
def pairB (fB : D → B → Option B) (b : D × D) (x : B × B) : Option (B × B) :=
  (fB b.1 x.1).bind fun left => (fB b.2 x.2).map fun right => (left, right)

theorem split_pair (fM : D → Int → M → Option (M × Option R)) (fB : D → B → Option B)
    (weight : M → W × W) (jobsSplit : W × W → D → D × D) (level : Int) (jobs jobs' : D) (d : Int)
    (l r : PerfectTree M B n) : split (pairM fM) (pairB fB) (fun (x : M × M) => (weight x.1, weight x.2))
        (fun w (j : D × D) => (jobsSplit w.1 j.1, jobsSplit w.2 j.2)) level (jobs, jobs') d (pair l r)
      = (split fM fB weight jobsSplit level jobs d l).bind fun l' =>
          (split fM fB weight jobsSplit level jobs' d r).map fun r' =>
            (pair l'.1 r'.1, Option.map₂ Prod.mk l'.2 r'.2) := by
  induction n generalizing jobs jobs' d with
  | zero =>
    cases l with | leaf b =>
    cases r with | leaf b' =>
    simp only [pair, split, pairB]
    cases fB jobs b <;> cases fB jobs' b' <;> rfl
  | succ n ih =>
    cases l with | node m ll lr =>
    cases r with | node m' rl rr =>
    simp only [pair, split, pairM]
    cases fM jobs d m with
    | none => rfl
    | some v =>
    cases fM jobs' d m' with
    | none =>
      -- the left half may fail first, in which case the whole fails all the same
      simp only [Option.bind_some, Option.map_none, Option.bind_none]
      split_ifs
      · rfl
      · cases split fM fB weight jobsSplit level (jobsSplit (weight m) jobs).1 (d + 1) ll <;>
          cases split fM fB weight jobsSplit level (jobsSplit (weight m) jobs).2 (d + 1) lr <;>
          rfl
    | some v' =>
      simp only [Option.bind_some, Option.map_some]
      split_ifs
      · rfl
      · rw [ih, ih]
        cases split fM fB weight jobsSplit level (jobsSplit (weight m) jobs).1 (d + 1) ll <;>
          cases split fM fB weight jobsSplit level (jobsSplit (weight m) jobs).2 (d + 1) lr <;>
          cases split fM fB weight jobsSplit level (jobsSplit (weight m') jobs').1 (d + 1) rl <;>
          cases split fM fB weight jobsSplit level (jobsSplit (weight m') jobs').2 (d + 1) rr <;>
          rfl

/-! ### Accumulating upwards -/

/-- Rebuild the tree from its leaves, handing the data of both halves upwards. -/
def accumulate (fM : D × D → M → M × D) (fB : B → B × D) : {n : Nat} → PerfectTree M B n → PerfectTree M B n × D
  | 0, .leaf b => (.leaf (fB b).1, (fB b).2)
  | _ + 1, .node m l r =>
    let v := fM ((accumulate fM fB l).2, (accumulate fM fB r).2) m
    (.node v.1 (accumulate fM fB l).1 (accumulate fM fB r).1, v.2)

theorem accumulate_pair (fM : D × D → M → M × D) (fB : B → B × D) (l r : PerfectTree M B n) : accumulate
        (fun (b : (D × D) × (D × D)) (x : M × M) =>
          (((fM b.1 x.1).1, (fM b.2 x.2).1), ((fM b.1 x.1).2, (fM b.2 x.2).2)))
        (fun (x : B × B) => (((fB x.1).1, (fB x.2).1), ((fB x.1).2, (fB x.2).2))) (pair l r)
      = (pair (accumulate fM fB l).1 (accumulate fM fB r).1, ((accumulate fM fB l).2, (accumulate fM fB r).2)) := by
  induction n with
  | zero => cases l; cases r; rfl
  | succ n ih =>
    cases l with | node m ll lr =>
    cases r with | node m' rl rr =>
    simp only [pair, accumulate, ih]

/-! ### Levels -/

/-- The inner labels at depth `i` below the root, left to right. -/
def level : {n : Nat} → Nat → PerfectTree M B n → List M
  | 0, _, .leaf _ => []
  | _ + 1, 0, .node m _ _ => [m]
  | _ + 1, i + 1, .node _ l r => level i l ++ level i r

/-- The leaf labels, left to right. -/
def leaves : {n : Nat} → PerfectTree M B n → List B
  | 0, .leaf b => [b]
  | _ + 1, .node _ l r => leaves l ++ leaves r

/-- All inner labels with their depth, level by level, the root being at depth `d`. -/
def levels (d : Int) (t : PerfectTree M B n) : List (Int × M) :=
  (List.range n).flatMap fun i => (level i t).map fun m => (d + i, m)

/-- There are no inner nodes at the depth of the leaves or below. -/
theorem level_eq_nil {i : Nat} (h : n ≤ i) (t : PerfectTree M B n) : level i t = [] := by
  induction n generalizing i with
  | zero => cases t; rw [level]
  | succ n ih =>
    cases t with | node m l r =>
    cases i with
    | zero => omega
    | succ i => rw [level, ih (by omega), ih (by omega), List.append_nil]

theorem level_pair (i : Nat) (l r : PerfectTree M B n) :
    (level i (pair l r)).flatMap (fun x => [x.1, x.2]) = level i l ++ level i r := by
  induction n generalizing i with
  | zero =>
    cases l
    cases r
    simp only [pair, level, List.flatMap_nil, List.append_nil]
  | succ n ih =>
    cases l with | node m ll lr =>
    cases r with | node m' rl rr =>
    cases i with
    | zero => rfl
    | succ i => simp only [pair, level, List.flatMap_append, ih]

theorem leaves_pair (l r : PerfectTree M B n) :
    (leaves (pair l r)).flatMap (fun x => [x.1, x.2]) = leaves l ++ leaves r := by
  induction n with
  | zero => cases l; cases r; rfl
  | succ n ih =>
    cases l with | node m ll lr =>
    cases r with | node m' rl rr =>
    simp only [pair, leaves, List.flatMap_append, ih]

theorem leaves_mapDepth (f : Int → M → N) (g : B → C) (d : Int) (t : PerfectTree M B n) :
    leaves (mapDepth f g d t) = (leaves t).map g := by
  induction n generalizing d with
  | zero => cases t; rfl
  | succ n ih =>
    cases t with | node m l r =>
    simp only [mapDepth, leaves, ih, List.map_append]

theorem levels_node (d : Int) (m : M) (l r : PerfectTree M B n) :
    levels d (.node m l r) = (d, m) :: (List.range n).flatMap fun i =>
      (level i l ++ level i r).map fun m => (d + 1 + i, m) := by
  simp only [levels, List.range_succ_eq_map, List.flatMap_cons, List.flatMap_map, level]
  simp [add_assoc, add_comm (1 : Int)]

end PerfectTree

end MinaProtocol
