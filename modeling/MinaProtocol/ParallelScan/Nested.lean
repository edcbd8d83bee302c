import MinaProtocol.Lib.PerfectTree
import MinaProtocol.ParallelScan.State

/-!
# ParallelScan.Nested

Every tree of a scan state is the level-by-level form of a perfect binary tree:
`toTree t d` stores the perfect tree `t`, whose root is at depth `d`, the way
`Tree.t` does. The traversals of `Tree` commute with it, so everything below
argues about ordinary binary trees.

Only *whether* an update succeeds is carried over, not which error it reports:
`update_split` visits the tree level by level and the binary recursion depth
first, so with several misfits they may complain about different ones.
-/

namespace MinaProtocol.ParallelScan

open PerfectTree

/-- The level-by-level form of a perfect tree whose root is at depth `d`. -/
def toTree : {M B : Type} → {n : Nat} → Int → PerfectTree M B n → Tree M B
  | _, _, 0, _, .leaf b => .leaf b
  | _, _, _ + 1, d, .node m l r => .node d m (toTree (d + 1) (pair l r))

variable {M N B C : Type} {n : Nat} {A D : Type} {X Y : Type*}

/-! ### The generic traversals -/

theorem mapDepth_toTree (f : Int → M → N) (g : B → C) (d : Int) (t : PerfectTree M B n) :
    Tree.mapDepth f g (toTree d t) = toTree d (PerfectTree.mapDepth f g d t) := by
  induction n generalizing M N B C d with
  | zero => cases t; rfl
  | succ n ih =>
    cases t with | node m l r =>
    simp only [toTree, Tree.mapDepth, PerfectTree.mapDepth, ih, mapDepth_pair]

theorem toOption_bind (x : OrError X) (f : X → OrError Y) :
    (x.bind f).toOption = x.toOption.bind fun a => (f a).toOption := by
  cases x <;> rfl

theorem toOption_map (f : X → Y) (x : OrError X) : (x.map f).toOption = x.toOption.map f := by
  cases x <;> rfl

/-- `updateSplit` succeeds on the level-by-level form exactly when the downward
split of the binary tree does, with the same outcome. -/
theorem updateSplit_toTree {W R : Type} (fM : D → Int → M → OrError (M × Option R))
    (fB : D → B → OrError B) (weight : M → W × W) (jobs : D) (level : Int)
    (jobsSplit : W × W → D → D × D) (d : Int) (t : PerfectTree M B n) :
    (Tree.updateSplit fM fB weight jobs level jobsSplit (toTree d t)).toOption =
      (PerfectTree.split (fun j i m => (fM j i m).toOption) (fun j b => (fB j b).toOption) weight
        jobsSplit level jobs d t).map fun p => (toTree d p.1, p.2) := by
  induction n generalizing M B D W R d with
  | zero =>
    cases t with | leaf b =>
    simp only [toTree, Tree.updateSplit, PerfectTree.split, toOption_map, Option.map_map]
    rfl
  | succ n ih =>
    cases t with | node m l r =>
    simp only [toTree, Tree.updateSplit, PerfectTree.split, toOption_bind, toOption_map]
    cases (fM jobs d m).toOption with
    | none => rfl
    | some v =>
    by_cases hd : level = d
    · simp [hd, Except.toOption, toTree]
    · -- the doubled functions of the source are those of `PerfectTree.split_pair`
      have hM : (fun (b : D × D) i (x : M × M) =>
          (fM b.1 i x.1).toOption.bind fun left =>
            (fM b.2 i x.2).toOption.map fun right =>
              ((left.1, right.1), Option.map₂ Prod.mk left.2 right.2))
          = pairM fun j i m => (fM j i m).toOption := rfl
      have hB : (fun (b : D × D) (x : B × B) =>
          (fB b.1 x.1).toOption.bind fun left =>
            (fB b.2 x.2).toOption.map fun right => (left, right))
          = pairB fun j b => (fB j b).toOption := rfl
      simp only [if_neg hd, ih, Option.bind_some, toOption_bind, toOption_map, hM, hB]
      rw [show jobsSplit (weight m) jobs
        = ((jobsSplit (weight m) jobs).1, (jobsSplit (weight m) jobs).2) from rfl, split_pair]
      cases PerfectTree.split (fun j i m => (fM j i m).toOption) (fun j b => (fB j b).toOption)
          weight jobsSplit level (jobsSplit (weight m) jobs).1 (d + 1) l <;>
        cases PerfectTree.split (fun j i m => (fM j i m).toOption) (fun j b => (fB j b).toOption)
          weight jobsSplit level (jobsSplit (weight m) jobs).2 (d + 1) r <;>
        rfl

theorem updateAccumulate_toTree (fM : D × D → M → M × D) (fB : B → B × D) (d : Int) (t : PerfectTree M B n) :
    Tree.updateAccumulate fM fB (toTree d t)
      = (toTree d (PerfectTree.accumulate fM fB t).1, (PerfectTree.accumulate fM fB t).2) := by
  induction n generalizing M B D d with
  | zero => cases t; rfl
  | succ n ih =>
    cases t with | node m l r =>
    simp only [toTree, Tree.updateAccumulate, PerfectTree.accumulate, ih, accumulate_pair]

theorem foldl_pairs {X : Type} (f : A → X → A) (acc : A) (l : List (X × X)) :
    l.foldl (fun acc x => f (f acc x.1) x.2) acc
      = (l.flatMap fun x => [x.1, x.2]).foldl f acc := by
  induction l generalizing acc with
  | nil => rfl
  | cons x l ih => simp [ih]

theorem foldDepthUntil'_continue {F : Type} (fM : Int → A → M → A) (fB : A → B → A) (acc : A)
    (d : Int) (t : PerfectTree M B n) : Tree.foldDepthUntil' (F := F) (fun i acc a => .continue (fM i acc a))
        (fun acc b => .continue (fB acc b)) acc (toTree d t)
      = .continue (t.leaves.foldl fB ((t.levels d).foldl (fun acc p => fM p.1 acc p.2) acc)) := by
  induction n generalizing M B d acc with
  | zero => cases t; rfl
  | succ n ih =>
    cases t with | node m l r =>
    have hrec := ih (M := M × M) (B := B × B) (fun i acc x => fM i (fM i acc x.1) x.2)
      (fun acc x => fB (fB acc x.1) x.2) (fM d acc m) (d + 1) (pair l r)
    simp only [toTree, Tree.foldDepthUntil', hrec]
    rw [foldl_pairs, leaves_pair, levels_node, List.foldl_cons]
    have hlev : ∀ acc' : A,
        ((pair l r).levels (d + 1)).foldl (fun acc p => fM p.1 (fM p.1 acc p.2.1) p.2.2) acc'
          = ((List.range n).flatMap fun i =>
              (level i l ++ level i r).map fun m => (d + 1 + (i : Int), m)).foldl
              (fun acc p => fM p.1 acc p.2) acc' := by
      intro acc'
      simp only [levels, List.foldl_flatMap, List.foldl_map]
      congr 1
      funext acc i
      rw [← level_pair, foldl_pairs (fun acc x => fM (d + 1 + (i : Int)) acc x)]
    rw [hlev]
    rfl

theorem foldDepth_toTree (fM : Int → A → M → A) (fB : A → B → A) (acc : A) (d : Int) (t : PerfectTree M B n) :
    Tree.foldDepth fM fB acc (toTree d t)
      = t.leaves.foldl fB ((t.levels d).foldl (fun acc p => fM p.1 acc p.2) acc) := by
  simp only [Tree.foldDepth, Tree.foldDepthUntil, foldDepthUntil'_continue, id]

end MinaProtocol.ParallelScan
