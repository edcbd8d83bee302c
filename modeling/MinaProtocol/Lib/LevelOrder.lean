import Mathlib.Tactic

/-!
# Lib.LevelOrder

Trees numbered in level order. In a tree of `n` nodes where every node has as many children as there
are nodes left, up to `k`, the children of node `i` are the numbers from `k * i + 1` on. A traversal
with a queue visits such a tree in the order of the numbers.
-/

namespace MinaProtocol.LevelOrder

/-- The first child of a node, or the number of nodes where there is none. -/
def firstChild (k n i : Nat) : Nat := min n (k * i + 1)

/-- How many children a node has. -/
def childCount (k n i : Nat) : Nat := firstChild k n (i + 1) - firstChild k n i

variable {k n i : Nat}

theorem firstChild_le_succ : firstChild k n i ≤ firstChild k n (i + 1) := by
  unfold firstChild
  rw [Nat.mul_succ]
  omega

theorem firstChild_add_childCount : firstChild k n i + childCount k n i = firstChild k n (i + 1) :=
  Nat.add_sub_cancel' firstChild_le_succ

theorem firstChild_le : firstChild k n i ≤ n := Nat.min_le_left _ _

theorem firstChild_zero (hn : 0 < n) : firstChild k n 0 = 1 := by
  unfold firstChild
  omega

theorem lt_firstChild (hk : 0 < k) (hi : i < n) : i < firstChild k n i := by
  have := Nat.le_mul_of_pos_left i hk
  unfold firstChild
  omega

theorem childCount_le : childCount k n i ≤ k := by
  unfold childCount firstChild
  rw [Nat.mul_succ]
  omega

theorem firstChild_eq (h : 0 < childCount k n i) : firstChild k n i = k * i + 1 := by
  unfold childCount firstChild at h
  rw [Nat.mul_succ] at h
  unfold firstChild
  omega

theorem exists_parent (hk : 0 < k) {j : Nat} (hj : 0 < j) (hjn : j < n) :
    ∃ i c, i < j ∧ c < childCount k n i ∧ j = firstChild k n i + c := by
  have hdiv := Nat.div_add_mod (j - 1) k
  have hmod := Nat.mod_lt (j - 1) hk
  have hle := Nat.div_le_self (j - 1) k
  refine ⟨(j - 1) / k, (j - 1) % k, by omega, ?_, ?_⟩
  · unfold childCount firstChild
    rw [Nat.mul_succ]
    omega
  · unfold firstChild
    omega

/-! ### The three kinds of nodes -/

theorem childCount_of_lt (hk : 0 < k) (hi : i < (n - 1) / k) : childCount k n i = k := by
  have h := (Nat.le_div_iff_mul_le hk).1 (Nat.succ_le_of_lt hi)
  rw [Nat.succ_mul, Nat.mul_comm i k] at h
  unfold childCount firstChild
  rw [Nat.mul_succ]
  omega

theorem childCount_div (hn : 0 < n) (hk : 0 < k) : childCount k n ((n - 1) / k) = n - 1 - (n - 1) / k * k := by
  have hmod := Nat.mod_lt (n - 1) hk
  have hdiv := Nat.div_add_mod (n - 1) k
  unfold childCount firstChild
  rw [Nat.mul_succ, Nat.mul_comm ((n - 1) / k) k]
  omega

theorem childCount_of_gt (hk : 0 < k) (hi : (n - 1) / k < i) : childCount k n i = 0 := by
  have h := (Nat.div_lt_iff_lt_mul hk).1 hi
  rw [Nat.mul_comm i k] at h
  unfold childCount firstChild
  rw [Nat.mul_succ]
  omega

/-! ### Leftmost nodes -/

/-- The leftmost node of each level. -/
def leftmost (k : Nat) : Nat → Nat
  | 0 => 0
  | d + 1 => k * leftmost k d + 1

theorem leftmost_succ (d : Nat) : leftmost k (d + 1) = leftmost k d + k ^ d := by
  induction d with
  | zero => simp [leftmost]
  | succ d ih =>
    have hd : leftmost k (d + 1) = k * leftmost k d + 1 := rfl
    rw [leftmost, ih, Nat.mul_add, pow_succ']
    omega

theorem leftmost_lt_succ (hk : 0 < k) (d : Nat) : leftmost k d < leftmost k (d + 1) := by
  have := Nat.pow_pos (n := d) hk
  rw [leftmost_succ]
  omega

/-! ### Traversal with a queue -/

variable {L B : Type} {next : L → Option (B × List L)} {value : Nat → B} {t : Nat}

/-- What a traversal with a queue visits: the node of the first label in the queue, whose own labels
go to the end of the queue. -/
inductive Visits (next : L → Option (B × List L)) : List L → List B → Prop
  | nil : Visits next [] []
  | cons {l b ls q bs} : next l = some (b, ls) → Visits next (q ++ ls) bs → Visits next (l :: q) (b :: bs)

/-- The labels of a node's children. -/
def children (k n : Nat) (label : Nat → L) (i : Nat) : List L :=
  (List.range' (firstChild k n i) (childCount k n i)).map label

@[simp] theorem length_children (label : Nat → L) : (children k n label i).length = childCount k n i := by
  simp [children]

theorem getElem_children {label : Nat → L} (ht : t < (children k n label i).length) :
    (children k n label i)[t] = label (k * i + 1 + t) := by
  rw [length_children] at ht
  have hfirst := firstChild_eq (Nat.zero_lt_of_lt ht)
  simp only [children, List.getElem_map, List.getElem_range', Nat.one_mul]
  rw [hfirst]

theorem child_lt (ht : t < childCount k n i) : k * i + 1 + t < n := by
  have hfirst := firstChild_eq (Nat.zero_lt_of_lt ht)
  have hsucc := firstChild_add_childCount (k := k) (n := n) (i := i)
  have hle := firstChild_le (k := k) (n := n) (i := i + 1)
  omega

/-- **A numbered tree is visited in the order of its numbers.** Before node `i` the queue holds the
labels from `i` up to its first child. -/
theorem visits_from (label : Nat → L) (hk : 0 < k)
    (h : ∀ i < n, next (label i) = some (value i, children k n label i)) (hi : i ≤ n) :
    Visits next ((List.range' i (firstChild k n i - i)).map label) ((List.range' i (n - i)).map value) := by
  induction hm : n - i generalizing i with
  | zero =>
    have hz : firstChild k n i - i = 0 := by
      have := firstChild_le (k := k) (n := n) (i := i)
      omega
    rw [hz]
    exact .nil
  | succ m ih =>
    have hin : i < n := by omega
    have hfirst := lt_firstChild hk hin
    have hsplit : firstChild k n i - i = (firstChild k n i - (i + 1)) + 1 := by omega
    have hnext := ih (show i + 1 ≤ n by omega) (by omega)
    rw [hsplit, List.range'_succ, List.range'_succ, List.map_cons, List.map_cons]
    refine .cons (h i hin) ?_
    -- the rest of the queue and the children are the labels up to the next first child
    have hqueue : (List.range' (i + 1) (firstChild k n i - (i + 1))).map label ++ children k n label i =
        (List.range' (i + 1) (firstChild k n (i + 1) - (i + 1))).map label := by
      have hlen : firstChild k n (i + 1) - (i + 1) = (firstChild k n i - (i + 1)) + childCount k n i := by
        rw [← firstChild_add_childCount]
        omega
      have hstart : i + 1 + (firstChild k n i - (i + 1)) = firstChild k n i := by omega
      rw [children, ← List.map_append, hlen, ← List.range'_append_1, hstart]
    rw [hqueue]
    exact hnext

theorem visits (label : Nat → L) (hk : 0 < k) (hn : 0 < n)
    (h : ∀ i < n, next (label i) = some (value i, children k n label i)) :
    Visits next [label 0] ((List.range n).map value) := by
  have h0 := visits_from label hk h (Nat.zero_le n)
  rw [firstChild_zero hn] at h0
  rwa [List.range_eq_range']

end MinaProtocol.LevelOrder
