import Mathlib.Tactic

/-!
# Lib.AddressTree

The nodes of a perfect binary tree by their addresses. An address lists the directions from the root to the
node, the last one first, so that the parent of a node is the tail of its address and the next node is the
successor in binary. The hash of a node is made from those of the leaves below it; a change of leaves changes
the hashes above them and no others.
-/

namespace MinaProtocol.AddressTree

/-- The directions to a node, `true` being right, the last one first. -/
abbrev Addr := List Bool

/-! ### Positions -/

/-- The position of a node among those at its depth. -/
def index : Addr → Nat
  | [] => 0
  | b :: a => b.toNat + 2 * index a

/-- The node at a position. -/
def ofIndex : Nat → Nat → Addr
  | 0, _ => []
  | n + 1, i => decide (i % 2 = 1) :: ofIndex n (i / 2)

/-- The node after a node. -/
def next : Addr → Option Addr
  | [] => none
  | false :: a => some (true :: a)
  | true :: a => (next a).map (false :: ·)

section Positions

variable {n i j : Nat} {a b : Addr}

@[simp] theorem length_ofIndex : (ofIndex n i).length = n := by
  induction n generalizing i with
  | zero => rfl
  | succ n ih => simp [ofIndex, ih]

theorem index_lt (a : Addr) : index a < 2 ^ a.length := by
  induction a with
  | nil => simp [index]
  | cons b a ih =>
    have hb := b.toNat_le
    rw [index, List.length_cons, pow_succ]
    omega

theorem index_ofIndex (h : i < 2 ^ n) : index (ofIndex n i) = i := by
  induction n generalizing i with
  | zero => simp [index, ofIndex]; omega
  | succ n ih =>
    rw [pow_succ] at h
    rw [ofIndex, index, ih (by omega)]
    by_cases hodd : i % 2 = 1 <;> simp [hodd] <;> omega

theorem ofIndex_index : ofIndex a.length (index a) = a := by
  induction a with
  | nil => rfl
  | cons b a ih =>
    cases b with
    | false =>
      have hhalf : (0 + 2 * index a) / 2 = index a := by omega
      simp [index, ofIndex, ih]
    | true =>
      have hhalf : (1 + 2 * index a) / 2 = index a := by omega
      simp [index, ofIndex, ih, hhalf]

theorem ofIndex_inj (hi : i < 2 ^ n) (hj : j < 2 ^ n) (h : ofIndex n i = ofIndex n j) : i = j := by
  rw [← index_ofIndex hi, h, index_ofIndex hj]

theorem ofIndex_succ_append (n i : Nat) : ofIndex (n + 1) i = ofIndex n i ++ [i.testBit n] := by
  induction n generalizing i with
  | zero => simp [ofIndex, Nat.testBit_zero]
  | succ n ih => rw [ofIndex, ih, ofIndex, List.cons_append, Nat.testBit_succ]

theorem ofIndex_add (m n i : Nat) : ofIndex (m + n) i = ofIndex m i ++ ofIndex n (i / 2 ^ m) := by
  induction m generalizing i with
  | zero => simp [ofIndex]
  | succ m ih =>
    have hsum : m + 1 + n = m + n + 1 := by omega
    rw [hsum, ofIndex, ofIndex, ih, List.cons_append, Nat.div_div_eq_div_mul, pow_succ']

theorem index_inj {a b : Addr} (hlen : a.length = b.length) (h : index a = index b) : a = b := by
  rw [← ofIndex_index (a := a), hlen, h, ofIndex_index]

@[simp] theorem ofIndex_zero : ofIndex n 0 = List.replicate n false := by
  induction n with
  | zero => rfl
  | succ n ih => simp [ofIndex, ih, List.replicate_succ]

/-- **The next position.** -/
theorem next_ofIndex (h : i < 2 ^ n) : next (ofIndex n i) = if i + 1 < 2 ^ n then some (ofIndex n (i + 1)) else none := by
  induction n generalizing i with
  | zero => simp [ofIndex, next]
  | succ n ih =>
    rw [pow_succ] at h ⊢
    by_cases hodd : i % 2 = 1
    · have hhalf : (i + 1) / 2 = i / 2 + 1 := by omega
      have heven : (i + 1) % 2 ≠ 1 := by omega
      have hiff : i / 2 + 1 < 2 ^ n ↔ i + 1 < 2 ^ n * 2 := by omega
      have hhead : decide (i % 2 = 1) = true := by simp [hodd]
      rw [ofIndex, hhead, next, ih (by omega)]
      by_cases hlt : i + 1 < 2 ^ n * 2
      · rw [if_pos (hiff.2 hlt), if_pos hlt, Option.map_some, ofIndex, hhalf]
        simp [heven]
      · rw [if_neg fun h => hlt (hiff.1 h), if_neg hlt, Option.map_none]
    · have hhalf : (i + 1) / 2 = i / 2 := by omega
      have hhead : decide (i % 2 = 1) = false := by simp [hodd]
      have hnext : (i + 1) % 2 = 1 := by omega
      rw [ofIndex, hhead, next, if_pos (by omega), ofIndex, hhalf]
      simp [hnext]

end Positions

/-! ### What is above leaves -/

section Leaves

/-- The node is above one of the leaves. -/
def Above (leaves : List Addr) (a : Addr) : Prop := ∃ p ∈ leaves, a <:+ p

instance instDecidableAbove (leaves : List Addr) (a : Addr) : Decidable (Above leaves a) :=
  inferInstanceAs (Decidable (∃ p ∈ leaves, a <:+ p))

variable {leaves : List Addr} {p a : Addr} {b : Bool}

theorem Above.tail (habove : Above leaves (b :: a)) : Above leaves a := by
  obtain ⟨p, hp, hsuffix⟩ := habove
  exact ⟨p, hp, (List.suffix_cons b a).trans hsuffix⟩

theorem Above.append {a' : Addr} (habove : Above leaves (a' ++ a)) : Above leaves a := by
  obtain ⟨p, hp, hsuffix⟩ := habove
  exact ⟨p, hp, (List.suffix_append a' a).trans hsuffix⟩

theorem above_of_mem (hp : p ∈ leaves) (hsuffix : a <:+ p) : Above leaves a := ⟨p, hp, hsuffix⟩

theorem above_cons : Above (p :: leaves) a ↔ a <:+ p ∨ Above leaves a := by simp [Above]

/-- A leaf below one child is not below the other. -/
theorem not_suffix_sibling (hsuffix : b :: a <:+ p) : ¬ (!b) :: a <:+ p := by
  intro hother
  obtain ⟨u, hu⟩ := hsuffix
  obtain ⟨v, hv⟩ := hother
  obtain ⟨-, heq⟩ := List.append_inj' (hu.trans hv.symm) (by simp)
  cases b <;> simp at heq

theorem not_above_sibling (hsuffix : b :: a <:+ p) (hnot : ¬ Above leaves a) : ¬ Above (p :: leaves) ((!b) :: a) := by
  rw [above_cons]
  rintro (hother | habove)
  · exact not_suffix_sibling hsuffix hother
  · exact hnot habove.tail

end Leaves

/-! ### Hashes -/

section Hashes

variable {H : Type} (merge : Nat → H → H → H)

/-- The hash of a node at a height, from those of the leaves. -/
def hashAt (leaf : Addr → H) : Nat → Addr → H
  | 0, a => leaf a
  | h + 1, a => merge h (hashAt leaf h (false :: a)) (hashAt leaf h (true :: a))

/-- The hash of a node above leaves that are all the same. -/
def emptyAt (empty : H) : Nat → H
  | 0 => empty
  | h + 1 => merge h (emptyAt empty h) (emptyAt empty h)

variable {merge} {leaf leaf' : Addr → H} {h d : Nat} {a : Addr}

theorem hashAt_congr (hleaf : ∀ p : Addr, p.length = h → leaf (p ++ a) = leaf' (p ++ a)) :
    hashAt merge leaf h a = hashAt merge leaf' h a := by
  induction h generalizing a with
  | zero => exact hleaf [] rfl
  | succ h ih =>
    have hchild : ∀ b : Bool, hashAt merge leaf h (b :: a) = hashAt merge leaf' h (b :: a) := by
      intro b
      refine ih fun p hp => ?_
      simpa using hleaf (p ++ [b]) (by simp [hp])
    rw [hashAt, hashAt, hchild, hchild]

theorem hashAt_of_empty {empty : H} (hleaf : ∀ p : Addr, p.length = h → leaf (p ++ a) = empty) :
    hashAt merge leaf h a = emptyAt merge empty h := by
  induction h generalizing a with
  | zero => exact hleaf [] rfl
  | succ h ih =>
    have hchild : ∀ b : Bool, hashAt merge leaf h (b :: a) = emptyAt merge empty h := by
      intro b
      refine ih fun p hp => ?_
      simpa using hleaf (p ++ [b]) (by simp [hp])
    rw [hashAt, hchild, hchild, emptyAt]

/-! ### Paths -/

/-- The siblings on the way from a node to the root, with the direction to the node. -/
def siblings : Addr → List (Addr × Bool)
  | [] => []
  | b :: a => ((!b) :: a, b) :: siblings a

theorem length_le_of_mem_siblings {s : Addr × Bool} (hs : s ∈ siblings a) : s.1.length ≤ a.length := by
  induction a with
  | nil => exact absurd hs List.not_mem_nil
  | cons b a ih =>
    rcases List.mem_cons.1 hs with heq | hs
    · rw [heq, List.length_cons, List.length_cons]
    · rw [List.length_cons]
      exact (ih hs).trans (Nat.le_succ _)

/-- A hash, and the siblings that it meets on the way up, merged. -/
def climb (merge : Nat → H → H → H) : H → Nat → List (H × Bool) → H
  | x, _, [] => x
  | x, h, (y, b) :: path => climb merge (if b then merge h y x else merge h x y) (h + 1) path

/-- **The siblings lead to the root.** -/
theorem climb_siblings (merge : Nat → H → H → H) (leaf : Addr → H) (node : Addr → H) (d : Nat) (hnode : ∀ a : Addr, a.length ≤ d → node a = hashAt merge leaf (d - a.length) a)
    (ha : a.length ≤ d) :
    climb merge (node a) (d - a.length) ((siblings a).map fun s => (node s.1, s.2)) = node [] := by
  induction a with
  | nil => rfl
  | cons b a ih =>
    rw [List.length_cons] at ha
    have hheight : d - (a.length + 1) + 1 = d - a.length := by omega
    have hparent : (if b then merge (d - (a.length + 1)) (node ((!b) :: a)) (node (b :: a))
        else merge (d - (a.length + 1)) (node (b :: a)) (node ((!b) :: a))) = node a := by
      rw [hnode a (by omega), ← hheight, hashAt, hnode (b :: a) (by simpa using ha), hnode ((!b) :: a) (by simpa using ha)]
      cases b <;> rfl
    rw [siblings, List.map_cons, climb, List.length_cons, hparent, hheight]
    exact ih (by omega)

theorem map_snd_siblings (a : Addr) : (siblings a).map Prod.snd = a := by
  induction a with
  | nil => rfl
  | cons b a ih => rw [siblings, List.map_cons, ih]

/-- **Without collisions a path comes from one hash** to a root. -/
theorem climb_inj (hmerge : ∀ h x y x' y', merge h x y = merge h x' y' → x = x' ∧ y = y') {x x' : H}
    {path path' : List (H × Bool)} (hdirections : path.map Prod.snd = path'.map Prod.snd)
    (heq : climb merge x h path = climb merge x' h path') : x = x' ∧ path = path' := by
  induction path generalizing x x' path' h with
  | nil =>
    obtain rfl := List.map_eq_nil_iff.1 hdirections.symm
    exact ⟨heq, rfl⟩
  | cons s path ih =>
    cases path' with
    | nil => simp at hdirections
    | cons s' path' =>
      obtain ⟨y, b⟩ := s
      obtain ⟨y', b'⟩ := s'
      obtain ⟨rfl, hrest⟩ := List.cons_eq_cons.1 hdirections
      obtain ⟨hstep, rfl⟩ := ih hrest heq
      cases b with
      | false =>
        obtain ⟨rfl, rfl⟩ := hmerge _ _ _ _ _ hstep
        exact ⟨rfl, rfl⟩
      | true =>
        obtain ⟨rfl, rfl⟩ := hmerge _ _ _ _ _ hstep
        exact ⟨rfl, rfl⟩

end Hashes

end MinaProtocol.AddressTree
