import MinaProtocol.Lib.LevelOrder

/-!
# Lib.Coverage

Graphs of which a part can be read. A node is covered if all that is below it can be read, but for nodes that are
pending. Cover is lost only when a node that is used, or a pending one, goes: a write elsewhere keeps it. A covered
node that nothing is pending below is the root of a finite tree, which a traversal in level order visits to its end.
-/

namespace MinaProtocol.LevelOrder

variable {B L : Type} {next next' : L → Option (B × List L)} {pend pend' : L → Prop} {l m root : L}
  {q : List L} {n : Nat}

/-- Whatever is below a node can be read, but for what is pending. -/
inductive Covered (next : L → Option (B × List L)) (pend : L → Prop) : L → Prop
  | pending {l : L} : pend l → Covered next pend l
  | read {l : L} {b : B} {ls : List L} : next l = some (b, ls) → (∀ m ∈ ls, Covered next pend m) → Covered next pend l

/-- The nodes that the cover of a root reads. -/
inductive Uses (next : L → Option (B × List L)) (pend : L → Prop) (root : L) : L → Prop
  | root : ¬ pend root → Uses next pend root root
  | link {l m : L} {b : B} {ls : List L} : Uses next pend root l → next l = some (b, ls) → m ∈ ls → ¬ pend m →
      Uses next pend root m

theorem Uses.trans (h : Uses next pend root m) (h' : Uses next pend m l) : Uses next pend root l := by
  induction h' with
  | root => exact h
  | link _ hread hmem hnot ih => exact .link ih hread hmem hnot

/-- **Cover is kept** where the nodes that are used stay, and what was pending is covered. -/
theorem Covered.transfer (h : Covered next pend root) (hpend : ∀ l, pend l → Covered next' pend' l)
    (huses : ∀ l, Uses next pend root l → ∀ r, next l = some r → next' l = some r) : Covered next' pend' root := by
  induction h with
  | pending hl => exact hpend _ hl
  | @read l b ls hread _ ih =>
    by_cases hl : pend l
    · exact hpend l hl
    · have hroot : Uses next pend l l := .root hl
      refine .read (huses l hroot _ hread) fun m hm => ?_
      by_cases hpm : pend m
      · exact hpend m hpm
      · exact ih m hm fun x hx => huses x ((Uses.link hroot hread hm hpm).trans hx)

theorem Covered.mono (h : Covered next pend root) (hnext : ∀ l r, next l = some r → next' l = some r)
    (hpend : ∀ l, pend l → Covered next' pend' l) : Covered next' pend' root :=
  h.transfer hpend fun l _ r hr => hnext l r hr

/-- The trees below the nodes of a list, with the number of their nodes. -/
inductive Trees (next : L → Option (B × List L)) : List L → Nat → Prop
  | nil : Trees next [] 0
  | cons {l : L} {b : B} {ls q : List L} {m n : Nat} : next l = some (b, ls) → Trees next ls m → Trees next q n →
      Trees next (l :: q) (m + n + 1)

theorem Trees.append {q' : List L} {m : Nat} (h : Trees next q m) (h' : Trees next q' n) :
    Trees next (q ++ q') (m + n) := by
  induction h with
  | nil => simpa using h'
  | @cons l b ls q k k' hread hls _ _ ih =>
    have hsum : k + (k' + n) + 1 = k + k' + 1 + n := by omega
    rw [List.cons_append, ← hsum]
    exact .cons hread hls ih

/-- A list of nodes that all have a tree. -/
theorem exists_trees (h : ∀ l ∈ q, ∃ n, Trees next [l] n) : ∃ n, Trees next q n := by
  induction q with
  | nil => exact ⟨0, .nil⟩
  | cons l q ih =>
    obtain ⟨m, hm⟩ := h l List.mem_cons_self
    obtain ⟨n, hn⟩ := ih fun x hx => h x (List.mem_cons_of_mem l hx)
    exact ⟨m + n, hm.append hn⟩

/-- **A covered node that nothing is pending below has a finite tree.** -/
theorem Covered.trees (h : Covered next (fun _ => False) root) : ∃ n, Trees next [root] n := by
  induction h with
  | pending hl => exact hl.elim
  | read hread _ ih =>
    obtain ⟨n, hn⟩ := exists_trees ih
    exact ⟨n + 0 + 1, .cons hread hn .nil⟩

/-- **A traversal of finite trees comes to an end.** Each node that is visited takes one from what is left. -/
theorem Trees.visits (h : Trees next q n) : ∃ bs, Visits next q bs := by
  induction n using Nat.strong_induction_on generalizing q with
  | h n ih =>
    cases h with
    | nil => exact ⟨[], .nil⟩
    | @cons l b ls q m k hread hls hq =>
      obtain ⟨bs, hbs⟩ := ih (k + m) (by omega) (hq.append hls)
      exact ⟨b :: bs, .cons hread hbs⟩

theorem Covered.visits (h : Covered next (fun _ => False) root) : ∃ bs, Visits next [root] bs := by
  obtain ⟨n, hn⟩ := h.trees
  exact hn.visits

end MinaProtocol.LevelOrder
