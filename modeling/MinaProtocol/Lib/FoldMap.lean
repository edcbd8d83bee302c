import Mathlib.Tactic

/-!
# Lib.FoldMap

Lists mapped by steps that may fail, and with a state passed along (`List.fold_map`). What the latter is used for:
everything that the elements ask for is read at once, in order, and each element then takes its own answers off
the front.
-/

namespace MinaProtocol

section FoldMap

variable {S A B L C : Type} {xs : List A} {f : A → Option B}
  {P : A → B → Prop} {ys : List B} {q : A → Bool} {l : List A} {s : S}

/-- `List.fold_map`. -/
def foldMap (f : S → A → Option (S × B)) : S → List A → Option (S × List B)
  | s, [] => some (s, [])
  | s, x :: xs => do
    let (s, y) ← f s x
    let (s, ys) ← foldMap f s xs
    some (s, y :: ys)

theorem foldMap_map {f : S → B → Option (S × C)} {k : A → B} (xs : List A) :
    foldMap f s (xs.map k) = foldMap (fun s x => f s (k x)) s xs := by
  induction xs generalizing s with
  | nil => rfl
  | cons x xs ih => simp only [List.map_cons, foldMap, ih]

/-- **Answers that were read at once** are handed out to those who asked. -/
theorem foldMap_flatten (asks : A → List L) (read : L → Option C) {f : List C → A → Option (List C × B)} {g : A → List C → Option B}
    (hf : ∀ x cs rest, (asks x).mapM read = some cs → f (cs ++ rest) x = (g x cs).map (rest, ·)) (xs : List A) (rest : List C) :
    ((xs.map asks).flatten.mapM read).bind (fun cs => foldMap f (cs ++ rest) xs) =
      (xs.mapM fun x => ((asks x).mapM read).bind (g x)).map fun ys => (rest, ys) := by
  induction xs with
  | nil => rfl
  | cons x xs ih =>
    rw [List.map_cons, List.flatten_cons, List.mapM_append, List.mapM_cons]
    cases hx : (asks x).mapM read with
    | none => rfl
    | some cs =>
      simp only [Option.bind_eq_bind, Option.bind_some, Option.pure_def, Option.bind_assoc] at ih ⊢
      cases hy : g x cs with
      | none =>
        have hstep : ∀ cs' : List C, foldMap f (cs ++ cs' ++ rest) (x :: xs) = none := by
          intro cs'
          rw [List.append_assoc, foldMap, hf x cs _ hx, hy]
          rfl
        simp only [hstep]
        cases (xs.map asks).flatten.mapM read <;> rfl
      | some y =>
        have hstep : ∀ cs' : List C, foldMap f (cs ++ cs' ++ rest) (x :: xs) = (foldMap f (cs' ++ rest) xs).map fun r => (r.1, y :: r.2) := by
          intro cs'
          rw [List.append_assoc, foldMap, hf x cs _ hx, hy]
          simp only [Option.map_some, Option.bind_eq_bind, Option.bind_some]
          cases foldMap f (cs' ++ rest) xs <;> rfl
        have hrest : ((xs.map asks).flatten.mapM read).bind (fun cs' => (foldMap f (cs' ++ rest) xs).map fun r => (r.1, y :: r.2)) =
            (((xs.map asks).flatten.mapM read).bind fun cs' => foldMap f (cs' ++ rest) xs).map fun r => (r.1, y :: r.2) :=
          Option.map_bind.symm
        simp only [hstep, hrest, ih]
        cases xs.mapM fun x => ((asks x).mapM read).bind (g x) <;> rfl

/-! ### Lists of steps -/

/-- `List.map2_exn`. -/
def map2Exn (f : A → B → C) : List A → List B → Option (List C)
  | [], [] => some []
  | x :: xs, y :: ys => (map2Exn f xs ys).map (f x y :: ·)
  | _, _ => none

theorem map2Exn_eq {f : A → B → C} (hlen : xs.length = ys.length) : map2Exn f xs ys = some (List.zipWith f xs ys) := by
  induction xs generalizing ys with
  | nil =>
    rw [List.length_eq_zero_iff.1 hlen.symm]
    rfl
  | cons x xs ih =>
    cases ys with
    | nil => simp at hlen
    | cons y ys =>
      rw [map2Exn, ih (by simpa using hlen)]
      rfl

theorem length_of_mapM (h : xs.mapM f = some ys) : ys.length = xs.length := by
  induction xs generalizing ys with
  | nil =>
    rw [← Option.some.inj h]
    rfl
  | cons x xs ih =>
    rw [List.mapM_cons] at h
    obtain ⟨y, -, h⟩ := Option.bind_eq_some_iff.1 h
    obtain ⟨zs, hzs, h⟩ := Option.bind_eq_some_iff.1 h
    rw [← Option.some.inj h, List.length_cons, List.length_cons, ih hzs]

theorem forall₂_of_mapM (h : xs.mapM f = some ys) : List.Forall₂ (fun x y => f x = some y) xs ys := by
  induction xs generalizing ys with
  | nil =>
    rw [← Option.some.inj h]
    exact .nil
  | cons x xs ih =>
    rw [List.mapM_cons] at h
    obtain ⟨y, hy, h⟩ := Option.bind_eq_some_iff.1 h
    obtain ⟨zs, hzs, h⟩ := Option.bind_eq_some_iff.1 h
    rw [← Option.some.inj h]
    exact .cons hy (ih hzs)

/-- **A list of optional values** that are all there. -/
theorem exists_mapM (h : ∀ a ∈ l, ∃ b, f a = some b ∧ P a b) : ∃ bs, l.mapM f = some bs ∧ List.Forall₂ P l bs := by
  induction l with
  | nil => exact ⟨[], rfl, .nil⟩
  | cons a l ih =>
    obtain ⟨b, hb, hP⟩ := h a List.mem_cons_self
    obtain ⟨bs, hbs, hPs⟩ := ih fun c hc => h c (List.mem_cons_of_mem a hc)
    exact ⟨b :: bs, by simp [hb, hbs], .cons hP hPs⟩

theorem getElem?_of_forall₂ {bs : List B} (h : List.Forall₂ P l bs) {i : Nat} {a : A} (hi : l[i]? = some a) :
    ∃ b, bs[i]? = some b ∧ P a b := by
  induction h generalizing i with
  | nil => exact absurd hi (by simp)
  | @cons a' b l bs hP _ ih =>
    cases i with
    | zero => exact ⟨b, rfl, Option.some.inj hi ▸ hP⟩
    | succ i => exact ih hi

/-- A fold of steps that all succeed. -/
theorem foldlM_eq_some_foldl {f : S → A → Option S} {g : S → A → S} (h : ∀ x ∈ xs, ∀ s, f s x = some (g s x)) :
    xs.foldlM f s = some (xs.foldl g s) := by
  induction xs generalizing s with
  | nil => rfl
  | cons x xs ih =>
    rw [List.foldlM_cons, h x List.mem_cons_self, Option.bind_eq_bind, Option.bind_some, ih fun y hy => h y (List.mem_cons_of_mem _ hy)]
    rfl

theorem mapM_filter_range {p : Nat → Bool} {f : Nat → Option B} {g : A → B}
    (h : ∀ i x, xs[i]? = some x → p i = q x ∧ f i = some (g x)) :
    ((List.range xs.length).filter p).mapM f = some ((xs.filter q).map g) := by
  induction xs using List.reverseRecOn with
  | nil => rfl
  | append_singleton xs x ih =>
    have hinit := ih fun i y hi => h i y (by rw [List.getElem?_append_left (List.getElem?_eq_some_iff.1 hi).1, hi])
    obtain ⟨hp, hf⟩ := h xs.length x (by simp)
    rw [List.length_append, List.length_singleton, List.range_succ, List.filter_append, List.filter_append, List.mapM_append, hinit]
    cases hq : q x <;> simp [hp, hq, hf]

/-- **The elements that are left are the first ones**, if none of them is after one that is not. -/
theorem filter_prefix : ∀ {xs : List A},
    (∀ (i j : Nat) (x y : A), i < j → xs[i]? = some x → xs[j]? = some y → q y = true → q x = true) → xs.filter q <+: xs
  | [], _ => List.prefix_rfl
  | x :: xs, h => by
    cases hx : q x with
    | true =>
      rw [List.filter_cons_of_pos hx, List.prefix_cons_inj]
      exact filter_prefix fun i j y z hij hi hj => h (i + 1) (j + 1) y z (by omega) hi hj
    | false =>
      have hnone : (x :: xs).filter q = [] := by
        refine List.filter_eq_nil_iff.2 fun y hy hq => ?_
        obtain ⟨j, hj⟩ := List.mem_iff_getElem?.1 hy
        cases j with
        | zero => simp_all
        | succ j => exact absurd (h 0 (j + 1) x y (by omega) rfl hj hq) (by simp [hx])
      rw [hnone]
      exact List.nil_prefix

theorem mapM_congr {g : A → Option B} (h : ∀ x ∈ xs, f x = g x) : xs.mapM f = xs.mapM g := by
  induction xs with
  | nil => rfl
  | cons x xs ih => rw [List.mapM_cons, List.mapM_cons, h x List.mem_cons_self, ih fun y hy => h y (List.mem_cons_of_mem _ hy)]

/-- Where one step fails, so do they all together. -/
theorem mapM_eq_none {x : A} (hx : x ∈ xs) (h : f x = none) : xs.mapM f = none := by
  induction xs with
  | nil => exact absurd hx List.not_mem_nil
  | cons y xs ih =>
    rw [List.mapM_cons]
    rcases List.mem_cons.1 hx with rfl | hx
    · rw [h]
      rfl
    · rw [ih hx]
      cases f y <;> rfl

/-- Two rounds of steps are one, as the order of failures does not show. -/
theorem mapM_bind_mapM {g : B → Option C} (xs : List A) :
    (xs.mapM f).bind (fun ys => ys.mapM g) = xs.mapM fun x => (f x).bind g := by
  induction xs with
  | nil => rfl
  | cons x xs ih =>
    rw [List.mapM_cons, List.mapM_cons, ← ih]
    cases f x with
    | none => rfl
    | some y =>
      cases hys : xs.mapM f with
      | none => cases hz : g y <;> simp [hz]
      | some ys => simp [List.mapM_cons]

/-- The answers beside those who asked. -/
theorem mapM_map_zip (xs : List A) : (xs.mapM f).map xs.zip = xs.mapM fun x => (f x).map (x, ·) := by
  induction xs with
  | nil => rfl
  | cons x xs ih =>
    rw [List.mapM_cons, List.mapM_cons, ← ih]
    cases f x with
    | none => rfl
    | some y => cases xs.mapM f <;> rfl

theorem mapM_reverse : xs.reverse.mapM f = (xs.mapM f).map List.reverse := by
  induction xs with
  | nil => rfl
  | cons x xs ih =>
    rw [List.reverse_cons, List.mapM_append, ih, List.mapM_cons, List.mapM_cons, List.mapM_nil]
    cases f x with
    | none => cases xs.mapM f <;> rfl
    | some y => cases xs.mapM f <;> simp

end FoldMap

end MinaProtocol
