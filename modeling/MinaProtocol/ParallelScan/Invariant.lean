import MinaProtocol.ParallelScan.Phase

/-!
# ParallelScan.Invariant

The trees behind the one being filled, seen together. Every `delay + 1`-th of
them is worked on, each one level above the one before, and the jobs are handed
out tree by tree. So one number says how far the work has come: `Working m` is
the situation after `m` of the jobs, and `Ready` the one after all of them, when
the trees may move on by one place.

`mergeGo_working` is the step lemma for completed jobs. `Inv` is the invariant of
the whole state, and `addMerge_inv` and `addData_inv` say that it is kept and
where the data goes.
-/

namespace MinaProtocol.ParallelScan

open PerfectTree

variable {α β : Type} {n : Nat} {V : List β → α → Prop}

namespace BState

open BTree

/-! ### Trees at work -/

/-- The number of jobs of a phase on `k` trees of height `n`, from the tree numbered `i` on. -/
def total (n D : Nat) : Nat → Nat → Nat
  | _, 0 => 0
  | i, k + 1 => (if i % D = D - 1 then 2 ^ (n - i / D) else 0) + total n D (i + 1) k

/-- The trees numbered from `i` on, when `m` of their jobs have been done in this phase. -/
def Working (V : List β → α → Prop) (D : Nat) : Nat → Nat → List (BTree α β n) → Prop
  | _, _, [] => True
  | i, m, t :: ts =>
    i / D ≤ n ∧
      if i % D = D - 1 then
        Active V (n - i / D) (min m (2 ^ (n - i / D))) t
          ∧ Working V D (i + 1) (m - 2 ^ (n - i / D)) ts
      else Active V (n - i / D) 0 t ∧ Working V D (i + 1) m ts

/-- The trees numbered from `i` on, when all jobs have been done: each is as it
has to be one place further. -/
def Ready (V : List β → α → Prop) (D : Nat) : Nat → List (BTree α β n) → Prop
  | _, [] => True
  | i, t :: ts => (i + 1) / D ≤ n ∧ Active V (n - (i + 1) / D) 0 t ∧ Ready V D (i + 1) ts

/-- The data of the jobs of a phase, in the order they are handed out. -/
def targets (D : Nat) : Nat → List (BTree α β n) → List (List β)
  | _, [] => []
  | i, t :: ts =>
    if i % D = D - 1 then segs (n - i / D) t ++ targets D (i + 1) ts else targets D (i + 1) ts

theorem length_targets (D i : Nat) (ts : List (BTree α β n)) : (targets D i ts).length = total n D i ts.length := by
  induction ts generalizing i with
  | nil => rfl
  | cons t ts ih =>
    rw [targets, List.length_cons, total]
    split_ifs
    · rw [List.length_append, length_segs (Nat.sub_le _ _), ih]
    · rw [ih, Nat.zero_add]

variable {D i m : Nat} {ts : List (BTree α β n)} {js : List α} {b : BState α β n} {k : Nat} {ds : List β}

/-- One place further the trees are at the start of the next phase. -/
theorem Ready.working (h : Ready V D i ts) : Working V D (i + 1) 0 ts := by
  induction ts generalizing i with
  | nil => trivial
  | cons t ts ih =>
    obtain ⟨hi, ht, hts⟩ := h
    refine ⟨hi, ?_⟩
    split_ifs
    · exact ⟨by rwa [Nat.zero_min], by rw [Nat.zero_sub]; exact ih hts⟩
    · exact ⟨ht, ih hts⟩

theorem Working.ready (hD : 0 < D) (h : Working V D i m ts) (h0 : total n D i ts.length = 0) : Ready V D i ts := by
  induction ts generalizing i m with
  | nil => trivial
  | cons t ts ih =>
    obtain ⟨hi, h⟩ := h
    rw [List.length_cons, total] at h0
    have hpos := Nat.two_pow_pos (n - i / D)
    by_cases hw : i % D = D - 1
    · rw [if_pos hw] at h0
      omega
    · rw [if_neg hw] at h h0
      rw [Ready, succ_div_of_not_last hD hw]
      exact ⟨hi, h.1, ih h.2 (by omega)⟩

/-- Moving on by one place takes a phase with room for one more tree. -/
theorem Ready.length_lt (hD : 0 < D) (h : Ready V D i ts) (hi : i < (n + 1) * D) : i + ts.length < (n + 1) * D := by
  induction ts generalizing i with
  | nil => exact hi
  | cons t ts ih =>
    obtain ⟨hdiv, -, hts⟩ := h
    have hlt : i + 1 < (n + 1) * D := (Nat.div_lt_iff_lt_mul hD).1 (by omega)
    have := ih hts hlt
    rw [List.length_cons]
    omega

/-- When a phase is over there is nothing to do. -/
theorem Ready.workFrom_eq (hD : 0 < D) (h : Ready V D i ts) : workFrom D i ts = [] := by
  induction ts generalizing i with
  | nil => rfl
  | cons t ts ih =>
    obtain ⟨hdiv, ht, hts⟩ := h
    rw [workFrom, ih hts, List.append_nil, workOf]
    split_ifs with hw
    · rw [succ_div_of_last hD hw.1] at hdiv ht
      exact jobsAt_other ht (by omega) (by omega)
    · rfl

/-- **The jobs handed out** are the ones that are left, in order. -/
theorem workFrom_working (h : Working V D i m ts) (hm : m ≤ total n D i ts.length) :
    (workFrom D i ts).length = total n D i ts.length - m
      ∧ Aligned (JobFor V) (targets D i ts) m (workFrom D i ts) := by
  induction ts generalizing i m with
  | nil => exact ⟨by simp [workFrom, total], Aligned.nil⟩
  | cons t ts ih =>
    obtain ⟨hi, h⟩ := h
    rw [List.length_cons, total] at hm ⊢
    rw [workFrom, workOf, targets]
    by_cases hw : i % D = D - 1
    · rw [if_pos hw] at h hm ⊢
      rw [if_pos ⟨hw, hi⟩, if_pos hw]
      obtain ⟨hlen, hal⟩ := jobsAt_active h.1
      obtain ⟨hlen', hal'⟩ := ih h.2 (by omega)
      have hs := length_segs (Nat.sub_le n (i / D)) t
      refine ⟨by rw [List.length_append, hlen, hlen']; omega, ?_⟩
      rw [← hs] at hal hal'
      exact hal.join (by rw [hlen, hs]; omega) hal'
    · rw [if_neg hw] at h hm ⊢
      rw [if_neg (fun hc => hw hc.1), if_neg hw, List.nil_append, Nat.zero_add]
      exact ih h.2 (by omega)

/-! ### Completing jobs -/

@[simp] theorem mergeGo_nil (D : Nat) (seqNo : Int) (i : Nat) (res : Option α)
    (ts : List (BTree α β n)) : mergeGo D seqNo i res [] ts = some (ts, res, []) := by
  induction ts generalizing i with
  | nil => rfl
  | cons t ts ih => simp [mergeGo, ih]

theorem last_of_top (hw : i % D = D - 1) (hi : i / D ≤ n) (htop : n - i / D = 0)
    (hk : i + (k + 1) ≤ (n + 1) * D) (hD : 0 < D) : k = 0 ∧ i + 1 = (n + 1) * D := by
  have hdiv : i / D = n := by omega
  have hmod := Nat.div_add_mod i D
  rw [hdiv, hw] at hmod
  have hmul : (n + 1) * D = D * n + D := by rw [Nat.add_mul, Nat.mul_comm n D]; omega
  omega

/-- The last possible tree has a job. -/
theorem total_pos (hD : 0 < D) (hk : i + (k + 1) = (n + 1) * D) : 0 < total n D i (k + 1) := by
  induction k generalizing i with
  | zero =>
    have hi : i = n * D + (D - 1) := by
      have : (n + 1) * D = n * D + D := by rw [Nat.add_mul]; omega
      omega
    have hw : i % D = D - 1 := by
      rw [hi, Nat.mul_comm, Nat.mul_add_mod]
      exact Nat.mod_eq_of_lt (by omega)
    rw [total, if_pos hw]
    have := Nat.two_pow_pos (n - i / D)
    omega
  | succ k ih =>
    have := ih (i := i + 1) (by omega)
    rw [total]
    omega

/-- What comes out of `add_merge_jobs`: the last result, if it belongs to the top
of the oldest tree. -/
def topResult (n D i m k : Nat) (res : Option α) (js : List α) : Option α :=
  if js = [] then res
  else if n ≠ 0 ∧ m + js.length = total n D i k ∧ i + k = (n + 1) * D then js.getLast?
  else none

theorem topResult_cons (hD : 0 < D) (hw : i % D = D - 1) (hi : i / D ≤ n)
    (hk : i + (k + 1) ≤ (n + 1) * D) (hjs : js ≠ [])
    (hcount : m + js.length ≤ 2 ^ (n - i / D) + total n D (i + 1) k) (res : Option α) :
    topResult n D (i + 1) (m - 2 ^ (n - i / D)) k
        (if n ≠ 0 ∧ n - i / D = 0 then
          (js.take (2 ^ (n - i / D) - min m (2 ^ (n - i / D)))).head? else none)
        (js.drop (2 ^ (n - i / D) - min m (2 ^ (n - i / D))))
      = topResult n D i m (k + 1) res js := by
  have hpos : 0 < js.length := List.length_pos_iff.2 hjs
  simp only [topResult, if_neg hjs, total, if_pos hw, List.drop_eq_nil_iff]
  by_cases hd : js.length ≤ 2 ^ (n - i / D) - min m (2 ^ (n - i / D))
  · -- the jobs end at this tree
    rw [if_pos hd, List.take_of_length_le hd]
    by_cases htop : n - i / D = 0
    · obtain ⟨rfl, hi1⟩ := last_of_top hw hi htop hk hD
      rw [htop, Nat.pow_zero] at hd hcount ⊢
      obtain ⟨v, rfl⟩ := List.length_eq_one_iff.1 (show js.length = 1 by omega)
      have hm : m = 0 := by simp only [List.length_singleton] at hd; omega
      simp [total, hm, hi1]
    · have hno : ¬ (n ≠ 0 ∧ m + js.length = 2 ^ (n - i / D) + total n D (i + 1) k ∧ i + (k + 1) = (n + 1) * D) := by
        rintro ⟨-, hsum, hend⟩
        cases k with
        | zero =>
          have hdiv : i / D = n := by
            have : (n + 1) * D = n * D + D := by rw [Nat.add_mul]; omega
            rw [Nat.div_eq_iff hD]
            omega
          omega
        | succ k =>
          have := total_pos (n := n) (i := i + 1) (k := k) hD (by omega)
          omega
      rw [if_neg hno, if_neg (fun hc => htop hc.2)]
  · rw [if_neg hd, List.length_drop, List.getLast?_drop, if_neg hd]
    have hiff : (n ≠ 0 ∧ m - 2 ^ (n - i / D)
          + (js.length - (2 ^ (n - i / D) - min m (2 ^ (n - i / D)))) = total n D (i + 1) k ∧ i + 1 + k = (n + 1) * D)
        ↔ (n ≠ 0 ∧ m + js.length = 2 ^ (n - i / D) + total n D (i + 1) k ∧ i + (k + 1) = (n + 1) * D) := by
      omega
    simp only [hiff]

/-- **The step lemma for completed jobs.** Results that fit the open jobs are
accepted, and the phase moves on by their number. -/
theorem mergeGo_working (hD : 0 < D) (h : Working V D i m ts) (hlen : i + ts.length ≤ (n + 1) * D)
    (hV : Aligned V (targets D i ts) m js) (hm : m ≤ total n D i ts.length) (seqNo : Int) (res : Option α) :
    ∃ ts', mergeGo D seqNo i res (js.map .merge) ts
        = some (ts', topResult n D i m ts.length res js, [])
      ∧ Working V D i (m + js.length) ts'
      ∧ targets D i ts' = targets D i ts ∧ ts'.map data = ts.map data := by
  induction ts generalizing i m js res with
  | nil =>
    have hjs : js = [] := by
      have := hV.length_le (by simpa [targets, total] using hm)
      exact List.length_eq_zero_iff.1 (by simp only [targets, List.length_nil] at this; omega)
    subst hjs
    exact ⟨[], rfl, trivial, rfl, rfl⟩
  | cons t ts ih =>
    by_cases hjs : js = []
    · subst hjs
      exact ⟨t :: ts, by rw [List.map_nil, mergeGo_nil]; rfl, h, rfl, rfl⟩
    obtain ⟨hi, h⟩ := h
    have hne : js.map (.merge : α → Job α β) ≠ [] := by simpa using hjs
    have hcount := hV.length_le (by rw [length_targets]; exact hm)
    rw [length_targets] at hcount
    rw [List.length_cons] at hlen
    rw [List.length_cons, total] at hm hcount
    rw [mergeGo]
    by_cases hw : i % D = D - 1
    · rw [if_pos hw] at h hm hcount
      rw [targets, if_pos hw] at hV
      have hs := length_segs (Nat.sub_le n (i / D)) t
      -- the results for this tree, and those for the trees after it
      have hVl := hV.left
      have hVr := hV.right
      rw [hs] at hVl hVr
      have hreq : t.required = ((2 ^ (n - i / D) - min m (2 ^ (n - i / D)) : Nat) : Int) := by
        refine h.1.required_eq ?_
        by_cases htop : n - i / D = 0
        · have hk := (last_of_top hw hi htop hlen hD).1
          have hpos : 0 < js.length := List.length_pos_iff.2 hjs
          rw [htop, hk, Nat.pow_zero, total] at hcount
          exact .inl (by omega)
        · exact .inr (by omega)
      obtain ⟨t', hu, hact, hseg⟩ := update_active h.1 hVl (Int.le_refl 0) seqNo
      have hlev : (0 : Int) + ((n - i / D : Nat) : Int) = (n : Int) - (i / D : Nat) := by omega
      rw [hlev, List.map_take] at hu
      have htop : (n : Int) - (i / D : Nat) = 0 ↔ n - i / D = 0 := by omega
      simp only [htop] at hu
      have hsub : i + 1 + ts.length ≤ (n + 1) * D := by omega
      obtain ⟨ts', hgo, hwork, htar, hdat⟩ := ih h.2 hsub hVr (by omega)
        (if n ≠ 0 ∧ n - i / D = 0 then
          (js.take (2 ^ (n - i / D) - min m (2 ^ (n - i / D)))).head? else none)
      rw [if_pos ⟨hw, hne⟩, takeInt, dropInt, hreq, Int.toNat_natCast, hu, Option.bind_some, ← List.map_drop, hgo]
      refine ⟨t' :: ts', ?_, ?_, ?_, ?_⟩
      · rw [Option.map_some, topResult_cons hD hw hi hlen hjs hcount res, List.length_cons]
      · refine ⟨hi, ?_⟩
        rw [if_pos hw]
        rw [List.length_take] at hact
        rw [List.length_drop] at hwork
        constructor
        · rwa [show min (m + js.length) (2 ^ (n - i / D)) = min m (2 ^ (n - i / D))
            + min (2 ^ (n - i / D) - min m (2 ^ (n - i / D))) js.length by omega]
        · rwa [show m + js.length - 2 ^ (n - i / D) = m - 2 ^ (n - i / D)
            + (js.length - (2 ^ (n - i / D) - min m (2 ^ (n - i / D)))) by omega]
      · rw [targets, targets, if_pos hw, if_pos hw, hseg, htar]
      · rw [List.map_cons, List.map_cons, hdat, ← flatten_segs hact.le_height, hseg, flatten_segs (Nat.sub_le _ _)]
    · rw [if_neg hw] at h hm hcount
      rw [targets, if_neg hw] at hV
      obtain ⟨ts', hgo, hwork, htar, hdat⟩ := ih h.2 (by omega) hV (by omega) res
      rw [if_neg (fun hc => hw hc.1), hgo]
      refine ⟨t :: ts', ?_, ⟨hi, by rw [if_neg hw]; exact ⟨h.1, hwork⟩⟩, ?_, ?_⟩
      · simp only [Option.map_some, topResult, total, if_neg hw, Nat.zero_add, List.length_cons,
          show i + 1 + ts.length = i + (ts.length + 1) by omega]
      · rw [targets, targets, if_neg hw, if_neg hw, htar]
      · rw [List.map_cons, List.map_cons, hdat]

/-! ### The end of a phase -/

theorem Working.append_left {ts' : List (BTree α β n)} (h : Working V D i m (ts ++ ts')) : Working V D i m ts := by
  induction ts generalizing i m with
  | nil => trivial
  | cons t ts ih =>
    obtain ⟨hi, h⟩ := h
    refine ⟨hi, ?_⟩
    split_ifs at h ⊢
    · exact ⟨h.1, ih h.2⟩
    · exact ⟨h.1, ih h.2⟩

theorem total_succ (D i k : Nat) : total n D i k ≤ total n D i (k + 1) := by
  induction k generalizing i with
  | zero => exact Nat.zero_le _
  | succ k ih =>
    have := ih (i + 1)
    rw [total, total]
    omega

theorem Working.reset_ready (hD : 0 < D) (h : Working V D i m ts) (hm : total n D i ts.length ≤ m)
    (hlen : i + ts.length < (n + 1) * D) : Ready V D i (ts.map (BTree.reset .merge)) := by
  induction ts generalizing i m with
  | nil => trivial
  | cons t ts ih =>
    obtain ⟨hi, h⟩ := h
    rw [List.length_cons] at hlen
    rw [List.length_cons, total] at hm
    have hdiv : (i + 1) / D ≤ n := by
      have : (i + 1) / D < n + 1 := (Nat.div_lt_iff_lt_mul hD).2 (by omega)
      omega
    refine ⟨hdiv, ?_, ?_⟩
    · by_cases hw : i % D = D - 1
      · rw [if_pos hw] at h hm
        have hsucc := succ_div_of_last hD hw
        have hlev : n - i / D = n - (i + 1) / D + 1 := by omega
        rw [Nat.min_eq_right (by omega), hlev] at h
        exact reset_completed h.1
      · rw [if_neg hw] at h
        rw [succ_div_of_not_last hD hw]
        exact reset_active h.1
    · by_cases hw : i % D = D - 1
      · rw [if_pos hw] at h hm
        exact ih h.2 (by omega) (by omega)
      · rw [if_neg hw] at h hm
        exact ih h.2 (by omega) (by omega)

theorem targets_getLast? (hD : 0 < D) (hlen : i + ts.length = (n + 1) * D) (hi : i < (n + 1) * D) :
    (targets D i ts).getLast? = ts.getLast?.map data := by
  induction ts generalizing i with
  | nil =>
    rw [List.length_nil] at hlen
    omega
  | cons t ts ih =>
    rw [List.length_cons] at hlen
    cases ts with
    | nil =>
      have hi1 : i = n * D + (D - 1) := by
        have : (n + 1) * D = n * D + D := by rw [Nat.add_mul]; omega
        simp only [List.length_nil] at hlen
        omega
      have hw : i % D = D - 1 := by
        rw [hi1, Nat.mul_comm, Nat.mul_add_mod]
        exact Nat.mod_eq_of_lt (by omega)
      have hdiv : i / D = n := by
        rw [Nat.div_eq_iff hD]
        omega
      rw [targets, if_pos hw, hdiv, Nat.sub_self]
      cases t <;> simp [targets, segs]
    | cons t' ts =>
      have hrec := ih (i := i + 1) (by omega) (by simp only [List.length_cons] at hlen; omega)
      have hne : targets D (i + 1) (t' :: ts) ≠ [] := by
        rw [← List.length_pos_iff, length_targets, List.length_cons]
        exact total_pos hD (by simp only [List.length_cons] at hlen; omega)
      rw [targets, List.getLast?_cons_cons]
      split_ifs
      · rw [List.getLast?_append_of_ne_nil _ hne, hrec]
      · exact hrec

/-! ### The work one place further -/

/-- With a delay the trees that are worked on next are not those worked on now. -/
theorem mergeGo_workFrom (hD : 2 ≤ D) {seqNo : Int} {res : Option α} {jobs : List (Job α β)}
    {r : List (BTree α β n) × Option α × List (Job α β)} (h : mergeGo D seqNo i res jobs ts = some r) :
    workFrom D (i + 1) r.1 = workFrom D (i + 1) ts := by
  induction ts generalizing i res jobs r with
  | nil =>
    rw [mergeGo, Option.some.injEq] at h
    subst h
    rfl
  | cons t ts ih =>
    rw [mergeGo] at h
    by_cases hc : i % D = D - 1 ∧ jobs ≠ []
    · rw [if_pos hc] at h
      obtain ⟨p, -, h⟩ := Option.bind_eq_some_iff.1 h
      obtain ⟨q, hq, rfl⟩ := Option.map_eq_some_iff.1 h
      have hnot : ¬ (i + 1) % D = D - 1 := by
        rw [Nat.add_mod, hc.1, Nat.mod_eq_of_lt (show 1 < D by omega), show D - 1 + 1 = D by omega, Nat.mod_self]
        omega
      simp only [workFrom, workOf, if_neg (fun hc : _ ∧ _ => hnot hc.1), ih hq]
    · rw [if_neg hc] at h
      obtain ⟨q, hq, rfl⟩ := Option.map_eq_some_iff.1 h
      simp only [workFrom, ih hq]

theorem workFrom_reset (D i : Nat) (ts : List (BTree α β n)) :
    workFrom D i (ts.map (BTree.reset .merge)) = workFrom D i ts := by
  induction ts generalizing i with
  | nil => rfl
  | cons t ts ih => simp [workFrom, workOf, ih]

theorem workFrom_append (D i : Nat) (ts ts' : List (BTree α β n)) :
    workFrom D i (ts ++ ts') = workFrom D i ts ++ workFrom D (i + ts.length) ts' := by
  induction ts generalizing i with
  | nil => rfl
  | cons t ts ih =>
    rw [List.cons_append, workFrom, workFrom, ih, List.append_assoc, List.length_cons,
      show i + 1 + ts.length = i + (ts.length + 1) by omega]

/-! ### The invariant of the trees behind -/

/-- The trees behind the current one: between two phases, or in one. Trees of one
leaf never leave the list, so there a phase can be over without being ready. -/
structure TailInv (V : List β → α → Prop) (D : Nat) (ts : List (BTree α β n)) : Prop where
  length_le : ts.length ≤ (n + 1) * D
  phase : Ready V D 0 ts
    ∨ ∃ m, m ≤ total n D 0 ts.length ∧ (n ≠ 0 → m < total n D 0 ts.length) ∧ Working V D 0 m ts

/-- Values that answer the open jobs in order, as far as they go. -/
def Fits (V : List β → α → Prop) (D : Nat) (ts : List (BTree α β n)) (js : List α) : Prop :=
  ∀ m, m ≤ total n D 0 ts.length → Working V D 0 m ts → Aligned V (targets D 0 ts) m js

/-- Where the data of the trees goes: nowhere, or out with the value for it. -/
def Emits (V : List β → α → Prop) (before after : List (BTree α β n)) : Option (α × List β) → Prop
  | none => after.map data = before.map data
  | some (v, d) => V d v ∧ before.map data = after.map data ++ [d]

/-- The phase is over and the trees may move on, unless they are single leaves
that fill the list. -/
def Complete (V : List β → α → Prop) (D : Nat) (ts : List (BTree α β n)) : Prop :=
  Ready V D 0 ts ∨ (n = 0 ∧ ts.length = D)

theorem finishMerge_none (b : BState α β n) (exact : Bool) (ts : List (BTree α β n)) : finishMerge b exact ts none
      = (none, { b with
          tail := if ts.length + 1 < b.maxTrees ∧ exact = true then ts.map (BTree.reset .merge)
            else ts }) := by
  simp [finishMerge]

theorem finishMerge_some (b : BState α β n) (exact : Bool) (ts : List (BTree α β n)) (t : BTree α β n) (v : α) :
    finishMerge b exact (ts ++ [t]) (some v)
      = (some (v, t.data), { b with tail := ts.map (BTree.reset .merge) }) := by
  simp [finishMerge]

/-- Too few trees for any of them to be worked on. -/
theorem total_eq_zero (h : i + k < D) : total n D i k = 0 := by
  induction k generalizing i with
  | zero => rfl
  | succ k ih =>
    have hw : ¬ i % D = D - 1 := by
      rw [Nat.mod_eq_of_lt (by omega)]
      omega
    rw [total, if_neg hw, ih (by omega)]

/-- With no job left a phase is over. -/
theorem TailInv.complete (hD : 0 < D) (h : TailInv V D ts) (hwork : workFrom D 0 ts = []) : Complete V D ts := by
  rcases h.phase with hr | ⟨m, hm, hlt, hw⟩
  · exact .inl hr
  · have hlen := (workFrom_working hw hm).1
    rw [hwork, List.length_nil] at hlen
    have hn : n = 0 := by
      by_contra hn
      have := hlt hn
      omega
    have hle := h.length_le
    subst hn
    by_cases hfull : ts.length = D
    · exact .inr ⟨rfl, hfull⟩
    · exact .inl (hw.ready hD (total_eq_zero (by omega)))

/-- **Adding completed jobs** that fit keeps the trees in order, gives out the
oldest tree's data with its value when the last job of a full list is done, and
leaves exactly the rest of the jobs. -/
theorem addMerge_inv (hb : TailInv V (b.delay + 1) b.tail) (js : List α)
    (hlen : js.length ≤ b.workCurrent.length) (hV : Fits V (b.delay + 1) b.tail js) :
    ∃ r ts, b.addMerge js = some (r, { b with tail := ts })
      ∧ TailInv V (b.delay + 1) ts
      ∧ Emits V b.tail ts r
      ∧ (r.isSome → js.length = b.workCurrent.length ∧ b.tail.length = (n + 1) * (b.delay + 1))
      ∧ (js.length = b.workCurrent.length → Complete V (b.delay + 1) ts)
      ∧ (workFrom (b.delay + 1) 0 ts).length = b.workCurrent.length - js.length
      ∧ (0 < b.delay → workFrom (b.delay + 1) 1 ts = workFrom (b.delay + 1) 1 b.tail) := by
  have hD : 0 < b.delay + 1 := Nat.succ_pos _
  by_cases hjs : js = []
  · subst hjs
    refine ⟨none, b.tail, by rw [addMerge, if_pos rfl], hb, rfl, by simp, fun h => ?_, rfl,
      fun _ => rfl⟩
    exact hb.complete hD (List.length_eq_zero_iff.1 h.symm)
  have hpos : 0 < js.length := List.length_pos_iff.2 hjs
  obtain ⟨m, hm, hlt, hw⟩ : ∃ m, m ≤ total n (b.delay + 1) 0 b.tail.length
      ∧ (n ≠ 0 → m < total n (b.delay + 1) 0 b.tail.length)
      ∧ Working V (b.delay + 1) 0 m b.tail := by
    rcases hb.phase with hr | hw
    · rw [workCurrent, hr.workFrom_eq hD, List.length_nil] at hlen
      omega
    · exact hw
  have hle := hb.length_le
  have hcur : b.workCurrent.length = total n (b.delay + 1) 0 b.tail.length - m :=
    (workFrom_working hw hm).1
  have hVm := hV m hm hw
  obtain ⟨ts, hgo, hwork, htar, hdat⟩ := mergeGo_working hD hw (by omega) hVm hm b.seqNo none
  have hlents : ts.length = b.tail.length := by simpa using congrArg List.length hdat
  have htot : total n (b.delay + 1) 0 ts.length = total n (b.delay + 1) 0 b.tail.length := by
    rw [hlents]
  have hnext : 0 < b.delay → workFrom (b.delay + 1) 1 ts = workFrom (b.delay + 1) 1 b.tail :=
    fun h => mergeGo_workFrom (by omega) hgo
  have hadd : b.addMerge js = some (finishMerge b (decide (js.length = b.workCurrent.length)) ts
      (topResult n (b.delay + 1) 0 m b.tail.length none js)) := by
    rw [addMerge, if_neg hjs, if_neg (by omega), hgo]
    rfl
  have hmax : b.maxTrees = (n + 1) * (b.delay + 1) + 1 := rfl
  by_cases hall : m + js.length = total n (b.delay + 1) 0 b.tail.length
  · by_cases hfull : b.tail.length = (n + 1) * (b.delay + 1)
    · by_cases hn : n = 0
      · -- single leaves: nothing comes out, and the list is full
        have htop : topResult n (b.delay + 1) 0 m b.tail.length none js = none := by
          rw [topResult, if_neg hjs, if_neg (fun h => h.1 hn)]
        rw [htop, finishMerge_none, if_neg (by omega)] at hadd
        refine ⟨none, ts, hadd, ⟨by omega, .inr ⟨_, by omega, fun h => absurd hn h, hwork⟩⟩, hdat,
          by simp, fun _ => .inr ⟨hn, ?_⟩, ?_, hnext⟩
        · rw [hlents, hfull, show n + 1 = 1 by omega, Nat.one_mul]
        · rw [(workFrom_working hwork (by omega)).1, hcur, hlents]
          omega
      · -- the top of the oldest tree is done
        obtain ⟨v, hv⟩ : ∃ v, js.getLast? = some v := by
          rcases hl : js.getLast? with _ | v
          · exact absurd (List.getLast?_eq_none_iff.1 hl) hjs
          · exact ⟨v, rfl⟩
        have htop : topResult n (b.delay + 1) 0 m b.tail.length none js = some v := by
          rw [topResult, if_neg hjs, if_pos ⟨hn, hall, by omega⟩, hv]
        have hlast := targets_getLast? hD (i := 0) (show 0 + ts.length = _ by omega) (by positivity)
        rcases List.eq_nil_or_concat ts with rfl | ⟨init, t, rfl⟩
        · rw [List.length_nil] at hlents
          rw [← hlents] at hfull
          have : 0 < (n + 1) * (b.delay + 1) := by positivity
          omega
        simp only [List.concat_eq_append, List.length_append, List.length_singleton,
          List.map_append, List.map_cons, List.map_nil, List.getLast?_concat, Option.map_some]
          at hlents htot hwork hdat hadd hnext hlast
        rw [htop, finishMerge_some] at hadd
        have hready : Ready V (b.delay + 1) 0 (init.map (BTree.reset .merge)) := by
          refine hwork.append_left.reset_ready hD ?_ (by omega)
          have := total_succ (n := n) (b.delay + 1) 0 init.length
          rw [hall, ← hlents]
          exact this
        refine ⟨_, _, hadd, ⟨by rw [List.length_map]; omega, .inl hready⟩, ?_,
          fun _ => ⟨by omega, hfull⟩, fun _ => .inl hready, ?_, fun hdelay => ?_⟩
        · constructor
          · -- the last value answers the last job
            rw [List.getLast?_eq_getElem?] at hv hlast
            obtain ⟨d, hd, hdv⟩ := hVm _ v hv
            rw [← htar, show m + (js.length - 1) = (targets (b.delay + 1) 0 (init.concat t)).length - 1 by
                rw [length_targets]; simp only [List.length_concat]; omega,
              List.concat_eq_append, hlast, Option.some.injEq] at hd
            rwa [hd]
          · rw [← hdat, List.map_map]
            simp [Function.comp_def]
        · rw [hready.workFrom_eq hD, List.length_nil]
          omega
        · rw [← hnext hdelay, workFrom_reset, workFrom_append]
          have hmod : ¬ (1 + init.length) % (b.delay + 1) = b.delay + 1 - 1 := by
            rw [show 1 + init.length = (n + 1) * (b.delay + 1) by omega, Nat.mul_mod_left]
            omega
          simp only [workFrom, workOf, if_neg (fun hc : _ ∧ _ => hmod hc.1), List.append_nil]
    · -- the phase is over, and there is room for another tree
      have htop : topResult n (b.delay + 1) 0 m b.tail.length none js = none := by
        rw [topResult, if_neg hjs, if_neg (by omega)]
      rw [htop, finishMerge_none, if_pos ⟨by omega, by rw [decide_eq_true_eq]; omega⟩] at hadd
      have hready := hwork.reset_ready hD (by omega) (by omega)
      refine ⟨none, _, hadd, ⟨by rw [List.length_map]; omega, .inl hready⟩, ?_, by simp,
        fun _ => .inl hready, ?_, fun h => by rw [workFrom_reset, hnext h]⟩
      · rw [Emits, List.map_map, ← hdat]
        simp [Function.comp_def]
      · rw [hready.workFrom_eq hD, List.length_nil]
        omega
  · -- some jobs are left
    have htop : topResult n (b.delay + 1) 0 m b.tail.length none js = none := by
      rw [topResult, if_neg hjs, if_neg (fun h => hall h.2.1)]
    rw [htop, finishMerge_none, if_neg (fun h => by have := h.2; rw [decide_eq_true_eq] at this; omega)] at hadd
    refine ⟨none, ts, hadd, ⟨by omega, .inr ⟨_, by omega, fun _ => by omega, hwork⟩⟩, hdat,
      by simp, fun h => by omega, ?_, hnext⟩
    rw [(workFrom_working hwork (by omega)).1, hcur, hlents]
    omega

/-! ### Adding data -/

theorem addData_open (hf : Filling ds b.head) (new : List β) (hlen : ds.length + new.length < 2 ^ n) :
    ∃ t, b.addData new = some { b with head := t } ∧ Filling (ds ++ new) t := by
  by_cases hnew : new = []
  · subst hnew
    exact ⟨b.head, by rw [addData, if_pos rfl], by rwa [List.append_nil]⟩
  obtain ⟨t, res, hu, ht⟩ := update_filling hf new (by omega) 0 b.seqNo
  rw [zero_add] at hu
  have hs := hf.space_eq
  refine ⟨_, ?_, ht.reset⟩
  rw [addData, if_neg hnew, if_neg (by omega), hu, Option.map_some, if_neg (by omega)]

theorem addData_full (hf : Filling ds b.head) (new : List β) (hlen : ds.length + new.length = 2 ^ n) (hnew : new ≠ []) :
    ∃ t, b.addData new = some { b with head := BTree.empty n, tail := t :: b.tail }
      ∧ Active V n 0 t ∧ t.data = ds ++ new ∧ jobsAt n t = (ds ++ new).map .base := by
  obtain ⟨t, res, hu, ht⟩ := update_filling hf new (by omega) 0 b.seqNo
  rw [zero_add] at hu
  have hs := hf.space_eq
  refine ⟨t.reset .both, ?_, reset_filled ht (by rw [List.length_append]; exact hlen), ?_, ?_⟩
  · rw [addData, if_neg hnew, if_neg (by omega), hu, Option.map_some, if_pos (by omega)]
  · rw [data_reset, ht.data_eq]
  · rw [jobsAt_reset, ht.jobsAt_leaves]

theorem Ready.cons {D : Nat} {t : BTree α β n} {ts : List (BTree α β n)} (h : Ready V D 0 ts)
    (ht : Active V n 0 t) : Working V D 0 0 (t :: ts) := by
  refine ⟨by simp, ?_⟩
  rw [Nat.zero_div, Nat.sub_zero, Nat.zero_min, Nat.zero_sub]
  split_ifs
  · exact ⟨ht, h.working⟩
  · exact ⟨ht, h.working⟩

theorem Working.tailInv (hD : 0 < D) (h : Working V D 0 0 ts) (hlen : ts.length ≤ (n + 1) * D) : TailInv V D ts where
  length_le := hlen
  phase := by
    rcases Nat.eq_zero_or_pos (total n D 0 ts.length) with h0 | hpos
    · exact .inl (h.ready hD h0)
    · exact .inr ⟨0, Nat.zero_le _, fun _ => hpos, h⟩

/-! ### Values that fit -/

/-- If every value is allowed, only the number of values counts. -/
theorem fits_of_length (hV : ∀ d v, V d v) (hlen : js.length ≤ (workFrom D 0 ts).length) : Fits V D ts js := by
  intro m hm hw i v hi
  have hlt := (List.getElem?_eq_some_iff.1 hi).1
  rw [(workFrom_working hw hm).1] at hlen
  have hlt' : m + i < (targets D 0 ts).length := by
    rw [length_targets]
    omega
  exact ⟨(targets D 0 ts)[m + i], List.getElem?_eq_getElem hlt', hV _ _⟩

theorem fits_results {f : AvailableJob α β → α} (hf : ∀ d j, JobFor V d j → V d (f j))
    : Fits V D ts ((workFrom D 0 ts).map f) :=
  fun _ hm hw => (workFrom_working hw hm).2.map hf

theorem Fits.take (h : Fits V D ts js) (k : Nat) : Fits V D ts (js.take k) :=
  fun m hm hw => (h m hm hw).take k

/-! ### Renumbering -/

section Reseq

variable (f : Int → Int) {D i m : Nat} {ts : List (BTree α β n)}

theorem Working.reseq (h : Working V D i m ts) : Working V D i m (ts.map (BTree.reseq f)) := by
  induction ts generalizing i m with
  | nil => trivial
  | cons t ts ih =>
    obtain ⟨hi, h⟩ := h
    refine ⟨hi, ?_⟩
    split_ifs at h ⊢
    · exact ⟨h.1.reseq f, ih h.2⟩
    · exact ⟨h.1.reseq f, ih h.2⟩

theorem Ready.reseq (h : Ready V D i ts) : Ready V D i (ts.map (BTree.reseq f)) := by
  induction ts generalizing i with
  | nil => trivial
  | cons t ts ih => exact ⟨h.1, h.2.1.reseq f, ih h.2.2⟩

theorem TailInv.reseq (h : TailInv V D ts) : TailInv V D (ts.map (BTree.reseq f)) where
  length_le := by rw [List.length_map]; exact h.length_le
  phase := by
    rw [List.length_map]
    rcases h.phase with hr | ⟨m, hm, hlt, hw⟩
    · exact .inl (hr.reseq f)
    · exact .inr ⟨m, hm, hlt, hw.reseq f⟩

theorem workFrom_reseq (D i : Nat) (ts : List (BTree α β n)) :
    workFrom D i (ts.map (BTree.reseq f)) = workFrom D i ts := by
  induction ts generalizing i with
  | nil => rfl
  | cons t ts ih => simp [workFrom, workOf, ih]

end Reseq

/-- Numbering the block relabels the jobs at most. -/
theorem incrSeqNo_cases (b : BState α β n) : b.incrSeqNo = { b with seqNo := b.seqNo + 1 }
      ∨ ∃ f s, b.incrSeqNo
        = { b with head := b.head.reseq f, tail := b.tail.map (BTree.reseq f), seqNo := s } := by
  rw [incrSeqNo]
  split_ifs
  · exact .inr ⟨b.newSeq, _, rfl⟩
  · exact .inl rfl

end BState

end MinaProtocol.ParallelScan
