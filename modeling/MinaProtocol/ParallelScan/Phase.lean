import MinaProtocol.ParallelScan.Binary
import MinaProtocol.Lib.Aligned

/-!
# ParallelScan.Phase

The life of one tree. A tree is first filled with data from left to right
(`Filling`); then its jobs are done level by level, starting at the leaves, each
level from left to right. `Active V a c t` describes the moment when `c` jobs of
the level at depth `a` are done: everything below is finished, the level above
holds what the `c` results have been combined to, and the weights count what is
left. `V` relates a job's data to the values allowed for it; it is the meaning of
the values where they matter and the trivial relation where only the numbers do.

One lemma says what each operation of a tree does to these descriptions
(`update_active`, `reset_active`, `reset_completed`, `update_filling`,
`reset_filled`), and one what can be read off them (`jobsAt_active`).
-/

namespace MinaProtocol.ParallelScan

open PerfectTree

variable {α β : Type} {n : Nat} {V : List β → α → Prop}

theorem Weight.mergeLens_get_set (x : Int) (w : Weight) : mergeLens.get (mergeLens.set x w) = x :=
  rfl

theorem Weight.baseLens_get_set (x : Int) (w : Weight) : baseLens.get (baseLens.set x w) = x :=
  rfl

namespace BTree

/-! ### The shape of a tree at work -/

/-- All jobs are done. -/
def Finished : {n : Nat} → BTree α β n → Prop
  | 0, .leaf b => ∃ d s, b.2 = .full ⟨d, s, .done⟩
  | _ + 1, .node m l r =>
    (∃ x y s, m.2 = .full ⟨x, y, s, .done⟩) ∧ Finished l ∧ Finished r

/-- The status of a single job, `c` telling whether it has been done. -/
def statusAfter (c : Nat) : JobStatus := if c = 0 then .todo else .done

/-- The job of a node above the active level: `a + 1` levels above it, with `c`
jobs done below the node. -/
def Above (V : List β → α → Prop) : Nat → Nat → List β → List β → Merge.Job α → Prop
  | 0, 0, _, _, j => j = .empty
  | 0, 1, dl, _, j => ∃ x, j = .part x ∧ V dl x
  | 0, _ + 2, dl, dr, j => ∃ x y s, j = .full ⟨x, y, s, .todo⟩ ∧ V dl x ∧ V dr y
  | _ + 1, _, _, _, j => j = .empty

/-- The jobs at depth `a` are worked on and the first `c` of them are done. -/
def Active (V : List β → α → Prop) : {n : Nat} → Nat → Nat → BTree α β n → Prop
  | 0, 0, c, .leaf b => c ≤ 1 ∧ b.1.merge = 1 ∧ ∃ d s, b.2 = .full ⟨d, s, statusAfter c⟩
  | 0, _ + 1, _, .leaf _ => False
  | _ + 1, 0, c, .node m l r =>
    c ≤ 1 ∧ (c = 0 → m.1.1.merge = 1 ∧ m.1.2.merge = 0)
      ∧ (∃ x y s, m.2 = .full ⟨x, y, s, statusAfter c⟩ ∧ V (data l) x ∧ V (data r) y)
      ∧ Finished l ∧ Finished r
  | _ + 1, a + 1, c, .node m l r =>
    m.1.1.merge = (2 ^ a - c : Nat) ∧ m.1.2.merge = (2 ^ a - (c - 2 ^ a) : Nat)
      ∧ Above V a c (data l) (data r) m.2
      ∧ Active V a (min c (2 ^ a)) l ∧ Active V a (c - 2 ^ a) r

/-- The data below each node at depth `a`. -/
def segs : {n : Nat} → Nat → BTree α β n → List (List β)
  | _, 0, t => [data t]
  | 0, _ + 1, .leaf _ => []
  | _ + 1, a + 1, .node _ l r => segs a l ++ segs a r

variable {a c : Nat} {t : BTree α β n} {js : List α} {j : Merge.Job α} {w : Weight × Weight} {ds : List β}
  {lens : Lens Weight Int} {l r : BTree α β n} {m : MergeNode α} {dl dr : List β} {d L : Int} {p b : Nat}

theorem Active.le_height (h : Active V a c t) : a ≤ n := by
  induction t generalizing a c with
  | leaf b =>
    cases a with
    | zero => exact Nat.le_refl 0
    | succ a => exact h.elim
  | node m l r ihl ihr =>
    cases a with
    | zero => exact Nat.zero_le _
    | succ a => exact Nat.succ_le_succ (ihl h.2.2.2.1)

theorem Active.le_pow (h : Active V a c t) : c ≤ 2 ^ a := by
  induction t generalizing a c with
  | leaf b =>
    cases a with
    | zero => exact h.1
    | succ a => exact h.elim
  | node m l r ihl ihr =>
    cases a with
    | zero => exact h.1
    | succ a =>
      have hr := ihr h.2.2.2.2
      rw [Nat.pow_succ]
      omega

theorem length_segs (ha : a ≤ n) (t : BTree α β n) : (segs a t).length = 2 ^ a := by
  induction n generalizing a with
  | zero =>
    obtain rfl : a = 0 := by omega
    cases t
    rfl
  | succ n ih =>
    cases t with | node m l r =>
    cases a with
    | zero => rfl
    | succ a =>
      rw [segs, List.length_append, ih (by omega), ih (by omega), Nat.pow_succ]
      omega

theorem flatten_segs (ha : a ≤ n) (t : BTree α β n) : (segs a t).flatten = data t := by
  induction n generalizing a with
  | zero =>
    obtain rfl : a = 0 := by omega
    cases t
    simp [segs]
  | succ n ih =>
    cases t with | node m l r =>
    cases a with
    | zero => simp [segs]
    | succ a => rw [segs, List.flatten_append, ih (by omega), ih (by omega), data]

/-- The merge weight of the root counts the jobs left. -/
theorem Active.required_eq (h : Active V a c t) (hc : c = 0 ∨ 0 < a) : required t = ((2 ^ a - c : Nat) : Int) := by
  have hle := h.le_pow
  cases t with
  | leaf b =>
    cases a with
    | zero =>
      obtain rfl : c = 0 := by omega
      exact h.2.1
    | succ a => exact h.elim
  | node m l r =>
    cases a with
    | zero =>
      obtain rfl : c = 0 := by omega
      obtain ⟨h1, h2⟩ := h.2.1 rfl
      simp [required, h1, h2]
    | succ a =>
      obtain ⟨h1, h2, -⟩ := h
      rw [Nat.pow_succ] at hle ⊢
      simp only [required, h1, h2]
      omega

/-! ### Completing jobs -/

/-- What `add_merges` does on the active level: the job is marked as done. -/
theorem addMerges_at (hlen : c + js.length ≤ 1) (w : Weight × Weight) (x y : α) (s d seqNo : Int) :
    ∃ w', (Tree.addMerges d seqNo Weight.mergeLens (js.map (.merge : α → Job α β)) d
          (w, .full ⟨x, y, s, statusAfter c⟩)).toOption
        = some ((w', .full ⟨x, y, s, statusAfter (c + js.length)⟩), if d = 0 then js.head? else none)
      ∧ (c + js.length = 0 → w' = w) := by
  have hd : ¬ d = d - 1 := by omega
  simp only [Tree.addMerges]
  rw [if_neg hd, if_pos trivial]
  match js, c, hlen with
  | [], c, _ => exact ⟨w, by simp [Except.toOption], fun _ => rfl⟩
  | [v], 0, _ =>
    by_cases hd0 : d = 0
    · exact ⟨_, by simp [Except.toOption, statusAfter, hd0]; rfl, by simp⟩
    · exact ⟨w, by simp [Except.toOption, statusAfter, hd0], by simp⟩
  | v :: v' :: js, c, hlen => simp only [List.length_cons] at hlen; omega
  | [v], c + 1, hlen => simp only [List.length_cons, List.length_nil] at hlen; omega

/-- What `add_merges` does right above the active level: results are combined to
new jobs. -/
theorem addMerges_above (hj : Above V 0 c dl dr j) (hc : c ≤ 2) (hV : Aligned V [dl, dr] c js)
    (d seqNo : Int) (h1 : w.1.merge = (1 - c : Nat)) (h2 : w.2.merge = (1 - (c - 1) : Nat)) :
    ∃ w' j', (Tree.addMerges (d + 1) seqNo Weight.mergeLens
          (js.map (.merge : α → Job α β)) d (w, j)).toOption = some ((w', j'), none)
      ∧ w'.1.merge = (1 - (c + js.length) : Nat)
      ∧ w'.2.merge = (1 - (c + js.length - 1) : Nat)
      ∧ Above V 0 (c + js.length) dl dr j' := by
  have hlen := hV.length_le hc
  simp only [List.length_cons, List.length_nil] at hlen
  have hd : d = d + 1 - 1 := by omega
  have hfst : ∀ v, js[0]? = some v → c = 0 → V dl v := by
    intro v hv hc0
    obtain ⟨x, hx, hxv⟩ := hV 0 v hv
    simp only [hc0, List.getElem?_cons_zero, Nat.add_zero, Option.some.injEq] at hx
    rwa [hx]
  simp only [Tree.addMerges]
  rw [if_pos hd]
  match c, js, hj with
  | c, [], hj =>
    exact ⟨w, j, rfl, h1, h2, hj⟩
  | 0, [v], hj =>
    obtain rfl := hj
    refine ⟨_, _, rfl, ?_, ?_, v, rfl, hfst v rfl rfl⟩
    · simp [Weight.mergeLens, h1]
    · simp [Weight.mergeLens, h2]
  | 0, [v, v'], hj =>
    obtain rfl := hj
    obtain ⟨x, hx, hxv⟩ := hV 1 v' rfl
    simp only [Nat.zero_add, List.getElem?_cons_succ, List.getElem?_cons_zero, Option.some.injEq] at hx
    subst hx
    refine ⟨_, _, rfl, ?_, ?_, v, v', seqNo, rfl, hfst v rfl rfl, hxv⟩
    · simp [Weight.mergeLens, h1]
    · simp [Weight.mergeLens, h2]
  | 1, [v], hj =>
    obtain ⟨x, rfl, hx⟩ := hj
    obtain ⟨y, hy, hyv⟩ := hV 0 v rfl
    simp only [Nat.add_zero, List.getElem?_cons_succ, List.getElem?_cons_zero, Option.some.injEq] at hy
    subst hy
    refine ⟨_, _, rfl, ?_, ?_, x, v, seqNo, rfl, hx, hyv⟩
    · simp [Weight.mergeLens, h1]
    · simp [Weight.mergeLens, h2]
  | c + 2, v :: js, hj =>
    simp only [List.length_cons] at hlen
    omega
  | c + 1, v :: v' :: js, hj =>
    simp only [List.length_cons] at hlen
    omega
  | 0, v :: v' :: v'' :: js, hj =>
    simp only [List.length_cons] at hlen
    omega

/-- What `add_merges` does further up: the weights are lowered by what is sent to
either side. -/
theorem addMerges_far (hlens : ∀ x w, lens.get (lens.set x w) = x) {k : Nat} {js : List (Job α β)}
    (hk : js.length = k) (hle : c + k ≤ 2 * p) (hd : d < L - 1) (seqNo : Int)
    (h1 : lens.get w.1 = (p - c : Nat)) (h2 : lens.get w.2 = (p - (c - p) : Nat)) :
    ∃ w', (Tree.addMerges L seqNo lens js d (w, j)).toOption = some ((w', j), none)
      ∧ lens.get w'.1 = (p - (c + k) : Nat) ∧ lens.get w'.2 = (p - (c + k - p) : Nat) := by
  have hd1 : ¬ d = L - 1 := by omega
  have hd2 : ¬ d = L := by omega
  simp only [Tree.addMerges]
  rw [if_neg hd1, if_neg hd2, if_pos hd]
  cases js with
  | nil =>
    obtain rfl : k = 0 := by simpa using hk.symm
    exact ⟨w, rfl, h1, h2⟩
  | cons x js =>
    refine ⟨_, rfl, ?_, ?_⟩
    · simp only [hlens, hk, h1]
      omega
    · simp only [hlens, hk, h1, h2]
      omega

theorem jobsSplit_eq {js : List (Job α β)} (hle : c + js.length ≤ 2 * p) (h1 : lens.get w.1 = (p - c : Nat))
    (h2 : lens.get w.2 = (p - (c - p) : Nat)) : Tree.jobsSplit lens w js = (js.take (p - c), js.drop (p - c)) := by
  have hdrop : (js.drop (p - c)).take (p - (c - p)) = js.drop (p - c) := by
    apply List.take_of_length_le
    rw [List.length_drop]
    omega
  simp only [Tree.jobsSplit, takeInt, dropInt, h1, h2, Int.toNat_natCast, hdrop]

/-- The node of `update_active` above the active level. -/
theorem addMerges_active (hj : Above V a c (data l) (data r) j) (hc : c ≤ 2 ^ (a + 1))
    (hV : Aligned V (segs a l ++ segs a r) c js) (hlen : c + js.length ≤ 2 ^ (a + 1))
    (d seqNo : Int) (h1 : w.1.merge = (2 ^ a - c : Nat)) (h2 : w.2.merge = (2 ^ a - (c - 2 ^ a) : Nat)) :
    ∃ w' j', (Tree.addMerges (d + (a + 1 : Nat)) seqNo Weight.mergeLens
          (js.map (.merge : α → Job α β)) d (w, j)).toOption = some ((w', j'), none)
      ∧ w'.1.merge = (2 ^ a - (c + js.length) : Nat)
      ∧ w'.2.merge = (2 ^ a - (c + js.length - 2 ^ a) : Nat)
      ∧ Above V a (c + js.length) (data l) (data r) j' := by
  cases a with
  | zero =>
    have hV' : Aligned V [data l, data r] c js := by simpa [segs] using hV
    exact addMerges_above hj hc hV' d seqNo h1 h2
  | succ a =>
    have hk : (js.map (.merge : α → Job α β)).length = js.length := List.length_map _
    obtain ⟨w', hw', h1', h2'⟩ 
      := addMerges_far Weight.mergeLens_get_set (j := j) (d := d)
        (L := d + (a + 1 + 1 : Nat)) hk (by rw [Nat.pow_succ] at hlen; omega) (by omega) seqNo h1 h2
    exact ⟨w', j, hw', h1', h2', hj⟩

/-- **Completing jobs.** Results that fit the open jobs of the active level are
accepted and counted; a result comes out of the root and nowhere else. -/
theorem update_active (h : Active V a c t) (hV : Aligned V (segs a t) c js) (hd : 0 ≤ d) (seqNo : Int) :
    ∃ t', update (js.map .merge) (d + a) seqNo Weight.mergeLens d t
        = some (t', if n ≠ 0 ∧ d + a = 0 then js.head? else none)
      ∧ Active V a (c + js.length) t' ∧ segs a t' = segs a t := by
  have hlen := hV.length_le (by rw [length_segs h.le_height]; exact h.le_pow)
  rw [length_segs h.le_height] at hlen
  induction t generalizing a c js d with
  | leaf b =>
    cases a with
    | succ a => exact h.elim
    | zero =>
      obtain ⟨hc, hw, x, s, hb⟩ := h
      rcases b with ⟨w, j⟩
      obtain rfl : j = _ := hb
      match js, c, hlen with
      | [], c, _ => exact ⟨_, rfl, ⟨hc, hw, x, s, rfl⟩, rfl⟩
      | [v], 0, _ => exact ⟨_, rfl, ⟨Nat.le_refl 1, hw, x, s, rfl⟩, rfl⟩
      | v :: v' :: js, c, hlen => simp only [List.length_cons] at hlen; omega
      | [v], c + 1, hlen => simp only [List.length_cons, List.length_nil] at hlen; omega
  | @node n m l r ihl ihr =>
    rcases m with ⟨w, j⟩
    cases a with
    | zero =>
      obtain ⟨hc, hw, ⟨x, y, s, hj, hx, hy⟩, hl, hr⟩ := h
      obtain rfl : j = _ := hj
      obtain ⟨w', hw', hww⟩ := addMerges_at (β := β) hlen w x y s d seqNo
      rw [Nat.cast_zero, add_zero, update_node_stop, hw']
      refine ⟨.node (w', .full ⟨x, y, s, statusAfter (c + js.length)⟩) l r, by simp, ⟨hlen, ?_, ⟨x, y, s, rfl, hx, hy⟩, hl, hr⟩, rfl⟩
      intro h0
      rw [hww h0]
      exact hw (by omega)
    | succ a =>
      have hc := h.le_pow
      obtain ⟨h1, h2, hab, hl, hr⟩ := h
      have hll := length_segs hl.le_height l
      have hp : 2 ^ (a + 1) = 2 * 2 ^ a := by rw [Nat.pow_succ]; omega
      rw [segs] at hV
      obtain ⟨w', j', hw', h1', h2', hab'⟩ := addMerges_active hab hc hV hlen d seqNo h1 h2
      -- each half gets its share of the results
      have hVl := hV.left
      have hVr := hV.right
      rw [hll] at hVl hVr
      have hmin : 2 ^ a - min c (2 ^ a) = 2 ^ a - c := by omega
      rw [hmin] at hVl hVr
      have hd1 : d + 1 + (a : Int) = d + (a + 1 : Nat) := by push_cast; omega
      obtain ⟨l', hul, hal, hsl⟩ := ihl hl hVl (d := d + 1) (by omega)
        (by rw [List.length_take]; omega)
      obtain ⟨r', hur, har, hsr⟩ := ihr hr hVr (d := d + 1) (by omega)
        (by rw [List.length_drop]; omega)
      rw [hd1, List.map_take] at hul
      rw [hd1, List.map_drop] at hur
      rw [update_node_down (by push_cast; omega), hw', jobsSplit_eq (by rw [List.length_map]; omega) h1 h2]
      simp only [Option.bind_some, hul, hur, Option.map_some]
      have hroot : ¬ (n + 1 ≠ 0 ∧ d + ((a + 1 : Nat) : Int) = 0) := by omega
      rw [if_neg hroot]
      refine ⟨.node (w', j') l' r', rfl, ⟨h1', h2', ?_, ?_, ?_⟩, by rw [segs, segs, hsl, hsr]⟩
      · rw [← flatten_segs hal.le_height, ← flatten_segs har.le_height, hsl, hsr,
          flatten_segs hl.le_height, flatten_segs hr.le_height]
        exact hab'
      · rw [List.length_take] at hal
        rwa [show min (c + js.length) (2 ^ a) = min c (2 ^ a) + min (2 ^ a - c) js.length by omega]
      · rw [List.length_drop] at har
        rwa [show c + js.length - 2 ^ a = c - 2 ^ a + (js.length - (2 ^ a - c)) by omega]

/-! ### Reading the jobs -/

/-- What a job is about: a leaf's datum, or two values whose data make up the node's. -/
def JobFor (V : List β → α → Prop) : List β → AvailableJob α β → Prop
  | ds, .base d => ds = [d]
  | ds, .merge x y => ∃ dl dr, ds = dl ++ dr ∧ V dl x ∧ V dr y

theorem jobsAt_finished (h : Finished t) (b : Nat) : jobsAt b t = [] := by
  induction t generalizing b with
  | leaf w =>
    obtain ⟨d, s, hw⟩ := h
    cases b with
    | zero => simp [jobsAt, hw, baseTodo]
    | succ b => rfl
  | node m l r ihl ihr =>
    obtain ⟨⟨x, y, s, hm⟩, hl, hr⟩ := h
    cases b with
    | zero => simp [jobsAt, hm, mergeTodo]
    | succ b => rw [jobsAt, ihl hl, ihr hr, List.append_nil]

/-- **The jobs of the active level** are those not done yet, in order. -/
theorem jobsAt_active (h : Active V a c t) :
    (jobsAt a t).length = 2 ^ a - c ∧ Aligned (JobFor V) (segs a t) c (jobsAt a t) := by
  induction t generalizing a c with
  | leaf b =>
    cases a with
    | succ a => exact h.elim
    | zero =>
      obtain ⟨hc, -, d, s, hb⟩ := h
      rcases Nat.le_one_iff_eq_zero_or_eq_one.1 hc with rfl | rfl
      · simp only [jobsAt, hb, statusAfter, baseTodo, segs, data, leafData, if_true]
        refine ⟨rfl, ?_⟩
        intro i y hi
        obtain ⟨rfl, rfl⟩ : i = 0 ∧ .base d = y := by
          cases i <;> simp_all
        exact ⟨[d], rfl, rfl⟩
      · simp [jobsAt, hb, statusAfter, baseTodo]
  | node m l r ihl ihr =>
    cases a with
    | zero =>
      obtain ⟨hc, -, ⟨x, y, s, hm, hx, hy⟩, -, -⟩ := h
      rcases Nat.le_one_iff_eq_zero_or_eq_one.1 hc with rfl | rfl
      · simp only [jobsAt, hm, statusAfter, mergeTodo, segs, data, if_true]
        refine ⟨rfl, ?_⟩
        intro i j hi
        obtain ⟨rfl, rfl⟩ : i = 0 ∧ .merge x y = j := by
          cases i <;> simp_all
        exact ⟨data l ++ data r, rfl, data l, data r, rfl, hx, hy⟩
      · simp [jobsAt, hm, statusAfter, mergeTodo]
    | succ a =>
      have hc := h.le_pow
      obtain ⟨-, -, -, hl, hr⟩ := h
      obtain ⟨hll, hal⟩ := ihl hl
      obtain ⟨hlr, har⟩ := ihr hr
      have hsl := length_segs hl.le_height l
      rw [Nat.pow_succ] at hc ⊢
      refine ⟨by rw [jobsAt, List.length_append, hll, hlr]; omega, ?_⟩
      rw [jobsAt, segs]
      rw [← hsl] at hal har
      exact hal.join (by rw [hll, hsl]; omega) har

theorem jobsAt_above (h : Active V (a + 1) c t) : (jobsAt a t).length = c / 2 := by
  induction t generalizing a c with
  | leaf b => exact h.elim
  | node m l r ihl ihr =>
    have hc := h.le_pow
    obtain ⟨-, -, hab, hl, hr⟩ := h
    cases a with
    | zero =>
      match c, hab with
      | 0, hab =>
        have hm : m.2 = .empty := hab
        simp [jobsAt, mergeTodo, hm]
      | 1, hab => obtain ⟨x, hm, -⟩ := hab; simp [jobsAt, mergeTodo, hm]
      | c + 2, hab =>
        obtain ⟨x, y, s, hm, -⟩ := hab
        obtain rfl : c = 0 := by omega
        simp [jobsAt, mergeTodo, hm]
    | succ a =>
      rw [jobsAt, List.length_append, ihl hl, ihr hr, Nat.pow_succ]
      omega

theorem jobsAt_other (h : Active V a c t) (hb : b ≠ a) (hb' : b + 1 ≠ a) : jobsAt b t = [] := by
  induction t generalizing a b c with
  | leaf w =>
    cases a with
    | succ a => exact h.elim
    | zero =>
      cases b with
      | zero => exact absurd rfl hb
      | succ b => rfl
  | node m l r ihl ihr =>
    cases a with
    | zero =>
      obtain ⟨-, -, -, hl, hr⟩ := h
      cases b with
      | zero => exact absurd rfl hb
      | succ b => rw [jobsAt, jobsAt_finished hl, jobsAt_finished hr, List.append_nil]
    | succ a =>
      obtain ⟨-, -, hab, hl, hr⟩ := h
      cases b with
      | zero =>
        cases a with
        | zero => exact absurd rfl hb'
        | succ a =>
          have hm : m.2 = .empty := hab
          simp [jobsAt, hm, mergeTodo]
      | succ b =>
        rw [jobsAt, ihl hl (by omega) (by omega), ihr hr (by omega) (by omega), List.append_nil]

/-! ### Recomputing the weights -/

section Reset

variable (wt : Tree.WeightType)

@[simp] theorem data_reset (t : BTree α β n) : data (reset wt t) = data t := by
  simp only [reset]
  induction n with
  | zero => cases t; rfl
  | succ n ih => cases t with | node m l r => simp only [PerfectTree.accumulate, data, ih]

@[simp] theorem jobsAt_reset (b : Nat) (t : BTree α β n) : jobsAt b (reset wt t) = jobsAt b t := by
  simp only [reset]
  induction t generalizing b with
  | leaf b => cases b <;> rfl
  | node m l r ihl ihr =>
    cases b with
    | zero => simp only [PerfectTree.accumulate, jobsAt, resetMerge_job]
    | succ b => simp only [PerfectTree.accumulate, jobsAt, ihl, ihr]

end Reset

/-- `reset_weights Merge` with the weights it hands up. -/
def resetUp (t : BTree α β n) : BTree α β n × (Weight × Weight) :=
  PerfectTree.accumulate (Tree.resetMerge .merge) (Tree.resetBase .merge) t

theorem resetUp_fst (t : BTree α β n) : (resetUp t).1 = reset .merge t := rfl

theorem resetUp_node (m : MergeNode α) (l r : BTree α β n) : resetUp (.node m l r)
      = (.node (Tree.resetMerge .merge ((resetUp l).2, (resetUp r).2) m).1 (resetUp l).1
          (resetUp r).1, (Tree.resetMerge .merge ((resetUp l).2, (resetUp r).2) m).2) := rfl

/-- A node without a job to do takes over the sums of its halves. -/
theorem resetMerge_sum (lst : (Weight × Weight) × (Weight × Weight)) (hm : ∀ x y s, m.2 ≠ .full ⟨x, y, s, .todo⟩) :
    (Tree.resetMerge .merge lst m).2.1.merge = lst.1.1.merge + lst.1.2.merge
      ∧ (Tree.resetMerge .merge lst m).2.2.merge = lst.2.1.merge + lst.2.2.merge
      ∧ (Tree.resetMerge .merge lst m).1.1 = (Tree.resetMerge .merge lst m).2 := by
  rcases m with ⟨w, _ | _ | ⟨x, y, s, _ | _⟩⟩
  · exact ⟨rfl, rfl, rfl⟩
  · exact ⟨rfl, rfl, rfl⟩
  · exact absurd rfl (hm x y s)
  · exact ⟨rfl, rfl, rfl⟩

theorem resetUp_finished (h : Finished t) :
    Finished (resetUp t).1 ∧ (resetUp t).2.1.merge = 0 ∧ (resetUp t).2.2.merge = 0 := by
  induction t with
  | leaf b =>
    rcases b with ⟨w, j⟩
    obtain ⟨d, s, rfl⟩ := h
    exact ⟨⟨d, s, rfl⟩, rfl, rfl⟩
  | node m l r ihl ihr =>
    obtain ⟨⟨x, y, s, hm⟩, hl, hr⟩ := h
    obtain ⟨hfl, hl1, hl2⟩ := ihl hl
    obtain ⟨hfr, hr1, hr2⟩ := ihr hr
    obtain ⟨h1, h2, -⟩ := resetMerge_sum ((resetUp l).2, (resetUp r).2) (m := m)
      (by simp [hm])
    rw [resetUp_node]
    refine ⟨⟨⟨x, y, s, by rw [resetMerge_job, hm]⟩, hfl, hfr⟩, ?_, ?_⟩
    · rw [h1, hl1, hl2, add_zero]
    · rw [h2, hr1, hr2, add_zero]

theorem Active.finished (h : Active V 0 1 t) : Finished t := by
  cases t with
  | leaf b =>
    obtain ⟨-, -, d, s, hb⟩ := h
    exact ⟨d, s, hb⟩
  | node m l r =>
    obtain ⟨-, -, ⟨x, y, s, hm, -⟩, hl, hr⟩ := h
    exact ⟨⟨x, y, s, hm⟩, hl, hr⟩

theorem Above.not_todo (h : Above V a c dl dr j) (hc : c = 0 ∨ 0 < a) : j = .empty := by
  cases a with
  | zero =>
    obtain rfl : c = 0 := by omega
    exact h
  | succ a => exact h

/-- The new weights of a node whose halves hand up `p` each, and which has no job itself. -/
theorem resetUp_node_empty (hm : m.2 = .empty) (hl : (resetUp l).2.1.merge + (resetUp l).2.2.merge = p)
    (hr : (resetUp r).2.1.merge + (resetUp r).2.2.merge = p) :
    ∃ w, resetUp (.node m l r) = (.node (w, .empty) (reset .merge l) (reset .merge r), w)
      ∧ w.1.merge = p ∧ w.2.merge = p := by
  obtain ⟨h1, h2, h3⟩ := resetMerge_sum ((resetUp l).2, (resetUp r).2) (m := m) (by simp [hm])
  refine ⟨(Tree.resetMerge .merge ((resetUp l).2, (resetUp r).2) m).2, ?_, ?_, ?_⟩
  · rw [resetUp_node, resetUp_fst, resetUp_fst]
    congr 2
    refine Prod.ext h3 ?_
    rw [resetMerge_job, hm]
  · rw [h1, hl]
  · rw [h2, hr]

/-- Recomputing the weights changes nothing while a level is untouched. -/
theorem resetUp_active (h : Active V a 0 t) : Active V a 0 (reset .merge t)
      ∧ (resetUp t).2.1.merge + (resetUp t).2.2.merge = (2 ^ a : Nat) := by
  induction t generalizing a with
  | leaf b =>
    cases a with
    | succ a => exact h.elim
    | zero =>
      rcases b with ⟨w, j⟩
      obtain ⟨hc, hw, d, s, rfl⟩ := h
      exact ⟨⟨hc, rfl, d, s, rfl⟩, rfl⟩
  | node m l r ihl ihr =>
    cases a with
    | zero =>
      rcases m with ⟨w, j⟩
      obtain ⟨hc, -, ⟨x, y, s, rfl, hx, hy⟩, hl, hr⟩ := h
      refine ⟨⟨hc, fun _ => ⟨rfl, rfl⟩, ⟨x, y, s, rfl, ?_, ?_⟩, (resetUp_finished hl).1, (resetUp_finished hr).1⟩, rfl⟩
      · exact (data_reset .merge l).symm ▸ hx
      · exact (data_reset .merge r).symm ▸ hy
    | succ a =>
      obtain ⟨-, -, hab, hl, hr⟩ := h
      have hm := hab.not_todo (.inl rfl)
      rw [Nat.zero_min] at hl
      rw [Nat.zero_sub] at hr
      obtain ⟨hal, hsl⟩ := ihl hl
      obtain ⟨har, hsr⟩ := ihr hr
      obtain ⟨w, hw, h1, h2⟩ := resetUp_node_empty hm hsl hsr
      rw [← resetUp_fst, hw]
      refine ⟨⟨h1, by rw [h2, Nat.zero_sub, Nat.sub_zero], ?_, ?_, ?_⟩, ?_⟩
      · rw [data_reset, data_reset, ← hm]
        exact hab
      · rwa [Nat.zero_min]
      · rwa [Nat.zero_sub]
      · simp only [h1, h2]
        rw [Nat.pow_succ]
        omega

theorem resetUp_completed (h : Active V (a + 1) (2 ^ (a + 1)) t) : Active V a 0 (reset .merge t)
      ∧ (resetUp t).2.1.merge + (resetUp t).2.2.merge = (2 ^ a : Nat) := by
  induction t generalizing a with
  | leaf b => exact h.elim
  | node m l r ihl ihr =>
    have hp : 2 ^ (a + 1) - 2 ^ a = 2 ^ a := by rw [Nat.pow_succ]; omega
    obtain ⟨-, -, hab, hl, hr⟩ := h
    rw [Nat.min_eq_right (by omega)] at hl
    rw [hp] at hr
    cases a with
    | zero =>
      rcases m with ⟨w, j⟩
      obtain ⟨x, y, s, rfl, hx, hy⟩ := hab
      refine ⟨⟨Nat.zero_le 1, fun _ => ⟨rfl, rfl⟩, ⟨x, y, s, rfl, ?_, ?_⟩,
        (resetUp_finished hl.finished).1, (resetUp_finished hr.finished).1⟩, rfl⟩
      · exact (data_reset .merge l).symm ▸ hx
      · exact (data_reset .merge r).symm ▸ hy
    | succ a =>
      have hm : m.2 = .empty := hab
      obtain ⟨hal, hsl⟩ := ihl hl
      obtain ⟨har, hsr⟩ := ihr hr
      obtain ⟨w, hw, h1, h2⟩ := resetUp_node_empty hm hsl hsr
      rw [← resetUp_fst, hw]
      refine ⟨⟨h1, by rw [h2, Nat.zero_sub, Nat.sub_zero], ?_, ?_, ?_⟩, ?_⟩
      · cases a <;> rfl
      · rwa [Nat.zero_min]
      · rwa [Nat.zero_sub]
      · simp only [h1, h2]
        rw [Nat.pow_succ]
        omega

theorem reset_active (h : Active V a 0 t) : Active V a 0 (reset .merge t) := (resetUp_active h).1

theorem reset_completed (h : Active V (a + 1) (2 ^ (a + 1)) t) :
    Active V a 0 (reset .merge t) := (resetUp_completed h).1

/-! ### Filling a tree -/

/-- The data `ds` fills the leaves from the left; no job has been done. -/
def Filling : {n : Nat} → List β → BTree α β n → Prop
  | 0, ds, .leaf b =>
    (ds = [] ∧ b.1.base = 1 ∧ b.2 = .empty)
      ∨ ∃ d s, ds = [d] ∧ b.1.base = 0 ∧ b.2 = .full ⟨d, s, .todo⟩
  | n + 1, ds, .node m l r =>
    m.2 = .empty ∧ m.1.1.base = (2 ^ n - ds.length : Nat)
      ∧ m.1.2.base = (2 ^ n - (ds.length - 2 ^ n) : Nat)
      ∧ Filling (ds.take (2 ^ n)) l ∧ Filling (ds.drop (2 ^ n)) r

variable (h : Filling ds t)

include h

theorem Filling.length_le : ds.length ≤ 2 ^ n := by
  induction t generalizing ds with
  | leaf b =>
    rcases h with ⟨rfl, -⟩ | ⟨d, s, rfl, -⟩
    · exact Nat.zero_le _
    · exact Nat.le_refl _
  | node m l r ihl ihr =>
    have hr := ihr h.2.2.2.2
    rw [List.length_drop] at hr
    rw [Nat.pow_succ]
    omega

theorem Filling.space_eq : space t = (2 ^ n - ds.length : Nat) := by
  have hle := h.length_le
  cases t with
  | leaf b =>
    rcases h with ⟨rfl, hb, -⟩ | ⟨d, s, rfl, hb, -⟩
    · exact hb
    · exact hb
  | node m l r =>
    obtain ⟨-, h1, h2, -⟩ := h
    rw [Nat.pow_succ] at hle ⊢
    simp only [space, h1, h2]
    omega

theorem Filling.data_eq : data t = ds := by
  induction t generalizing ds with
  | leaf b =>
    rcases h with ⟨rfl, -, hb⟩ | ⟨d, s, rfl, -, hb⟩ <;> simp [data, hb, leafData]
  | node m l r ihl ihr =>
    rw [data, ihl h.2.2.2.1, ihr h.2.2.2.2, List.take_append_drop]

theorem Filling.jobsAt_leaves : jobsAt n t = ds.map .base := by
  induction t generalizing ds with
  | leaf b =>
    rcases h with ⟨rfl, -, hb⟩ | ⟨d, s, rfl, -, hb⟩ <;> simp [jobsAt, hb, baseTodo]
  | node m l r ihl ihr =>
    rw [jobsAt, ihl h.2.2.2.1, ihr h.2.2.2.2, ← List.map_append, List.take_append_drop]

theorem Filling.jobsAt_other (hb : b ≠ n) : jobsAt b t = [] := by
  induction n generalizing ds b with
  | zero =>
    cases t
    cases b with
    | zero => exact absurd rfl hb
    | succ b => rfl
  | succ n ih =>
    cases t with | node m l r =>
    cases b with
    | zero => simp [jobsAt, h.1, mergeTodo]
    | succ b =>
      rw [jobsAt, ih h.2.2.2.1 (by omega), ih h.2.2.2.2 (by omega), List.append_nil]

omit h

/-- What `add_merges` does with data right above the leaves. -/
theorem addMerges_bases (hlen : c + ds.length ≤ 2)
    (d seqNo : Int) (h1 : w.1.base = (1 - c : Nat)) (h2 : w.2.base = (1 - (c - 1) : Nat)) :
    ∃ w', (Tree.addMerges (d + 1) seqNo Weight.baseLens (ds.map (.base : β → Job α β)) d
          (w, .empty)).toOption = some ((w', .empty), none)
      ∧ w'.1.base = (1 - (c + ds.length) : Nat) ∧ w'.2.base = (1 - (c + ds.length - 1) : Nat) := by
  have hd : d = d + 1 - 1 := by omega
  simp only [Tree.addMerges]
  rw [if_pos hd]
  match c, ds, hlen with
  | c, [], _ => exact ⟨w, rfl, h1, h2⟩
  | 0, [x], _ =>
    refine ⟨_, rfl, ?_, ?_⟩ <;> simp [Weight.baseLens, h1, h2]
  | 1, [x], _ =>
    refine ⟨_, rfl, ?_, ?_⟩ <;> simp [Weight.baseLens, h1, h2]
  | 0, [x, y], _ =>
    refine ⟨_, rfl, ?_, ?_⟩ <;> simp [Weight.baseLens, h1, h2]
  | c + 2, x :: ds, hlen => simp only [List.length_cons] at hlen; omega
  | c + 1, x :: y :: ds, hlen => simp only [List.length_cons] at hlen; omega
  | 0, x :: y :: z :: ds, hlen => simp only [List.length_cons] at hlen; omega

include h

/-- **Adding data.** Data that fits is put into the next free leaves. -/
theorem update_filling (new : List β) (hlen : ds.length + new.length ≤ 2 ^ n) (d seqNo : Int) :
    ∃ t' res, update (new.map .base) (d + n) seqNo Weight.baseLens d t = some (t', res)
      ∧ Filling (ds ++ new) t' := by
  induction t generalizing ds new d with
  | leaf b =>
    rcases b with ⟨w, j⟩
    match ds, new, h, hlen with
    | ds, [], h, _ => exact ⟨.leaf (w, j), none, rfl, by rw [List.append_nil]; exact h⟩
    | [], [x], h, _ =>
      rcases h with ⟨-, hw, rfl⟩ | ⟨_, _, h, -⟩
      · have hw' : w.base = 1 := hw
        exact ⟨_, none, rfl, .inr ⟨x, seqNo, rfl, by simp [Weight.baseLens, hw'], rfl⟩⟩
      · cases h
    | d :: ds, x :: new, h, hlen => simp only [List.length_cons] at hlen; omega
    | [], x :: y :: new, h, hlen => simp only [List.length_cons] at hlen; omega
  | @node n m l r ihl ihr =>
    rcases m with ⟨w, j⟩
    have hle := h.length_le
    obtain ⟨rfl, h1, h2, hl, hr⟩ := h
    have hp : 2 ^ (n + 1) = 2 * 2 ^ n := by rw [Nat.pow_succ]; omega
    have hnode : ∃ w', (Tree.addMerges (d + (n + 1 : Nat)) seqNo Weight.baseLens
          (new.map (.base : β → Job α β)) d (w, .empty)).toOption = some ((w', .empty), none)
        ∧ w'.1.base = (2 ^ n - (ds.length + new.length) : Nat)
        ∧ w'.2.base = (2 ^ n - (ds.length + new.length - 2 ^ n) : Nat) := by
      cases n with
      | zero => exact addMerges_bases hlen d seqNo h1 h2
      | succ n =>
        have hk : (new.map (.base : β → Job α β)).length = new.length := List.length_map _
        exact addMerges_far Weight.baseLens_get_set hk (by omega) (by push_cast; omega) seqNo
          h1 h2
    obtain ⟨w', hw', h1', h2'⟩ := hnode
    have hd1 : d + 1 + (n : Int) = d + (n + 1 : Nat) := by push_cast; omega
    obtain ⟨l', resl, hul, hfl⟩ := ihl hl (new.take (2 ^ n - ds.length))
      (by rw [List.length_take, List.length_take]; omega) (d + 1)
    obtain ⟨r', resr, hur, hfr⟩ := ihr hr (new.drop (2 ^ n - ds.length))
      (by rw [List.length_drop, List.length_drop]; omega) (d + 1)
    rw [hd1, List.map_take] at hul
    rw [hd1, List.map_drop] at hur
    rw [update_node_down (by push_cast; omega), hw', jobsSplit_eq (by rw [List.length_map]; omega) h1 h2]
    simp only [Option.bind_some, hul, hur, Option.map_some]
    refine ⟨.node (w', .empty) l' r', none, rfl, rfl, ?_, ?_, ?_, ?_⟩
    · rw [List.length_append]; exact h1'
    · rw [List.length_append]; exact h2'
    · rwa [List.take_append]
    · rwa [List.drop_append]

theorem Filling.reset : Filling ds (reset .merge t) := by
  induction t generalizing ds with
  | leaf b =>
    rcases b with ⟨w, j⟩
    rcases h with ⟨rfl, hw, rfl⟩ | ⟨d, s, rfl, hw, rfl⟩
    · exact .inl ⟨rfl, hw, rfl⟩
    · exact .inr ⟨d, s, rfl, hw, rfl⟩
  | node m l r ihl ihr =>
    rcases m with ⟨w, j⟩
    obtain ⟨rfl, h1, h2, hl, hr⟩ := h
    exact ⟨rfl, h1, h2, ihl hl, ihr hr⟩

/-- **A full tree.** Recomputing both weights starts the work on the leaves. -/
theorem reset_filled (hlen : ds.length = 2 ^ n) : Active V n 0 (reset .both t) := by
  have key : ∀ {n : Nat} {ds : List β} {t : BTree α β n}, Filling ds t → ds.length = 2 ^ n →
      Active V n 0 (PerfectTree.accumulate (Tree.resetMerge .both) (Tree.resetBase .both) t).1
      ∧ (PerfectTree.accumulate (Tree.resetMerge .both) (Tree.resetBase .both) t).2.1.merge
        + (PerfectTree.accumulate (Tree.resetMerge .both) (Tree.resetBase .both) t).2.2.merge
          = (2 ^ n : Nat) := by
    intro n
    induction n with
    | zero =>
      intro ds t h hlen
      cases t with | leaf b =>
      rcases b with ⟨w, j⟩
      rcases h with ⟨rfl, -⟩ | ⟨d, s, rfl, hw, rfl⟩
      · cases hlen
      · exact ⟨⟨Nat.zero_le 1, rfl, d, s, rfl⟩, rfl⟩
    | succ n ih =>
      intro ds t h hlen
      cases t with | node m l r =>
      rcases m with ⟨w, j⟩
      obtain ⟨rfl, -, -, hl, hr⟩ := h
      rw [Nat.pow_succ] at hlen
      obtain ⟨hal, hsl⟩ := ih hl (by rw [List.length_take]; omega)
      obtain ⟨har, hsr⟩ := ih hr (by rw [List.length_drop]; omega)
      refine ⟨⟨?_, ?_, ?_, ?_, ?_⟩, ?_⟩
      · exact hsl
      · rw [Nat.zero_sub, Nat.sub_zero]; exact hsr
      · cases n <;> rfl
      · rwa [Nat.zero_min]
      · rwa [Nat.zero_sub]
      · refine Eq.trans (congrArg₂ (· + ·) hsl hsr) ?_
        rw [Nat.pow_succ]
        omega
  exact (key h hlen).1

omit h

theorem filling_empty : Filling [] (empty n : BTree α β n) := by
  have key : ∀ (m d : Nat), d + m = n → Filling []
      (PerfectTree.const (emptyMerge n) (⟨1, 0⟩, .empty) m (d : Int) : BTree α β m) := by
    intro m
    induction m with
    | zero => intro d _; exact .inl ⟨rfl, rfl, rfl⟩
    | succ m ih =>
      intro d hd
      have hx : (2 : Int) ^ n / 2 ^ ((d : Int) + 1).toNat = (2 ^ m : Nat) := by
        have : ((d : Int) + 1).toNat = d + 1 := by omega
        rw [this, ← hd, show d + (m + 1) = m + (d + 1) by omega, pow_add]
        rw [Int.mul_ediv_cancel _ (by positivity)]
        push_cast
        rfl
      have hrec := ih (d + 1) (by omega)
      refine ⟨rfl, hx, by rw [List.length_nil, Nat.zero_sub]; exact hx, ?_, ?_⟩
      · simpa using hrec
      · simpa using hrec
  exact key n 0 (by omega)

/-! ### Renumbering -/

section Reseq

variable (f : Int → Int)

/-- `reset_seq_no` on one tree. -/
def reseq (t : BTree α β n) : BTree α β n := t.map (reseqMerge f) (reseqBase f)

@[simp] theorem reseq_node (m : MergeNode α) (l r : BTree α β n) :
    reseq f (.node m l r) = .node (reseqMerge f m) (reseq f l) (reseq f r) := map_node _ _ _ _ _

@[simp] theorem reseq_leaf (b : BaseNode β) : reseq f (.leaf b : BTree α β 0) = .leaf (reseqBase f b) := rfl

@[simp] theorem data_reseq (t : BTree α β n) : data (reseq f t) = data t := by
  induction n with
  | zero =>
    cases t with | leaf b =>
    rcases b with ⟨w, _ | r⟩ <;> rfl
  | succ n ih => cases t with | node m l r => simp [data, ih]

@[simp] theorem jobsAt_reseq (b : Nat) (t : BTree α β n) : jobsAt b (reseq f t) = jobsAt b t := by
  induction t generalizing b with
  | leaf w =>
    cases b with
    | zero => rcases w with ⟨w, _ | ⟨d, s, _ | _⟩⟩ <;> rfl
    | succ b => rfl
  | node m l r ihl ihr =>
    cases b with
    | zero => rcases m with ⟨w, _ | _ | ⟨x, y, s, _ | _⟩⟩ <;> rfl
    | succ b => simp [jobsAt, ihl, ihr]

theorem Finished.reseq {t : BTree α β n} (h : Finished t) : Finished (reseq f t) := by
  induction t with
  | leaf b =>
    rcases b with ⟨w, j⟩
    obtain ⟨d, s, rfl⟩ := h
    exact ⟨d, f s, rfl⟩
  | node m l r ihl ihr =>
    rcases m with ⟨w, j⟩
    obtain ⟨⟨x, y, s, rfl⟩, hl, hr⟩ := h
    rw [reseq_node]
    exact ⟨⟨x, y, f s, rfl⟩, ihl hl, ihr hr⟩

theorem Active.reseq {a c : Nat} {t : BTree α β n} (h : Active V a c t) : Active V a c (reseq f t) := by
  induction t generalizing a c with
  | leaf b =>
    cases a with
    | succ a => exact h.elim
    | zero =>
      rcases b with ⟨w, j⟩
      obtain ⟨hc, hw, d, s, rfl⟩ := h
      exact ⟨hc, hw, d, f s, rfl⟩
  | node m l r ihl ihr =>
    rcases m with ⟨w, j⟩
    rw [reseq_node]
    cases a with
    | zero =>
      obtain ⟨hc, hw, ⟨x, y, s, rfl, hx, hy⟩, hl, hr⟩ := h
      refine ⟨hc, hw, ⟨x, y, f s, rfl, ?_, ?_⟩, hl.reseq f, hr.reseq f⟩
      · rwa [data_reseq]
      · rwa [data_reseq]
    | succ a =>
      obtain ⟨h1, h2, hab, hl, hr⟩ := h
      have hw : (reseqMerge f (w, j)).1 = w := by rcases j with _ | _ | r <;> rfl
      refine ⟨by rw [hw]; exact h1, by rw [hw]; exact h2, ?_, ihl hl, ihr hr⟩
      rw [data_reseq, data_reseq]
      match a, c, hab with
      | 0, 0, hab => obtain rfl : j = _ := hab; rfl
      | 0, 1, hab => obtain ⟨x, rfl, hx⟩ := hab; exact ⟨x, rfl, hx⟩
      | 0, c + 2, hab =>
        obtain ⟨x, y, s, rfl, hx, hy⟩ := hab
        exact ⟨x, y, f s, rfl, hx, hy⟩
      | a + 1, c, hab => obtain rfl : j = _ := hab; rfl

theorem Filling.reseq {ds : List β} {t : BTree α β n} (h : Filling ds t) : Filling ds (reseq f t) := by
  induction t generalizing ds with
  | leaf b =>
    rcases b with ⟨w, j⟩
    rcases h with ⟨rfl, hw, rfl⟩ | ⟨d, s, rfl, hw, rfl⟩
    · exact .inl ⟨rfl, hw, rfl⟩
    · exact .inr ⟨d, f s, rfl, hw, rfl⟩
  | node m l r ihl ihr =>
    rcases m with ⟨w, j⟩
    obtain ⟨rfl, h1, h2, hl, hr⟩ := h
    rw [reseq_node]
    exact ⟨rfl, h1, h2, ihl hl, ihr hr⟩

end Reseq

end BTree

end MinaProtocol.ParallelScan
