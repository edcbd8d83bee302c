import MinaProtocol.ParallelScan.Step

/-!
# ParallelScan.Progress

Runs in which every update brings exactly the work asked for. Such an update is
never refused, and the number of trees stays within its bound: what has to be
done before the current tree may be full is kept in proportion to the room left
in it (`Paced`), since two jobs are asked for with every transaction.

`exact_step` is the step lemma, for any relation between data and values. It
holds for trees with at least two leaves; a tree of one leaf is never emitted,
and the list of trees grows until it is too long (`single_leaf_stuck`).
-/

namespace MinaProtocol.ParallelScan

open PerfectTree

variable {α β : Type} {n : Nat} {V : List β → α → Prop} {s : State α β}

namespace BState

open BTree

/-! ### Counting jobs -/

variable {i k : Nat} {D : Nat}

theorem total_full (hD : 0 < D) (h : i + k = (n + 1) * D) : total n D i k + 1 = 2 ^ (n + 1 - i / D) := by
  induction k generalizing i with
  | zero =>
    rw [Nat.add_zero] at h
    rw [total, h, Nat.mul_div_cancel _ hD, Nat.sub_self, Nat.pow_zero]
  | succ k ih =>
    have hrec := ih (i := i + 1) (by omega)
    have hi : i / D ≤ n := by
      have : i / D < n + 1 := (Nat.div_lt_iff_lt_mul hD).2 (by omega)
      omega
    rw [total]
    by_cases hw : i % D = D - 1
    · rw [succ_div_of_last hD hw] at hrec
      rw [if_pos hw, show n + 1 - i / D = n - i / D + 1 by omega, Nat.pow_succ]
      rw [show n + 1 - (i / D + 1) = n - i / D by omega] at hrec
      omega
    · rw [succ_div_of_not_last hD hw] at hrec
      rw [if_neg hw, Nat.zero_add, hrec]

theorem total_le (hD : 0 < D) (h : i + k ≤ (n + 1) * D) : total n D i k + 1 ≤ 2 ^ (n + 1 - i / D) := by
  obtain ⟨j, hj⟩ : ∃ j, i + (k + j) = (n + 1) * D := ⟨(n + 1) * D - i - k, by omega⟩
  have hmono : ∀ j, total n D i k ≤ total n D i (k + j) := by
    intro j
    induction j with
    | zero => exact Nat.le_refl _
    | succ j ih => exact ih.trans (total_succ D i (k + j))
  have := hmono j
  rw [← total_full hD hj]
  omega

/-- Without delay the jobs of one phase are half those of the phase before. -/
theorem total_double {len : Nat} (hk : k ≤ len) (hi : i + k ≤ n) : 2 * total n 1 (i + 1) k ≤ total n 1 i len := by
  induction k generalizing i len with
  | zero => exact Nat.zero_le _
  | succ k ih =>
    obtain ⟨len, rfl⟩ : ∃ l, len = l + 1 := ⟨len - 1, by omega⟩
    have hrec := ih (i := i + 1) (show k ≤ len by omega) (by omega)
    simp only [total, Nat.mod_one, Nat.sub_self, Nat.div_one, if_true]
    rw [show n - i = n - (i + 1) + 1 by omega, Nat.pow_succ]
    omega

theorem workFrom_one_nil {j : Nat} (hj : n < j) (ts : List (BTree α β n)) : workFrom 1 j ts = [] := by
  induction ts generalizing j with
  | nil => rfl
  | cons t ts ih =>
    rw [workFrom, ih (by omega), workOf, Nat.div_one, if_neg (by omega), List.append_nil]

variable {ts : List (BTree α β n)} {b : BState α β n} {new : List β} {jobs : List α} {c : Nat}

/-- Without delay: what the next phase has already, and what it lacks. -/
theorem Working.workFrom_succ {m : Nat} (h : Working V 1 i m ts) (hi : i ≤ n) (hm : m ≤ total n 1 i ts.length) :
    (workFrom 1 (i + 1) ts).length ≤ total n 1 (i + 1) (min ts.length (n - i))
      ∧ total n 1 (i + 1) (min ts.length (n - i))
        ≤ (workFrom 1 (i + 1) ts).length + (total n 1 i ts.length - m + 1) / 2 := by
  induction ts generalizing i m with
  | nil => simp [workFrom, total]
  | cons t ts ih =>
    obtain ⟨-, h⟩ := h
    rw [if_pos (Nat.mod_one i), Nat.div_one] at h
    by_cases hin : i = n
    · subst hin
      rw [Nat.sub_self, Nat.min_zero, workFrom_one_nil (Nat.lt_succ_self i)]
      simp [total]
    obtain ⟨q, hq⟩ : ∃ q, n - i = q + 1 := ⟨n - i - 1, by omega⟩
    rw [hq, Nat.pow_succ] at h
    have hjobs := jobsAt_above h.1
    have hrec := ih h.2 (by omega) (by
      rw [List.length_cons, total, if_pos (Nat.mod_one i), Nat.div_one, hq, Nat.pow_succ] at hm
      omega)
    have hdouble := total_double (n := n) (i := i + 1) (k := min ts.length (n - (i + 1)))
      (Nat.min_le_left ts.length _) (by omega)
    rw [List.length_cons, hq, show min (ts.length + 1) (q + 1) = min ts.length q + 1 by omega]
    rw [show n - (i + 1) = q by omega] at hrec hdouble
    rw [workFrom, workOf, if_pos ⟨by rw [Nat.mod_one], by rw [Nat.div_one]; omega⟩,
      List.length_append, Nat.div_one, show n - (i + 1) = q by omega, hjobs]
    simp only [total, Nat.mod_one, Nat.sub_self, Nat.div_one, if_true, hq, show n - (i + 1) = q by omega, Nat.pow_succ]
    rw [List.length_cons, total, if_pos (Nat.mod_one i), Nat.div_one, hq, Nat.pow_succ] at hm
    generalize 2 ^ q = p at *
    omega

theorem workNext_bounds (hb : Inv V b) (hts : Ready V (b.delay + 1) 0 ts) (hlen : ts.length = b.tail.length
      ∨ ts.length + 1 = b.tail.length ∧ b.tail.length = (n + 1) * (b.delay + 1))
    (hnext : 0 < b.delay → workFrom (b.delay + 1) 1 ts = workFrom (b.delay + 1) 1 b.tail) :
    b.workNext.length ≤ total n (b.delay + 1) 0 (ts.length + 1)
      ∧ total n (b.delay + 1) 0 (ts.length + 1)
        ≤ b.workNext.length + (2 ^ n - b.head.data.length) + (b.workCurrent.length + 1) / 2 := by
  have hroom := hb.room
  have hwork : (workFrom (b.delay + 1) 1 ts).length = total n (b.delay + 1) 1 ts.length :=
    (workFrom_working hts.working (Nat.zero_le _)).1
  rcases Nat.eq_zero_or_pos b.delay with h0 | hpos
  · -- no delay: the current tree is worked on next
    have hjobs : (jobsAt n b.head).length = b.head.data.length := by
      rw [hb.filling.jobsAt_leaves, List.length_map]
    have htail : TailInv V 1 b.tail := by simpa [h0] using hb.tail
    have hready : Ready V 1 0 ts := by simpa [h0] using hts
    have hle := hready.length_lt Nat.one_pos (by omega)
    simp only [workNext, workCurrent, h0, Nat.zero_add] at hlen ⊢
    rw [workFrom, workOf, if_pos ⟨by simp, by simp⟩, Nat.zero_div, Nat.sub_zero,
      List.length_append, hjobs, total, if_pos (by simp), Nat.zero_div, Nat.sub_zero]
    rcases htail.phase with hr | ⟨m, hm, -, hw⟩
    · have hlt := hr.length_lt Nat.one_pos (by omega)
      have hw1 := (workFrom_working hr.working (Nat.zero_le _)).1
      have heq : ts.length = b.tail.length := by omega
      rw [heq]
      simp only [Nat.zero_add] at hw1 ⊢
      omega
    · have hbounds := hw.workFrom_succ (Nat.zero_le n) hm
      have hcur := (workFrom_working hw hm).1
      have heq : min b.tail.length (n - 0) = ts.length := by omega
      rw [heq] at hbounds
      simp only [Nat.zero_add] at hbounds ⊢
      omega
  · -- with a delay it is the same work
    have hnot : ¬ 0 % (b.delay + 1) = b.delay + 1 - 1 := by rw [Nat.zero_mod]; omega
    rw [workNext, workFrom, workOf, if_neg (fun hc => hnot hc.1), List.nil_append, ← hnext hpos,
      hwork, total, if_neg hnot]
    simp only [Nat.zero_add]
    omega

/-! ### An update with the work asked for -/

/-- The work left is in proportion to the room left. -/
def Paced (b : BState α β n) : Prop :=
  b.workCurrent.length ≤ 2 * (2 ^ n - b.head.data.length)

/-- What an update gives out and what it keeps. -/
def Accounts (V : List β → α → Prop) (b b' : BState α β n) (new : List β) : Option (α × List β) → Prop
  | none => b'.pending = b.pending ++ new
  | some (v, d) => V d v ∧ d ++ b'.pending = b.pending ++ new

theorem Emits.accounts {b' : BState α β n} {r : Option (α × List β)} (h : Emits V b.tail ts r)
    (hpend : b'.pending = (ts.map data).reverse.flatten ++ (b.head.data ++ new)) : Accounts V b b' new r := by
  rcases r with _ | ⟨v, d⟩
  · rw [Accounts, hpend, pending, (h : ts.map data = b.tail.map data), List.append_assoc]
  · obtain ⟨hv, hd⟩ := h
    refine ⟨hv, ?_⟩
    rw [hpend, pending, hd]
    simp

/-- The number of jobs asked for. -/
theorem Inv.length_requiredWork (hb : Inv V b) (hp : b.Paced) (hc : c ≤ 2 ^ n) : (b.requiredWork c).length =
      if b.head.data.length + c < 2 ^ n then min (2 * c) b.workCurrent.length
      else b.workCurrent.length
        + min (2 * (b.head.data.length + c - 2 ^ n)) b.workNext.length := by
  have hroom := hb.room
  rw [Paced] at hp
  simp only [requiredWork, hb.maxBaseJobs_eq, hb.space_eq, Nat.min_eq_left hc]
  by_cases hover : ((2 ^ n - b.head.data.length : Nat) : Int) < (c : Int)
  · rw [if_pos hover, if_neg (by omega), List.length_append, takeInt, List.length_take]
    congr 2
    omega
  · rw [if_neg hover, List.length_take]
    by_cases hlt : b.head.data.length + c < 2 ^ n
    · rw [if_pos hlt]
    · rw [if_neg hlt]
      omega

/-- The state between the two halves of an update that fills the current tree. -/
structure Filled (b : BState α β n) (new : List β) (b2 : BState α β n) : Prop where
  delay_eq : b2.delay = b.delay
  tail_eq : ∃ t ts, b2.tail = t :: ts
    ∧ jobsAt n t = (b.head.data ++ new.take (2 ^ n - b.head.data.length)).map .base
    ∧ (0 < b.delay → workFrom (b.delay + 1) 1 ts = workFrom (b.delay + 1) 1 b.tail)

theorem not_insufficient (hk : k = (b.requiredWork c).length) : ¬ insufficientJobs b.toState c k := by
  rw [insufficientJobs, workForNextUpdate_toState, ← hk]
  exact fun h => Nat.lt_irrefl _ h.1

theorem exact_step_open (hb : Inv V b) (hp : b.Paced) (hlen : b.head.data.length + new.length < 2 ^ n)
    (hjobs : jobs.length = (b.requiredWork new.length).length)
    (hV : Fits V (b.delay + 1) b.incrSeqNo.tail (jobs.take b.workCurrent.length)) :
    ∃ r b', b.step new jobs = some (r, b') ∧ Inv V b' ∧ b'.Paced ∧ b'.delay = b.delay
      ∧ Accounts V b b' new r := by
  have hcount := hb.length_requiredWork hp (c := new.length) (by omega)
  rw [if_pos hlen, ← hjobs] at hcount
  obtain ⟨r, b2, hfirst, hb2, hdelay, hem, hdata, hwork⟩ := first_open hb new hV hlen
  have hd : dropInt new b.head.space = [] := by
    rw [dropInt, hb.space_eq, Int.toNat_natCast, List.drop_eq_nil_iff]
    omega
  have hj : jobs.drop b.workCurrent.length = [] := by
    rw [List.drop_eq_nil_iff]
    omega
  have hlist := hb2.tail.length_le
  have hmax : b2.maxTrees = (n + 1) * (b2.delay + 1) + 1 := rfl
  have hroom := hb.room
  refine ⟨r, { b2 with acc := r.or b2.acc }, ?_, ⟨hb2.maxBaseJobs_eq, hb2.filling, hb2.room,
    hb2.tail⟩, ?_, hdelay, hem.accounts ?_⟩
  · rw [step_eq, if_neg (by rw [hb.maxBaseJobs_eq]; omega), if_neg (not_insufficient hjobs), hfirst]
    simp only [Option.bind_some, hd, hj, second_nil]
    rw [if_neg (by omega)]
  · show b2.workCurrent.length ≤ 2 * (2 ^ n - b2.head.data.length)
    rw [Paced] at hp
    rw [hwork, hdata, List.length_append]
    omega
  · show b2.pending = _
    rw [pending, hdata]

section Full

variable (hb : Inv V b) (hp : b.Paced) (hnew : new.length ≤ 2 ^ n)
  (hjobs : jobs.length = (b.requiredWork new.length).length)
  (hV : Fits V (b.delay + 1) b.incrSeqNo.tail (jobs.take b.workCurrent.length))
  (hV2 : ∀ b2, Filled b new b2 → (jobs.drop b.workCurrent.length).length ≤ b2.workCurrent.length →
    Fits V (b2.delay + 1) b2.tail (jobs.drop b.workCurrent.length))

include hb hp hnew hjobs hV hV2

/-- An update that fills the current tree. -/
theorem exact_step_full (hlen : 2 ^ n ≤ b.head.data.length + new.length) :
    (n = 0 ∧ b.step new jobs = none)
      ∨ ∃ r b', b.step new jobs = some (r, b') ∧ Inv V b' ∧ b'.Paced ∧ b'.delay = b.delay
        ∧ Accounts V b b' new r := by
  have hD : 0 < b.delay + 1 := Nat.succ_pos _
  have hroom := hb.room
  have hcount := hb.length_requiredWork hp (c := new.length) hnew
  rw [if_neg (by omega), ← hjobs] at hcount
  obtain ⟨r, t, ts, b2, hfirst, hhead, htail, hdelay, hmax2, ht, htd, htj, hcomp, hem, hsome, hnext⟩
    := first_full hb new hV hlen (by omega)
  have hstep : b.step new jobs = (b2.second (new.drop (2 ^ n - b.head.data.length))
      (jobs.drop b.workCurrent.length)).bind fun b4 =>
        if b4.tail.length + 1 > b4.maxTrees then none
        else some (r, { b4 with acc := r.or b4.acc }) := by
    rw [step_eq, if_neg (by rw [hb.maxBaseJobs_eq]; omega), if_neg (not_insufficient hjobs), hfirst,
      Option.bind_some, dropInt, hb.space_eq, Int.toNat_natCast]
  rcases hcomp with hready | ⟨hn, hleaf⟩
  · right
    -- the state between the halves, and the work there
    have hready2 : Ready V (b2.delay + 1) 0 ts := by rw [hdelay]; exact hready
    obtain ⟨hb2, hw2, hnil⟩ := inv_filled (hmax2.trans hb.maxBaseJobs_eq) hhead htail ht hready2
    have hcur2 : b2.workCurrent.length = total n (b.delay + 1) 0 (ts.length + 1) := by
      rw [workCurrent, (workFrom_working hw2 (Nat.zero_le _)).1, hdelay, htail, List.length_cons, Nat.sub_zero]
    have htslen : ts.length = b.tail.length
        ∨ ts.length + 1 = b.tail.length ∧ b.tail.length = (n + 1) * (b.delay + 1) := by
      rcases r with _ | ⟨v, d⟩
      · have := congrArg List.length (hem : ts.map data = b.tail.map data)
        exact .inl (by simpa using this)
      · have := congrArg List.length hem.2
        exact .inr ⟨by simpa using this.symm, hsome rfl⟩
    obtain ⟨hupper, hlower⟩ := workNext_bounds hb hready htslen hnext
    have hfull := hready.length_lt hD (by positivity)
    have htotal := total_le (n := n) (i := 0) (k := ts.length + 1) hD (by omega)
    rw [Nat.zero_div, Nat.sub_zero, Nat.pow_succ] at htotal
    have hj2 : (jobs.drop b.workCurrent.length).length
        = min (2 * (b.head.data.length + new.length - 2 ^ n)) b.workNext.length := by
      rw [List.length_drop]
      omega
    obtain ⟨r3, b4, hsec, hb4, hdelay4, hem4, hdata4, hwork4, hsome4⟩ := second_inv hb2
      (new.drop (2 ^ n - b.head.data.length))
      (hV2 b2 ⟨hdelay, t, ts, htail, htj, hnext⟩ (by omega)) (by omega)
      (by rw [hnil, List.length_nil, List.length_drop]; omega)
    -- a second result would need more jobs than the new data can pay for
    have hr3 : r3 = none := by
      rcases r3 with _ | p
      · rfl
      · obtain ⟨h1, h2⟩ := hsome4 rfl
        have hfulltot := total_full (n := n) (i := 0) (k := ts.length + 1) hD
          (by rw [← hdelay, ← h2, htail, List.length_cons, Nat.zero_add])
        rw [Nat.zero_div, Nat.sub_zero, Nat.pow_succ] at hfulltot
        omega
    subst hr3
    have hlist := hb4.tail.length_le
    have hmax : b4.maxTrees = (n + 1) * (b4.delay + 1) + 1 := rfl
    refine ⟨r, { b4 with acc := r.or b4.acc }, ?_, ⟨hb4.maxBaseJobs_eq, hb4.filling, hb4.room,
      hb4.tail⟩, ?_, hdelay4.trans hdelay, hem.accounts ?_⟩
    · rw [hstep, hsec, Option.bind_some, if_neg (by omega)]
    · show b4.workCurrent.length ≤ 2 * (2 ^ n - b4.head.data.length)
      rw [Paced] at hp
      rw [hwork4, hdata4, hnil, List.nil_append, List.length_drop, List.length_drop]
      omega
    · show b4.pending = _
      rw [pending, hdata4, hnil, (hem4 : b4.tail.map data = b2.tail.map data), htail, List.map_cons, htd]
      simp
  · left
    refine ⟨hn, ?_⟩
    rw [hstep]
    cases hsec : b2.second (new.drop (2 ^ n - b.head.data.length))
        (jobs.drop b.workCurrent.length) with
    | none => rfl
    | some b4 =>
      rw [← hdelay] at hleaf
      rw [Option.bind_some, if_pos (second_leaf_too_long hn htail hleaf hsec)]

/-- **One update with exactly the work asked for.** It is accepted, unless a tree
is a single leaf; it gives out the oldest data with a value for it or nothing, and
keeps the rest. -/
theorem exact_step :
    (n = 0 ∧ b.step new jobs = none)
      ∨ ∃ r b', b.step new jobs = some (r, b') ∧ Inv V b' ∧ b'.Paced ∧ b'.delay = b.delay
        ∧ Accounts V b b' new r := by
  by_cases hlen : b.head.data.length + new.length < 2 ^ n
  · exact .inr (exact_step_open hb hp hlen hjobs hV)
  · exact exact_step_full hb hp hnew hjobs hV hV2 (by omega)

end Full

theorem paced_empty (k delay : Nat) : (empty (2 ^ k) delay : BState α β _).Paced :=
  Nat.zero_le _

theorem exact_step_any (hV : ∀ d v, V d v) (hb : Inv V b) (hp : b.Paced) (hnew : new.length ≤ 2 ^ n)
    (hjobs : jobs.length = (b.requiredWork new.length).length) : (n = 0 ∧ b.step new jobs = none)
      ∨ ∃ r b', b.step new jobs = some (r, b') ∧ Inv V b' ∧ b'.Paced ∧ b'.delay = b.delay
        ∧ Accounts V b b' new r := by
  refine exact_step hb hp hnew hjobs (fits_of_length hV ?_) fun b2 _ hlen =>
    fits_of_length hV hlen
  rw [incrSeqNo_workFrom, List.length_take]
  exact Nat.min_le_left _ _

theorem step_leaf_length (hb : Inv V b) (hn : n = 0) {x : β}
    {p : Option (α × List β) × BState α β n} (h : b.step [x] jobs = some p) : b.tail.length + 1 ≤ p.2.tail.length := by
  subst hn
  have hroom := hb.room
  rw [Nat.pow_zero] at hroom
  have hnil : b.head.data = [] := List.length_eq_zero_iff.1 (by omega)
  have hlen0 : b.incrSeqNo.tail.length = b.tail.length := by
    simpa only [List.length_map] using congrArg List.length (incrSeqNo_map_data b)
  rw [step_eq] at h
  split_ifs at h
  obtain ⟨⟨r, b2⟩, hfirst, h⟩ := Option.bind_eq_some_iff.1 h
  obtain ⟨b4, hsec, h⟩ := Option.bind_eq_some_iff.1 h
  obtain ⟨p1, hp1, hdata⟩ := Option.bind_eq_some_iff.1 hfirst
  obtain ⟨b2', hb2', heq⟩ := Option.map_eq_some_iff.1 hdata
  obtain ⟨-, rfl⟩ := Prod.ext_iff.1 heq
  obtain ⟨hlen1, -, hhead1⟩ := addMerge_leaf rfl hp1
  have hfill1 : Filling [] p1.2.head := by
    have := hb.incrSeqNo.filling
    rw [incrSeqNo_head_data, hnil] at this
    rwa [hhead1]
  have htake : takeInt [x] b.head.space = [x] := by
    rw [takeInt, hb.space_eq, hnil]
    rfl
  obtain ⟨t, hfull, -⟩ := addData_full (V := V) hfill1 [x] rfl (by simp)
  rw [htake, hfull, Option.some.injEq] at hb2'
  have hle := (second_leaf_length rfl hsec).1
  simp only [← hb2', List.length_cons] at hle
  split_ifs at h
  rw [Option.some.injEq] at h
  subst h
  show b.tail.length + 1 ≤ b4.tail.length
  omega

end BState

/-! ### The result -/

/-- The states reached by updates that bring exactly the work asked for. -/
inductive ExactRun (k delay : Nat) : State α β → Prop where
  | empty : ExactRun k delay (empty (2 ^ k) delay)
  | update {s s' : State α β} {data : List β} {jobs : List α} {r : Option (α × List β)} :
      ExactRun k delay s → jobs.length = (workForNextUpdate s data.length).flatten.length →
      update data jobs s = .ok (r, s') → ExactRun k delay s'

theorem length_le_of_ok {data : List β} {jobs : List α}
    {p : Option (α × List β) × State α β} (h : update data jobs s = .ok p) : data.length ≤ s.maxBaseJobs := by
  by_contra hlt
  rw [update, updateHelper, if_pos (by omega)] at h
  cases h

theorem exactRun_inv {k delay : Nat} (h : ExactRun k delay s) :
    ∃ b : BState α β (ceilLog2 (2 ^ k)), b.toState = s ∧ BState.Inv (fun _ _ => True) b
      ∧ b.Paced ∧ b.delay = delay := by
  induction h with
  | empty =>
    exact ⟨_, (BState.empty_toState _ _).symm, BState.inv_empty k delay, BState.paced_empty k delay, rfl⟩
  | update _ hjobs hu ih =>
    obtain ⟨b, rfl, hb, hp, hdelay⟩ := ih
    have hlen := length_le_of_ok hu
    obtain ⟨b', hb', rfl⟩ := BState.update_ok hu
    rw [BState.workForNextUpdate_toState] at hjobs
    rw [show b.toState.maxBaseJobs = b.maxBaseJobs from rfl, hb.maxBaseJobs_eq] at hlen
    rcases BState.exact_step_any (fun _ _ => trivial) hb hp hlen hjobs with
      ⟨-, hnone⟩ | ⟨r, b'', hstep, hinv, hpaced, hd, -⟩
    · rw [hnone] at hb'
      cases hb'
    · rw [hb', Option.some.injEq, Prod.mk.injEq] at hstep
      obtain ⟨-, rfl⟩ := hstep
      exact ⟨b', rfl, hinv, hpaced, hd.trans hdelay⟩

/-- With one transaction per tree the second update is refused: no tree ever
leaves the list. -/
theorem single_leaf_stuck : ∃ s : State Nat Nat, ExactRun 0 0 s ∧ (workForNextUpdate s 1).flatten.length = 1
      ∧ update [1] [0] s
        = .error (.ofString "Tree list length (3) exceeded maximum (2)") := by
  have r1 := ExactRun.update (.empty : ExactRun 0 0 (empty (2 ^ 0) 0 : State Nat Nat))
    (show ([] : List Nat).length = (workForNextUpdate _ [0].length).flatten.length from rfl)
    (show update [0] [] _ = .ok (_, _) from rfl)
  exact ⟨_, r1, rfl, rfl⟩

theorem single_leaf_grows (delay : Nat)
    (h : ∀ (s : State Unit Unit) (data jobs : List Unit), ExactRun 0 delay s → data.length ≤ 2 ^ 0 →
      jobs.length = (workForNextUpdate s data.length).flatten.length →
      ∃ r s', update data jobs s = .ok (r, s')) (m : Nat) :
    ∃ b : BState Unit Unit (ceilLog2 (2 ^ 0)), ExactRun 0 delay b.toState ∧ m ≤ b.tail.length := by
  induction m with
  | zero =>
    refine ⟨BState.empty (2 ^ 0) delay, ?_, Nat.zero_le _⟩
    rw [← BState.empty_toState]
    exact .empty
  | succ m ih =>
    obtain ⟨b, hrun, hm⟩ := ih
    obtain ⟨b', hb', hinv, -⟩ := exactRun_inv hrun
    have hjobs : (List.replicate (workForNextUpdate b'.toState 1).flatten.length ()).length
        = (workForNextUpdate b'.toState [()].length).flatten.length := List.length_replicate
    obtain ⟨r, s', hs'⟩ := h b'.toState [()] _ (hb' ▸ hrun) (Nat.le_refl _) hjobs
    obtain ⟨c, hc, rfl⟩ := BState.update_ok hs'
    have hgrow := BState.step_leaf_length hinv rfl hc
    have htrees := congrArg (fun s : State Unit Unit => s.trees.tail.length) hb'
    simp only [BState.toState, List.length_map] at htrees
    exact ⟨c, .update (hb' ▸ hrun) hjobs hs', by simp only at hgrow; omega⟩

/-- **Progress.** In every state reached by bringing the work asked for, an update
with the work asked for is accepted and the number of trees stays within its
bound, exactly if a tree has at least two leaves. -/
theorem exact_updates_accepted_iff (k delay : Nat) :
    (∀ (α β : Type) (s : State α β) (data : List β) (jobs : List α), ExactRun k delay s → data.length ≤ 2 ^ k →
        jobs.length = (workForNextUpdate s data.length).flatten.length →
        ∃ r s', update data jobs s = .ok (r, s') ∧ s'.trees.length ≤ (k + 1) * (delay + 1) + 1) ↔ 0 < k := by
  constructor
  · intro h
    by_contra hk
    obtain rfl : k = 0 := by omega
    -- the bound on the trees cannot hold for ever
    obtain ⟨b, hrun, hlen⟩ := single_leaf_grows delay
      (fun s data jobs hs hd hj => by
        obtain ⟨r, s', hu, -⟩ := h Unit Unit s data jobs hs hd hj
        exact ⟨r, s', hu⟩) (delay + 2)
    obtain ⟨b', hb', hinv, -, hdelay⟩ := exactRun_inv hrun
    have hle := hinv.tail.length_le
    have htrees := congrArg (fun s : State Unit Unit => s.trees.tail.length) hb'
    simp only [BState.toState, List.length_map] at htrees
    rw [hdelay, show ceilLog2 (2 ^ 0) + 1 = 1 from rfl, Nat.one_mul] at hle
    omega
  · intro hk α β s data jobs hs hdata hjobs
    obtain ⟨b, rfl, hb, hp, hdelay⟩ := exactRun_inv hs
    rw [BState.workForNextUpdate_toState] at hjobs
    have hn := ceilLog2_two_pow k
    rcases BState.exact_step_any (fun _ _ => trivial) hb hp (by rw [hn]; exact hdata) hjobs with
      ⟨h0, -⟩ | ⟨r, b', hstep, hinv, -, hd, -⟩
    · omega
    · refine ⟨r, b'.toState, BState.update_of_step hstep, ?_⟩
      have hlen := hinv.tail.length_le
      rw [show ceilLog2 (2 ^ k) + 1 = k + 1 by omega, hd, hdelay] at hlen
      simp only [BState.toState, NonemptyList.length, NonemptyList.toList, List.length_cons, List.length_map]
      omega

end MinaProtocol.ParallelScan
