import MinaProtocol.IndexedPool.Runs

/-!
# IndexedPool.Transactions

`transactions`: the commands of the pool in the order in which a block takes them. Of the first commands of the
queues, those that are still to come, the next one pays most by weight unit. What carries the iteration is that
its applicable commands are the first ones of what is left of the queues.
-/

namespace MinaProtocol.IndexedPool

open Std

variable {H : Nat → Option UserCommand}
  {set : ExtTreeSet (Command H)} {m : MapSet ℚ (Command H)} {c : Command H} {fee : ℚ}

/-- What `transactions` goes on with: the applicable commands, and the queues that are left. -/
structure Iteration (H : Nat → Option UserCommand) where
  applicableByFee : MapSet ℚ (Command H)
  allBySender : ExtTreeMap AccountId (List (Command H))

/-- `applicable_by_fee'`: the command is taken out of the set of its fee. -/
def takeOut (m : MapSet ℚ (Command H)) (fee : ℚ) (set : ExtTreeSet (Command H)) (txn : Command H) :
    MapSet ℚ (Command H) :=
  if (set.erase txn).isEmpty then m.erase fee else ExtTreeMap.insert m fee (set.erase txn)

/-- The step of `Sequence.unfold` in `transactions`; `none` where it raises. -/
def nextTransaction (s : Iteration H) : Option (Option (Command H × Iteration H)) :=
  match s.applicableByFee.toList.getLast? with
  | none => if s.allBySender.isEmpty then some none else none
  | some (fee, set) => do
    let txn ← set.toList.head?
    let applicableByFee := takeOut s.applicableByFee fee set txn
    match ← s.allBySender[txn.sender]? with
    | [] => none
    | headTxn :: senderQueue =>
      if txn.hash = headTxn.hash then
        match senderQueue with
        | nextTxn :: _ =>
          some (some (txn, ⟨MapSet.insert applicableByFee nextTxn.feePerWu nextTxn,
            s.allBySender.insert txn.sender senderQueue⟩))
        | [] => some (some (txn, ⟨applicableByFee, s.allBySender.erase txn.sender⟩))
      -- the sender's queue is malformed
      else some (some (txn, ⟨applicableByFee, s.allBySender.erase txn.sender⟩))

/-- The sequence from a state on; `none` where it raises, or has more elements than `bound`. -/
def unfoldTransactions : Nat → Iteration H → Option (List (Command H))
  | 0, _ => none
  | bound + 1, s => do
    match ← nextTransaction s with
    | none => some []
    | some (txn, s) => (unfoldTransactions bound s).map (txn :: ·)

/-- `transactions`, read as a list. -/
def transactions (bound : Nat) (t : Pool H) : Option (List (Command H)) :=
  unfoldTransactions bound ⟨t.applicableByFee, t.allBySender.map fun _ p => p.1⟩

/-! ### The greedy order -/

/-- The first command of a queue that pays most by weight unit, and of those the first one. -/
def PaysMost (queues : AccountId → List (Command H)) (c : Command H) : Prop :=
  (queues c.sender).head? = some c ∧
    ∀ s d, (queues s).head? = some d → d.feePerWu < c.feePerWu ∨ (d.feePerWu = c.feePerWu ∧ c ≤ d)

/-- The queues after the first command of a sender. -/
def advance (queues : AccountId → List (Command H)) (s : AccountId) : AccountId → List (Command H) :=
  Function.update queues s (queues s).tail

/-- **The commands are taken greedily** from the fronts of the queues, until the queues are empty. -/
def Greedy (queues : AccountId → List (Command H)) : List (Command H) → Prop
  | [] => ∀ s, queues s = []
  | c :: l => PaysMost queues c ∧ Greedy (advance queues c.sender) l

variable {queues : AccountId → List (Command H)}

section Greedy

variable {l : List (Command H)} {c : Command H} {s : AccountId}

theorem advance_self : advance queues s s = (queues s).tail := Function.update_self _ _ _

theorem advance_of_ne {s' : AccountId} (h : s' ≠ s) : advance queues s s' = queues s' := Function.update_of_ne h _ _

theorem PaysMost.queue_eq (h : PaysMost queues c) : queues c.sender = c :: (queues c.sender).tail :=
  List.eq_cons_of_mem_head? h.1

/-- **Each sender's commands** come in the order of its queue. -/
theorem Greedy.filter_sender (h : Greedy queues l) (hs : ∀ s, ∀ c ∈ queues s, c.sender = s) (s : AccountId) :
    l.filter (fun c => c.sender = s) = queues s := by
  induction l generalizing queues with
  | nil => rw [List.filter_nil, h s]
  | cons c l ih =>
    have hqueue := h.1.queue_eq
    have hadvance : ∀ s', ∀ d ∈ advance queues c.sender s', d.sender = s' := by
      intro s' d hd
      by_cases hs' : s' = c.sender
      · rw [hs', advance_self] at hd
        rw [hs']
        exact hs _ d (List.mem_of_mem_tail hd)
      · rw [advance_of_ne hs'] at hd
        exact hs s' d hd
    have hrest := ih h.2 hadvance
    by_cases hc : c.sender = s
    · subst hc
      rw [List.filter_cons_of_pos (by simp), hrest, advance_self, ← hqueue]
    · rw [List.filter_cons_of_neg (by simp [hc]), hrest, advance_of_ne (Ne.symm hc)]

/-- **Every command comes once.** -/
theorem Greedy.mem_iff (h : Greedy queues l) (hs : ∀ s, ∀ c ∈ queues s, c.sender = s) :
    c ∈ l ↔ c ∈ queues c.sender := by
  rw [← h.filter_sender hs c.sender]
  simp

theorem Greedy.nodup (h : Greedy queues l) (hs : ∀ s, ∀ c ∈ queues s, c.sender = s) (hnodup : ∀ s, (queues s).Nodup) :
    l.Nodup := by
  refine List.nodup_iff_count_le_one.2 fun c => ?_
  have hcount : (l.filter fun d => d.sender = c.sender).count c = l.count c := List.count_filter (by simp)
  rw [← hcount, h.filter_sender hs]
  exact List.nodup_iff_count_le_one.1 (hnodup c.sender) c

end Greedy

/-! ### The iteration -/

/-- **The invariant of the iteration**: the applicable commands are the first ones of the queues that are left. -/
structure Iterates (s : Iteration H) (queues : AccountId → List (Command H)) : Prop where
  allBySender : ∀ a, s.allBySender[a]? = if queues a = [] then none else some (queues a)
  applicableByFee : Indexes Command.feePerWu s.applicableByFee {c | ∃ a, (queues a).head? = some c}
  sender : ∀ a, ∀ c ∈ queues a, c.sender = a
  nodup : ∀ a, (queues a).Nodup

theorem getLast?_toList (h : m.toList.getLast? = some (fee, set)) :
    m[fee]? = some set ∧ ∀ (k : ℚ) (s : ExtTreeSet (Command H)), m[k]? = some s → k ≤ fee := by
  have hmem : (fee, set) ∈ m.toList := List.mem_of_getLast? h
  refine ⟨ExtTreeMap.mem_toList_iff_getElem?_eq_some.1 hmem, fun k s hk => ?_⟩
  have hordered := ExtTreeMap.ordered_keys_toList (t := m)
  obtain ⟨l, hl⟩ := List.getLast?_eq_some_iff.1 h
  have hk' := ExtTreeMap.mem_toList_iff_getElem?_eq_some.2 hk
  rw [hl] at hordered hk'
  rcases List.mem_append.1 hk' with hk' | hk'
  · have hlt := (List.pairwise_append.1 hordered).2.2 _ hk' _ (List.mem_singleton.2 rfl)
    exact (compare_lt_iff_lt.1 hlt).le
  · rw [(Prod.mk.inj (List.mem_singleton.1 hk')).1]

theorem head?_toList (h : set.toList.head? = some c) : c ∈ set ∧ ∀ d ∈ set, c ≤ d := by
  refine ⟨ExtTreeSet.mem_toList.1 (List.mem_of_head? h), fun d hd => ?_⟩
  have hordered := ExtTreeSet.ordered_toList (t := set)
  have hd' := ExtTreeSet.mem_toList.2 hd
  rw [List.eq_cons_of_mem_head? h] at hordered hd'
  rcases List.mem_cons.1 hd' with rfl | hd'
  · exact le_rfl
  · exact (compare_lt_iff_lt.1 ((List.pairwise_cons.1 hordered).1 d hd')).le

theorem takeOut_eq (h : m[fee]? = some set) : m.removeExn fee c = some (takeOut m fee set c) := by
  unfold MapSet.removeExn takeOut
  rw [h]
  dsimp only
  split <;> rfl

theorem heads_advance {queues : AccountId → List (Command H)} (hc : (queues c.sender).head? = some c)
    (hs : ∀ a, ∀ d ∈ queues a, d.sender = a) : {d | ∃ a, (advance queues c.sender a).head? = some d} =
      {d | (queues c.sender).tail.head? = some d} ∪ ({d | ∃ a, (queues a).head? = some d} \ {c}) := by
  ext d
  constructor
  · intro h
    obtain ⟨a, ha⟩ := h
    by_cases hac : a = c.sender
    · rw [hac, advance_self] at ha
      exact .inl ha
    · rw [advance_of_ne hac] at ha
      refine .inr ⟨⟨a, ha⟩, fun hdc => hac ?_⟩
      rw [← hs a d (List.mem_of_mem_head? ha), Set.mem_singleton_iff.1 hdc]
  · intro h
    rcases h with h | ⟨⟨a, ha⟩, hdc⟩
    · exact ⟨c.sender, by rw [advance_self]; exact h⟩
    · have hac : a ≠ c.sender := by
        intro hac
        rw [hac, hc] at ha
        exact hdc (Option.some.inj ha).symm
      exact ⟨a, by rw [advance_of_ne hac]; exact ha⟩

namespace Iterates

variable {s : Iteration H} {c : Command H}

variable (h : Iterates s queues)

include h

theorem getElem?_of_head (hc : (queues c.sender).head? = some c) :
    s.allBySender[c.sender]? = some (c :: (queues c.sender).tail) := by
  have hqueue := List.eq_cons_of_mem_head? hc
  rw [h.allBySender, if_neg (by rw [hqueue]; exact List.cons_ne_nil _ _), ← hqueue]

theorem advance_ok {applicableByFee : MapSet ℚ (Command H)} {allBySender : ExtTreeMap AccountId (List (Command H))}
    (hindex : Indexes Command.feePerWu applicableByFee {d | ∃ a, (advance queues c.sender a).head? = some d})
    (hself : allBySender[c.sender]? = if (queues c.sender).tail = [] then none else some (queues c.sender).tail)
    (hother : ∀ a, a ≠ c.sender → allBySender[a]? = s.allBySender[a]?) :
    Iterates ⟨applicableByFee, allBySender⟩ (advance queues c.sender) := by
  refine ⟨fun a => ?_, hindex, fun a d hd => ?_, fun a => ?_⟩
  all_goals by_cases ha : a = c.sender
  · rw [ha, advance_self]
    exact hself
  · rw [advance_of_ne ha]
    exact (hother a ha).trans (h.allBySender a)
  · rw [ha, advance_self] at hd
    rw [ha]
    exact h.sender _ d (List.mem_of_mem_tail hd)
  · rw [advance_of_ne ha] at hd
    exact h.sender a d hd
  · rw [ha, advance_self]
    exact (h.nodup _).tail
  · rw [advance_of_ne ha]
    exact h.nodup a

theorem empty_of_getLast? (hlast : s.applicableByFee.toList.getLast? = none) (a : AccountId) : queues a = [] := by
  cases hq : queues a with
  | nil => rfl
  | cons d q =>
    obtain ⟨set, hset, -⟩ := (h.applicableByFee.at_iff d.feePerWu d).2 ⟨⟨a, by rw [hq]; rfl⟩, rfl⟩
    rw [List.getLast?_eq_none_iff, ExtTreeMap.toList_eq_nil_iff] at hlast
    rw [hlast] at hset
    simp at hset

/-- **The step**: it ends with the queues, or takes the command that pays most. -/
theorem nextTransaction_cases : (nextTransaction s = some none ∧ ∀ a, queues a = []) ∨
      ∃ c s', nextTransaction s = some (some (c, s')) ∧ PaysMost queues c ∧ Iterates s' (advance queues c.sender) := by
  unfold nextTransaction
  cases hlast : s.applicableByFee.toList.getLast? with
  | none =>
    have hempty := h.empty_of_getLast? hlast
    have hsenders : s.allBySender.isEmpty = true := by
      rw [ExtTreeMap.isEmpty_iff]
      refine ExtTreeMap.ext_getElem? fun a => ?_
      rw [h.allBySender, if_pos (hempty a)]
      simp
    exact .inl ⟨by simp [hsenders], hempty⟩
  | some p =>
    obtain ⟨fee, set⟩ := p
    obtain ⟨hfee, hmax⟩ := getLast?_toList hlast
    cases hfirst : set.toList.head? with
    | none =>
      obtain ⟨c, hc⟩ := h.applicableByFee.noEmpty fee set hfee
      rw [List.head?_eq_none_iff] at hfirst
      have hmem := ExtTreeSet.mem_toList.2 hc
      rw [hfirst] at hmem
      exact absurd hmem List.not_mem_nil
    | some c =>
      obtain ⟨hc, hmin⟩ := head?_toList hfirst
      obtain ⟨⟨a, ha⟩, hcfee⟩ := (h.applicableByFee.at_iff fee c).1 ⟨set, hfee, hc⟩
      obtain rfl := h.sender a c (List.mem_of_mem_head? ha)
      have hmost : PaysMost queues c := by
        refine ⟨ha, fun b d hd => ?_⟩
        obtain ⟨set', hset', hd'⟩ := (h.applicableByFee.at_iff d.feePerWu d).2 ⟨⟨b, hd⟩, rfl⟩
        rcases (hmax _ _ hset').lt_or_eq with hlt | heq
        · exact .inl (by rw [hcfee]; exact hlt)
        · rw [heq, hfee] at hset'
          rw [← Option.some.inj hset'] at hd'
          exact .inr ⟨by rw [hcfee]; exact heq, hmin d hd'⟩
      have hremoved := h.applicableByFee.of_removeExn (v := c) (by rw [hcfee]; exact takeOut_eq hfee)
      have hheads := heads_advance ha h.sender
      have hqueue := h.getElem?_of_head ha
      refine .inr ?_
      cases htail : (queues c.sender).tail with
      | nil =>
        refine ⟨c, ⟨takeOut s.applicableByFee fee set c, s.allBySender.erase c.sender⟩, ?_, hmost, h.advance_ok ?_ ?_ ?_⟩
        · simp [hfirst, hqueue, htail]
        · rw [hheads, htail]
          simpa using hremoved
        · rw [htail]
          simp
        · intro b hb
          rw [ExtTreeMap.getElem?_erase, if_neg (by simpa using Ne.symm hb)]
      | cons next rest =>
        refine ⟨c, ⟨MapSet.insert (takeOut s.applicableByFee fee set c) next.feePerWu next,
          s.allBySender.insert c.sender (next :: rest)⟩, ?_, hmost, h.advance_ok ?_ ?_ ?_⟩
        · simp [hfirst, hqueue, htail]
        · rw [hheads, htail]
          have hset : {d | (next :: rest).head? = some d} = {next} := by
            ext d
            simp [eq_comm]
          rw [hset, Set.singleton_union]
          exact hremoved.insert next
        · rw [htail]
          simp
        · intro b hb
          rw [ExtTreeMap.getElem?_insert, if_neg (by simpa using Ne.symm hb)]

/-- **The whole iteration** ends, and takes the commands greedily. -/
theorem exists_greedy {left : List (Command H)} (hleft : ∀ a, ∀ c ∈ queues a, c ∈ left) :
    ∃ l, Greedy queues l ∧ ∀ bound, l.length < bound → unfoldTransactions bound s = some l := by
  induction hn : left.length generalizing s queues left with
  | zero =>
    rw [List.length_eq_zero_iff] at hn
    subst hn
    have hempty : ∀ a, queues a = [] := fun a => List.eq_nil_iff_forall_not_mem.2 fun c hc => absurd (hleft a c hc) List.not_mem_nil
    obtain ⟨hend, -⟩ | ⟨c, -, -, hmost, -⟩ := h.nextTransaction_cases
    · refine ⟨[], hempty, fun bound hbound => ?_⟩
      obtain ⟨bound, rfl⟩ := Nat.exists_eq_succ_of_ne_zero (Nat.ne_of_gt hbound)
      simp [unfoldTransactions, hend]
    · have hhead := hmost.1
      rw [hempty] at hhead
      cases hhead
  | succ n ih =>
    obtain ⟨hend, hempty⟩ | ⟨c, s', hnext, hmost, h'⟩ := h.nextTransaction_cases
    · refine ⟨[], hempty, fun bound hbound => ?_⟩
      obtain ⟨bound, rfl⟩ := Nat.exists_eq_succ_of_ne_zero (Nat.ne_of_gt hbound)
      simp [unfoldTransactions, hend]
    · have hqueue := hmost.queue_eq
      have hc : c ∈ left := hleft c.sender c (by rw [hqueue]; exact List.mem_cons_self)
      -- the command that is taken is in no queue any more
      have hrest : ∀ a, ∀ d ∈ advance queues c.sender a, d ∈ left.erase c := by
        intro a d hd
        have hsender := h'.sender a d hd
        have hne : d ≠ c := by
          intro hdc
          rw [← hsender, hdc, advance_self] at hd
          have hnodup := h.nodup c.sender
          rw [hqueue] at hnodup
          exact (List.nodup_cons.1 hnodup).1 hd
        have hmem : d ∈ queues a := by
          by_cases ha : a = c.sender
          · rw [ha, advance_self] at hd
            rw [ha]
            exact List.mem_of_mem_tail hd
          · rwa [advance_of_ne ha] at hd
        exact (List.mem_erase_of_ne hne).2 (hleft a d hmem)
      obtain ⟨l, hgreedy, hl⟩ := ih h' hrest (by rw [List.length_erase_of_mem hc, hn]; rfl)
      refine ⟨c :: l, ⟨hmost, hgreedy⟩, fun bound hbound => ?_⟩
      obtain ⟨bound, rfl⟩ := Nat.exists_eq_succ_of_ne_zero (Nat.ne_of_gt ((Nat.zero_le _).trans_lt hbound))
      rw [unfoldTransactions, hnext]
      simp only [Option.bind_eq_bind, Option.bind_some]
      rw [hl bound (by simpa using hbound)]
      rfl

omit h

end Iterates

theorem Consistent.iterates {t : Pool H} (h : Consistent t) :
    Iterates ⟨t.applicableByFee, t.allBySender.map fun _ p => p.1⟩ (queue t) where
  allBySender := by
    intro a
    by_cases hq : queue t a = []
    · simp [hq, h.find_none hq]
    · simp [hq, (h.queue_ok hq).1]
  applicableByFee := h.indexed.applicableByFee
  sender := fun _ _ hc => h.sender_eq hc
  nodup := fun a => (h.consecutive a).nodup

/-- **The order of the commands for a block.** The sequence ends without raising; every command of the pool comes
in it once; those of a sender come in the order of their nonces; and each one pays most, by weight unit, of the
first commands of all senders that have not come before it. -/
theorem transactions_greedy {t : Pool H} (h : Consistent t) :
    ∃ l, (∀ bound, l.length < bound → transactions bound t = some l) ∧ l.Nodup ∧ (∀ c, c ∈ l ↔ c ∈ commands t) ∧
      (∀ s, (l.filter fun c => c.sender = s) = queue t s ∧
        (l.filter fun c => c.sender = s).Pairwise fun c d => c.nonce < d.nonce) ∧
      Greedy (queue t) l := by
  have hleft : ∀ a, ∀ c ∈ queue t a, c ∈ t.allBySender.toList.flatMap fun p => p.2.1 := by
    intro a c hc
    have hfind := (h.queue_ok (List.ne_nil_of_mem hc)).1
    exact List.mem_flatMap.2 ⟨_, ExtTreeMap.mem_toList_iff_getElem?_eq_some.2 hfind, hc⟩
  obtain ⟨l, hgreedy, hl⟩ := h.iterates.exists_greedy hleft
  have hsender : ∀ s, ∀ c ∈ queue t s, c.sender = s := fun _ _ hc => h.sender_eq hc
  refine ⟨l, hl, hgreedy.nodup hsender fun s => (h.consecutive s).nodup, fun c => ?_, fun s => ⟨hgreedy.filter_sender hsender s, ?_⟩,
    hgreedy⟩
  · rw [hgreedy.mem_iff hsender, h.mem_commands]
  · rw [hgreedy.filter_sender hsender s]
    exact (h.consecutive s).pairwise.imp fun hlt => UInt32.lt_iff_toNat_lt.2 hlt

/-- Two payments of one sender, of which the second pays more, and one of another. -/
def twoQueuesPayments : List UserCommand := [payment 7 5 1 10, payment 7 6 9 10, payment 8 5 3 10]

def twoQueues : Pool (fromList twoQueuesPayments) :=
  addedAll 100 5 [fromList.get twoQueuesPayments 0 (by decide) (by decide),
    fromList.get twoQueuesPayments 1 (by decide) (by decide), fromList.get twoQueuesPayments 2 (by decide) (by decide)]

theorem twoQueues_consistent : Consistent twoQueues :=
  PoolRun.consistent (addedAll_staysBelowMax 100 5 _ (by decide))

/-- A payment waits for the one before it, even if it pays more. -/
example : (transactions 4 twoQueues).map (·.map Command.hash) = some [2, 0, 1] := by with_unfolding_all decide

theorem transactions_greedy_twoQueues :
    ∃ l, (∀ bound, l.length < bound → transactions bound twoQueues = some l) ∧ Greedy (queue twoQueues) l := by
  obtain ⟨l, hl, -, -, -, hgreedy⟩ := transactions_greedy twoQueues_consistent
  exact ⟨l, hl, hgreedy⟩

end MinaProtocol.IndexedPool
