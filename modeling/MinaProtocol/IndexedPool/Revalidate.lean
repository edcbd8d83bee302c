import MinaProtocol.IndexedPool.Runs

/-!
# IndexedPool.Revalidate

What `revalidate` does. For one sender it drops the commands whose nonces have been
used from the front of the queue and the commands that cannot be paid for any more from
its end; it drops the whole queue if the sender may not send any more, or if the nonce
of the account has gone back. The first dropped command is taken out of the applicable
ones, which is right if it is the first of the queue. A sender whose queue is dropped
as a whole is removed from the pool as it was before, so that what has been done for the
senders before it is undone.
-/

namespace MinaProtocol.IndexedPool

open Std

variable {H : Nat → Option UserCommand} {c head first : Command H} {nonce : AccountNonce}
  {q tail rest : List (Command H)} {s : AccountId} {done : List AccountId} {acc : Pool H × List (Command H)}
  {t' : Pool H} {l : List (Command H)} {S A : Set (Command H)} {balance r : Nat}

/-! ### Splitting a queue -/

/-- The place of the first command whose nonce has not been used. -/
def splitIndex (nonce : AccountNonce) (q : List (Command H)) : Nat :=
  (q.findIdx? (fun cmd' => cmd'.nonce = nonce)).getD q.length

theorem nonce_of_head?_drop_splitIndex (h : (q.drop (splitIndex nonce q)).head? = some c) : c.nonce = nonce := by
  unfold splitIndex at h
  cases hi : q.findIdx? (fun cmd' => cmd'.nonce = nonce) with
  | none => simp [hi] at h
  | some i =>
    obtain ⟨hlt, hn, -⟩ := List.findIdx?_eq_some_iff_getElem.1 hi
    rw [hi, Option.getD_some, List.head?_drop, List.getElem?_eq_getElem hlt, Option.some.injEq] at h
    rw [← h]
    simpa using hn

theorem splitIndex_cons_of_nonce_eq (h : c.nonce = nonce) : splitIndex nonce (c :: q) = 0 := by
  simp [splitIndex, List.findIdx?_cons, h]

theorem take_splitIndex_cons_of_nonce_ne
    (h : c.nonce ≠ nonce) : ∃ l, (c :: q).take (splitIndex nonce (c :: q)) = c :: l := by
  have hpos : splitIndex nonce (c :: q) = splitIndex nonce q + 1 := by
    unfold splitIndex
    rw [List.findIdx?_cons, if_neg (by simpa using h)]
    cases q.findIdx? (fun cmd' => decide (cmd'.nonce = nonce)) <;> rfl
  exact ⟨_, by rw [hpos, List.take_succ_cons]⟩

/-- What `drop_until_sufficient_balance` keeps of a queue that is given from its end. -/
def affordable (balance : Nat) : List (Command H) → List (Command H)
  | [] => []
  | c :: rest => if total (c :: rest) ≤ balance then c :: rest else affordable balance rest

/-- What it drops. -/
def unaffordable (balance : Nat) : List (Command H) → List (Command H)
  | [] => []
  | c :: rest => if total (c :: rest) ≤ balance then [] else c :: unaffordable balance rest

theorem unaffordable_append_affordable (balance : Nat) (q : List (Command H)) :
    unaffordable balance q ++ affordable balance q = q := by
  induction q with
  | nil => rfl
  | cons c rest ih =>
    unfold unaffordable affordable
    split
    · rfl
    · rw [List.cons_append, ih]

theorem total_affordable_le (balance : Nat) (q : List (Command H)) : total (affordable balance q) ≤ balance := by
  induction q with
  | nil => simp [affordable]
  | cons c rest ih =>
    unfold affordable
    split
    · assumption
    · exact ih

theorem unaffordable_eq_nil : unaffordable balance q = [] ↔ total q ≤ balance := by
  cases q with
  | nil => simp [unaffordable]
  | cons c rest =>
    unfold unaffordable
    by_cases hb : total (c :: rest) ≤ balance <;> simp only [hb, if_true, if_false, reduceCtorEq]

theorem dropUntilSufficientBalance_eq (balance : Nat) (dropped : List (Command H)) (h : total q < 2 ^ 64) :
    dropUntilSufficientBalance balance q (total q) dropped
      = some (affordable balance q, total (affordable balance q), dropped ++ unaffordable balance q) := by
  induction q generalizing dropped with
  | nil => simp [dropUntilSufficientBalance, affordable, unaffordable]
  | cons c rest ih =>
    unfold dropUntilSufficientBalance affordable unaffordable
    by_cases hb : total (c :: rest) ≤ balance
    · rw [if_pos hb, if_pos hb, if_pos hb, List.append_nil]
    · rw [if_neg hb, if_neg hb, if_neg hb]
      rw [total_cons] at h
      have hsub : Amount.sub (total (c :: rest)) (cost c) = some (total rest) := by
        rw [total_cons, Nat.add_comm]
        exact Amount.sub_add _ _
      simp only [currencyConsumed_of_lt (show cost c < 2 ^ 64 by omega), hsub, Option.bind_eq_bind, Option.bind_some]
      rw [ih _ (by omega), List.append_assoc, List.singleton_append]

theorem foldlM_sub (h : total l + r < 2 ^ 64) :
    l.foldlM (fun c cmd => do Amount.sub c (← currencyConsumed cmd)) (total l + r) = some r := by
  induction l generalizing r with
  | nil => simp
  | cons c l ih =>
    rw [total_cons] at h
    have hsub : Amount.sub (total (c :: l) + r) (cost c) = some (total l + r) := by
      rw [total_cons]
      exact Amount.sub_eq_some.2 (by omega)
    rw [List.foldlM_cons, currencyConsumed_of_lt (by omega)]
    change (Amount.sub (total (c :: l) + r) (cost c)).bind _ = _
    rw [hsub]
    exact ih (by omega)

/-! ### Replacing a queue -/

/-- What `replaceQueue` does when a set with the fee of the first dropped command is found. -/
theorem replaceQueue_indexed {t : Pool H} (s : AccountId) (keep dropped : List (Command H)) (h : Indexed t S A)
    (hrate : ∃ w ∈ A, w.feePerWu = head.feePerWu) (hl : ∀ c ∈ head :: tail, c ∈ S)
    (hnd : (head :: tail).Nodup) : ∃ t', replaceQueue s keep (total keep) (head :: tail) (t, dropped)
        = some (t', dropped ++ head :: tail)
      ∧ Indexed t' (S \ {c | c ∈ head :: tail}) ({c | keep.head? = some c} ∪ A \ {head})
      ∧ (∀ s', t'.allBySender[s']? = if s = s' then (cutState s keep).data else t.allBySender[s']?)
      ∧ t'.config = t.config := by
  obtain ⟨t₁, ht₁⟩ := Option.isSome_iff_exists.1 (h.removeApplicable_isSome.2 hrate)
  obtain ⟨hi₁, hs₁⟩ := h.of_removeApplicable ht₁
  obtain ⟨t₂, ht₂, hi₂, hs₂⟩ := hi₁.removeList hl hnd
  have hfold : (removeAllByFeeAndHashAndExpirationExn t₁ head >>= fun t =>
      tail.foldlM removeAllByFeeAndHashAndExpirationExn t) = some t₂ := by
    rwa [← List.foldlM_cons]
  obtain ⟨t₃, ht₃, ht₃'⟩ := Option.bind_eq_some_iff.1 hfold
  have hs := hs₁.trans hs₂
  unfold replaceQueue
  simp only [ht₁, ht₃, ht₃', Option.bind_eq_bind, Option.bind_some]
  cases keep with
  | nil =>
    refine ⟨_, rfl, ⟨hi₂.allByFee, hi₂.allByHash, ?_, hi₂.expiration, hi₂.size_eq⟩, ?_, hs.2⟩
    · simpa using hi₂.applicableByFee
    · intro s'
      show (t₂.allBySender.erase s)[s']? = _
      rw [ExtTreeMap.getElem?_erase, hs.1]
      by_cases hs' : s = s' <;> simp [hs', cutState]
  | cons k ks =>
    refine ⟨_, rfl, ⟨hi₂.allByFee, hi₂.allByHash, ?_, hi₂.expiration, hi₂.size_eq⟩, ?_, hs.2⟩
    · convert hi₂.applicableByFee.insert k using 1
      ext c
      simp [eq_comm]
    · intro s'
      show (t₂.allBySender.insert s _)[s']? = _
      rw [ExtTreeMap.getElem?_insert, hs.1]
      by_cases hs' : s = s' <;> simp [hs', cutState]

theorem replaceQueue_none {t : Pool H} {keep dropped : List (Command H)} (h : Indexed t S A)
    (hrate : ¬ ∃ w ∈ A, w.feePerWu = head.feePerWu) : replaceQueue s keep r (head :: tail) (t, dropped) = none := by
  have hnone : removeApplicableExn t head = none := by
    rw [← Option.not_isSome_iff_eq_none, h.removeApplicable_isSome]
    exact hrate
  simp [replaceQueue, hnone]

/-! ### What happens to a sender -/

section Senders

variable (t : Pool H) (scope : Scope) (f : AccountId → Account)

/-- The senders with a queue, in the order in which they are looked at. -/
def senders : List AccountId := t.allBySender.keys

/-- The liquid balance of a sender at the slot of the pool. -/
def liquidBalance (s : AccountId) : Option Nat :=
  (f s).liquidBalanceAtSlot (globalSlotSinceGenesis t.config)

/-- The account may still send commands. -/
def maySend (s : AccountId) : Bool :=
  (f s).hasPermissionToSend && (f s).hasPermissionToIncrementNonce

/-- The whole queue of the sender goes, and what has been done before is undone: the
sender may not send any more, or the nonce of its account is before its queue. -/
def resets (s : AccountId) : Bool :=
  scope.requiresRevalidation s
    && (queue t s).head?.any (fun first => !maySend f s || decide ((f s).nonce < first.nonce))

/-- Commands of the sender with nonces that have been used. -/
def stale (s : AccountId) : List (Command H) :=
  (queue t s).take (splitIndex (f s).nonce (queue t s))

/-- The commands after these. -/
def current (s : AccountId) : List (Command H) :=
  (queue t s).drop (splitIndex (f s).nonce (queue t s))

/-- What stays of the queue of a sender. -/
def keptQueue (s : AccountId) : List (Command H) :=
  if !scope.requiresRevalidation s then queue t s
  else if resets t scope f s then []
  else (affordable ((liquidBalance t f s).getD 0) (current t f s).reverse).reverse

/-- What goes. -/
def droppedOf (s : AccountId) : List (Command H) :=
  if !scope.requiresRevalidation s then []
  else if resets t scope f s then queue t s
  else stale t f s ++ unaffordable ((liquidBalance t f s).getD 0) (current t f s).reverse

/-- The first command that goes is the last one of the queue: the nonce of the account
is that of the first command, but the balance is too small for the queue. -/
def dropsFromEnd (s : AccountId) : Prop :=
  scope.requiresRevalidation s = true ∧ maySend f s = true
    ∧ (∃ first ∈ (queue t s).head?, first.nonce = (f s).nonce)
    ∧ (liquidBalance t f s).getD 0 < total (queue t s) ∧ 2 ≤ (queue t s).length

/-- The senders for which the result is what has been done for them: a queue that goes
as a whole undoes everything before it. -/
def lasting (done : List AccountId) : List AccountId :=
  done.foldl (fun l s => if resets t scope f s then [s] else l ++ [s]) []

/-- The queues when the senders in `done` have been looked at. -/
def queueAfter (done : List AccountId) (s : AccountId) : List (Command H) :=
  if s ∈ lasting t scope f done then keptQueue t scope f s else queue t s

/-- First commands that are still applicable although their whole queue has gone, from
its end. -/
def strays (done : List AccountId) : Set (Command H) :=
  {c | ∃ s ∈ lasting t scope f done, dropsFromEnd t scope f s ∧ keptQueue t scope f s = []
    ∧ (queue t s).head? = some c}

/-- The applicable commands when the senders in `done` have been looked at. -/
def applicableAfter (done : List AccountId) : Set (Command H) :=
  {c | ∃ s, (queueAfter t scope f done s).head? = some c} ∪ strays t scope f done

end Senders

variable {t : Pool H} {scope : Scope} {f : AccountId → Account}

theorem lasting_append (done : List AccountId) (s : AccountId) : lasting t scope f (done ++ [s])
      = if resets t scope f s then [s] else lasting t scope f done ++ [s] := by
  simp [lasting]

theorem mem_of_mem_lasting (h : s ∈ lasting t scope f done) : s ∈ done := by
  induction done using List.reverseRecOn with
  | nil => simp [lasting] at h
  | append_singleton done r ih =>
    rw [lasting_append] at h
    split at h
    · exact List.mem_append_right done h
    · rcases List.mem_append.1 h with h | h
      · exact List.mem_append_left _ (ih h)
      · exact List.mem_append_right done h

theorem queue_of_resets (h : resets t scope f s = true) : ∃ c rest, queue t s = c :: rest := by
  cases hq : queue t s with
  | nil => simp [resets, hq] at h
  | cons c rest => exact ⟨c, rest, rfl⟩

theorem stale_append_current (s : AccountId) : stale t f s ++ current t f s = queue t s :=
  List.take_append_drop _ _

/-- The commands that go are at the two ends of the queue. -/
theorem current_eq (s : AccountId) (balance : Nat) :
    current t f s = (affordable balance (current t f s).reverse).reverse
      ++ (unaffordable balance (current t f s).reverse).reverse := by
  rw [← List.reverse_append, unaffordable_append_affordable, List.reverse_reverse]

theorem droppedOf_append_keptQueue (t : Pool H) (scope : Scope) (f : AccountId → Account) (s : AccountId) :
    (droppedOf t scope f s ++ keptQueue t scope f s).Perm (queue t s) := by
  unfold droppedOf keptQueue
  split
  · rfl
  · split
    · rw [List.append_nil]
    · conv_rhs => rw [← stale_append_current (f := f) s]
      rw [List.append_assoc]
      refine List.Perm.append_left _ ?_
      conv_rhs => rw [current_eq s ((liquidBalance t f s).getD 0)]
      exact ((List.reverse_perm _).symm.append_right _).trans List.perm_append_comm

theorem QueueOk.keptQueue (h : QueueOk s (queue t s) r)
    (hscope : scope.requiresRevalidation s = true) (hk : keptQueue t scope f s ≠ []) :
    QueueOk s (keptQueue t scope f s) (total (keptQueue t scope f s)) := by
  unfold IndexedPool.keptQueue at hk ⊢
  rw [hscope] at hk ⊢
  simp only [Bool.not_true, Bool.false_eq_true, if_false] at hk ⊢
  split at hk
  · exact absurd rfl hk
  · rw [if_neg ‹_›]
    rw [← stale_append_current (f := f) s, current_eq s ((liquidBalance t f s).getD 0)] at h
    exact (h.dropped (by simp [List.append_eq_nil_iff, hk])).take hk

/-! ### The step for one sender -/

/-- The entry of a sender in the fold. -/
def entryOf (t : Pool H) (s : AccountId) : AccountId × List (Command H) × Nat :=
  (s, queue t s, total (queue t s))

theorem revalidateStep_out (h : scope.requiresRevalidation s = false) :
    revalidateStep t scope f acc (entryOf t s) = some acc := by
  simp [revalidateStep, entryOf, h]

theorem revalidateStep_none (h : scope.requiresRevalidation s = true) (hb : liquidBalance t f s = none) :
    revalidateStep t scope f acc (entryOf t s) = none := by
  unfold liquidBalance at hb
  simp [revalidateStep, entryOf, h, hb]

theorem revalidateStep_resets (hc : Consistent t) (acc : Pool H × List (Command H))
    (h : resets t scope f s = true) (hb : (liquidBalance t f s).isSome) :
    ∃ t' c, revalidateStep t scope f acc (entryOf t s) = some (t', acc.2 ++ queue t s)
      ∧ c.sender = s ∧ Cut t c [] t' := by
  obtain ⟨c, rest, hq⟩ := queue_of_resets h
  obtain ⟨b, hb⟩ := Option.isSome_iff_exists.1 hb
  have hsend : c.sender = s := hc.sender_eq (by rw [hq]; exact List.mem_cons_self)
  obtain ⟨t', ht', hcut⟩ := removeWithDependentsExn'_spec hc
    (show queue t c.sender = [] ++ c :: rest by rw [hsend, hq]; rfl)
  refine ⟨t', c, ?_, hsend, hcut⟩
  unfold resets at h
  rw [hq, List.head?_cons, Option.any_some, Bool.and_eq_true, Bool.or_eq_true,
    Bool.not_eq_true', decide_eq_true_eq] at h
  unfold liquidBalance at hb
  unfold maySend at h
  simp only [revalidateStep, entryOf, h.1, Bool.not_true, Bool.false_eq_true, if_false, hb, hq,
    List.head?_cons, Option.bind_eq_bind, Option.bind_some, ht']
  rcases h.2 with hp | hn
  · simp [hp]
  · simp [hn]

theorem total_reverse (q : List (Command H)) : total q.reverse = total q := by
  simp [total, List.map_reverse, List.sum_reverse]

theorem revalidateStep_replace (hc : Consistent t) (hs : scope.requiresRevalidation s = true) (hq : queue t s ≠ [])
    (h : resets t scope f s = false) (hb : (liquidBalance t f s).isSome) : revalidateStep t scope f acc (entryOf t s)
      = replaceQueue s (keptQueue t scope f s) (total (keptQueue t scope f s))
          (droppedOf t scope f s) acc := by
  obtain ⟨b, hb⟩ := Option.isSome_iff_exists.1 hb
  have hlt := (hc.queue_ok hq).2.reserved_lt
  have hsplit : total (queue t s) = total (stale t f s) + total (current t f s) := by
    rw [← total_append, stale_append_current]
  rw [hsplit] at hlt
  have hsub := foldlM_sub hlt
  have hdrop := dropUntilSufficientBalance_eq b []
    (show total (current t f s).reverse < 2 ^ 64 by rw [total_reverse]; omega)
  rw [total_reverse, List.nil_append] at hdrop
  unfold keptQueue droppedOf
  rw [hb]
  obtain ⟨c, rest, hcq⟩ := List.exists_cons_of_ne_nil hq
  have h' := h
  unfold resets at h'
  rw [hs, Bool.true_and, hcq, List.head?_cons, Option.any_some, Bool.or_eq_false_iff,
    Bool.not_eq_false', decide_eq_false_iff_not] at h'
  unfold maySend at h'
  unfold liquidBalance at hb
  have hhead : (queue t s).head? = some c := by rw [hcq]; rfl
  rw [← hsplit] at hsub
  unfold stale splitIndex at hsub
  unfold current splitIndex at hdrop hsub
  simp only [Option.bind_eq_bind] at hsub
  unfold entryOf
  simp only [revalidateStep, hs, Bool.not_true, Bool.false_eq_true, if_false, hb, hhead,
    Option.bind_eq_bind, Option.bind_some, h'.1, h'.2, h, hsub, hdrop, stale, current, splitIndex,
    total_reverse, Option.getD_some]

/-! ### The first command that goes -/

theorem unaffordable_head? (h : unaffordable balance q = c :: l) : q.head? = some c := by
  cases q with
  | nil => simp [unaffordable] at h
  | cons d q =>
    unfold unaffordable at h
    split at h
    · simp at h
    · rw [(List.cons.inj h).1]
      rfl

theorem current_of_nonce_eq (hq : queue t s = first :: rest) (hn : first.nonce = (f s).nonce) :
    stale t f s = [] ∧ current t f s = queue t s := by
  unfold stale current
  rw [hq, splitIndex_cons_of_nonce_eq hn]
  exact ⟨rfl, rfl⟩

variable (h : dropsFromEnd t scope f s)

include h

theorem dropsFromEnd.resets_eq : resets t scope f s = false := by
  obtain ⟨-, hsend, ⟨first, hfirst, hn⟩, -⟩ := h
  simp [resets, Option.mem_def.1 hfirst, hsend, hn]

theorem keptQueue_of_dropsFromEnd : keptQueue t scope f s
      = (affordable ((liquidBalance t f s).getD 0) (queue t s).reverse).reverse := by
  obtain ⟨first, hfirst, hn⟩ := h.2.2.1
  obtain ⟨rest, hq⟩ := List.head?_eq_some_iff.1 (Option.mem_def.1 hfirst)
  unfold keptQueue
  rw [h.resets_eq, h.1, (current_of_nonce_eq hq hn).2]
  rfl

theorem droppedOf_of_dropsFromEnd : droppedOf t scope f s
      = unaffordable ((liquidBalance t f s).getD 0) (queue t s).reverse := by
  obtain ⟨first, hfirst, hn⟩ := h.2.2.1
  obtain ⟨rest, hq⟩ := List.head?_eq_some_iff.1 (Option.mem_def.1 hfirst)
  unfold droppedOf
  rw [h.resets_eq, h.1, (current_of_nonce_eq hq hn).1, (current_of_nonce_eq hq hn).2]
  rfl

theorem dropsFromEnd.droppedOf_eq :
    ∃ last tail, droppedOf t scope f s = last :: tail ∧ (queue t s).getLast? = some last := by
  rw [droppedOf_of_dropsFromEnd h]
  cases hu : unaffordable ((liquidBalance t f s).getD 0) (queue t s).reverse with
  | nil =>
    have hle := unaffordable_eq_nil.1 hu
    have hlt := h.2.2.2.1
    rw [total_reverse] at hle
    omega
  | cons last tail =>
    have hhead := unaffordable_head? hu
    rw [List.head?_reverse] at hhead
    exact ⟨last, tail, rfl, hhead⟩

theorem dropsFromEnd.last_ne_first (hnd : (queue t s).Nodup) {last : Command H} (hf : (queue t s).head? = some first)
    (hl : (queue t s).getLast? = some last) : last ≠ first := by
  obtain ⟨rest, hq⟩ := List.head?_eq_some_iff.1 hf
  have hlen := h.2.2.2.2
  rw [hq] at hnd hl hlen
  rintro rfl
  cases rest with
  | nil => simp at hlen
  | cons d rest =>
    rw [List.getLast?_cons_cons] at hl
    exact (List.nodup_cons.1 hnd).1 (List.mem_of_getLast? hl)

theorem dropsFromEnd.kept_head? (hf : (queue t s).head? = some first) (hk : keptQueue t scope f s ≠ []) :
    (keptQueue t scope f s).head? = some first := by
  rw [keptQueue_of_dropsFromEnd h] at hk ⊢
  have happ := congrArg List.reverse
    (unaffordable_append_affordable ((liquidBalance t f s).getD 0) (queue t s).reverse)
  rw [List.reverse_append, List.reverse_reverse] at happ
  rwa [← happ, List.head?_append_of_ne_nil _ hk] at hf

omit h

theorem droppedOf_head?_of_not_dropsFromEnd (hs : scope.requiresRevalidation s = true)
    (hr : resets t scope f s = false) (hq : queue t s = first :: rest)
    (hd : droppedOf t scope f s = head :: tail) (h : ¬ dropsFromEnd t scope f s) : head = first := by
  have hd' := hd
  unfold droppedOf at hd'
  rw [hs, hr] at hd'
  simp only [Bool.not_true, Bool.false_eq_true, if_false] at hd'
  by_cases hn : first.nonce = (f s).nonce
  · obtain ⟨hst, hcur⟩ := current_of_nonce_eq hq hn
    rw [hst, hcur, List.nil_append] at hd'
    have hlt : (liquidBalance t f s).getD 0 < total (queue t s) := by
      by_contra hle
      rw [← total_reverse, Nat.not_lt] at hle
      rw [unaffordable_eq_nil.2 hle] at hd'
      cases hd'
    have hsend : maySend f s = true := by
      unfold resets at hr
      rw [hs, hq, Bool.true_and, List.head?_cons, Option.any_some, Bool.or_eq_false_iff, Bool.not_eq_false'] at hr
      exact hr.1
    -- the queue has only one command
    have hlen : ¬ 2 ≤ (queue t s).length :=
      fun hlen => h ⟨hs, hsend, ⟨first, by rw [hq]; rfl, hn⟩, hlt, hlen⟩
    rw [hq, List.length_cons] at hlen
    obtain rfl : rest = [] := List.eq_nil_of_length_eq_zero (by omega)
    have hhead := unaffordable_head? hd'
    rw [hq] at hhead
    exact (Option.some.inj hhead).symm
  · obtain ⟨l, hl⟩ := take_splitIndex_cons_of_nonce_ne (q := rest) hn
    unfold stale at hd'
    rw [hq, hl] at hd'
    exact (List.cons.inj hd').1.symm

/-! ### The pool during revalidation -/

/-- The pool when the senders in `done` have been looked at. -/
structure After (t : Pool H) (scope : Scope) (f : AccountId → Account) (done : List AccountId)
    (t' : Pool H) : Prop extends QueuesOk t' where
  queue_eq : ∀ s, queue t' s = queueAfter t scope f done s
  indexed : Indexed t' (commands t') (heads t' ∪ strays t scope f done)
  config : t'.config = t.config

theorem After.applicable_eq (h : After t scope f done t') :
    heads t' ∪ strays t scope f done = applicableAfter t scope f done := by
  unfold heads applicableAfter
  simp only [h.queue_eq]

theorem Consistent.after (h : Consistent t) : After t scope f [] t where
  toQueuesOk := h.toQueuesOk
  queue_eq s := by simp [queueAfter, lasting]
  indexed := by simpa [strays, lasting] using h.indexed
  config := rfl

theorem keptQueue_of_droppedOf_nil (h : droppedOf t scope f s = []) : keptQueue t scope f s = queue t s := by
  unfold droppedOf at h
  unfold keptQueue
  split at h
  · rw [if_pos ‹_›]
  · split at h
    · rw [if_neg ‹_›, if_pos ‹_›, h]
    · rw [if_neg ‹_›, if_neg ‹_›]
      obtain ⟨hst, hun⟩ := List.append_eq_nil_iff.1 h
      have happ := unaffordable_append_affordable ((liquidBalance t f s).getD 0) (current t f s).reverse
      rw [hun, List.nil_append] at happ
      rw [happ, List.reverse_reverse, ← stale_append_current (f := f) s, hst, List.nil_append]

/-- The applicable commands that are left behind by one more sender. -/
theorem mem_strays_append (hr : resets t scope f s = false) :
    c ∈ strays t scope f (done ++ [s]) ↔ c ∈ strays t scope f done
      ∨ dropsFromEnd t scope f s ∧ keptQueue t scope f s = [] ∧ (queue t s).head? = some c := by
  unfold strays
  rw [lasting_append, hr]
  simp only [Bool.false_eq_true, if_false, List.mem_append, List.mem_singleton, Set.mem_ofPred_eq]
  constructor
  · rintro ⟨r, hr | rfl, h⟩
    · exact .inl ⟨r, hr, h⟩
    · exact .inr h
  · rintro (⟨r, hr, h⟩ | h)
    · exact ⟨r, .inl hr, h⟩
    · exact ⟨s, .inr rfl, h⟩

theorem queueAfter_append {s' : AccountId} (hr : resets t scope f s = false) : queueAfter t scope f (done ++ [s]) s'
      = if s' = s then keptQueue t scope f s else queueAfter t scope f done s' := by
  unfold queueAfter
  rw [lasting_append, hr]
  simp only [Bool.false_eq_true, if_false, List.mem_append, List.mem_singleton]
  by_cases hs : s' = s
  · simp [hs]
  · simp [hs]

theorem queueAfter_of_not_mem (hs : s ∉ done) : queueAfter t scope f done s = queue t s :=
  if_neg fun hl => hs (mem_of_mem_lasting hl)

theorem sender_mem_of_mem_strays (hc : Consistent t)
    (h : c ∈ strays t scope f done) : c.sender ∈ lasting t scope f done := by
  obtain ⟨s, hs, -, -, hhead⟩ := h
  rwa [hc.sender_eq (List.mem_of_head? hhead)]

theorem not_mem_strays (hc : Consistent t) (hs : s ∉ done) (hcs : c ∈ queue t s) : c ∉ strays t scope f done := by
  intro h
  have := mem_of_mem_lasting (sender_mem_of_mem_strays hc h)
  rw [hc.sender_eq hcs] at this
  exact hs this

/-- A sender that loses nothing. -/
theorem After.keep (h : After t scope f done t')
    (hs : s ∉ done) (hr : resets t scope f s = false) (hd : droppedOf t scope f s = []) :
    After t scope f (done ++ [s]) t' where
  toQueuesOk := h.toQueuesOk
  queue_eq s' := by
    rw [queueAfter_append hr, h.queue_eq]
    by_cases he : s' = s
    · rw [if_pos he, he, queueAfter_of_not_mem hs, keptQueue_of_droppedOf_nil hd]
    · rw [if_neg he]
  indexed := by
    convert h.indexed using 2
    ext c
    rw [mem_strays_append hr]
    constructor
    · rintro (hc | ⟨he, -⟩)
      · exact hc
      · obtain ⟨last, tail, hd', -⟩ := he.droppedOf_eq
        rw [hd] at hd'
        cases hd'
    · exact .inl
  config := h.config

theorem After.of_cut (hr : resets t scope f s = true) (hcs : c.sender = s) (h : Cut t c [] t') :
    After t scope f (done ++ [s]) t' where
  toQueuesOk := h.consistent.toQueuesOk
  queue_eq s' := by
    have hscope : scope.requiresRevalidation s = true := by
      unfold resets at hr
      exact (Bool.and_eq_true _ _ ▸ hr).1
    unfold queueAfter
    rw [lasting_append, if_pos hr]
    by_cases he : s' = s
    · rw [if_pos (by simp [he]), he, ← hcs, h.queue_eq]
      simp [keptQueue, hcs, hscope, hr]
    · rw [if_neg (by simp [he]), h.queue_frame (by rw [hcs]; exact he)]
  indexed := by
    convert h.consistent.indexed using 1
    rw [Set.union_eq_left]
    rintro d ⟨r, hr', he, -⟩
    rw [lasting_append, if_pos hr, List.mem_singleton] at hr'
    rw [hr'] at he
    rw [he.resets_eq] at hr
    cases hr
  config := h.config

theorem applicable_replace (hc : Consistent t) (h : After t scope f done t') (hs : s ∉ done)
    (hscope : scope.requiresRevalidation s = true) (hr : resets t scope f s = false)
    (hq : queue t s = first :: rest) (hd : droppedOf t scope f s = head :: tail) :
    {c | (keptQueue t scope f s).head? = some c} ∪ (heads t' ∪ strays t scope f done) \ {head}
      = (heads t' \ {first} ∪ {c | (keptQueue t scope f s).head? = some c})
        ∪ strays t scope f (done ++ [s]) := by
  have hq' : queue t' s = first :: rest := by rw [h.queue_eq, queueAfter_of_not_mem hs, hq]
  have hfirst : first ∈ heads t' := ⟨s, by rw [hq']; rfl⟩
  have hheadq : head ∈ queue t s := by
    refine (droppedOf_append_keptQueue t scope f s).subset ?_
    rw [hd]
    exact List.mem_append_left _ List.mem_cons_self
  have hstray : ∀ c ∈ strays t scope f done, c ∉ queue t s :=
    fun c hcs hcq => not_mem_strays hc hs hcq hcs
  ext c
  simp only [Set.mem_union, Set.mem_sdiff, Set.mem_singleton_iff, Set.mem_ofPred_eq, mem_strays_append hr]
  by_cases he : dropsFromEnd t scope f s
  · -- `head` is the last command of the queue, so that it was not applicable
    obtain ⟨last, tail', hd', hlast⟩ := he.droppedOf_eq
    rw [hd] at hd'
    obtain rfl := (List.cons.inj hd').1
    have hne := he.last_ne_first (hc.consecutive s).nodup (by rw [hq]; rfl) hlast
    have hnot : head ∉ heads t' := by
      rw [h.mem_heads, hc.sender_eq hheadq, hq']
      exact fun e => hne (Option.some.inj e).symm
    have hkeep : keptQueue t scope f s ≠ [] → (keptQueue t scope f s).head? = some first :=
      he.kept_head? (by rw [hq]; rfl)
    have hc₁ : c ∈ heads t' → c ≠ head := fun hch e => hnot (e ▸ hch)
    have hc₂ : c ∈ strays t scope f done → c ≠ head := fun hcs e => hstray c hcs (e ▸ hheadq)
    rw [hq]
    simp only [List.head?_cons, Option.some.injEq]
    by_cases hk : keptQueue t scope f s = []
    · by_cases hcf : c = first
      · subst hcf
        simp [he, hk, hfirst, hc₁ hfirst]
      · simp only [hk, List.head?_nil, reduceCtorEq, false_or, or_false, he, true_and, Ne.symm hcf, hcf]
        grind
    · rw [hkeep hk]
      simp only [Option.some.injEq, hk, false_and, and_false, or_false]
      by_cases hcf : c = first
      · simp [hcf]
      · simp only [Ne.symm hcf, hcf, false_or, or_false]
        grind
  · obtain rfl := droppedOf_head?_of_not_dropsFromEnd hscope hr hq hd he
    have hc₂ : c ∈ strays t scope f done → c ≠ head := fun hcs e => hstray c hcs (e ▸ hheadq)
    simp only [he, false_and, or_false]
    grind

theorem After.replace (hc : Consistent t) {done : List AccountId} {t' : Pool H}
    (h : After t scope f done t') {s : AccountId} (hs : s ∉ done)
    (hscope : scope.requiresRevalidation s = true) (hr : resets t scope f s = false)
    {head : Command H} {tail : List (Command H)} (hd : droppedOf t scope f s = head :: tail)
    (hrate : ∃ w ∈ applicableAfter t scope f done, w.feePerWu = head.feePerWu) (dropped : List (Command H)) :
    ∃ t'', replaceQueue s (keptQueue t scope f s) (total (keptQueue t scope f s))
        (droppedOf t scope f s) (t', dropped) = some (t'', dropped ++ droppedOf t scope f s)
      ∧ After t scope f (done ++ [s]) t'' := by
  have hperm := droppedOf_append_keptQueue t scope f s
  have hq' : queue t' s = queue t s := by rw [h.queue_eq, queueAfter_of_not_mem hs]
  have hnd := hperm.nodup_iff.2 (hc.consecutive s).nodup
  obtain ⟨hndd, -, hdisj⟩ := List.nodup_append.1 hnd
  have hmem : ∀ c, c ∈ queue t s ↔ c ∈ droppedOf t scope f s ∨ c ∈ keptQueue t scope f s := by
    intro c
    rw [← hperm.mem_iff, List.mem_append]
  obtain ⟨first, rest, hq⟩ : ∃ first rest, queue t s = first :: rest := by
    refine List.exists_cons_of_ne_nil (List.ne_nil_of_mem ((hmem head).2 (.inl ?_)))
    rw [hd]
    exact List.mem_cons_self
  rw [← h.applicable_eq] at hrate
  obtain ⟨t'', ht'', hidx, hfind, hconf⟩ := replaceQueue_indexed s
    (keptQueue t scope f s) dropped h.indexed hrate
    (fun c hcd => ⟨s, by rw [hq', hmem, hd]; exact .inl hcd⟩) (hd ▸ hndd)
  have hframe : ∀ s', s' ≠ s → t''.allBySender[s']? = t'.allBySender[s']? :=
    fun s' hne => by rw [hfind, if_neg (Ne.symm hne)]
  have hqueue : queue t'' s = keptQueue t scope f s := by
    unfold queue
    rw [hfind, if_pos rfl]
    unfold cutState
    by_cases hk : keptQueue t scope f s = [] <;> simp [hk]
  refine ⟨t'', by rw [hd]; exact ht'', ⟨h.update s hframe ?_, ?_, ?_, hconf.trans h.config⟩⟩
  · intro q r hqr
    rw [hfind, if_pos rfl] at hqr
    unfold cutState at hqr
    by_cases hk : keptQueue t scope f s = []
    · simp [hk] at hqr
    · rw [if_pos hk, Option.some.injEq, Prod.mk.injEq] at hqr
      obtain ⟨rfl, rfl⟩ := hqr
      exact (hc.queue_ok (by simp [hq])).2.keptQueue hscope hk
  · intro s'
    rw [queueAfter_append hr]
    by_cases he : s' = s
    · rw [if_pos he, he, hqueue]
    · rw [if_neg he, ← h.queue_eq]
      exact queue_eq_of_find_eq (hframe s' he)
  · rw [h.commands_update hframe, h.heads_update hframe, hqueue, hq', hq,
      h.cut_heads_nil (hq'.trans hq), ← applicable_replace hc h hs hscope hr hq hd]
    convert hidx using 1
    rw [← hq, ← hd]
    ext c
    have := hmem c
    have hdc : c ∈ droppedOf t scope f s → c ∉ keptQueue t scope f s :=
      fun hcd hck => hdisj c hcd c hck rfl
    have hcq : c ∈ queue t s → c ∈ commands t' := fun hcq => ⟨s, hq' ▸ hcq⟩
    simp only [Set.mem_union, Set.mem_ofPred_eq, Set.mem_sdiff]
    grind

/-! ### All senders -/

/-- When the step for a sender returns: its liquid balance is defined, and if it drops
from the end, then some applicable command has the fee of the last command. -/
def StepReturns (t : Pool H) (scope : Scope) (f : AccountId → Account) (done : List AccountId) (s : AccountId) : Prop :=
  scope.requiresRevalidation s = true → (liquidBalance t f s).isSome = true
    ∧ (dropsFromEnd t scope f s → ∃ w ∈ applicableAfter t scope f done,
        ∃ last ∈ (queue t s).getLast?, w.feePerWu = last.feePerWu)

theorem After.applicable_head (h : After t scope f done t') (hs : s ∉ done) (hf : (queue t s).head? = some first) :
    ∃ w ∈ applicableAfter t scope f done, w.feePerWu = first.feePerWu := by
  refine ⟨first, ?_, rfl⟩
  rw [← h.applicable_eq]
  exact .inl ⟨s, by rwa [h.queue_eq, queueAfter_of_not_mem hs]⟩

/-- **The step for one sender.** -/
theorem After.step (hc : Consistent t) {done : List AccountId} {t' : Pool H}
    (h : After t scope f done t') {s : AccountId} (hs : s ∉ done) (hq : queue t s ≠ []) (dropped : List (Command H)) :
    (StepReturns t scope f done s ∧ ∃ t'', revalidateStep t scope f (t', dropped) (entryOf t s)
        = some (t'', dropped ++ droppedOf t scope f s) ∧ After t scope f (done ++ [s]) t'')
      ∨ (¬ StepReturns t scope f done s ∧ revalidateStep t scope f (t', dropped) (entryOf t s) = none) := by
  obtain ⟨first, rest, hqf⟩ := List.exists_cons_of_ne_nil hq
  have hf : (queue t s).head? = some first := by rw [hqf]; rfl
  cases hscope : scope.requiresRevalidation s with
  | false =>
    have hd : droppedOf t scope f s = [] := by simp [droppedOf, hscope]
    have hr : resets t scope f s = false := by simp [resets, hscope]
    refine .inl ⟨fun hs' => ?_, t', ?_, h.keep hs hr hd⟩
    · rw [hscope] at hs'
      cases hs'
    · rw [revalidateStep_out hscope, hd, List.append_nil]
  | true =>
    cases hb : liquidBalance t f s with
    | none =>
      refine .inr ⟨fun hok => ?_, revalidateStep_none hscope hb⟩
      have := (hok hscope).1
      rw [hb] at this
      cases this
    | some b =>
      have hsome : (liquidBalance t f s).isSome = true := by rw [hb]; rfl
      cases hr : resets t scope f s with
      | true =>
        obtain ⟨t'', c, hstep, hcs, hcut⟩ := revalidateStep_resets hc (t', dropped) hr hsome
        refine .inl ⟨fun _ => ⟨hsome, fun he => ?_⟩, t'', ?_, .of_cut hr hcs hcut⟩
        · rw [he.resets_eq] at hr
          cases hr
        · rw [hstep, show droppedOf t scope f s = queue t s by simp [droppedOf, hscope, hr]]
      | false =>
        rw [revalidateStep_replace hc hscope hq hr hsome]
        cases hd : droppedOf t scope f s with
        | nil =>
          refine .inl ⟨fun _ => ⟨hsome, fun he => ?_⟩, t', ?_, h.keep hs hr hd⟩
          · obtain ⟨last, tail, hd', -⟩ := he.droppedOf_eq
            rw [hd] at hd'
            cases hd'
          · rw [List.append_nil]
            rfl
        | cons head tail =>
          by_cases hrate : ∃ w ∈ applicableAfter t scope f done, w.feePerWu = head.feePerWu
          · refine .inl ⟨fun _ => ⟨hsome, fun he => ?_⟩, ?_⟩
            · obtain ⟨last, tail', hd', hlast⟩ := he.droppedOf_eq
              rw [hd] at hd'
              obtain rfl := (List.cons.inj hd').1
              obtain ⟨w, hw, hfee⟩ := hrate
              exact ⟨w, hw, head, hlast, hfee⟩
            · rw [← hd]
              exact h.replace hc hs hscope hr hd hrate dropped
          · refine .inr ⟨fun hok => hrate ?_, ?_⟩
            · by_cases he : dropsFromEnd t scope f s
              · obtain ⟨last, tail', hd', hlast⟩ := he.droppedOf_eq
                rw [hd] at hd'
                obtain rfl := (List.cons.inj hd').1
                obtain ⟨w, hw, last, hlast', hfee⟩ := (hok hscope).2 he
                rw [hlast, Option.mem_some_iff] at hlast'
                exact ⟨w, hw, hlast' ▸ hfee⟩
              · obtain rfl := droppedOf_head?_of_not_dropsFromEnd hscope hr hqf hd he
                exact h.applicable_head hs hf
            · rw [← h.applicable_eq] at hrate
              exact replaceQueue_none h.indexed hrate

theorem forall_split_cons {α : Type} (P : List α → α → Prop) {x : α} {l : List α} :
    (∀ a y b, x :: l = a ++ y :: b → P a y)
      ↔ P [] x ∧ ∀ a y b, l = a ++ y :: b → P (x :: a) y := by
  constructor
  · intro h
    exact ⟨h [] x l rfl, fun a y b he => h (x :: a) y b (by rw [he]; rfl)⟩
  · rintro ⟨hx, h⟩ a y b he
    cases a with
    | nil =>
      obtain ⟨rfl, -⟩ := List.cons.inj he
      exact hx
    | cons z a =>
      obtain ⟨rfl, hl⟩ := List.cons.inj he
      exact h a y b hl

theorem After.fold (hc : Consistent t) {rest : List AccountId}
    (dropped : List (Command H)) (h : After t scope f done t') (hnd : (done ++ rest).Nodup)
    (hq : ∀ s ∈ rest, queue t s ≠ []) : ((∀ a s b, rest = a ++ s :: b → StepReturns t scope f (done ++ a) s)
        ∧ ∃ t'', rest.foldlM (fun acc s => revalidateStep t scope f acc (entryOf t s)) (t', dropped)
            = some (t'', dropped ++ rest.flatMap (droppedOf t scope f)) ∧ After t scope f (done ++ rest) t'')
      ∨ (¬ (∀ a s b, rest = a ++ s :: b → StepReturns t scope f (done ++ a) s)
        ∧ rest.foldlM (fun acc s => revalidateStep t scope f acc (entryOf t s)) (t', dropped) = none) := by
  induction rest generalizing done t' dropped with
  | nil => exact .inl ⟨by simp, t', by simp, by simpa using h⟩
  | cons s rest ih =>
    have hs : s ∉ done := fun hs => (List.nodup_append.1 hnd).2.2 s hs s List.mem_cons_self rfl
    rw [List.foldlM_cons]
    rcases h.step hc hs (hq s List.mem_cons_self) dropped with ⟨hret, t'', hstep, h''⟩ | ⟨hret, hstep⟩
    · rw [hstep, Option.bind_eq_bind, Option.bind_some]
      have hcons : (∀ a r b, s :: rest = a ++ r :: b → StepReturns t scope f (done ++ a) r)
          ↔ ∀ a r b, rest = a ++ r :: b → StepReturns t scope f ((done ++ [s]) ++ a) r := by
        rw [forall_split_cons (fun a r => StepReturns t scope f (done ++ a) r), List.append_nil]
        simp only [hret, true_and, List.append_assoc, List.singleton_append]
      rw [hcons, List.flatMap_cons, ← List.append_assoc, List.append_cons done s rest]
      exact ih _ h'' (by rwa [← List.append_cons]) fun r hr => hq r (List.mem_cons_of_mem s hr)
    · rw [hstep]
      refine .inr ⟨fun hall => hret ?_, rfl⟩
      have := hall [] s rest rfl
      rwa [List.append_nil] at this

/-- The step for every sender returns. -/
def Returns (t : Pool H) (scope : Scope) (f : AccountId → Account) : Prop :=
  ∀ a s b, senders t = a ++ s :: b → StepReturns t scope f a s

theorem QueuesOk.mem_senders {t : Pool H} (h : QueuesOk t) : s ∈ senders t ↔ queue t s ≠ [] := by
  unfold senders
  rw [ExtTreeMap.mem_keys, ← ExtTreeMap.isSome_getElem?_iff_mem]
  constructor
  · intro hs hq
    rw [h.find_none hq] at hs
    cases hs
  · intro hq
    rw [(h.queue_ok hq).1]
    rfl

theorem QueuesOk.toList_eq {t : Pool H} (h : QueuesOk t) : t.allBySender.toList = (senders t).map (entryOf t) := by
  unfold senders
  rw [← ExtTreeMap.map_fst_toList_eq_keys, List.map_map]
  refine (List.map_id _).symm.trans (List.map_congr_left ?_)
  rintro ⟨s, q, r⟩ hp
  have hf := ExtTreeMap.mem_toList_iff_getElem?_eq_some.1 hp
  have hok := h.queueOk s q r hf
  show (s, q, r) = (s, queue t s, total (queue t s))
  rw [queue_of_find hf, ← hok.reserved_eq]

theorem senders_pairwise (t : Pool H) : (senders t).Pairwise (· < ·) := by
  refine t.allBySender.ordered_keys.imp ?_
  intro a b hab
  exact compare_lt_iff_lt.1 hab

/-- **What `revalidate` does.** -/
theorem revalidate_spec (hc : Consistent t) (scope : Scope) (f : AccountId → Account) :
    (Returns t scope f ∧ ∃ t', revalidate t scope f
        = some (t', (senders t).flatMap (droppedOf t scope f)) ∧ After t scope f (senders t) t')
      ∨ (¬ Returns t scope f ∧ revalidate t scope f = none) := by
  unfold revalidate
  rw [hc.toList_eq, List.foldlM_map]
  exact hc.after.fold hc [] ((senders_pairwise t).imp fun h => h.ne)
    fun s hs => hc.mem_senders.1 hs

end MinaProtocol.IndexedPool
