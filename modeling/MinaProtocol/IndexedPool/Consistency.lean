import MinaProtocol.IndexedPool.Pool

/-!
# IndexedPool.Consistency

The invariants of the pool. A pool stands for its sender queues: `Consistent` says
that each queue is in order and that the other fields are indexes of the commands in
the queues. `Indexed` says the latter for arbitrary sets of commands, because an
operation changes the fields one after the other. A consistent pool passes
`assert_pool_consistency`.
-/

namespace MinaProtocol.IndexedPool

open Std

variable {H : Nat → Option UserCommand} {q : List (Command H)}

variable (t : Pool H)

/-- The queue of a sender. -/
def queue (s : AccountId) : List (Command H) :=
  match t.allBySender[s]? with
  | some (q, _) => q
  | none => []

/-- The commands in the pool. -/
def commands : Set (Command H) := {c | ∃ s, c ∈ queue t s}

/-- The first commands of the queues. -/
def heads : Set (Command H) := {c | ∃ s, (queue t s).head? = some c}

/-- The currency that a command takes from its sender, if it does not overflow. -/
def cost (cmd : Command H) : Nat := cmd.fee + amountSent cmd.command

/-- The currency that the commands of a queue take from its sender. -/
def total (q : List (Command H)) : Nat := (q.map cost).sum

/-- The nonces of a queue are consecutive and do not wrap. -/
def Consecutive (q : List (Command H)) : Prop :=
  q.IsChain (fun a b => b.nonce.toNat = a.nonce.toNat + 1)

/-- A queue with the currency reserved for it. -/
structure QueueOk (s : AccountId) (q : List (Command H)) (reserved : Nat) : Prop where
  nonempty : q ≠ []
  sender : ∀ c ∈ q, c.sender = s
  consecutive : Consecutive q
  reserved_eq : reserved = total q
  reserved_lt : reserved < 2 ^ 64

/-- All commands are those in `S`, and the applicable ones those in `A`. -/
structure Indexed (S A : Set (Command H)) : Prop where
  allByFee : Indexes Command.feePerWu t.allByFee S
  allByHash : ∀ h c, t.allByHash[h]? = some c ↔ c ∈ S ∧ c.hash = h
  applicableByFee : Indexes Command.feePerWu t.applicableByFee A
  expiration : Indexes Command.validUntil t.transactionsWithExpiration
    {c | c ∈ S ∧ c.validUntil ≠ maxValue}
  size_eq : t.size = t.allByHash.size

/-- Every queue is in order. -/
structure QueuesOk : Prop where
  queueOk : ∀ s q r, t.allBySender[s]? = some (q, r) → QueueOk s q r

/-- The invariants of the pool. -/
structure Consistent : Prop extends QueuesOk t where
  indexed : Indexed t (commands t) (heads t)

/-! ### `assert_pool_consistency` -/

/-- The fold over a queue of `assert_pool_consistency`: the currency of the commands,
or `none` if a check fails. -/
def checkQueue (key : AccountId) : List (Command H) → Option AccountNonce → Nat → Option Nat
  | [], _, reserved => some reserved
  | cmd :: rest, lastNonce, reserved => do
    guard (cmd.sender = key)
    guard (lastNonce.all (· < cmd.nonce))
    let consumed ← currencyConsumed cmd
    let reserved ← Amount.add reserved consumed
    checkQueue key rest (some cmd.nonce) reserved

/-- All sets of the map are non-empty, and their commands have the key as fee. -/
def checkFees (m : MapSet ℚ (Command H)) : Prop :=
  ∀ p ∈ m.toList, p.2.isEmpty = false ∧ ∀ cmd ∈ p.2.toList, cmd.feePerWu = p.1

instance (m : MapSet ℚ (Command H)) : Decidable (checkFees m) := by
  unfold checkFees
  infer_instance

variable (pool : Pool H) {s : AccountId} {cmd : Command H} {t' : Pool H}

/-- The commands of all queues. -/
def allBySenderSet : ExtTreeSet (Command H) :=
  ExtTreeSet.ofList (pool.allBySender.toList.flatMap (fun p => p.2.1)) compare

/-- The commands of the hash index. -/
def allByHashSet : ExtTreeSet (Command H) :=
  ExtTreeSet.ofList (pool.allByHash.toList.map Prod.snd) compare

/-- The commands at the head of the queues. -/
def headSet : ExtTreeSet (Command H) :=
  ExtTreeSet.ofList (pool.allBySender.toList.filterMap (fun p => p.2.1.head?)) compare

/-- The commands of all indexes. -/
def allTxns : ExtTreeSet (Command H) :=
  [pool.allByFee.toSet, allByHashSet pool, pool.transactionsWithExpiration.toSet,
    pool.applicableByFee.toSet].foldl (· ∪ ·) (allBySenderSet pool)

/-- `For_tests.assert_pool_consistency`. -/
def assertPoolConsistency : Prop :=
  pool.size = (allTxns pool).size
    ∧ allByHashSet pool = allTxns pool
    ∧ allBySenderSet pool = allTxns pool
    ∧ pool.allByFee.toSet = allTxns pool
    ∧ headSet pool = pool.applicableByFee.toSet
    ∧ (∀ p ∈ pool.allBySender.toList, p.2.1 ≠ [] ∧ checkQueue p.1 p.2.1 none 0 = some p.2.2)
    ∧ checkFees pool.applicableByFee
    ∧ checkFees pool.allByFee
    ∧ ∀ p ∈ pool.allByHash.toList, p.2.hash = p.1

instance (pool : Pool H) : Decidable (assertPoolConsistency pool) := by
  unfold assertPoolConsistency
  infer_instance

/-! ### Currency -/

theorem currencyConsumed_eq_some {n : Nat} : currencyConsumed cmd = some n ↔ cost cmd = n ∧ n < 2 ^ 64 :=
  Amount.add_eq_some

theorem currencyConsumed_of_lt (h : cost cmd < 2 ^ 64) : currencyConsumed cmd = some (cost cmd) :=
  currencyConsumed_eq_some.2 ⟨rfl, h⟩

@[simp] theorem total_nil : total ([] : List (Command H)) = 0 := rfl

@[simp] theorem total_cons (c : Command H) (q : List (Command H)) : total (c :: q) = cost c + total q := by
  simp [total]

@[simp] theorem total_append (q q' : List (Command H)) : total (q ++ q') = total q + total q' := by
  simp [total]

theorem foldlM_addConsumed {acc : Nat} (h : total q + acc < 2 ^ 64) :
    q.foldlM addConsumed acc = some (total q + acc) := by
  induction q generalizing acc with
  | nil => simp
  | cons c q ih =>
    rw [total_cons] at h
    have hstep : addConsumed acc c = some (cost c + acc) := by
      unfold addConsumed
      rw [currencyConsumed_of_lt (by omega), Option.bind_eq_bind, Option.bind_some]
      exact Amount.add_eq_some.2 ⟨rfl, by omega⟩
    rw [List.foldlM_cons, hstep, Option.bind_eq_bind, Option.bind_some, ih (by omega), total_cons]
    congr 1
    omega

/-! ### Queues -/

theorem queue_of_find {t : Pool H} {r : Nat} (h : t.allBySender[s]? = some (q, r)) : queue t s = q := by
  simp [queue, h]

theorem queue_of_find_none {t : Pool H} (h : t.allBySender[s]? = none) : queue t s = [] := by
  simp [queue, h]

theorem queue_eq_of_find_eq {t : Pool H} (h : t'.allBySender[s]? = t.allBySender[s]?) : queue t' s = queue t s := by
  unfold queue
  rw [h]

theorem Consecutive.nonce_lt {c : Command H} (h : Consecutive (c :: q)) : ∀ c' ∈ q, c.nonce.toNat < c'.nonce.toNat := by
  induction q generalizing c with
  | nil => simp
  | cons d q ih =>
    obtain ⟨hd, hq⟩ := List.isChain_cons_cons.1 h
    intro c' hc'
    rcases List.mem_cons.1 hc' with rfl | hc'
    · omega
    · have := ih hq c' hc'
      omega

theorem Consecutive.pairwise (h : Consecutive q) : q.Pairwise (fun a b => a.nonce.toNat < b.nonce.toNat) := by
  induction q with
  | nil => simp
  | cons c q ih => exact List.pairwise_cons.2 ⟨h.nonce_lt, ih h.tail⟩

theorem Consecutive.nodup (h : Consecutive q) : q.Nodup := by
  refine h.pairwise.imp ?_
  rintro a b hab rfl
  exact lt_irrefl _ hab

theorem Consecutive.eq_of_nonce_eq (h : Consecutive q) {a b : Command H}
    (ha : a ∈ q) (hb : b ∈ q) (hn : a.nonce = b.nonce) : a = b := by
  induction q with
  | nil => simp at ha
  | cons c q ih =>
    rcases List.mem_cons.1 ha with rfl | ha' <;> rcases List.mem_cons.1 hb with rfl | hb'
    · rfl
    · exact absurd (h.nonce_lt b hb') (by rw [hn]; exact lt_irrefl _)
    · exact absurd (h.nonce_lt a ha') (by rw [hn]; exact lt_irrefl _)
    · exact ih h.tail ha' hb'

namespace QueuesOk

variable {t t' : Pool H} {s : AccountId}

variable (h : QueuesOk t) {c : Command H}

include h

theorem queue_ok (hq : queue t s ≠ []) : t.allBySender[s]? = some (queue t s, total (queue t s))
      ∧ QueueOk s (queue t s) (total (queue t s)) := by
  cases hf : t.allBySender[s]? with
  | none => exact absurd (queue_of_find_none hf) hq
  | some p =>
    obtain ⟨q, r⟩ := p
    have hok := h.queueOk s q r hf
    obtain rfl := hok.reserved_eq
    rw [queue_of_find hf]
    exact ⟨rfl, hok⟩

theorem find_none (hq : queue t s = []) : t.allBySender[s]? = none := by
  cases hf : t.allBySender[s]? with
  | none => rfl
  | some p =>
    obtain ⟨q, r⟩ := p
    exact absurd ((queue_of_find hf).symm.trans hq) (h.queueOk s q r hf).nonempty

theorem sender_eq (hc : c ∈ queue t s) : c.sender = s :=
  (h.queue_ok (List.ne_nil_of_mem hc)).2.sender c hc

theorem mem_commands : c ∈ commands t ↔ c ∈ queue t c.sender := by
  constructor
  · rintro ⟨s, hs⟩
    rwa [h.sender_eq hs]
  · intro hc
    exact ⟨c.sender, hc⟩

theorem mem_heads : c ∈ heads t ↔ (queue t c.sender).head? = some c := by
  constructor
  · rintro ⟨s, hs⟩
    rwa [h.sender_eq (List.mem_of_head? hs)]
  · intro hc
    exact ⟨c.sender, hc⟩

theorem consecutive (s : AccountId) : Consecutive (queue t s) := by
  by_cases hq : queue t s = []
  · rw [hq]
    exact List.isChain_nil
  · exact (h.queue_ok hq).2.consecutive

variable (hframe : ∀ s', s' ≠ s → t'.allBySender[s']? = t.allBySender[s']?)

include hframe

theorem commands_update :
    commands t' = {c | c ∈ commands t ∧ c ∉ queue t s} ∪ {c | c ∈ queue t' s} := by
  ext c
  constructor
  · rintro ⟨s', hc⟩
    by_cases hs' : s' = s
    · exact .inr (hs' ▸ hc)
    · rw [queue_eq_of_find_eq (hframe s' hs')] at hc
      exact .inl ⟨⟨s', hc⟩, fun hcs => hs' ((h.sender_eq hc).symm.trans (h.sender_eq hcs))⟩
  · rintro (⟨⟨s', hc⟩, hcs⟩ | hc)
    · have hs' : s' ≠ s := fun e => hcs (e ▸ hc)
      exact ⟨s', by rwa [queue_eq_of_find_eq (hframe s' hs')]⟩
    · exact ⟨s, hc⟩

theorem heads_update :
    heads t' = {c | c ∈ heads t ∧ c ∉ queue t s} ∪ {c | (queue t' s).head? = some c} := by
  ext c
  constructor
  · rintro ⟨s', hc⟩
    by_cases hs' : s' = s
    · exact .inr (hs' ▸ hc)
    · rw [queue_eq_of_find_eq (hframe s' hs')] at hc
      refine .inl ⟨⟨s', hc⟩, fun hcs => hs' ?_⟩
      exact (h.sender_eq (List.mem_of_head? hc)).symm.trans (h.sender_eq hcs)
  · rintro (⟨⟨s', hc⟩, hcs⟩ | hc)
    · have hs' : s' ≠ s := fun e => hcs (e ▸ List.mem_of_head? hc)
      exact ⟨s', by rwa [queue_eq_of_find_eq (hframe s' hs')]⟩
    · exact ⟨s, hc⟩

omit hframe

omit h

theorem update (h : QueuesOk t) (s : AccountId) (hframe : ∀ s', s' ≠ s → t'.allBySender[s']? = t.allBySender[s']?)
    (hs : ∀ q r, t'.allBySender[s]? = some (q, r) → QueueOk s q r) : QueuesOk t' := by
  constructor
  intro s' q r hf
  by_cases hs' : s' = s
  · subst hs'
    exact hs q r hf
  · rw [hframe s' hs'] at hf
    exact h.queueOk s' q r hf

end QueuesOk

/-- An operation on the queue of one sender keeps the invariants if it keeps them for
this queue and files what the queue loses and gains. -/
theorem Consistent.of_update {t : Pool H} (h : Consistent t) (s : AccountId)
    (hframe : ∀ s', s' ≠ s → t'.allBySender[s']? = t.allBySender[s']?)
    (hs : ∀ q r, t'.allBySender[s]? = some (q, r) → QueueOk s q r)
    (hidx : Indexed t' ({c | c ∈ commands t ∧ c ∉ queue t s} ∪ {c | c ∈ queue t' s})
      ({c | c ∈ heads t ∧ c ∉ queue t s} ∪ {c | (queue t' s).head? = some c})) :
    Consistent t' :=
  ⟨h.update s hframe hs, h.commands_update hframe ▸ h.heads_update hframe ▸ hidx⟩

theorem consistent_empty (config : Config) : Consistent (empty config : Pool H) := by
  have hq : ∀ s, queue (empty config : Pool H) s = [] := fun s => by simp [queue, empty]
  refine ⟨⟨by simp [empty]⟩, ?_⟩
  rw [show commands (empty config : Pool H) = ∅ by simp [commands, hq],
    show heads (empty config : Pool H) = ∅ by simp [heads, hq]]
  refine ⟨Indexes.empty _, by simp [empty], Indexes.empty _, ?_, rfl⟩
  rw [show {c : Command H | c ∈ (∅ : Set (Command H)) ∧ c.validUntil ≠ maxValue} = ∅ by simp]
  exact Indexes.empty _

/-! ### Consistent pools pass the check -/

section Check

variable {t : Pool H} {c : Command H}

theorem mem_allBySenderSet : c ∈ allBySenderSet t ↔ c ∈ commands t := by
  unfold allBySenderSet commands
  rw [ExtTreeSet.mem_ofList, List.contains_iff_mem, List.mem_flatMap]
  constructor
  · rintro ⟨⟨s, q, r⟩, hp, hc⟩
    have hf := ExtTreeMap.mem_toList_iff_getElem?_eq_some.1 hp
    exact ⟨s, by rwa [queue_of_find hf]⟩
  · rintro ⟨s, hc⟩
    unfold queue at hc
    split at hc
    · rename_i q r hf
      exact ⟨(s, q, r), ExtTreeMap.mem_toList_iff_getElem?_eq_some.2 hf, hc⟩
    · simp at hc

theorem mem_headSet : c ∈ headSet t ↔ c ∈ heads t := by
  unfold headSet heads
  rw [ExtTreeSet.mem_ofList, List.contains_iff_mem, List.mem_filterMap]
  constructor
  · rintro ⟨⟨s, q, r⟩, hp, hc⟩
    have hf := ExtTreeMap.mem_toList_iff_getElem?_eq_some.1 hp
    exact ⟨s, by rwa [queue_of_find hf]⟩
  · rintro ⟨s, hc⟩
    unfold queue at hc
    split at hc
    · rename_i q r hf
      exact ⟨(s, q, r), ExtTreeMap.mem_toList_iff_getElem?_eq_some.2 hf, hc⟩
    · simp at hc

variable {S A : Set (Command H)}

theorem Indexed.mem_allByHashSet (h : Indexed t S A) : c ∈ allByHashSet t ↔ c ∈ S := by
  unfold allByHashSet
  rw [ExtTreeSet.mem_ofList, List.contains_iff_mem, List.mem_map]
  constructor
  · rintro ⟨⟨k, c'⟩, hp, rfl⟩
    exact ((h.allByHash k c').1 (ExtTreeMap.mem_toList_iff_getElem?_eq_some.1 hp)).1
  · intro hc
    exact ⟨(c.hash, c), ExtTreeMap.mem_toList_iff_getElem?_eq_some.2 ((h.allByHash _ _).2 ⟨hc, rfl⟩), rfl⟩

theorem size_allByHashSet (h : ∀ (k : Nat) (c : Command H), t.allByHash[k]? = some c → c.hash = k) :
    (allByHashSet t).size = t.allByHash.size := by
  have hdistinct : (t.allByHash.toList.map Prod.snd).Pairwise (fun a b => ¬ compare a b = .eq) := by
    refine List.pairwise_map.2 (t.allByHash.distinct_keys_toList.imp_of_mem ?_)
    rintro ⟨k, c⟩ ⟨k', c'⟩ hp hp' hne heq
    obtain rfl : c = c' := LawfulEqOrd.eq_of_compare heq
    have hk := h _ _ (ExtTreeMap.mem_toList_iff_getElem?_eq_some.1 hp)
    have hk' := h _ _ (ExtTreeMap.mem_toList_iff_getElem?_eq_some.1 hp')
    exact hne (by rw [← hk, ← hk']; exact ReflCmp.compare_self)
  unfold allByHashSet
  rw [ExtTreeSet.size_ofList hdistinct, List.length_map, ExtTreeMap.length_toList]

theorem checkFees_of_indexes {m : MapSet ℚ (Command H)} (h : Indexes Command.feePerWu m S) : checkFees m := by
  rintro ⟨k, s⟩ hp
  have hf := ExtTreeMap.mem_toList_iff_getElem?_eq_some.1 hp
  obtain ⟨c, hc⟩ := h.noEmpty k s hf
  refine ⟨?_, fun cmd hcmd => ?_⟩
  · rw [Bool.eq_false_iff]
    intro he
    obtain rfl : s = ∅ := ExtTreeSet.isEmpty_iff.1 he
    simp at hc
  · exact ((h.at_iff k cmd).1 ⟨s, hf, ExtTreeSet.mem_toList.1 hcmd⟩).2

theorem checkQueue_of_consecutive {s : AccountId} {q : List (Command H)}
    (lastNonce : Option AccountNonce) (acc : Nat) (hsender : ∀ c ∈ q, c.sender = s) (hq : Consecutive q)
    (hlast : ∀ n ∈ lastNonce, ∀ c ∈ q.head?, n < c.nonce) (hfits : acc + total q < 2 ^ 64) :
    checkQueue s q lastNonce acc = some (acc + total q) := by
  induction q generalizing lastNonce acc with
  | nil => simp [checkQueue]
  | cons c q ih =>
    rw [total_cons] at hfits
    have hguard : lastNonce.all (fun n => decide (n < c.nonce)) = true := by
      rw [Option.all_eq_true]
      intro n hn
      simpa using hlast n hn c rfl
    have hconsumed : currencyConsumed c = some (cost c) := currencyConsumed_of_lt (by omega)
    have hadd : Amount.add acc (cost c) = some (acc + cost c) := Amount.add_eq_some.2 ⟨rfl, by omega⟩
    have hrest := ih (some c.nonce) (acc + cost c)
      (fun c' hc' => hsender c' (List.mem_cons_of_mem c hc')) hq.tail
      (by
        rintro n hn d hd
        obtain rfl := Option.mem_some_iff.1 hn
        rw [UInt32.lt_iff_toNat_lt]
        exact hq.nonce_lt d (List.mem_of_head? hd))
      (by omega)
    simp only [checkQueue, hsender c List.mem_cons_self, guard_true, hguard, hconsumed, hadd,
      Option.bind_eq_bind, Option.bind_some, hrest, total_cons, Option.pure_def]
    congr 1
    omega

/-- **A consistent pool passes `assert_pool_consistency`.** -/
theorem Consistent.assertPoolConsistency (h : Consistent t) : assertPoolConsistency t := by
  have hi := h.indexed
  have hheads : ∀ c, c ∈ heads t → c ∈ commands t := fun c ⟨s, hc⟩ => ⟨s, List.mem_of_head? hc⟩
  have hall : ∀ c, c ∈ allTxns t ↔ c ∈ commands t := by
    intro c
    unfold allTxns
    simp only [MapSet.mem_foldl_union, List.mem_cons, List.not_mem_nil, or_false, exists_eq_or_imp,
      exists_eq_left, mem_allBySenderSet, hi.allByFee.mem_toSet, hi.mem_allByHashSet,
      hi.expiration.mem_toSet, hi.applicableByFee.mem_toSet, Set.mem_ofPred_eq]
    have := hheads c
    grind
  have hhash : allByHashSet t = allTxns t :=
    ExtTreeSet.ext_mem fun c => hi.mem_allByHashSet.trans (hall c).symm
  refine ⟨?_, hhash, ?_, ?_, ?_, ?_, checkFees_of_indexes hi.applicableByFee, checkFees_of_indexes hi.allByFee, ?_⟩
  · rw [← hhash, size_allByHashSet fun k c hk => ((hi.allByHash k c).1 hk).2, hi.size_eq]
  · exact ExtTreeSet.ext_mem fun c => mem_allBySenderSet.trans (hall c).symm
  · exact ExtTreeSet.ext_mem fun c => hi.allByFee.mem_toSet.trans (hall c).symm
  · exact ExtTreeSet.ext_mem fun c => mem_headSet.trans hi.applicableByFee.mem_toSet.symm
  · rintro ⟨s, q, r⟩ hp
    have hok := h.queueOk s q r (ExtTreeMap.mem_toList_iff_getElem?_eq_some.1 hp)
    refine ⟨hok.nonempty, ?_⟩
    have hlt := hok.reserved_lt
    rw [hok.reserved_eq] at hlt ⊢
    simpa using checkQueue_of_consecutive none 0 hok.sender hok.consecutive
      (by simp) (by omega)
  · rintro ⟨k, c⟩ hp
    exact ((hi.allByHash k c).1 (ExtTreeMap.mem_toList_iff_getElem?_eq_some.1 hp)).2

end Check

end MinaProtocol.IndexedPool
