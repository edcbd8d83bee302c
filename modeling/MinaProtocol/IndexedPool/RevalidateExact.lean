import MinaProtocol.IndexedPool.Revalidate

/-!
# IndexedPool.RevalidateExact

When `revalidate` is safe, and when its result is what it reports. It is not safe when
commands are dropped from the end of a queue: the last command is then looked for among
the applicable ones, which raises unless one with the same fee is there
(`revalidate_raises`), and the first one stays among them even if the whole queue goes
(`revalidate_safe_iff`). And its report is right only if no sender that loses commands
comes before one whose whole queue goes (`revalidate_exact_iff`).
-/

namespace MinaProtocol.IndexedPool

open Std

variable {H : Nat → Option UserCommand} {t : Pool H} {scope : Scope} {f : AccountId → Account} {s : AccountId}
  {done : List AccountId} {t' : Pool H}

/-! ### Which results last -/

theorem mem_lasting_iff (h : done.Pairwise (· < ·)) : s ∈ lasting t scope f done
      ↔ s ∈ done ∧ ∀ r ∈ done, s < r → resets t scope f r = false := by
  induction done using List.reverseRecOn with
  | nil => simp [lasting]
  | append_singleton done r ih =>
    obtain ⟨hdone, -, hlt⟩ := List.pairwise_append.1 h
    have hlt : ∀ a ∈ done, a < r := fun a ha => hlt a ha r (by simp)
    have ih := ih hdone
    rw [lasting_append]
    simp only [List.mem_append, List.mem_singleton]
    by_cases hs : s = r
    · subst hs
      have hlast : ∀ a, a ∈ done ∨ a = s → s < a → resets t scope f a = false := by
        rintro a (ha | rfl) hsa
        · exact absurd (hsa.trans (hlt a ha)) (lt_irrefl s)
        · exact absurd hsa (lt_irrefl _)
      simp only [or_true, true_and, iff_true_intro hlast, iff_true]
      split <;> simp
    · simp only [hs, or_false]
      split
      · rename_i hr
        simp only [List.mem_singleton, hs, false_iff, not_and]
        intro hsd hall
        have := hall r (.inr rfl) (hlt s hsd)
        rw [hr] at this
        cases this
      · rename_i hr
        simp only [List.mem_append, List.mem_singleton, hs, or_false, ih]
        refine and_congr_right fun hsd => ⟨?_, fun hall a ha => hall a (.inl ha)⟩
        rintro hall a (ha | rfl) hsa
        · exact hall a ha hsa
        · simpa using hr

theorem mem_lasting_senders (hc : Consistent t) : s ∈ lasting t scope f (senders t)
      ↔ queue t s ≠ [] ∧ ∀ r, s < r → resets t scope f r = false := by
  rw [mem_lasting_iff (senders_pairwise t), hc.mem_senders]
  refine and_congr_right fun _ => ⟨fun hall r hsr => ?_, fun hall r _ => hall r⟩
  by_cases hr : queue t r = []
  · simp [resets, hr]
  · exact hall r (hc.mem_senders.2 hr) hsr

/-! ### Safety -/

theorem affordable_eq_nil {balance : Nat} {q : List (Command H)} {c : Command H} :
    affordable balance (q ++ [c]) = [] ↔ balance < cost c := by
  induction q with
  | nil =>
    unfold affordable
    split <;> simp_all [affordable]
  | cons d q ih =>
    rw [List.cons_append]
    unfold affordable
    split
    · rename_i hle
      simp only [total_cons, total_append, total_nil] at hle
      simp only [reduceCtorEq, false_iff]
      omega
    · exact ih

/-- The balance does not even pay for the first command. -/
def KeepsNothing (t : Pool H) (f : AccountId → Account) (s : AccountId) : Prop :=
  ∃ first ∈ (queue t s).head?, (liquidBalance t f s).getD 0 < cost first

theorem dropsFromEnd.keptQueue_eq_nil (h : dropsFromEnd t scope f s) :
    keptQueue t scope f s = [] ↔ KeepsNothing t f s := by
  obtain ⟨first, hfirst, -⟩ := h.2.2.1
  obtain ⟨rest, hq⟩ := List.head?_eq_some_iff.1 (Option.mem_def.1 hfirst)
  rw [keptQueue_of_dropsFromEnd h, List.reverse_eq_nil_iff]
  unfold KeepsNothing
  rw [hq, List.reverse_cons, affordable_eq_nil]
  simp

theorem After.consistent_iff (hc : Consistent t) (h : After t scope f done t') :
    assertPoolConsistency t' ↔ strays t scope f done = ∅ := by
  constructor
  · intro ha
    obtain ⟨-, -, -, -, hheads, -⟩ := ha
    by_contra hne
    obtain ⟨c, hcs⟩ := Set.nonempty_iff_ne_empty.2 hne
    have hmem : c ∈ t'.applicableByFee.toSet := h.indexed.applicableByFee.mem_toSet.2 (.inr hcs)
    rw [← hheads, mem_headSet, h.mem_heads, h.queue_eq, queueAfter, if_pos (sender_mem_of_mem_strays hc hcs)] at hmem
    obtain ⟨s, -, -, hk, hhead⟩ := hcs
    rw [hc.sender_eq (List.mem_of_head? hhead), hk] at hmem
    cases hmem
  · intro he
    have hidx := h.indexed
    rw [he, Set.union_empty] at hidx
    exact (Consistent.mk h.toQueuesOk hidx).assertPoolConsistency

theorem strays_senders_eq_empty (hc : Consistent t) : strays t scope f (senders t) = ∅
      ↔ ∀ s, dropsFromEnd t scope f s → KeepsNothing t f s →
        ∃ r, s < r ∧ resets t scope f r = true := by
  constructor
  · intro he s hd hk
    by_contra hno
    obtain ⟨first, hfirst, -⟩ := hd.2.2.1
    have hmem : first ∈ strays t scope f (senders t) := by
      refine ⟨s, (mem_lasting_senders hc).2 ⟨?_, fun r hsr => ?_⟩, hd, hd.keptQueue_eq_nil.2 hk, hfirst⟩
      · exact List.ne_nil_of_mem (List.mem_of_head? hfirst)
      · rw [Bool.eq_false_iff]
        exact fun hr => hno ⟨r, hsr, hr⟩
    rw [he] at hmem
    exact hmem
  · intro hall
    rw [Set.eq_empty_iff_forall_notMem]
    rintro c ⟨s, hs, hd, hk, -⟩
    obtain ⟨r, hsr, hr⟩ := hall s hd (hd.keptQueue_eq_nil.1 hk)
    rw [((mem_lasting_senders hc).1 hs).2 r hsr] at hr
    cases hr

/-- An account of a user who may send. -/
def userAccount (nonce : AccountNonce) (balance : Nat) : Account where
  publicKey := ⟨7, false⟩
  tokenId := TokenId.default
  tokenSymbol := ""
  balance := balance
  nonce := nonce
  receiptChainHash := 0
  delegate := none
  votingFor := 0
  timing := .untimed
  permissions := .userDefault
  zkapp := none

/-- Payments of one sender, the second with a higher fee. -/
def rising : List UserCommand := [payment 7 5 1 10, payment 7 6 2 10]

/-- Payments of one sender with equal fees. -/
def level : List UserCommand := [payment 7 5 1 10, payment 7 6 1 10]

/-- The pool with two such payments. -/
def twoQueued (l : List UserCommand) (h : ∀ i (hi : i < l.length), (l.get ⟨i, hi⟩).weight < 2 ^ 31)
    (hl : l.length = 2) : Pool (fromList l) :=
  addedAll 100 5 [fromList.get l 0 (by omega) (h 0 _), fromList.get l 1 (by omega) (h 1 _)]

theorem twoQueued_consistent (l : List UserCommand)
    (h : ∀ i (hi : i < l.length), (l.get ⟨i, hi⟩).weight < 2 ^ 31) (hl : l.length = 2)
    (hn : ∀ i (hi : i < l.length), (l.get ⟨i, hi⟩).applicableAtNonce ≠ 0) : Consistent (twoQueued l h hl) := by
  refine (addedAll_staysBelowMax (B := FitsBefore) 100 5 _ ?_).consistent
  intro c hc
  rcases List.mem_pair.1 hc with rfl | rfl
  · exact hn 0 _
  · exact hn 1 _

/-- The senders in scope have the queues that their accounts allow, the others keep
theirs, and the dropped commands are exactly those that are gone. -/
structure Revalidated (t : Pool H) (scope : Scope) (f : AccountId → Account) (t' : Pool H)
    (dropped : List (Command H)) : Prop where
  drops : Drops t t' dropped
  first_nonce : ∀ s q r, scope.requiresRevalidation s = true → t'.allBySender[s]? = some (q, r) →
    ∃ first ∈ q.head?, first.nonce = (f s).nonce
  reserved_le : ∀ s q r, scope.requiresRevalidation s = true → t'.allBySender[s]? = some (q, r) →
    ∃ b ∈ liquidBalance t f s, r ≤ b
  permission : ∀ s q r, scope.requiresRevalidation s = true → t'.allBySender[s]? = some (q, r) →
    (f s).hasPermissionToSend = true ∧ (f s).hasPermissionToIncrementNonce = true
  outOfScope : ∀ s, scope.requiresRevalidation s = false → t'.allBySender[s]? = t.allBySender[s]?

/-- The account does not allow the whole queue of the sender any more. -/
def Loses (t : Pool H) (scope : Scope) (f : AccountId → Account) (s : AccountId) : Prop :=
  scope.requiresRevalidation s = true ∧ ∃ first ∈ (queue t s).head?,
    maySend f s = false ∨ first.nonce ≠ (f s).nonce ∨ (liquidBalance t f s).getD 0 < total (queue t s)

theorem maySend_of_not_resets (hs : scope.requiresRevalidation s = true)
    (hq : queue t s ≠ []) (hr : resets t scope f s = false) : maySend f s = true := by
  obtain ⟨first, rest, hq⟩ := List.exists_cons_of_ne_nil hq
  unfold resets at hr
  rw [hs, hq, Bool.true_and, List.head?_cons, Option.any_some, Bool.or_eq_false_iff, Bool.not_eq_false'] at hr
  exact hr.1

/-- These are the senders that lose commands. -/
theorem droppedOf_eq_nil_iff : droppedOf t scope f s = [] ↔ ¬ Loses t scope f s := by
  cases hscope : scope.requiresRevalidation s with
  | false => simp [droppedOf, Loses, hscope]
  | true =>
    cases hq : queue t s with
    | nil =>
      have hperm := droppedOf_append_keptQueue t scope f s
      rw [hq, List.perm_nil, List.append_eq_nil_iff] at hperm
      simp [Loses, hq, hperm.1]
    | cons first rest =>
      have hloses : Loses t scope f s ↔ maySend f s = false ∨ first.nonce ≠ (f s).nonce
          ∨ (liquidBalance t f s).getD 0 < total (queue t s) := by
        simp [Loses, hscope, hq]
      rw [hloses]
      by_cases hn : first.nonce = (f s).nonce
      · obtain ⟨hst, hcur⟩ := current_of_nonce_eq hq hn
        cases hsend : maySend f s with
        | false => simp [droppedOf, hscope, resets, hq, hsend]
        | true =>
          have hr : resets t scope f s = false := by simp [resets, hq, hsend, hn]
          unfold droppedOf
          simp only [hscope, hr, Bool.not_true, Bool.false_eq_true, if_false]
          rw [hst, hcur, List.nil_append, unaffordable_eq_nil, total_reverse]
          simp [hn]
      · simp only [hn, ne_eq, not_false_eq_true, true_or, or_true, not_true_eq_false, iff_false]
        intro hd
        unfold droppedOf at hd
        simp only [hscope, Bool.not_true, Bool.false_eq_true, if_false] at hd
        split at hd
        · rw [hq] at hd
          cases hd
        · obtain ⟨l, hl⟩ := take_splitIndex_cons_of_nonce_ne (q := rest) hn
          unfold stale at hd
          rw [hq, hl] at hd
          cases hd

theorem find_eq_of_queue_eq (h : QueuesOk t) (h' : QueuesOk t')
    (he : queue t' s = queue t s) : t'.allBySender[s]? = t.allBySender[s]? := by
  by_cases hq : queue t s = []
  · rw [h.find_none hq, h'.find_none (he.trans hq)]
  · rw [(h.queue_ok hq).1, (h'.queue_ok (he ▸ hq)).1, he]

theorem keptQueue_allowed (hs : scope.requiresRevalidation s = true) (hk : keptQueue t scope f s ≠ []) :
    (∃ first ∈ (keptQueue t scope f s).head?, first.nonce = (f s).nonce)
      ∧ total (keptQueue t scope f s) ≤ (liquidBalance t f s).getD 0 ∧ maySend f s = true := by
  have hr : resets t scope f s = false := by
    rw [Bool.eq_false_iff]
    intro hr
    exact hk (by simp [keptQueue, hs, hr])
  have heq : keptQueue t scope f s
      = (affordable ((liquidBalance t f s).getD 0) (current t f s).reverse).reverse := by
    simp [keptQueue, hs, hr]
  obtain ⟨first, rest, hf⟩ := List.exists_cons_of_ne_nil hk
  have hcur : (current t f s).head? = some first := by
    rw [current_eq s ((liquidBalance t f s).getD 0), ← heq, List.head?_append_of_ne_nil _ hk, hf]
    rfl
  refine ⟨⟨first, by rw [hf]; rfl, nonce_of_head?_drop_splitIndex hcur⟩, ?_, ?_⟩
  · rw [heq, total_reverse]
    exact total_affordable_le _ _
  · refine maySend_of_not_resets hs (fun hq => ?_) hr
    rw [current, hq, List.drop_nil] at hcur
    cases hcur

theorem After.revalidated (hc : Consistent t) (h : After t scope f (senders t) t')
    (hret : Returns t scope f) (hkept : ∀ s, queue t' s = keptQueue t scope f s) :
    Revalidated t scope f t' ((senders t).flatMap (droppedOf t scope f)) := by
  have hmem : ∀ s c, c ∈ queue t s ↔ c ∈ droppedOf t scope f s ∨ c ∈ keptQueue t scope f s := by
    intro s c
    rw [← (droppedOf_append_keptQueue t scope f s).mem_iff, List.mem_append]
  have hnd : ∀ s, (droppedOf t scope f s ++ keptQueue t scope f s).Nodup := fun s =>
    (droppedOf_append_keptQueue t scope f s).nodup_iff.2 (hc.consecutive s).nodup
  have hdropped : ∀ c, c ∈ (senders t).flatMap (droppedOf t scope f)
      ↔ c ∈ droppedOf t scope f c.sender := by
    intro c
    rw [List.mem_flatMap]
    constructor
    · rintro ⟨s, -, hcs⟩
      rwa [hc.sender_eq ((hmem s c).2 (.inl hcs))]
    · intro hcs
      have hq := (hmem _ c).2 (.inl hcs)
      exact ⟨c.sender, hc.mem_senders.2 (List.ne_nil_of_mem hq), hcs⟩
  have hallowed : ∀ s q r, t'.allBySender[s]? = some (q, r) →
      q = keptQueue t scope f s ∧ r = total q ∧ keptQueue t scope f s ≠ [] := by
    intro s q r hf
    have hok := h.queueOk s q r hf
    have hq : q = keptQueue t scope f s := (queue_of_find hf).symm.trans (hkept s)
    exact ⟨hq, hok.reserved_eq, hq ▸ hok.nonempty⟩
  refine ⟨⟨fun c => ?_, fun c hcd => ?_, ?_⟩, ?_, ?_, ?_, ?_⟩
  · rw [hc.mem_commands, h.mem_commands, hdropped, hkept, hmem]
    exact or_comm
  · rw [h.mem_commands, hkept]
    rw [hdropped] at hcd
    exact fun hck => (List.nodup_append.1 (hnd c.sender)).2.2 c hcd c hck rfl
  · rw [List.nodup_flatMap]
    refine ⟨fun s _ => (List.nodup_append.1 (hnd s)).1, (senders_pairwise t).imp ?_⟩
    intro s r hsr c hcs hcr
    have hs := hc.sender_eq ((hmem s c).2 (.inl hcs))
    have hr := hc.sender_eq ((hmem r c).2 (.inl hcr))
    exact hsr.ne (hs.symm.trans hr)
  · intro s q r hs hf
    obtain ⟨rfl, -, hk⟩ := hallowed s q r hf
    exact (keptQueue_allowed hs hk).1
  · intro s q r hs hf
    obtain ⟨rfl, rfl, hk⟩ := hallowed s q r hf
    have hq : queue t s ≠ [] := by
      obtain ⟨c, l, hl⟩ := List.exists_cons_of_ne_nil hk
      exact List.ne_nil_of_mem ((hmem s c).2 (.inr (by rw [hl]; exact List.mem_cons_self)))
    obtain ⟨a, b, hab⟩ := List.append_of_mem (hc.mem_senders.2 hq)
    obtain ⟨m, hm⟩ := Option.isSome_iff_exists.1 (hret a s b hab hs).1
    have hle := (keptQueue_allowed hs hk).2.1
    rw [hm] at hle
    exact ⟨m, hm, hle⟩
  · intro s q r hs hf
    obtain ⟨rfl, -, hk⟩ := hallowed s q r hf
    have hsend := (keptQueue_allowed hs hk).2.2
    unfold maySend at hsend
    rwa [Bool.and_eq_true] at hsend
  · intro s hs
    refine find_eq_of_queue_eq hc.toQueuesOk h.toQueuesOk ?_
    rw [hkept, keptQueue, hs]
    rfl

/-- **When the report of `revalidate` is right.** No sender that loses commands may come
before one whose whole queue goes. -/
theorem revalidate_exact_iff (hc : Consistent t) {t' : Pool H} {dropped : List (Command H)}
    (hr : revalidate t scope f = some (t', dropped)) : Revalidated t scope f t' dropped
      ↔ ∀ s r, s < r → resets t scope f r = true → ¬ Loses t scope f s := by
  rcases revalidate_spec hc scope f with ⟨hret, t₁, heq, h⟩ | ⟨-, heq⟩
  · rw [heq, Option.some.injEq, Prod.mk.injEq] at hr
    obtain ⟨rfl, rfl⟩ := hr
    constructor
    · intro hrev s r hsr hrr hl
      -- the queue of `s` is what it was, but its commands are reported as dropped
      obtain ⟨c, l, hd⟩ := List.exists_cons_of_ne_nil (fun hd => droppedOf_eq_nil_iff.1 hd hl)
      have hcd : c ∈ droppedOf t scope f s := by rw [hd]; exact List.mem_cons_self
      have hcq : c ∈ queue t s :=
        (droppedOf_append_keptQueue t scope f s).subset (List.mem_append_left _ hcd)
      have hs : s ∈ senders t := hc.mem_senders.2 (List.ne_nil_of_mem hcq)
      refine hrev.drops.disjoint c (List.mem_flatMap.2 ⟨s, hs, hcd⟩) ⟨s, ?_⟩
      rw [h.queue_eq, queueAfter, if_neg]
      · exact hcq
      · intro hlast
        rw [((mem_lasting_senders hc).1 hlast).2 r hsr] at hrr
        cases hrr
    · intro hcond
      refine h.revalidated hc hret fun s => ?_
      rw [h.queue_eq, queueAfter]
      split
      · rfl
      · rename_i hs
        rw [mem_lasting_senders hc, not_and] at hs
        refine (keptQueue_of_droppedOf_nil (droppedOf_eq_nil_iff.2 fun hl => ?_)).symm
        obtain ⟨first, hfirst, -⟩ := hl.2
        refine hs (List.ne_nil_of_mem (List.mem_of_head? hfirst)) fun r hsr => ?_
        rw [Bool.eq_false_iff]
        exact fun hrr => hcond s r hsr hrr hl
  · rw [heq] at hr
    cases hr

/-- Payments of two senders. -/
def twoSenders : List UserCommand := [payment 7 5 1 10, payment 8 5 1 10]

/-- The first sender has used its nonce; the nonce of the second one has gone back. -/
def usedAndBack (s : AccountId) : Account :=
  if s.publicKey = ⟨7, false⟩ then userAccount 6 100 else userAccount 4 100

/-- The payment of the first sender is reported as dropped, but it is still in the pool. -/
theorem reported_but_kept : ∃ t : Pool (fromList twoSenders), Consistent t ∧ ∃ t' dropped,
      revalidate t .entirePool usedAndBack = some (t', dropped)
        ∧ ¬ Revalidated t .entirePool usedAndBack t' dropped := by
  have hc := twoQueued_consistent twoSenders (by decide) rfl (by decide)
  obtain ⟨p, hp⟩ := Option.isSome_iff_exists.1 (show (revalidate (twoQueued twoSenders (by decide) rfl)
    .entirePool usedAndBack).isSome = true by with_unfolding_all decide)
  refine ⟨_, hc, p.1, p.2, hp, fun hrev => ?_⟩
  have hboth : ∀ q ∈ revalidate (twoQueued twoSenders (by decide) rfl) .entirePool usedAndBack,
      fromList.get twoSenders 0 (by decide) (by decide) ∈ q.2
        ∧ fromList.get twoSenders 0 (by decide) (by decide) ∈ queue q.1 ⟨⟨7, false⟩, TokenId.default⟩ := by
    with_unfolding_all decide
  obtain ⟨hd, hk⟩ := hboth p hp
  exact hrev.drops.disjoint _ hd ⟨_, hk⟩

/-- A single sender loses the payment that has been included in a block. -/
theorem revalidate_exact_included : ∃ t : Pool (fromList rising), Consistent t ∧ ∃ t' dropped,
      revalidate t .entirePool (fun _ => userAccount 6 100) = some (t', dropped)
        ∧ Revalidated t .entirePool (fun _ => userAccount 6 100) t' dropped ∧ dropped ≠ [] := by
  have hc := twoQueued_consistent rising (by decide) rfl (by decide)
  obtain ⟨p, hp⟩ := Option.isSome_iff_exists.1 (show (revalidate (twoQueued rising (by decide) rfl)
    .entirePool (fun _ => userAccount 6 100)).isSome = true by with_unfolding_all decide)
  have hsenders : senders (twoQueued rising (by decide) rfl) = [⟨⟨7, false⟩, TokenId.default⟩] := by
    decide
  have hdropped : ∀ q ∈ revalidate (twoQueued rising (by decide) rfl) .entirePool
      (fun _ => userAccount 6 100), q.2 ≠ [] := by
    with_unfolding_all decide
  refine ⟨_, hc, p.1, p.2, hp, (revalidate_exact_iff hc hp).2 ?_, hdropped p hp⟩
  intro s r hsr hr hl
  obtain ⟨first, hfirst, -⟩ := hl.2
  obtain ⟨c, rest, hq⟩ := queue_of_resets hr
  have hs := hc.mem_senders.2 (List.ne_nil_of_mem (List.mem_of_head? hfirst))
  have hr := hc.mem_senders.2 (show queue _ r ≠ [] by simp [hq])
  rw [hsenders, List.mem_singleton] at hs hr
  exact lt_irrefl _ (hs ▸ hr ▸ hsr)

end MinaProtocol.IndexedPool
