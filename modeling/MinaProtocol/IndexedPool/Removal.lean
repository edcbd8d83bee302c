import MinaProtocol.IndexedPool.Consistency

/-!
# IndexedPool.Removal

What the single updates do to the sets that a pool indexes, and the removal of a
command with the commands that depend on it. `remove_with_dependents_exn'` cuts the
sender's queue at the command; `remove_lowest_fee` and `remove_expired` are made of
such cuts.
-/

namespace MinaProtocol.IndexedPool

open Std

variable {H : Nat → Option UserCommand} {t : Pool H} {keep rest : List (Command H)} {s : AccountId} {c : Command H}
  {drop : List (Command H)} {t' t'' : Pool H} {r : Nat} {l : List (Command H)}

/-- The sender queues and the configuration are the same. -/
def SameQueues (t t' : Pool H) : Prop := t'.allBySender = t.allBySender ∧ t'.config = t.config

theorem SameQueues.trans (h : SameQueues t t') (h' : SameQueues t' t'') : SameQueues t t'' :=
  ⟨h'.1.trans h.1, h'.2.trans h.2⟩

/-! ### Single updates -/

namespace Indexed

variable {t t' : Pool H} {S A : Set (Command H)} {c : Command H}

variable (h : Indexed t S A) {l : List (Command H)}

include h

theorem setSenderLocalState (s : SenderLocalState H) : Indexed (setSenderLocalState t s) S A :=
  ⟨h.allByFee, h.allByHash, h.applicableByFee, h.expiration, h.size_eq⟩

theorem mem_allByHash : c.hash ∈ t.allByHash ↔ c ∈ S := by
  rw [← ExtTreeMap.isSome_getElem?_iff_mem, Option.isSome_iff_exists]
  constructor
  · rintro ⟨c', hc'⟩
    obtain ⟨hS, hh⟩ := (h.allByHash _ _).1 hc'
    rwa [← Command.hash_injective hh]
  · intro hc
    exact ⟨c, (h.allByHash _ _).2 ⟨hc, rfl⟩⟩

theorem member_iff : member t c = true ↔ c ∈ S := by
  unfold member
  rw [← h.mem_allByHash, ExtTreeMap.isSome_getElem?_iff_mem]

theorem removeFromExpiration (hc : c ∈ S) : ∃ m, removeFromExpirationExn t.transactionsWithExpiration c = some m
      ∧ Indexes Command.validUntil m {d | d ∈ S \ {c} ∧ d.validUntil ≠ maxValue} := by
  unfold removeFromExpirationExn
  split
  · rename_i hv
    obtain ⟨m, hm, hi⟩ := h.expiration.removeExn_of_mem (v := c) ⟨hc, hv⟩
    refine ⟨m, hm, ?_⟩
    convert hi using 1
    ext d
    simp only [Set.mem_ofPred_eq, Set.mem_sdiff, Set.mem_singleton_iff]
    grind
  · rename_i hv
    refine ⟨_, rfl, ?_⟩
    convert h.expiration using 1
    ext d
    simp only [Set.mem_ofPred_eq, Set.mem_sdiff, Set.mem_singleton_iff]
    constructor
    · rintro ⟨⟨hd, -⟩, hdv⟩
      exact ⟨hd, hdv⟩
    · rintro ⟨hd, hdv⟩
      exact ⟨⟨hd, fun e => hv (e ▸ hdv)⟩, hdv⟩

theorem remove (hc : c ∈ S) : ∃ t', removeAllByFeeAndHashAndExpirationExn t c = some t'
      ∧ Indexed t' (S \ {c}) A ∧ SameQueues t t' := by
  obtain ⟨m, hm, hmi⟩ := h.allByFee.removeExn_of_mem hc
  obtain ⟨e, he, hei⟩ := h.removeFromExpiration hc
  unfold removeAllByFeeAndHashAndExpirationExn
  rw [hm, he]
  refine ⟨_, rfl, ⟨hmi, ?_, h.applicableByFee, hei, ?_⟩, rfl, rfl⟩
  · intro k d
    show (t.allByHash.erase c.hash)[k]? = some d ↔ _
    rw [ExtTreeMap.getElem?_erase, Set.mem_sdiff, Set.mem_singleton_iff]
    by_cases hk : c.hash = k
    · subst hk
      simp only [compare_self, if_true, reduceCtorEq, false_iff, not_and]
      intro hd hh
      exact hd.2 (Command.hash_injective hh)
    · rw [if_neg (by simpa using hk), h.allByHash k d]
      constructor
      · rintro ⟨hd, rfl⟩
        exact ⟨⟨hd, fun e => hk (by rw [e])⟩, rfl⟩
      · rintro ⟨⟨hd, -⟩, hh⟩
        exact ⟨hd, hh⟩
  · have hmem := h.mem_allByHash.2 hc
    have hpos : t.allByHash.size ≠ 0 := by
      intro hz
      rw [ExtTreeMap.eq_empty_iff_size_eq_zero.2 hz] at hmem
      simp at hmem
    show t.size - 1 = ((t.allByHash.erase c.hash).size : Int)
    rw [ExtTreeMap.size_erase, if_pos (ExtTreeMap.contains_iff_mem.2 hmem), h.size_eq]
    omega

theorem removeList (hl : ∀ c ∈ l, c ∈ S) (hnd : l.Nodup) :
    ∃ t', l.foldlM removeAllByFeeAndHashAndExpirationExn t = some t'
      ∧ Indexed t' (S \ {c | c ∈ l}) A ∧ SameQueues t t' := by
  induction l generalizing t S with
  | nil => exact ⟨t, rfl, by simpa using h, rfl, rfl⟩
  | cons c l ih =>
    obtain ⟨t₁, ht₁, hi₁, hs₁⟩ := h.remove (hl c List.mem_cons_self)
    obtain ⟨hcl, hnd'⟩ := List.nodup_cons.1 hnd
    obtain ⟨t₂, ht₂, hi₂, hs₂⟩ := ih hi₁
      (fun d hd => ⟨hl d (List.mem_cons_of_mem c hd), fun e => hcl (e ▸ hd)⟩) hnd'
    refine ⟨t₂, by rw [List.foldlM_cons, ht₁]; exact ht₂, ?_, hs₁.trans hs₂⟩
    convert hi₂ using 1
    ext d
    simp only [Set.mem_sdiff, Set.mem_ofPred_eq, Set.mem_singleton_iff, List.mem_cons]
    grind

theorem removeApplicable_isSome : (removeApplicableExn t c).isSome ↔ ∃ w ∈ A, w.feePerWu = c.feePerWu := by
  rw [← h.applicableByFee.removeExn_isSome (v := c)]
  unfold removeApplicableExn
  cases t.applicableByFee.removeExn c.feePerWu c <;> rfl

theorem of_removeApplicable (hr : removeApplicableExn t c = some t') : Indexed t' S (A \ {c}) ∧ SameQueues t t' := by
  unfold removeApplicableExn at hr
  obtain ⟨m, hm, hr⟩ := Option.bind_eq_some_iff.1 hr
  obtain rfl := Option.some.inj hr
  exact ⟨⟨h.allByFee, h.allByHash, h.applicableByFee.of_removeExn hm, h.expiration, h.size_eq⟩, rfl, rfl⟩

theorem removeApplicable (hc : c ∈ A) :
    ∃ t', removeApplicableExn t c = some t' ∧ Indexed t' S (A \ {c}) ∧ SameQueues t t' := by
  obtain ⟨t', ht'⟩ := Option.isSome_iff_exists.1 (h.removeApplicable_isSome.2 ⟨c, hc, rfl⟩)
  exact ⟨t', ht', h.of_removeApplicable ht'⟩

theorem addToExpiration : Indexes Command.validUntil (addToExpiration t.transactionsWithExpiration c)
      {d | d ∈ insert c S ∧ d.validUntil ≠ maxValue} := by
  unfold IndexedPool.addToExpiration
  split
  · rename_i hv
    convert h.expiration.insert c using 1
    ext d
    simp only [Set.mem_ofPred_eq, Set.mem_insert_iff]
    constructor
    · rintro ⟨rfl | hd, hdv⟩
      · exact .inl rfl
      · exact .inr ⟨hd, hdv⟩
    · rintro (rfl | ⟨hd, hdv⟩)
      · exact ⟨.inl rfl, hv⟩
      · exact ⟨.inr hd, hdv⟩
  · rename_i hv
    convert h.expiration using 1
    ext d
    simp only [Set.mem_ofPred_eq, Set.mem_insert_iff]
    constructor
    · rintro ⟨rfl | hd, hdv⟩
      · exact absurd hdv hv
      · exact ⟨hd, hdv⟩
    · rintro ⟨hd, hdv⟩
      exact ⟨.inr hd, hdv⟩

theorem insert_allByHash (k : Nat) (d : Command H) :
    (t.allByHash.insert c.hash c)[k]? = some d ↔ d ∈ insert c S ∧ d.hash = k := by
  rw [ExtTreeMap.getElem?_insert, Set.mem_insert_iff]
  by_cases hk : c.hash = k
  · subst hk
    simp only [compare_self, if_true, Option.some.injEq]
    constructor
    · rintro rfl
      exact ⟨.inl rfl, rfl⟩
    · rintro ⟨-, hh⟩
      exact (Command.hash_injective hh).symm
  · rw [if_neg (by simpa using hk), h.allByHash k d]
    constructor
    · rintro ⟨hd, hh⟩
      exact ⟨.inr hd, hh⟩
    · rintro ⟨rfl | hd, hh⟩
      · exact absurd hh hk
      · exact ⟨hd, hh⟩

theorem insert_size (hc : c ∉ S) : t.size + 1 = ((t.allByHash.insert c.hash c).size : Int) := by
  rw [ExtTreeMap.size_insert, if_neg (fun hm => hc (h.mem_allByHash.1 (ExtTreeMap.contains_iff_mem.1 hm))), h.size_eq]
  simp

theorem add (hc : c ∉ S) : ∃ t', Update.apply t (.add c c.feePerWu false) = some t'
      ∧ Indexed t' (insert c S) A ∧ SameQueues t t' :=
  ⟨_, rfl, ⟨h.allByFee.insert c, h.insert_allByHash, h.applicableByFee, h.addToExpiration, h.insert_size hc⟩, rfl, rfl⟩

theorem addApplicable (hc : c ∉ S) : ∃ t', Update.apply t (.add c c.feePerWu true) = some t'
      ∧ Indexed t' (insert c S) (insert c A) ∧ SameQueues t t' :=
  ⟨_, rfl, ⟨h.allByFee.insert c, h.insert_allByHash, h.applicableByFee.insert c, h.addToExpiration,
    h.insert_size hc⟩, rfl, rfl⟩

theorem addList (hl : ∀ c ∈ l, c ∉ S) (hnd : l.Nodup) :
    ∃ t', (l.map (fun c => Update.add c c.feePerWu false)).foldlM Update.apply t = some t'
      ∧ Indexed t' (S ∪ {c | c ∈ l}) A ∧ SameQueues t t' := by
  induction l generalizing t S with
  | nil => exact ⟨t, rfl, by simpa using h, rfl, rfl⟩
  | cons c l ih =>
    obtain ⟨t₁, ht₁, hi₁, hs₁⟩ := h.add (hl c List.mem_cons_self)
    obtain ⟨hcl, hnd'⟩ := List.nodup_cons.1 hnd
    obtain ⟨t₂, ht₂, hi₂, hs₂⟩ := ih hi₁
      (fun d hd => by
        rintro (rfl | hdS)
        · exact hcl hd
        · exact hl d (List.mem_cons_of_mem c hd) hdS) hnd'
    refine ⟨t₂, by rw [List.map_cons, List.foldlM_cons, ht₁]; exact ht₂, ?_, hs₁.trans hs₂⟩
    convert hi₂ using 1
    ext d
    simp only [Set.mem_union, Set.mem_ofPred_eq, Set.mem_insert_iff, List.mem_cons]
    grind

omit h

end Indexed

/-! ### Removing a command with its dependents -/

theorem QueueOk.take (h : QueueOk s (keep ++ drop) r) (hk : keep ≠ []) : QueueOk s keep (total keep) where
  nonempty := hk
  sender c hc := h.sender c (List.mem_append_left drop hc)
  consecutive := (List.isChain_append.1 h.consecutive).1
  reserved_eq := rfl
  reserved_lt := by
    have := h.reserved_eq
    have := h.reserved_lt
    rw [total_append] at *
    omega

theorem QueueOk.dropped (h : QueueOk s (drop ++ keep) r) (hk : keep ≠ []) : QueueOk s keep (total keep) where
  nonempty := hk
  sender c hc := h.sender c (List.mem_append_right drop hc)
  consecutive := (List.isChain_append.1 h.consecutive).2.1
  reserved_eq := rfl
  reserved_lt := by
    have := h.reserved_eq
    have := h.reserved_lt
    rw [total_append] at *
    omega

theorem Consecutive.findIdx?_nonce (h : Consecutive (keep ++ c :: rest)) :
    (keep ++ c :: rest).findIdx? (fun cmd' => decide (cmd'.nonce = c.nonce)) = some keep.length := by
  have hlt : ∀ d ∈ keep, d.nonce ≠ c.nonce := by
    intro d hd he
    have := (List.pairwise_append.1 h.pairwise).2.2 d hd c List.mem_cons_self
    rw [he] at this
    exact lt_irrefl _ this
  rw [List.findIdx?_append, List.findIdx?_eq_none_iff.2 (fun d hd => by simpa using hlt d hd)]
  simp [List.findIdx?_cons]

/-- The sender's state after a cut. -/
def cutState (s : AccountId) (keep : List (Command H)) : SenderLocalState H :=
  ⟨s, if keep ≠ [] then some (keep, total keep) else none⟩

/-- The updates of a cut before `c`. -/
def cutUpdates (keep : List (Command H)) (c : Command H) (rest : List (Command H)) : List (Update H) :=
  .removeAllByFeeAndHashAndExpiration (c :: rest) ::
    (if keep.length = 0 then [.removeFromApplicableByFee c.feePerWu c] else [])

theorem removeWithDependentsExn_eq (h : QueueOk s (keep ++ c :: rest) r) :
    removeWithDependentsExn c ⟨s, some (keep ++ c :: rest, r)⟩
      = some (c :: rest, cutUpdates keep c rest, cutState s keep) := by
  have hr := h.reserved_eq
  have hlt := h.reserved_lt
  rw [total_append] at hr
  have hsum : (c :: rest).foldlM addConsumed 0 = some (total (c :: rest)) := by
    rw [foldlM_addConsumed (by omega), Nat.add_zero]
  have hsub : Amount.sub r (total (c :: rest)) = some (total keep) := by
    rw [hr]
    exact Amount.sub_add _ _
  have hguard : keep ≠ [] ∨ total keep = 0 := by
    by_cases hk : keep = []
    · exact .inr (by rw [hk]; rfl)
    · exact .inl hk
  unfold removeWithDependentsExn cutUpdates cutState
  simp only [Option.bind_eq_bind, Option.bind_some, h.consecutive.findIdx?_nonce,
    List.drop_left, List.take_left, hsum, hsub, guard_true, hguard, List.append_eq_nil_iff,
    reduceCtorEq, and_false, not_false_eq_true, ne_eq, Option.pure_def]

/-- What a cut of a queue does to the pool. -/
structure Cut (t : Pool H) (c : Command H) (keep : List (Command H)) (t' : Pool H) : Prop where
  consistent : Consistent t'
  queue_eq : queue t' c.sender = keep
  frame : ∀ s, s ≠ c.sender → t'.allBySender[s]? = t.allBySender[s]?
  config : t'.config = t.config

theorem Cut.queue_frame (h : Cut t c keep t') (hs : s ≠ c.sender) : queue t' s = queue t s :=
  queue_eq_of_find_eq (h.frame s hs)

/-- The applicable commands after a cut before `c`. -/
theorem Indexed.cutUpdates {S A : Set (Command H)} (h : Indexed t S A)
    (keep : List (Command H)) (c : Command H) (rest : List (Command H)) (hl : ∀ d ∈ c :: rest, d ∈ S) (hnd : (c :: rest).Nodup)
    (hc : keep = [] → c ∈ A) : ∃ t', (cutUpdates keep c rest).foldlM Update.apply t = some t'
      ∧ Indexed t' (S \ {d | d ∈ c :: rest}) (if keep = [] then A \ {c} else A)
      ∧ SameQueues t t' := by
  obtain ⟨t₁, ht₁, hi₁, hs₁⟩ := h.removeList hl hnd
  unfold IndexedPool.cutUpdates
  by_cases hk : keep = []
  · obtain ⟨t₂, ht₂, hi₂, hs₂⟩ := hi₁.removeApplicable (hc hk)
    refine ⟨t₂, ?_, by rwa [if_pos hk], hs₁.trans hs₂⟩
    rw [if_pos (by simpa using hk), List.foldlM_cons]
    show (List.foldlM removeAllByFeeAndHashAndExpirationExn t (c :: rest) >>= _) = _
    rw [ht₁, Option.bind_eq_bind, Option.bind_some, List.foldlM_cons]
    show (removeApplicableExn t₁ c >>= _) = _
    rw [ht₂]
    rfl
  · refine ⟨t₁, ?_, by rwa [if_neg hk], hs₁⟩
    rw [if_neg (by simpa using hk), List.foldlM_cons]
    show (List.foldlM removeAllByFeeAndHashAndExpirationExn t (c :: rest) >>= _) = _
    rw [ht₁]
    rfl

theorem QueuesOk.cut_commands (h : QueuesOk t) (hq : queue t s = keep ++ drop) :
    {d | d ∈ commands t ∧ d ∉ keep ++ drop} ∪ {d | d ∈ keep} = commands t \ {d | d ∈ drop} := by
  ext d
  have hmem : d ∈ keep → d ∈ commands t := fun hd => ⟨s, by rw [hq]; exact List.mem_append_left _ hd⟩
  have hnd := (h.consecutive s).nodup
  rw [hq, List.nodup_append] at hnd
  have hdisj : d ∈ keep → d ∉ drop := fun hd hd' => hnd.2.2 d hd d hd' rfl
  simp only [Set.mem_union, Set.mem_ofPred_eq, Set.mem_sdiff, List.mem_append]
  grind

theorem QueuesOk.cut_heads_nil (h : QueuesOk t) (hq : queue t s = c :: rest) :
    {d | d ∈ heads t ∧ d ∉ c :: rest} = heads t \ {c} := by
  ext d
  simp only [Set.mem_ofPred_eq, Set.mem_sdiff, Set.mem_singleton_iff]
  refine and_congr_right fun hd => not_congr ⟨fun hdq => ?_, fun e => e ▸ List.mem_cons_self⟩
  rw [h.mem_heads, h.sender_eq (hq ▸ hdq : d ∈ queue t s), hq] at hd
  exact (Option.some.inj hd).symm

theorem QueuesOk.cut_heads (h : QueuesOk t) {k : Command H} (hq : queue t s = k :: rest) :
    {d | d ∈ heads t ∧ d ∉ k :: rest} ∪ {d | some k = some d} = heads t := by
  ext d
  have hk : k ∈ heads t := ⟨s, by rw [hq]; rfl⟩
  simp only [Set.mem_union, Set.mem_ofPred_eq, Option.some.injEq]
  constructor
  · rintro (⟨hd, -⟩ | rfl)
    · exact hd
    · exact hk
  · intro hd
    by_cases hdq : d ∈ k :: rest
    · rw [h.mem_heads, h.sender_eq (hq ▸ hdq : d ∈ queue t s), hq] at hd
      exact .inr (Option.some.inj hd)
    · exact .inl ⟨hd, hdq⟩

/-- **Removal cuts the queue.** The command and those after it leave the pool. -/
theorem removeWithDependentsExn'_spec (h : Consistent t) (hq : queue t c.sender = keep ++ c :: rest) :
    ∃ t', removeWithDependentsExn' t c = some (c :: rest, t') ∧ Cut t c keep t' := by
  obtain ⟨hf, hok⟩ := h.queue_ok (s := c.sender) (by simp [hq])
  rw [hq] at hf hok
  obtain ⟨t', ht', hi, hs⟩ := (h.indexed.setSenderLocalState (cutState c.sender keep)).cutUpdates
    keep c rest
    (fun d hd => ⟨c.sender, by rw [hq]; exact List.mem_append_right keep hd⟩)
    (List.nodup_append.1 hok.consecutive.nodup).2.1 (fun hk => ⟨c.sender, by rw [hq, hk]; rfl⟩)
  have hfind : ∀ s, t'.allBySender[s]?
      = if c.sender = s then (cutState c.sender keep).data else t.allBySender[s]? := by
    intro s
    rw [hs.1]
    show (t.allBySender.alter c.sender _)[s]? = _
    rw [ExtTreeMap.getElem?_alter]
    by_cases hs' : c.sender = s <;> simp [hs']
  have hqueue : queue t' c.sender = keep := by
    unfold queue
    rw [hfind, if_pos rfl]
    unfold cutState
    by_cases hk : keep = [] <;> simp [hk]
  have hframe : ∀ s, s ≠ c.sender → t'.allBySender[s]? = t.allBySender[s]? :=
    fun s hne => by rw [hfind, if_neg (Ne.symm hne)]
  refine ⟨t', ?_, ?_, hqueue, hframe, hs.2⟩
  · unfold removeWithDependentsExn' getSenderLocalState applyWritten
    rw [hf, removeWithDependentsExn_eq hok, Option.bind_eq_bind, Option.bind_some]
    simp only [ht', Option.bind_eq_bind, Option.bind_some]
  · refine h.of_update c.sender hframe ?_ ?_
    · intro q r hqr
      rw [hfind, if_pos rfl] at hqr
      unfold cutState at hqr
      by_cases hk : keep = []
      · simp [hk] at hqr
      · rw [if_pos hk, Option.some.injEq, Prod.mk.injEq] at hqr
        obtain ⟨rfl, rfl⟩ := hqr
        exact hok.take hk
    · rw [hqueue, hq, h.cut_commands hq]
      convert hi using 1
      cases keep with
      | nil => simpa using h.cut_heads_nil hq
      | cons k ks => simpa using h.cut_heads hq

/-! ### Dropped commands -/

/-- The commands of `t` are those of `t'` and the dropped ones, without overlap. -/
structure Drops (t t' : Pool H) (dropped : List (Command H)) : Prop where
  mem_iff : ∀ c, c ∈ commands t ↔ c ∈ commands t' ∨ c ∈ dropped
  disjoint : ∀ c ∈ dropped, c ∉ commands t'
  nodup : dropped.Nodup

theorem Drops.refl (t : Pool H) : Drops t t [] := ⟨by simp, by simp, by simp⟩

theorem Drops.trans {l' : List (Command H)} (h : Drops t t' l) (h' : Drops t' t'' l') : Drops t t'' (l ++ l') where
  mem_iff c := by
    rw [h.mem_iff, h'.mem_iff, List.mem_append]
    grind
  disjoint c hc hc'' := by
    rcases List.mem_append.1 hc with hc | hc
    · exact h.disjoint c hc ((h'.mem_iff c).2 (.inl hc''))
    · exact h'.disjoint c hc hc''
  nodup := by
    refine List.nodup_append.2 ⟨h.nodup, h'.nodup, ?_⟩
    rintro c hc _ hc' rfl
    exact h.disjoint c hc ((h'.mem_iff c).2 (.inr hc'))

theorem Cut.drops (h : Consistent t)
    (hc : Cut t c keep t') (hq : queue t c.sender = keep ++ c :: rest) : Drops t t' (c :: rest) := by
  have hnd := (h.consecutive c.sender).nodup
  rw [hq, List.nodup_append] at hnd
  refine ⟨fun d => ⟨?_, ?_⟩, ?_, hnd.2.1⟩
  · rintro ⟨s, hd⟩
    by_cases hs : s = c.sender
    · rw [hs, hq, List.mem_append] at hd
      exact hd.imp (fun hd => ⟨c.sender, by rwa [hc.queue_eq]⟩) id
    · exact .inl ⟨s, by rwa [hc.queue_frame hs]⟩
  · rintro (⟨s, hd⟩ | hd)
    · by_cases hs : s = c.sender
      · rw [hs, hc.queue_eq] at hd
        exact ⟨c.sender, by rw [hq]; exact List.mem_append_left _ hd⟩
      · exact ⟨s, by rwa [← hc.queue_frame hs]⟩
    · exact ⟨c.sender, by rw [hq]; exact List.mem_append_right _ hd⟩
  · intro d hd hd'
    rw [hc.consistent.mem_commands] at hd'
    have hs : d.sender = c.sender := h.sender_eq (by rw [hq]; exact List.mem_append_right _ hd)
    rw [hs, hc.queue_eq] at hd'
    exact hnd.2.2 d hd' d hd rfl

theorem Consistent.removeWithDependents (h : Consistent t) (hc : c ∈ commands t) :
    ∃ dropped t', removeWithDependentsExn' t c = some (dropped, t')
      ∧ Consistent t' ∧ Drops t t' dropped ∧ t'.config = t.config ∧ dropped ≠ [] := by
  obtain ⟨keep, rest, hq⟩ := List.append_of_mem (h.mem_commands.1 hc)
  obtain ⟨t', ht', hcut⟩ := removeWithDependentsExn'_spec h hq
  exact ⟨_, t', ht', hcut.consistent, hcut.drops h hq, hcut.config, List.cons_ne_nil _ _⟩

theorem Consistent.removeLowestFee_eq (h : Consistent t) : (commands t = ∅ ∧ removeLowestFee t = some ([], t))
      ∨ ∃ c ∈ commands t, removeLowestFee t = removeWithDependentsExn' t c := by
  unfold IndexedPool.removeLowestFee
  cases hhead : t.allByFee.toList.head? with
  | none =>
    refine .inl ⟨Set.eq_empty_iff_forall_notMem.2 fun c hc => ?_, rfl⟩
    obtain ⟨s, hs, -⟩ := (h.indexed.allByFee.at_iff c.feePerWu c).2 ⟨hc, rfl⟩
    have hmem := ExtTreeMap.mem_toList_iff_getElem?_eq_some.2 hs
    rw [List.head?_eq_none_iff.1 hhead] at hmem
    exact List.not_mem_nil hmem
  | some p =>
    obtain ⟨k, s⟩ := p
    have hf := ExtTreeMap.mem_toList_iff_getElem?_eq_some.1 (List.mem_of_head? hhead)
    obtain ⟨c, hc⟩ := h.indexed.allByFee.noEmpty k s hf
    obtain ⟨d, hd⟩ : ∃ d, s.toList.head? = some d := by
      cases hs : s.toList with
      | nil =>
        rw [← ExtTreeSet.mem_toList, hs] at hc
        simp at hc
      | cons d l => exact ⟨d, rfl⟩
    have hds : d ∈ s := ExtTreeSet.mem_toList.1 (List.mem_of_head? hd)
    refine .inr ⟨d, ((h.indexed.allByFee.at_iff k d).1 ⟨s, hf, hds⟩).1, ?_⟩
    simp only [hd, Option.bind_eq_bind, Option.bind_some]

/-- **`remove_lowest_fee` returns, and keeps the pool consistent.** -/
theorem Consistent.removeLowestFee (h : Consistent t) : ∃ dropped t', removeLowestFee t = some (dropped, t')
      ∧ Consistent t' ∧ Drops t t' dropped ∧ t'.config = t.config
      ∧ (dropped = [] → commands t = ∅) := by
  rcases h.removeLowestFee_eq with ⟨hempty, heq⟩ | ⟨c, hc, heq⟩
  · exact ⟨[], t, heq, h, Drops.refl t, rfl, fun _ => hempty⟩
  · obtain ⟨dropped, t', hr, h', hd, hconfig, hne⟩ := h.removeWithDependents hc
    exact ⟨dropped, t', heq.trans hr, h', hd, hconfig, fun he => absurd he hne⟩

theorem removeExpired_fold (acc : List (Command H) × Pool H) (h : Consistent acc.2) (hd : Drops t acc.2 acc.1) :
    ∃ dropped t', l.foldlM removeExpiredStep acc = some (dropped, t')
      ∧ Consistent t' ∧ Drops t t' dropped ∧ t'.config = acc.2.config := by
  induction l generalizing acc with
  | nil => exact ⟨acc.1, acc.2, rfl, h, hd, rfl⟩
  | cons c l ih =>
    rw [List.foldlM_cons]
    unfold removeExpiredStep
    split
    · rename_i hm
      obtain ⟨removed, t₁, ht₁, h₁, hd₁, hc₁, -⟩ := h.removeWithDependents (h.indexed.member_iff.1 hm)
      obtain ⟨dropped, t', ht', h', hd', hc'⟩ := ih (acc.1 ++ removed, t₁) h₁ (hd.trans hd₁)
      refine ⟨dropped, t', ?_, h', hd', hc'.trans hc₁⟩
      simp only [ht₁, Option.bind_eq_bind, Option.bind_some]
      exact ht'
    · exact ih acc h hd

/-- **`remove_expired` returns, and keeps the pool consistent.** -/
theorem Consistent.removeExpired (h : Consistent t) : ∃ dropped t', removeExpired t = some (dropped, t')
      ∧ Consistent t' ∧ Drops t t' dropped ∧ t'.config = t.config :=
  removeExpired_fold ([], t) h (Drops.refl t)

end MinaProtocol.IndexedPool
