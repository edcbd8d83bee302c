import MinaProtocol.IndexedPool.Gossip

/-!
# IndexedPool.Add

Adding commands to a consistent pool, from gossip and when a block is rolled back.
Both keep the pool consistent and do not raise, except where nonces wrap and where a
command that is added back does not fit before the sender's queue.
-/

namespace MinaProtocol.IndexedPool

open Std

variable {H : Nat → Option UserCommand} {t : Pool H} {cmd : Command H} {dropped : List (Command H)} {l c : Command H}

/-! ### Adding from gossip -/

/-- The command would follow a command with the greatest nonce. -/
def Wraps (t : Pool H) (cmd : Command H) : Prop :=
  cmd.nonce = 0 ∧ ∃ l, (queue t cmd.sender).getLast? = some l ∧ l.nonce = maxValue

theorem target_of_maxValue (h : l.nonce = maxValue) : l.command.expectedTargetNonce = 0 := by
  change AccountNonce.succ l.nonce = 0
  rw [h]
  decide

theorem getLast_nonce_le {q : List (Command H)} (h : Consecutive q)
    (hl : q.getLast? = some l) (hc : c ∈ q) : c.nonce.toNat ≤ l.nonce.toNat := by
  obtain ⟨init, rfl⟩ := List.getLast?_eq_some_iff.1 hl
  rcases List.mem_append.1 hc with hc | hc
  · exact Nat.le_of_lt ((List.pairwise_append.1 h.pairwise).2.2 c hc l (by simp))
  · rw [List.mem_singleton.1 hc]

section Effect

variable {t : Pool H} {cmd : Command H} {config : Config} {balance : Nat}
  {q' dropped : List (Command H)} {ups : List (Update H)}

variable (he : Effect config balance cmd (queue t cmd.sender) q' dropped ups)

include he

theorem Effect.not_mem (h : Consistent t) (hw : ¬ Wraps t cmd) : cmd ∉ commands t := by
  rw [h.mem_commands]
  have hcons := h.consecutive cmd.sender
  unfold Wraps at hw
  generalize queue t cmd.sender = q at he hcons hw
  cases he with
  | first => simp
  | @last _ l hl hn _ =>
    intro hmem
    have hle := getLast_nonce_le hcons hl hmem
    have hne : l.nonce ≠ maxValue := by
      intro hmax
      exact hw ⟨hn.symm.trans (target_of_maxValue hmax), l, hl, hmax⟩
    have hsucc := AccountNonce.succ_toNat hne
    have hn' : AccountNonce.succ l.nonce = cmd.nonce := hn
    rw [hn'] at hsucc
    omega
  | @replace keep tail d l hd _ _ hfee _ =>
    intro hmem
    have : cmd = d := hcons.eq_of_nonce_eq hmem (by simp) hd.symm
    rw [this] at hfee
    exact lt_irrefl _ hfee

theorem Effect.not_mem_of_not_last (h : Consistent t) : cmd ∉ commands t ∨ ups = [.add cmd cmd.feePerWu false] := by
  by_cases hw : Wraps t cmd
  · obtain ⟨hn, l, hl, hmax⟩ := hw
    generalize queue t cmd.sender = q at he hl
    cases he with
    | first => simp at hl
    | last => exact .inr rfl
    | replace hd hl' hne _ _ =>
      obtain rfl := Option.some.inj (hl'.symm.trans hl)
      exact absurd ((target_of_maxValue hmax).trans hn.symm) hne
  · exact .inl (he.not_mem h hw)

theorem Effect.apply (h : Consistent t) (hnew : cmd ∉ commands t) (st : SenderLocalState H) :
    ∃ t', ups.foldlM Update.apply (setSenderLocalState t st) = some t'
      ∧ SameQueues (setSenderLocalState t st) t'
      ∧ Indexed t' ({c | c ∈ commands t ∧ c ∉ queue t cmd.sender} ∪ {c | c ∈ q'})
        ({c | c ∈ heads t ∧ c ∉ queue t cmd.sender} ∪ {c | q'.head? = some c}) := by
  have hi := h.indexed.setSenderLocalState st
  have hcons := h.consecutive cmd.sender
  have hq : queue t cmd.sender = queue t cmd.sender := rfl
  have hmem : ∀ c ∈ queue t cmd.sender, c ∈ commands t := fun c hc => ⟨_, hc⟩
  revert hq
  generalize hqe : queue t cmd.sender = q at he hcons hmem
  intro hq
  cases he with
  | first =>
    obtain ⟨t', ht', hi', hs'⟩ := hi.addApplicable hnew
    refine ⟨t', by rw [List.foldlM_cons, ht']; rfl, hs', ?_⟩
    convert hi' using 1
    · ext c
      simp [or_comm]
    · ext c
      simp [eq_comm]
  | last hl _ _ =>
    obtain ⟨t', ht', hi', hs'⟩ := hi.add hnew
    refine ⟨t', by rw [List.foldlM_cons, ht']; rfl, hs', ?_⟩
    obtain ⟨f, q₀, rfl⟩ : ∃ f q₀, q = f :: q₀ := by
      cases q with
      | nil => simp at hl
      | cons f q₀ => exact ⟨f, q₀, rfl⟩
    convert hi' using 1
    · ext c
      have := hmem c
      simp only [Set.mem_union, Set.mem_ofPred_eq, Set.mem_insert_iff, List.mem_append, List.mem_singleton]
      grind
    · simpa using h.cut_heads hqe
  | @replace keep tail d l hd _ _ _ _ =>
    have hnd := hcons.nodup
    obtain ⟨hnd₁, hnd₂, hdisj⟩ := List.nodup_append.1 hnd
    have hpre := stay_isPrefix config balance keep cmd tail
    generalize stay config balance keep cmd tail = pre at hpre
    obtain ⟨t₁, ht₁, hi₁, hs₁⟩ := hi.cutUpdates keep d tail
      (fun c hc => hmem c (List.mem_append_right keep hc)) hnd₂
      (fun hk => ⟨cmd.sender, by rw [hqe, hk]; rfl⟩)
    have hnew₁ : cmd ∉ commands t \ {c | c ∈ d :: tail} := fun hc => hnew hc.1
    obtain ⟨t₂, ht₂, hi₂, hs₂⟩ : ∃ t₂, Update.apply t₁ (.add cmd cmd.feePerWu (decide (keep = [])))
        = some t₂ ∧ Indexed t₂ (insert cmd (commands t \ {c | c ∈ d :: tail}))
          ({c | c ∈ heads t ∧ c ∉ keep ++ d :: tail} ∪ {c | (keep ++ cmd :: pre).head? = some c})
        ∧ SameQueues t₁ t₂ := by
      cases keep with
      | nil =>
        obtain ⟨t₂, ht₂, hi₂, hs₂⟩ := hi₁.addApplicable hnew₁
        refine ⟨t₂, by simpa using ht₂, ?_, hs₂⟩
        convert hi₂ using 1
        rw [List.nil_append, h.cut_heads_nil hqe, if_pos rfl]
        ext c
        simp [eq_comm]
      | cons k ks =>
        obtain ⟨t₂, ht₂, hi₂, hs₂⟩ := hi₁.add hnew₁
        refine ⟨t₂, by simpa using ht₂, ?_, hs₂⟩
        convert hi₂ using 1
        rw [if_neg (by simp)]
        exact h.cut_heads hqe
    obtain ⟨t₃, ht₃, hi₃, hs₃⟩ := hi₂.addList (l := pre)
      (by
        intro c hc
        have hct : c ∈ tail := hpre.subset hc
        rintro (rfl | hcS)
        · exact hnew (hmem c (List.mem_append_right keep (List.mem_cons_of_mem d hct)))
        · exact hcS.2 (List.mem_cons_of_mem d hct))
      ((List.nodup_cons.1 hnd₂).2.sublist hpre.sublist)
    refine ⟨t₃, ?_, (hs₁.trans hs₂).trans hs₃, ?_⟩
    · rw [List.foldlM_append, List.foldlM_append, ht₁, Option.bind_eq_bind, Option.bind_some, List.foldlM_cons, ht₂]
      exact ht₃
    · convert hi₃ using 1
      rw [← h.cut_commands hqe]
      ext c
      simp only [Set.mem_union, Set.mem_ofPred_eq, Set.mem_insert_iff, List.mem_append, List.mem_cons]
      grind

omit he

end Effect

/-- What an addition from gossip does to the pool. -/
structure Gossip (t : Pool H) (cmd : Command H) (balance : Nat) (t' : Pool H)
    (dropped : List (Command H)) : Prop where
  effect : ∃ ups, Effect t.config balance cmd (queue t cmd.sender) (queue t' cmd.sender) dropped ups
  find : t'.allBySender[cmd.sender]? = some (queue t' cmd.sender, total (queue t' cmd.sender))
  frame : ∀ s, s ≠ cmd.sender → t'.allBySender[s]? = t.allBySender[s]?
  config : t'.config = t.config
  indexed : cmd ∉ commands t →
    Indexed t' ({c | c ∈ commands t ∧ c ∉ queue t cmd.sender} ∪ {c | c ∈ queue t' cmd.sender})
      ({c | c ∈ heads t ∧ c ∉ queue t cmd.sender} ∪ {c | (queue t' cmd.sender).head? = some c})

variable (h : Consistent t) {balance : Nat} {t' : Pool H}

include h

theorem Consistent.gossip_written (cmd : Command H) (n : AccountNonce) (balance : Nat) :
    (∃ e, addFromGossipRec t.config balance ((getSenderLocalState t cmd.sender).length + 1) cmd n
        (getSenderLocalState t cmd.sender) = .error e)
      ∨ ∃ q' dropped ups, Effect t.config balance cmd (queue t cmd.sender) q' dropped ups
        ∧ addFromGossipRec t.config balance ((getSenderLocalState t cmd.sender).length + 1) cmd n
            (getSenderLocalState t cmd.sender)
          = .ok ((cmd, dropped), ups, ⟨cmd.sender, some (q', total q')⟩) := by
  unfold getSenderLocalState SenderLocalState.length
  by_cases hq : queue t cmd.sender = []
  · rw [h.find_none hq, hq]
    exact addFromGossipRec_none
  · obtain ⟨hf, hok⟩ := h.queue_ok hq
    rw [hf]
    exact addFromGossipRec_some hok

/-- **`add_from_gossip_exn` does not raise on a consistent pool**, and what it does is
described by `Gossip`. -/
theorem Consistent.addFromGossip (cmd : Command H) (n : AccountNonce) (balance : Nat) :
    (∃ e, addFromGossipExn t cmd n balance = .error e)
      ∨ ∃ t' dropped, addFromGossipExn t cmd n balance = .ok (cmd, t', dropped)
        ∧ Gossip t cmd balance t' dropped := by
  unfold addFromGossipExn
  rcases h.gossip_written cmd n balance with ⟨e, he⟩ | ⟨q', dropped, ups, heff, hw⟩
  · exact .inl ⟨e, by simp only [he, Outcome.error_bind]⟩
  · obtain ⟨t', ht', hs', hi'⟩ : ∃ t', ups.foldlM Update.apply
        (setSenderLocalState t ⟨cmd.sender, some (q', total q')⟩) = some t'
        ∧ SameQueues (setSenderLocalState t ⟨cmd.sender, some (q', total q')⟩) t'
        ∧ (cmd ∉ commands t → Indexed t' ({c | c ∈ commands t ∧ c ∉ queue t cmd.sender} ∪ {c | c ∈ q'})
            ({c | c ∈ heads t ∧ c ∉ queue t cmd.sender} ∪ {c | q'.head? = some c})) := by
      rcases heff.not_mem_of_not_last h with hnew | rfl
      · obtain ⟨t', ht', hs', hi'⟩ := heff.apply h hnew ⟨cmd.sender, some (q', total q')⟩
        exact ⟨t', ht', hs', fun _ => hi'⟩
      · refine ⟨_, rfl, ⟨rfl, rfl⟩, fun hnew => ?_⟩
        obtain ⟨t', ht', -, hi'⟩ := heff.apply h hnew ⟨cmd.sender, some (q', total q')⟩
        obtain rfl := Option.some.inj ht'
        exact hi'
    have hfind : ∀ s, t'.allBySender[s]?
        = if cmd.sender = s then some (q', total q') else t.allBySender[s]? := by
      intro s
      rw [hs'.1]
      show (t.allBySender.alter cmd.sender _)[s]? = _
      rw [ExtTreeMap.getElem?_alter]
      by_cases hs : cmd.sender = s <;> simp [hs]
    have hfind' : t'.allBySender[cmd.sender]? = some (q', total q') := by rw [hfind, if_pos rfl]
    have hq' : queue t' cmd.sender = q' := queue_of_find hfind'
    refine .inr ⟨t', dropped, ?_, ⟨ups, hq' ▸ heff⟩, hq' ▸ hfind', ?_, hs'.2, hq' ▸ hi'⟩
    · simp [hw, applyWritten, ht']
    · intro s hs
      rw [hfind, if_neg (Ne.symm hs)]

theorem Effect.queueOk {config : Config} {q' : List (Command H)} {ups : List (Update H)}
    (he : Effect config balance cmd (queue t cmd.sender) q' dropped ups)
    (hw : ¬ Wraps t cmd) : QueueOk cmd.sender q' (total q') := by
  have hcons := h.consecutive cmd.sender
  have hsender : ∀ c ∈ queue t cmd.sender, c.sender = cmd.sender := fun c hc => h.sender_eq hc
  unfold Wraps at hw
  generalize queue t cmd.sender = q at he hcons hsender hw
  cases he with
  | first hadd =>
    refine ⟨by simp, by simp, List.isChain_singleton _, rfl, ?_⟩
    have := hadd.2.2.1
    simpa using this
  | @last _ l hl hn hadd =>
    refine ⟨by simp, ?_, ?_, rfl, ?_⟩
    · intro c hc
      rcases List.mem_append.1 hc with hc | hc
      · exact hsender c hc
      · rw [List.mem_singleton.1 hc]
    · refine List.isChain_append.2 ⟨hcons, List.isChain_singleton _, ?_⟩
      intro x hx y hy
      obtain rfl := Option.some.inj (hx.symm.trans hl)
      obtain rfl : cmd = y := Option.some.inj hy
      have hn' : AccountNonce.succ x.nonce = cmd.nonce := hn
      rw [← hn']
      exact AccountNonce.succ_toNat fun hmax =>
        hw ⟨hn.symm.trans (target_of_maxValue hmax), x, hl, hmax⟩
    · have := hadd.2.2.1
      rw [total_append, total_cons, total_nil]
      omega
  | @replace keep tail d l hd hl hne hfee hadd =>
    have hpre := stay_isPrefix config balance keep cmd tail
    refine ⟨by simp, ?_, hcons.replace hd hpre, rfl, ?_⟩
    · intro c hc
      simp only [List.mem_append, List.mem_cons] at hc
      rcases hc with hc | rfl | hc
      · exact hsender c (List.mem_append_left _ hc)
      · rfl
      · exact hsender c (List.mem_append_right _ (List.mem_cons_of_mem d (hpre.subset hc)))
    · have htotal := total_readdable_lt config balance tail hadd.2.2.1
      have hs : total (keep ++ cmd :: stay config balance keep cmd tail)
          = total (readdable config balance (cost cmd + total keep) tail) + (cost cmd + total keep) := by
        rw [total_append, total_cons]
        unfold stay
        omega
      rw [hs]
      exact htotal

/-- **Gossip keeps the pool consistent**, unless nonces wrap. -/
theorem Gossip.consistent (hg : Gossip t cmd balance t' dropped) (hw : ¬ Wraps t cmd) : Consistent t' := by
  obtain ⟨ups, heff⟩ := hg.effect
  refine h.of_update cmd.sender hg.frame ?_ (hg.indexed (heff.not_mem h hw))
  intro q r hf
  rw [hg.find, Option.some.injEq, Prod.mk.injEq] at hf
  obtain ⟨rfl, rfl⟩ := hf
  exact heff.queueOk h hw

theorem Consistent.of_gossip {n : AccountNonce} (ho : addFromGossipExn t cmd n balance = .ok (c, t', dropped)) :
    c = cmd ∧ Gossip t cmd balance t' dropped := by
  rcases h.addFromGossip cmd n balance with ⟨e, he⟩ | ⟨t₁, dropped₁, heq, hg⟩
  · rw [he] at ho
    cases ho
  · rw [heq, Outcome.ok.injEq, Prod.mk.injEq, Prod.mk.injEq] at ho
    obtain ⟨rfl, rfl, rfl⟩ := ho
    exact ⟨rfl, hg⟩

omit h

/-! ### Adding back a command -/

/-- The checks of `add_from_backtrack` beyond its errors: the command and the sender's
queue after it do not overflow, and the queue continues after the command. -/
def BacktrackFits (t : Pool H) (cmd : Command H) : Prop :=
  cost cmd < 2 ^ 64 ∧ ∀ f, (queue t cmd.sender).head? = some f →
    cmd.command.expectedTargetNonce = f.nonce ∧ total (queue t cmd.sender) + cost cmd < 2 ^ 64

/-- The command has the greatest nonce, and others would follow it. -/
def WrapsBack (t : Pool H) (cmd : Command H) : Prop :=
  cmd.nonce = maxValue ∧ queue t cmd.sender ≠ []

/-- The pool after a command has been put before the sender's queue. -/
def pushFront (t : Pool H) (cmd : Command H) : Pool H :=
  { t with
    applicableByFee := t.applicableByFee.insert cmd.feePerWu cmd
    allByFee := t.allByFee.insert cmd.feePerWu cmd
    allByHash := t.allByHash.insert cmd.hash cmd
    allBySender := t.allBySender.insert cmd.sender
      (cmd :: queue t cmd.sender, total (cmd :: queue t cmd.sender))
    transactionsWithExpiration := addToExpiration t.transactionsWithExpiration cmd
    size := t.size + 1 }

theorem Indexed.pushFront {S A : Set (Command H)} (h : Indexed t S A) (hc : cmd ∉ S) :
    Indexed (pushFront t cmd) (insert cmd S) (insert cmd A) :=
  ⟨h.allByFee.insert cmd, h.insert_allByHash, h.applicableByFee.insert cmd, h.addToExpiration, h.insert_size hc⟩

/-- What `add_from_backtrack` does to the pool. -/
structure Backtrack (t : Pool H) (cmd : Command H) (t' : Pool H) : Prop where
  find : t'.allBySender[cmd.sender]?
    = some (cmd :: queue t cmd.sender, total (cmd :: queue t cmd.sender))
  frame : ∀ s, s ≠ cmd.sender → t'.allBySender[s]? = t.allBySender[s]?
  config : t'.config = t.config
  indexed : cmd ∉ commands t →
    Indexed t' ({c | c ∈ commands t ∧ c ∉ queue t cmd.sender} ∪ {c | c ∈ cmd :: queue t cmd.sender})
      ({c | c ∈ heads t ∧ c ∉ queue t cmd.sender} ∪ {c | (cmd :: queue t cmd.sender).head? = some c})

theorem find_pushFront (t : Pool H) (cmd : Command H) (s : AccountId) : (pushFront t cmd).allBySender[s]?
      = if cmd.sender = s then some (cmd :: queue t cmd.sender, total (cmd :: queue t cmd.sender))
        else t.allBySender[s]? := by
  unfold pushFront
  rw [ExtTreeMap.getElem?_insert]
  by_cases hs : cmd.sender = s <;> simp [hs]

include h

/-- **`add_from_backtrack`** puts the command before the sender's queue, or returns an
error, if the command fits there. -/
theorem Consistent.addFromBacktrack (hfits : BacktrackFits t cmd) : (∃ e, addFromBacktrack t cmd = .error e)
      ∨ ∃ t', addFromBacktrack t cmd = .ok t' ∧ Backtrack t cmd t' := by
  unfold IndexedPool.addFromBacktrack
  cases beforeSlotTxEnd t.config with
  | false => exact .inl ⟨_, rfl⟩
  | true =>
    cases expired t.config cmd with
    | true => exact .inl ⟨_, rfl⟩
    | false =>
      have hmem : ∀ c ∈ queue t cmd.sender, c ∈ commands t := fun c hc => ⟨_, hc⟩
      simp only [Bool.not_false, Outcome.okIfTrue_true, Outcome.ok_bind,
        currencyConsumed_of_lt hfits.1, Outcome.ofOption_some]
      by_cases hq : queue t cmd.sender = []
      · rw [h.find_none hq]
        refine .inr ⟨pushFront t cmd, ?_, ?_, ?_, rfl, fun hnew => ?_⟩
        · simp [pushFront, hq]
        · rw [find_pushFront, if_pos rfl]
        · intro s hs
          rw [find_pushFront, if_neg (Ne.symm hs)]
        · convert h.indexed.pushFront hnew using 1
          · ext c
            simp [hq, or_comm]
          · ext c
            simp [hq, eq_comm]
      · obtain ⟨hf, hok⟩ := h.queue_ok hq
        obtain ⟨f, q₀, hqe⟩ := List.exists_cons_of_ne_nil hq
        have hhead : (queue t cmd.sender).head? = some f := by rw [hqe]; rfl
        obtain ⟨hn, hlt⟩ := hfits.2 f hhead
        obtain ⟨t₁, ht₁, hi₁, hs₁⟩ := h.indexed.removeApplicable ⟨cmd.sender, hhead⟩
        have ht₁' : t₁ = { t with applicableByFee := t₁.applicableByFee } := by
          unfold removeApplicableExn at ht₁
          obtain ⟨m, hm, ht₁⟩ := Option.bind_eq_some_iff.1 ht₁
          obtain rfl := Option.some.inj ht₁
          rfl
        have hq₁ : queue t₁ cmd.sender = queue t cmd.sender := by
          unfold queue
          rw [hs₁.1]
        rw [hf]
        simp only [hhead, Outcome.ofOption_some, Outcome.ok_bind, hn, decide_true, Outcome.assert_true,
          ht₁, Amount.add_eq_some.2 ⟨rfl, hlt⟩]
        refine .inr ⟨pushFront t₁ cmd, ?_, ?_, ?_, hs₁.2, fun hnew => ?_⟩
        · rw [ht₁']
          simp only [pushFront, total_cons, Nat.add_comm (cost cmd)]
          rfl
        · rw [find_pushFront, if_pos rfl, hq₁]
        · intro s hs
          rw [find_pushFront, if_neg (Ne.symm hs), hs₁.1]
        · convert hi₁.pushFront hnew using 1
          · ext c
            have := hmem c
            simp only [Set.mem_union, Set.mem_ofPred_eq, Set.mem_insert_iff, List.mem_cons]
            grind
          · rw [← h.cut_heads_nil hqe, ← hqe]
            ext c
            simp [eq_comm]

/-- **Adding back keeps the pool consistent**, unless nonces wrap. -/
theorem Backtrack.consistent (hb : Backtrack t cmd t') (hfits : BacktrackFits t cmd) (hw : ¬ WrapsBack t cmd)
    (hnew : cmd ∉ commands t) : Consistent t' := by
  have hq' : queue t' cmd.sender = cmd :: queue t cmd.sender := queue_of_find hb.find
  refine h.of_update cmd.sender hb.frame ?_ (hq' ▸ hb.indexed hnew)
  intro q r hf
  rw [hb.find, Option.some.injEq, Prod.mk.injEq] at hf
  obtain ⟨rfl, rfl⟩ := hf
  refine ⟨by simp, ?_, ?_, rfl, ?_⟩
  · intro c hc
    rcases List.mem_cons.1 hc with rfl | hc
    · rfl
    · exact h.sender_eq hc
  · refine List.isChain_cons.2 ⟨?_, h.consecutive cmd.sender⟩
    intro f hf
    have hn : AccountNonce.succ cmd.nonce = f.nonce := (hfits.2 f hf).1
    rw [← hn]
    exact AccountNonce.succ_toNat fun hmax =>
      hw ⟨hmax, fun he => by rw [he] at hf; simp at hf⟩
  · rw [total_cons]
    cases hq : queue t cmd.sender with
    | nil => simpa using hfits.1
    | cons f q₀ =>
      have := (hfits.2 f (by rw [hq]; rfl)).2
      rw [hq] at this
      omega

omit h

end MinaProtocol.IndexedPool
