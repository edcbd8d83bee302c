import MinaProtocol.IndexedPool.Runs

/-!
# IndexedPool.Replacement

Which commands `add_from_gossip_exn` reports as dropped. After a replacement the
commands behind the new one are added again until one cannot be; the loop then goes on
with the commands after that one, and returns these. So the first command that is not
added again is in neither the pool nor the report (`unreported_command`). The report is
exact if nothing is replaced, or if all commands behind the replaced one can be added
again (`gossip_reports_iff`).
-/

namespace MinaProtocol.IndexedPool

open Std

variable {H : Nat → Option UserCommand} {keep tail : List (Command H)} {cmd d : Command H} {balance : Nat}

/-- The pool after an addition and the dropped commands are the pool before and the new
command, without overlap. -/
def Reports (t : Pool H) (cmd : Command H) (t' : Pool H) (dropped : List (Command H)) : Prop :=
  (∀ c, c ∈ commands t' ∨ c ∈ dropped ↔ c ∈ commands t ∨ c = cmd)
    ∧ (∀ c ∈ dropped, c ∉ commands t') ∧ dropped.Nodup

/-- The command comes after the last one of its sender's queue. -/
def GoesOnEnd (t : Pool H) (cmd : Command H) : Prop :=
  ∃ l, (queue t cmd.sender).getLast? = some l ∧ l.command.expectedTargetNonce = cmd.nonce

/-- The commands behind the one with the nonce of the new command have not expired, and
the sender can pay for the whole queue with the new command in it. -/
def LaterAffordable (t : Pool H) (cmd : Command H) (balance : Nat) : Prop :=
  ∀ keep d tail, queue t cmd.sender = keep ++ d :: tail → d.nonce = cmd.nonce → tail ≠ [] →
    (∀ c ∈ tail, expired t.config c = false)
      ∧ total tail + (cost cmd + total keep) < 2 ^ 64
      ∧ total tail + (cost cmd + total keep) ≤ balance

/-! ### The queue of the sender -/

/-- What is said of the pool by `Reports`, for one queue. -/
def QueueReports (cmd : Command H) (q q' dropped : List (Command H)) : Prop :=
  (∀ c, c ∈ q' ∨ c ∈ dropped ↔ c ∈ q ∨ c = cmd) ∧ (∀ c ∈ dropped, c ∉ q') ∧ dropped.Nodup

theorem Consecutive.split_unique {keep' tail' : List (Command H)} {d' : Command H}
    (h : Consecutive (keep ++ d :: tail)) (he : keep ++ d :: tail = keep' ++ d' :: tail')
    (hn : d'.nonce = d.nonce) : keep = keep' ∧ tail = tail' := by
  have h' : Consecutive (keep' ++ d' :: tail') := he ▸ h
  have hidx := h'.findIdx?_nonce
  rw [hn, ← he, h.findIdx?_nonce, Option.some.injEq] at hidx
  obtain ⟨hk, ht⟩ := List.append_inj he hidx
  exact ⟨hk, (List.cons.inj ht).2⟩

theorem queueReports_replace {pre : List (Command H)}
    (hq : Consecutive (keep ++ d :: tail)) (hnew : cmd ∉ keep ++ d :: tail) (hpre : pre <+: tail) :
    QueueReports cmd (keep ++ d :: tail) (keep ++ cmd :: pre) (d :: (tail.drop pre.length).tail)
      ↔ pre = tail := by
  obtain ⟨rest, rfl⟩ := hpre
  have hnd := hq.nodup
  rw [List.drop_left]
  constructor
  · rintro ⟨hmem, -, -⟩
    cases rest with
    | nil => rw [List.append_nil]
    | cons x rest =>
      -- `x` is the command that stopped the loop
      have hx := (hmem x).2 (.inl (by simp))
      rw [List.nodup_append, List.nodup_cons, List.nodup_append, List.nodup_cons] at hnd
      obtain ⟨-, ⟨hd, -, ⟨hxr, -⟩, hpx⟩, hkeep⟩ := hnd
      simp only [List.mem_append, List.mem_cons, List.tail_cons] at hx
      rcases hx with (hx | rfl | hx) | rfl | hx
      · exact absurd rfl (hkeep x hx x (by simp))
      · exact absurd (by simp) hnew
      · exact absurd rfl (hpx x hx x (by simp))
      · exact absurd (by simp) hd
      · exact absurd hx hxr
  · intro he
    obtain rfl : rest = [] := by simpa using he
    have hd : d ∉ keep ∧ d ∉ pre := by
      rw [List.nodup_append, List.nodup_cons] at hnd
      exact ⟨fun hk => hnd.2.2 d hk d (by simp) rfl, by simpa using hnd.2.1.1⟩
    have hdc : d ≠ cmd := fun e => hnew (by simp [e])
    refine ⟨fun c => ?_, ?_, by simp⟩
    · simp only [List.append_nil, List.tail_nil, List.mem_append, List.mem_cons, List.not_mem_nil, or_false]
      grind
    · simp [hd.1, hd.2, hdc]

theorem Effect.mem_of_mem {config : Config} {q q' dropped : List (Command H)} {ups : List (Update H)}
    (he : Effect config balance cmd q q' dropped ups) : (∀ c, c ∈ q' → c ∈ q ∨ c = cmd) ∧ ∀ c ∈ dropped, c ∈ q := by
  cases he with
  | first => simp
  | last => simp
  | @replace keep tail d l _ _ _ _ _ =>
    have hpre := stay_isPrefix config balance keep cmd tail
    refine ⟨fun c hc => ?_, fun c hc => ?_⟩
    · simp only [List.mem_append, List.mem_cons] at hc ⊢
      rcases hc with hc | hc | hc
      · exact .inl (.inl hc)
      · exact .inr hc
      · exact .inl (.inr (.inr (hpre.subset hc)))
    · rcases List.mem_cons.1 hc with rfl | hc
      · simp
      · have := List.mem_of_mem_drop (List.mem_of_mem_tail hc)
        simp [this]

/-- All commands behind the replaced one stay exactly if they can be paid for and have
not expired. -/
theorem stay_eq_tail_iff {t : Pool H} (hqe : queue t cmd.sender = keep ++ d :: tail)
    (hcons : Consecutive (keep ++ d :: tail)) (hd : d.nonce = cmd.nonce) (hslot : beforeSlotTxEnd t.config = true) :
    stay t.config balance keep cmd tail = tail ↔ LaterAffordable t cmd balance := by
  unfold stay LaterAffordable
  constructor
  · intro hstay keep' d' tail' hq' hd' hne
    rw [hqe] at hq'
    obtain ⟨rfl, rfl⟩ := hcons.split_unique hq' (hd'.trans hd.symm)
    exact ((readdable_eq_self hne).1 hstay).2
  · intro hl
    by_cases hne : tail = []
    · rw [hne]
      rfl
    · exact (readdable_eq_self hne).2 ⟨hslot, hl keep d tail hqe hd hne⟩

/-! ### The pool -/

section Reports

variable {t t' : Pool H} {cmd : Command H} {balance : Nat} {dropped : List (Command H)}

theorem Gossip.reports_iff (hg : Gossip t cmd balance t' dropped) (h : Consistent t) (hnew : cmd ∉ commands t) :
    Reports t cmd t' dropped
      ↔ QueueReports cmd (queue t cmd.sender) (queue t' cmd.sender) dropped := by
  obtain ⟨ups, heff⟩ := hg.effect
  have hmem : ∀ c, c ∈ queue t cmd.sender → c ∈ commands t := fun c hc => ⟨_, hc⟩
  have hcommands : ∀ c, c ∈ commands t'
      ↔ (c ∈ commands t ∧ c ∉ queue t cmd.sender) ∨ c ∈ queue t' cmd.sender := by
    intro c
    rw [h.commands_update hg.frame]
    rfl
  refine and_congr (forall_congr' fun c => ?_) (and_congr_left' (forall_congr' fun c =>
    imp_congr_right fun hc => ?_))
  · rw [hcommands]
    have := hmem c
    have := heff.mem_of_mem.1 c
    have := heff.mem_of_mem.2 c
    have hcmd : c = cmd → c ∉ commands t := fun e => e ▸ hnew
    grind
  · rw [hcommands]
    have := heff.mem_of_mem.2 c hc
    grind

/-- **The report is exact if and only if the new command goes on the end of the queue,
or all commands behind the replaced one can be added again.** -/
theorem gossip_reports_iff (t : Pool H) (h : Consistent t) (cmd : Command H) (hnew : cmd ∉ commands t)
    (nonce : AccountNonce) (balance : Nat) (cmd' : Command H) (t' : Pool H) (dropped : List (Command H))
    (ho : addFromGossipExn t cmd nonce balance = .ok (cmd', t', dropped)) : (cmd' = cmd ∧ Reports t cmd t' dropped)
      ↔ (GoesOnEnd t cmd ∨ LaterAffordable t cmd balance) := by
  obtain ⟨rfl, hg⟩ := h.of_gossip ho
  obtain ⟨ups, heff⟩ := hg.effect
  rw [hg.reports_iff h hnew]
  simp only [true_and]
  have hcons := h.consecutive cmd'.sender
  rw [h.mem_commands] at hnew
  unfold GoesOnEnd
  generalize hqe : queue t cmd'.sender = q at heff hcons hnew
  generalize queue t' cmd'.sender = q' at heff
  cases heff with
  | first =>
    refine iff_of_true ⟨by simp, by simp, by simp⟩ (.inr ?_)
    intro keep d tail hq
    rw [hqe] at hq
    simp at hq
  | @last _ l hl hn =>
    exact iff_of_true ⟨by simp, by simp, by simp⟩ (.inl ⟨l, hl, hn⟩)
  | @replace keep tail d l hd hl hne hfee hadd =>
    rw [queueReports_replace hcons hnew (stay_isPrefix _ _ _ _ _), stay_eq_tail_iff hqe hcons hd hadd.1]
    refine ⟨.inr, fun hor => hor.resolve_left ?_⟩
    rintro ⟨l', hl', hn'⟩
    obtain rfl := Option.some.inj (hl.symm.trans hl')
    exact hne hn'

end Reports

/-- Three payments of one sender, and one that replaces the first. -/
def replacement : List UserCommand :=
  [payment 7 5 1 10, payment 7 6 1 10, payment 7 7 1 10, payment 7 5 10 10]

/-- The pool with the three payments. -/
def threePayments : Pool (fromList replacement) :=
  addedAll 100 5 [fromList.get replacement 0 (by decide) (by decide),
    fromList.get replacement 1 (by decide) (by decide), fromList.get replacement 2 (by decide) (by decide)]

theorem threePayments_consistent : Consistent threePayments :=
  PoolRun.consistent (addedAll_staysBelowMax 100 5 _ (by decide))

/-- The payment that replaces the first. -/
def replacing : Command (fromList replacement) := fromList.get replacement 3 (by decide) (by decide)

theorem replacing_not_mem : replacing ∉ commands threePayments := by
  rw [threePayments_consistent.mem_commands]
  decide

/-- With a balance of 40, the last payment is dropped and not reported. -/
theorem unreported_command : ∃ (t t' : Pool (fromList replacement)) (cmd c : Command (fromList replacement))
      (dropped : List (Command (fromList replacement))), Consistent t ∧ cmd ∉ commands t
      ∧ addFromGossipExn t cmd 5 40 = .ok (cmd, t', dropped)
      ∧ c ∈ commands t ∧ c ∉ commands t' ∧ c ∉ dropped := by
  have h := threePayments_consistent
  have ho : addFromGossipExn threePayments replacing 5 40
      = .ok (replacing, added 40 5 threePayments replacing, droppedBy 40 5 threePayments replacing) :=
    h.gossip_eq (by with_unfolding_all decide)
  have h' : Consistent (added 40 5 threePayments replacing) :=
    (h.of_gossip ho).2.consistent h fun hw => absurd hw.1 (by decide)
  refine ⟨_, _, replacing, fromList.get replacement 2 (by decide) (by decide), _, h,
    replacing_not_mem, ho, ?_, ?_, by with_unfolding_all decide⟩
  · rw [h.mem_commands]
    decide
  · rw [h'.mem_commands]
    with_unfolding_all decide

/-- With a balance of 100, only the replaced payment is dropped. -/
theorem gossip_reports_replaced : Reports threePayments replacing (added 100 5 threePayments replacing)
      (droppedBy 100 5 threePayments replacing) := by
  have h := threePayments_consistent
  have hqe : queue threePayments replacing.sender
      = [] ++ fromList.get replacement 0 (by decide) (by decide) ::
        [fromList.get replacement 1 (by decide) (by decide),
          fromList.get replacement 2 (by decide) (by decide)] := by decide
  have hlater : LaterAffordable threePayments replacing 100 :=
    (stay_eq_tail_iff hqe (hqe ▸ h.consecutive _) (by decide) (by decide)).1
      (by decide)
  exact ((gossip_reports_iff threePayments h replacing replacing_not_mem 5 100 _ _ _
    (h.gossip_eq (by with_unfolding_all decide))).2 (.inr hlater)).2

end MinaProtocol.IndexedPool
