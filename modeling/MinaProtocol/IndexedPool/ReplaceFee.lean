import MinaProtocol.IndexedPool.Replacement

/-!
# IndexedPool.ReplaceFee

When `add_from_gossip_exn` accepts a command with a nonce of its sender's queue, and the queue afterwards
(`replacement_outcome`). The fee of the new command pays for the one that it replaces, for the commands behind it
that the balance does not allow any more, and for `replace_fee`. Nothing in a queue that ends at the greatest nonce
is replaced: the nonce after the last one wraps (`greatest_nonce_is_not_replaced`).
-/

namespace MinaProtocol.IndexedPool

open Std

variable {H : Nat → Option UserCommand}

/-- The commands at the front of the list that the balance pays for, behind commands that take `reserved`. -/
def paidFor (balance : Nat) : Nat → List (Command H) → List (Command H)
  | _, [] => []
  | reserved, c :: cs => if reserved + cost c ≤ balance then c :: paidFor balance (reserved + cost c) cs else []

/-- The fee increase pays for these commands, one after the other, and leaves `replace_fee`. -/
def PaysFor (cmd replaced : Command H) (dropped : List (Command H)) : Prop :=
  (∀ l, l <+: dropped → (0 : ℤ) ≤ (cmd.fee : ℤ) - replaced.fee - fees l) ∧
    (replaceFee : ℤ) ≤ (cmd.fee : ℤ) - replaced.fee - fees dropped

theorem fees_append (l l' : List (Command H)) : fees (l ++ l') = fees l + fees l' := by
  simp [fees]

theorem paysFor_iff {cmd replaced : Command H} {dropped : List (Command H)} :
    PaysFor cmd replaced dropped ↔ replaced.fee + fees dropped + replaceFee ≤ cmd.fee := by
  unfold PaysFor
  constructor
  · intro h
    have := h.2
    omega
  · intro h
    refine ⟨fun l hl => ?_, by omega⟩
    obtain ⟨rest, rfl⟩ := hl
    rw [fees_append] at h
    omega

theorem readdable_eq_paidFor {config : Config} {balance : Nat} {reserved : Nat} {l : List (Command H)}
    (hbalance : balance < 2 ^ 64) (hslot : beforeSlotTxEnd config = true) (hl : ∀ c ∈ l, expired config c = false) :
    readdable config balance reserved l = paidFor balance reserved l := by
  induction l generalizing reserved with
  | nil => rfl
  | cons c cs ih =>
    have hcan : CanAdd config balance reserved c ↔ reserved + cost c ≤ balance := by
      unfold CanAdd
      simp only [hslot, hl c List.mem_cons_self, true_and]
      omega
    have hrest : readdable config balance (reserved + cost c) cs = paidFor balance (reserved + cost c) cs :=
      ih fun d hd => hl d (List.mem_cons_of_mem c hd)
    rw [readdable, paidFor, Nat.add_comm (cost c) reserved, hrest]
    exact if_congr hcan rfl rfl

section Outcome

variable {t : Pool H} {cmd : Command H} {nonce : AccountNonce} {balance : Nat} {l : Command H}

theorem addFromGossipExn_error {e : CommandError}
    (he : addFromGossipRec t.config balance ((getSenderLocalState t cmd.sender).length + 1) cmd nonce
      (getSenderLocalState t cmd.sender) = .error e) :
    addFromGossipExn t cmd nonce balance = .error e := by
  unfold addFromGossipExn
  simp only [he, Outcome.error_bind]

theorem Consistent.gossip_ok (h : Consistent t) (cmd : Command H) (nonce : AccountNonce) (balance : Nat)
    {w : Written H (Command H × List (Command H))}
    (hw : addFromGossipRec t.config balance ((getSenderLocalState t cmd.sender).length + 1) cmd nonce
      (getSenderLocalState t cmd.sender) = .ok w) :
    ∃ t' dropped, addFromGossipExn t cmd nonce balance = .ok (cmd, t', dropped) ∧ Gossip t cmd balance t' dropped := by
  refine (h.addFromGossip cmd nonce balance).resolve_left fun herr => ?_
  obtain ⟨e, he⟩ := herr
  unfold addFromGossipExn at he
  simp only [hw, Outcome.ok_bind] at he
  cases happly : applyWritten t w <;> simp [happly] at he

theorem Consistent.senderLocalState (h : Consistent t) {s : AccountId} (hq : queue t s ≠ []) :
    getSenderLocalState t s = ⟨s, some (queue t s, total (queue t s))⟩ := by
  unfold getSenderLocalState
  rw [(h.queue_ok hq).1]

/-- **A replacement** is accepted exactly if it can be paid for. -/
theorem Consistent.gossip_replace (h : Consistent t) (balance : Nat) {keep tail : List (Command H)}
    {d f : Command H} (hq : queue t cmd.sender = keep ++ d :: tail) (hd : d.nonce = cmd.nonce)
    (hf : (queue t cmd.sender).head? = some f) (hn : f.nonce = nonce)
    (hl : (queue t cmd.sender).getLast? = some l) (hend : l.command.expectedTargetNonce ≠ cmd.nonce)
    (hle : cmd.nonce ≤ l.command.expectedTargetNonce) :
    (¬ CanReplace t.config balance keep d tail cmd ∧ ∃ e, addFromGossipExn t cmd nonce balance = .error e) ∨
      (CanReplace t.config balance keep d tail cmd ∧ ∃ t' dropped,
        addFromGossipExn t cmd nonce balance = .ok (cmd, t', dropped) ∧
        queue t' cmd.sender = keep ++ cmd :: stay t.config balance keep cmd tail ∧
        ∀ s, s ≠ cmd.sender → queue t' s = queue t s) := by
  have hne : queue t cmd.sender ≠ [] := by
    rw [hq]
    simp
  have hstate := h.senderLocalState hne
  have hok := (h.queue_ok hne).2
  have hlength : (getSenderLocalState t cmd.sender).length = (keep ++ d :: tail).length := by
    rw [hstate, ← hq]
    rfl
  rw [hq] at hok hf hl
  rcases addFromGossipRec_replace t.config balance hok hd hf hn hl hend hle
    with ⟨hno, e, he⟩ | ⟨hcan, hw⟩
  · refine .inl ⟨hno, e, addFromGossipExn_error ?_⟩
    rw [hlength, hstate, hq]
    exact he
  · refine .inr ⟨hcan, ?_⟩
    obtain ⟨t', dropped, ho, hg⟩ := h.gossip_ok cmd nonce balance (by
      rw [hlength, hstate, hq]
      exact hw)
    refine ⟨t', dropped, ho, ?_, fun s hs => queue_eq_of_find_eq (hg.frame s hs)⟩
    -- of the things that can happen to the queue it is the replacement
    obtain ⟨ups, heff⟩ := hg.effect
    have hcons := hok.consecutive
    rw [hq] at heff
    generalize hqe : keep ++ d :: tail = q at heff hl hcons
    generalize queue t' cmd.sender = q' at heff
    cases heff with
    | first => simp at hqe
    | last hl' hn' =>
      obtain rfl := Option.some.inj (hl.symm.trans hl')
      exact absurd hn' hend
    | replace hd' =>
      obtain ⟨rfl, rfl⟩ := Consecutive.split_unique (hqe ▸ hcons) hqe (hd'.trans hd.symm)
      rfl

theorem lt_target_of_le (hle : cmd.nonce ≤ l.nonce) (hmax : l.nonce ≠ maxValue) :
    cmd.nonce < l.command.expectedTargetNonce := by
  have hsucc : l.command.expectedTargetNonce.toNat = l.nonce.toNat + 1 := AccountNonce.succ_toNat hmax
  rw [UInt32.lt_iff_toNat_lt, hsucc]
  exact Nat.lt_succ_of_le (UInt32.le_iff_toNat_le.1 hle)

/-- **The outcome of a replacement.** Let `d` have the nonce of the new command, with `keep` before it and `tail`
behind it. The command is accepted exactly if the balance pays for it behind `keep`, and its fee for `d` and the
commands of `tail` from the first one on that the balance does not pay for. These are gone then, the other queues
are as before, and an error changes nothing. -/
theorem replacement_outcome (t : Pool H) (h : Consistent t) (cmd : Command H) (nonce : AccountNonce) (balance : Nat)
    (hbalance : balance < 2 ^ 64) (f l : Command H) (hf : (queue t cmd.sender).head? = some f)
    (hl : (queue t cmd.sender).getLast? = some l) (hn : f.nonce = nonce) (hfirst : f.nonce ≤ cmd.nonce)
    (hlast : cmd.nonce ≤ l.nonce) (hmax : l.nonce ≠ maxValue) (hslot : beforeSlotTxEnd t.config = true)
    (hexpired : expired t.config cmd = false)
    (hlater : ∀ c ∈ queue t cmd.sender, cmd.nonce < c.nonce → expired t.config c = false) :
    ∃ keep d tail, queue t cmd.sender = keep ++ d :: tail ∧ d.nonce = cmd.nonce ∧
      ((addFromGossipExn t cmd nonce balance).isOk = true ↔ total keep + cost cmd ≤ balance ∧
          PaysFor cmd d (tail.drop (paidFor balance (total keep + cost cmd) tail).length)) ∧
      (∀ c t' dropped, addFromGossipExn t cmd nonce balance = .ok (c, t', dropped) →
        c = cmd ∧ queue t' cmd.sender = keep ++ cmd :: paidFor balance (total keep + cost cmd) tail ∧
          ∀ s, s ≠ cmd.sender → queue t' s = queue t s) ∧
      ((addFromGossipExn t cmd nonce balance).isOk = false →
        (∃ e, addFromGossipExn t cmd nonce balance = .error e) ∧ added balance nonce t cmd = t) := by
  have hcons := h.consecutive cmd.sender
  obtain ⟨keep, d, tail, hq, hd⟩ := hcons.split hf hl hfirst hlast
  have htarget := lt_target_of_le hlast hmax
  have htail : ∀ c ∈ tail, expired t.config c = false := by
    intro c hc
    refine hlater c (by rw [hq]; simp [hc]) ?_
    rw [hq] at hcons
    rw [UInt32.lt_iff_toNat_lt, ← hd]
    exact List.rel_of_pairwise_cons (List.pairwise_append.1 hcons.pairwise).2.1 hc
  have hstay : stay t.config balance keep cmd tail = paidFor balance (total keep + cost cmd) tail := by
    unfold stay
    rw [Nat.add_comm]
    exact readdable_eq_paidFor hbalance hslot htail
  have hcan : CanReplace t.config balance keep d tail cmd ↔ total keep + cost cmd ≤ balance ∧
      PaysFor cmd d (tail.drop (paidFor balance (total keep + cost cmd) tail).length) := by
    rw [paysFor_iff, ← hstay]
    unfold CanReplace CanAdd
    simp only [hslot, hexpired, true_and]
    constructor
    · exact fun hc => ⟨by omega, hc.2⟩
    · exact fun hc => ⟨by omega, hc.2⟩
  refine ⟨keep, d, tail, hq, hd, ?_⟩
  rw [← hcan, ← hstay]
  rcases h.gossip_replace balance hq hd hf hn hl (UInt32.ne_of_lt htarget).symm (UInt32.le_of_lt htarget)
    with ⟨hno, e, he⟩ | ⟨hyes, t', dropped, ho, hqueue, hframe⟩
  · refine ⟨iff_of_false (by simp [he, Outcome.isOk]) hno, ?_, fun _ => ⟨⟨e, he⟩, ?_⟩⟩
    · intro c t' dropped ho
      rw [he] at ho
      cases ho
    · unfold added
      rw [he]
  · refine ⟨iff_of_true (by rw [ho]; rfl) hyes, ?_, ?_⟩
    · intro c t₁ dropped₁ ho₁
      rw [ho, Outcome.ok.injEq, Prod.mk.injEq, Prod.mk.injEq] at ho₁
      obtain ⟨rfl, rfl, rfl⟩ := ho₁
      exact ⟨rfl, hqueue, hframe⟩
    · intro hno
      rw [ho] at hno
      cases hno

end Outcome

/-- With a balance of 40 the fee pays for the first payment, which is replaced, and the last one, which goes. -/
theorem replacement_outcome_threePayments : (addFromGossipExn threePayments replacing 5 40).isOk = true := by
  have hlater : ∀ c ∈ queue threePayments replacing.sender, replacing.nonce < c.nonce →
      expired threePayments.config c = false := by decide
  obtain ⟨keep, d, tail, hq, hd, hok, -, -⟩ := replacement_outcome threePayments threePayments_consistent replacing 5 40
    (by decide) (fromList.get replacement 0 (by decide) (by decide)) (fromList.get replacement 2 (by decide) (by decide))
    (by decide) (by decide) (by decide) (by decide) (by decide)
    (by decide) (by decide) (by decide) hlater
  have hqe : queue threePayments replacing.sender = [] ++ fromList.get replacement 0 (by decide) (by decide) ::
      [fromList.get replacement 1 (by decide) (by decide), fromList.get replacement 2 (by decide) (by decide)] := by
    decide
  have hd' : d.nonce = (fromList.get replacement 0 (by decide) (by decide)).nonce := hd.trans (by decide)
  have hhead : d = fromList.get replacement 0 (by decide) (by decide) := by
    refine (threePayments_consistent.consecutive replacing.sender).eq_of_nonce_eq ?_ ?_ hd'
    · rw [hq]
      simp
    · decide
  obtain ⟨rfl, rfl⟩ := (hqe ▸ threePayments_consistent.consecutive replacing.sender).split_unique (hqe.symm.trans hq) hd'
  rw [hok, paysFor_iff, hhead]
  decide

/-- Two payments of one sender with the greatest nonce. -/
def greatestNonce : List UserCommand := [payment 7 maxValue 1 10, payment 7 maxValue 10 10]

/-- The pool with the first one. -/
def greatestNoncePool : Pool (fromList greatestNonce) :=
  addedAll 100 maxValue [fromList.get greatestNonce 0 (by decide) (by decide)]

/-- The second payment pays nine more than the first, and is refused. -/
theorem greatest_nonce_is_not_replaced : ∃ cmd d : Command (fromList greatestNonce), Consistent greatestNoncePool ∧
      queue greatestNoncePool cmd.sender = [d] ∧ d.nonce = cmd.nonce ∧
      beforeSlotTxEnd greatestNoncePool.config = true ∧ expired greatestNoncePool.config cmd = false ∧
      total ([] : List (Command (fromList greatestNonce))) + cost cmd ≤ 100 ∧ PaysFor cmd d [] ∧
      (addFromGossipExn greatestNoncePool cmd d.nonce 100).isOk = false := by
  have h : Consistent greatestNoncePool := PoolRun.consistent (addedAll_staysBelowMax 100 maxValue _ (by decide))
  refine ⟨fromList.get greatestNonce 1 (by decide) (by decide), fromList.get greatestNonce 0 (by decide) (by decide), h, ?_⟩
  rw [paysFor_iff]
  decide

end MinaProtocol.IndexedPool
