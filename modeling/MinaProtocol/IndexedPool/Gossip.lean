import MinaProtocol.IndexedPool.Removal

/-!
# IndexedPool.Gossip

What `add_from_gossip_exn` does to the queue of a sender (`Effect`): the command
starts the queue, goes on its end, or takes the place of the command with its nonce.
In the last case the commands after it are added again, as many as the balance allows
(`readdable`). On a queue in order the nested calls only ever add to the end, so
nothing raises.
-/

namespace MinaProtocol.IndexedPool

open Std

variable {H : Nat → Option UserCommand} {config : Config} {balance : Nat} {l d cmd : Command H}
  {q keep tail : List (Command H)} {n : AccountNonce} {s : AccountId}
  {high low a b : AccountNonce} {c f : Command H} {r : Nat}

/-! ### Adding at the end -/

/-- The command passes the checks of `add_from_gossip_exn` behind commands that take
`reserved` from the sender. -/
def CanAdd (config : Config) (balance reserved : Nat) (c : Command H) : Prop :=
  beforeSlotTxEnd config = true ∧ expired config c = false
    ∧ cost c + reserved < 2 ^ 64 ∧ cost c + reserved ≤ balance

instance (config : Config) (balance reserved : Nat) (c : Command H) :
    Decidable (CanAdd config balance reserved c) :=
  inferInstanceAs (Decidable (_ ∧ _ ∧ _ ∧ _))

theorem checkCommand_spec (config : Config) (c : Command H) :
    (beforeSlotTxEnd config = true ∧ expired config c = false ∧ cost c < 2 ^ 64 ∧ checkCommand config c = .ok (cost c))
      ∨ ((∃ e, checkCommand config c = .error e)
        ∧ ¬ (beforeSlotTxEnd config = true ∧ expired config c = false ∧ cost c < 2 ^ 64)) := by
  have htoken : c.command.feeToken = TokenId.default := by cases c.command <;> rfl
  unfold checkCommand
  cases hb : beforeSlotTxEnd config with
  | false => exact .inr ⟨⟨_, rfl⟩, by simp⟩
  | true =>
    cases he : expired config c with
    | true => exact .inr ⟨⟨_, rfl⟩, by simp⟩
    | false =>
      cases hc : currencyConsumed c with
      | none =>
        refine .inr ⟨⟨_, rfl⟩, ?_⟩
        rintro ⟨-, -, hlt⟩
        simp [currencyConsumed_of_lt hlt] at hc
      | some n =>
        obtain ⟨rfl, hlt⟩ := currencyConsumed_eq_some.1 hc
        exact .inl ⟨rfl, rfl, hlt, by simp [htoken]⟩

theorem addToEmpty_spec (balance : Nat) (c : Command H) (n : AccountNonce) (st : SenderLocalState H) :
    (n = c.nonce ∧ cost c ≤ balance ∧ addToEmpty c (cost c) n balance st
        = .ok ((c, []), [.add c c.feePerWu true], { st with data := some ([c], cost c) }))
      ∨ (¬ (n = c.nonce ∧ cost c ≤ balance) ∧ ∃ e, addToEmpty c (cost c) n balance st = .error e) := by
  unfold addToEmpty
  by_cases hn : n = c.nonce
  · by_cases hb : cost c ≤ balance
    · exact .inl ⟨hn, hb, by simp [hn, hb]⟩
    · exact .inr ⟨fun h => hb h.2, _, by simp [hn, hb]; rfl⟩
  · exact .inr ⟨fun h => hn h.1, _, by simp [hn]; rfl⟩

theorem addToEnd_spec (balance : Nat) (c : Command H) (q : List (Command H)) (r : Nat)
    (st : SenderLocalState H) : (cost c + r < 2 ^ 64 ∧ cost c + r ≤ balance ∧ addToEnd c (cost c) balance q r st
        = .ok ((c, []), [.add c c.feePerWu false], { st with data := some (q ++ [c], cost c + r) }))
      ∨ (¬ (cost c + r < 2 ^ 64 ∧ cost c + r ≤ balance) ∧ ∃ e, addToEnd c (cost c) balance q r st = .error e) := by
  unfold addToEnd
  cases ha : Amount.add (cost c) r with
  | none =>
    refine .inr ⟨?_, _, rfl⟩
    rintro ⟨hlt, -⟩
    rw [Amount.add_eq_some.2 ⟨rfl, hlt⟩] at ha
    cases ha
  | some r' =>
    obtain ⟨rfl, hlt⟩ := Amount.add_eq_some.1 ha
    by_cases hb : cost c + r ≤ balance
    · exact .inl ⟨hlt, hb, by simp [hb]⟩
    · exact .inr ⟨fun h => hb h.2, _, by simp [hb]; rfl⟩

/-- A command whose nonce comes after the last one of the queue goes on the end, if it
passes the checks. -/
theorem addFromGossipRec_end (config : Config) (balance : Nat)
    (r depth : Nat) (s : AccountId) (n : AccountNonce) (hl : q.getLast? = some l)
    (hn : l.command.expectedTargetNonce = c.nonce) :
    (CanAdd config balance r c ∧ addFromGossipRec config balance (depth + 1) c n ⟨s, some (q, r)⟩
        = .ok ((c, []), [.add c c.feePerWu false], ⟨s, some (q ++ [c], cost c + r)⟩))
      ∨ (¬ CanAdd config balance r c
        ∧ ∃ e, addFromGossipRec config balance (depth + 1) c n ⟨s, some (q, r)⟩ = .error e) := by
  obtain ⟨f, hf⟩ : ∃ f, q.head? = some f := by
    cases q with
    | nil => simp at hl
    | cons f q => exact ⟨f, rfl⟩
  unfold addFromGossipRec addFromGossipBody CanAdd
  rcases checkCommand_spec config c with ⟨hb, he, hlt, hcheck⟩ | ⟨⟨e, hcheck⟩, hno⟩
  · simp only [hcheck, Outcome.ok_bind, hf, hl, Outcome.ofOption_some, hn, if_true, hb, he, true_and]
    rcases addToEnd_spec balance c q r ⟨s, some (q, r)⟩ with ⟨h1, h2, h3⟩ | ⟨h1, h2⟩
    · exact .inl ⟨⟨h1, h2⟩, h3⟩
    · exact .inr ⟨h1, h2⟩
  · refine .inr ⟨fun h => hno ⟨h.1, h.2.1, by omega⟩, e, ?_⟩
    rw [hcheck]
    rfl

theorem addFromGossipRec_empty (config : Config) (balance : Nat) (c : Command H) (depth : Nat)
    (s : AccountId) (n : AccountNonce) : (n = c.nonce ∧ CanAdd config balance 0 c
        ∧ addFromGossipRec config balance (depth + 1) c n ⟨s, none⟩
          = .ok ((c, []), [.add c c.feePerWu true], ⟨s, some ([c], cost c)⟩))
      ∨ (¬ (n = c.nonce ∧ CanAdd config balance 0 c)
        ∧ ∃ e, addFromGossipRec config balance (depth + 1) c n ⟨s, none⟩ = .error e) := by
  unfold addFromGossipRec addFromGossipBody CanAdd
  rcases checkCommand_spec config c with ⟨hb, he, hlt, hcheck⟩ | ⟨⟨e, hcheck⟩, hno⟩
  · simp only [hcheck, Outcome.ok_bind, hb, he, true_and, Nat.add_zero]
    rcases addToEmpty_spec balance c n ⟨s, none⟩ with ⟨h1, h2, h3⟩ | ⟨h1, h2⟩
    · exact .inl ⟨h1, ⟨hlt, h2⟩, h3⟩
    · exact .inr ⟨fun h => h1 ⟨h.1, h.2.2⟩, h2⟩
  · exact .inr ⟨fun h => hno ⟨h.2.1, h.2.2.1, h.2.2.2.1⟩, e, by rw [hcheck]; rfl⟩

/-! ### Adding the dropped commands again -/

/-- The commands at the front of the list that can be added one after the other. -/
def readdable (config : Config) (balance : Nat) : Nat → List (Command H) → List (Command H)
  | _, [] => []
  | r, c :: cs =>
    if CanAdd config balance r c then c :: readdable config balance (cost c + r) cs else []

theorem readdable_isPrefix (r : Nat) (l : List (Command H)) : readdable config balance r l <+: l := by
  induction l generalizing r with
  | nil => simp [readdable]
  | cons c cs ih =>
    unfold readdable
    split
    · exact List.prefix_cons_inj c |>.2 (ih _)
    · exact List.nil_prefix

theorem total_readdable_lt (config : Config) (balance : Nat) (l : List (Command H)) (hr : r < 2 ^ 64) :
    total (readdable config balance r l) + r < 2 ^ 64 := by
  induction l generalizing r with
  | nil => simpa [readdable] using hr
  | cons c cs ih =>
    unfold readdable
    split
    · rename_i hadd
      have := ih hadd.2.2.1
      rw [total_cons]
      omega
    · simpa using hr

/-- All of them can be added exactly if each can be added behind those before it. -/
theorem readdable_eq_self {l : List (Command H)} (hne : l ≠ []) :
    readdable config balance r l = l ↔ beforeSlotTxEnd config = true
      ∧ (∀ c ∈ l, expired config c = false) ∧ total l + r < 2 ^ 64 ∧ total l + r ≤ balance := by
  induction l generalizing r with
  | nil => exact absurd rfl hne
  | cons c cs ih =>
    unfold readdable
    by_cases hcs : cs = []
    · subst hcs
      by_cases hadd : CanAdd config balance r c
      · rw [if_pos hadd]
        simpa [readdable, CanAdd] using hadd
      · rw [if_neg hadd]
        simpa [CanAdd] using hadd
    · have hsum : total (c :: cs) + r = total cs + (cost c + r) := by
        rw [total_cons]
        omega
      by_cases hadd : CanAdd config balance r c
      · rw [if_pos hadd, List.cons.injEq, ih hcs, hsum]
        simp [hadd.2.1]
      · rw [if_neg hadd]
        simp only [reduceCtorEq, false_iff]
        rintro ⟨hb, he, hlt, hle⟩
        exact hadd ⟨hb, he c List.mem_cons_self, by omega, by omega⟩

/-- What the loop does with the commands that it did not add again. -/
def afterReadd (increment : Nat) : List (Command H) → Outcome CommandError (Nat × List (Command H))
  | [] => .ok (increment, [])
  | c :: rest => do
    let increment' ← chargeDropped increment (c :: rest)
    return (increment', rest)

/-- The fees of a list of commands. -/
def fees (l : List (Command H)) : Nat := (l.map Command.fee).sum

@[simp] theorem fees_cons (c : Command H) (l : List (Command H)) : fees (c :: l) = c.fee + fees l := rfl

theorem chargeDropped_spec (increment : Nat) (l : List (Command H)) :
    (∃ i, i + fees l = increment ∧ chargeDropped increment l = .ok i)
      ∨ (increment < fees l ∧ ∃ e, chargeDropped increment l = .error e) := by
  induction l generalizing increment with
  | nil => exact .inl ⟨increment, rfl, rfl⟩
  | cons c l ih =>
    unfold chargeDropped
    rw [fees_cons]
    cases hs : Amount.sub increment c.fee with
    | none =>
      have hlt : ¬ c.fee ≤ increment := by
        intro hle
        rw [Amount.sub_eq_some.2 (Nat.sub_add_cancel hle).symm] at hs
        cases hs
      exact .inr ⟨by omega, _, rfl⟩
    | some i =>
      have hi := Amount.sub_eq_some.1 hs
      rcases ih i with ⟨j, hj, he⟩ | ⟨hlt, he⟩
      · exact .inl ⟨j, by omega, he⟩
      · exact .inr ⟨by omega, he⟩

theorem afterReadd_spec (increment : Nat) (l : List (Command H)) :
    (∃ i, i + fees l = increment ∧ afterReadd increment l = .ok (i, l.tail))
      ∨ (increment < fees l ∧ ∃ e, afterReadd increment l = .error e) := by
  cases l with
  | nil => exact .inl ⟨increment, rfl, rfl⟩
  | cons c l =>
    unfold afterReadd
    rcases chargeDropped_spec increment (c :: l) with ⟨i, hi, he⟩ | ⟨hlt, e, he⟩
    · exact .inl ⟨i, hi, by simp [he]⟩
    · exact .inr ⟨hlt, e, by simp [he]⟩

/-- The additions of commands behind the first of a queue. -/
def additions (l : List (Command H)) : List (Update H) := l.map (fun c => .add c c.feePerWu false)

theorem succ_eq_of_toNat (h : b.toNat = a.toNat + 1) : AccountNonce.succ a = b := by
  have hlt := b.toNat_lt
  rw [← UInt32.toNat_inj]
  unfold AccountNonce.succ
  rw [UInt32.toNat_add, UInt32.toNat_one, h, Nat.mod_eq_of_lt (by omega)]

theorem Consecutive.target_eq {rest : List (Command H)}
    (h : Consecutive (q ++ c :: rest)) (hl : q.getLast? = some l) : l.command.expectedTargetNonce = c.nonce :=
  succ_eq_of_toNat ((List.isChain_append.1 h).2.2 l hl c rfl)

/-- **The loop** adds the commands that can be added, and charges the fees of the others. -/
theorem readdDropped_eq {l : List (Command H)} {depth increment : Nat}
    {ups : List (Update H)} (hq : q ≠ []) (hcons : Consecutive (q ++ l)) :
    readdDropped (addFromGossipRec config balance (depth + 1)) increment l n ups ⟨s, some (q, r)⟩
      = (afterReadd increment (l.drop (readdable config balance r l).length) >>= fun p =>
          .ok (p, ups ++ additions (readdable config balance r l), ⟨s, some (q ++ readdable config balance r l,
              total (readdable config balance r l) + r)⟩)) := by
  induction l generalizing q r n ups with
  | nil => simp [readdDropped, readdable, afterReadd, additions]
  | cons c cs ih =>
    obtain ⟨last, hlast⟩ : ∃ l, q.getLast? = some l := ⟨_, List.getLast?_eq_some_getLast hq⟩
    have hn := hcons.target_eq hlast
    rw [readdDropped, readdable]
    rcases addFromGossipRec_end config balance r depth s (AccountNonce.succ n) hlast hn with ⟨hadd, heq⟩ | ⟨hadd, e, heq⟩
    · rw [heq, if_pos hadd]
      simp only [if_true]
      rw [ih (by simp) (by rwa [List.append_assoc, List.singleton_append])]
      simp only [List.length_cons, List.drop_succ_cons, additions, List.map_cons, List.append_assoc,
        List.cons_append, List.nil_append, total_cons]
      rw [show total (readdable config balance (cost c + r) cs) + (cost c + r)
        = cost c + total (readdable config balance (cost c + r) cs) + r by omega]
    · rw [heq, if_neg hadd]
      simp only [List.length_nil, List.drop_zero, afterReadd, additions, List.map_nil, List.append_nil,
        total_nil, Nat.zero_add]
      rcases chargeDropped_spec increment (c :: cs) with ⟨i, -, he⟩ | ⟨-, e, he⟩ <;> simp [he]

/-! ### Replacing a command -/

theorem Consecutive.split (h : Consecutive q) (hf : q.head? = some f) (hl : q.getLast? = some l) (h₁ : f.nonce ≤ n)
    (h₂ : n ≤ l.nonce) : ∃ keep d tail, q = keep ++ d :: tail ∧ d.nonce = n := by
  induction q generalizing f with
  | nil => simp at hf
  | cons c q ih =>
    obtain rfl : c = f := Option.some.inj hf
    by_cases hn : c.nonce = n
    · exact ⟨[], c, q, rfl, hn⟩
    · cases q with
      | nil =>
        obtain rfl : c = l := Option.some.inj hl
        exact absurd (UInt32.le_antisymm h₁ h₂) hn
      | cons e q =>
        obtain ⟨he, hq⟩ := List.isChain_cons_cons.1 h
        have hle : e.nonce ≤ n := by
          rw [UInt32.le_iff_toNat_le] at h₁ ⊢
          have : c.nonce.toNat ≠ n.toNat := fun h => hn (UInt32.toNat_inj.1 h)
          omega
        obtain ⟨keep, d, tail, hq', hd⟩ := ih hq rfl (by simpa using hl) hle
        exact ⟨c :: keep, d, tail, by rw [hq']; rfl, hd⟩

theorem Consecutive.findIdx?_le (h : Consecutive (keep ++ d :: tail)) :
    (keep ++ d :: tail).findIdx? (fun cmd' => decide (d.nonce ≤ cmd'.nonce)) = some keep.length := by
  have hlt : ∀ e ∈ keep, ¬ d.nonce ≤ e.nonce := by
    intro e he hle
    have := (List.pairwise_append.1 h.pairwise).2.2 e he d List.mem_cons_self
    rw [UInt32.le_iff_toNat_le] at hle
    omega
  rw [List.findIdx?_append, List.findIdx?_eq_none_iff.2 (fun e he => by simpa using hlt e he)]
  simp [List.findIdx?_cons]

/-- Adding the new command to the queue that is cut before the old one. The current nonce is that of the
first command of the queue. -/
theorem addFromGossipRec_cut (config : Config) (balance : Nat)
    (s : AccountId) (n : AccountNonce) (depth : Nat) (h : Consecutive (keep ++ d :: tail))
    (hd : d.nonce = cmd.nonce) (hn : keep = [] → n = cmd.nonce) : (CanAdd config balance (total keep) cmd
        ∧ addFromGossipRec config balance (depth + 1) cmd n (cutState s keep)
          = .ok ((cmd, []), [.add cmd cmd.feePerWu (decide (keep = []))],
            ⟨s, some (keep ++ [cmd], cost cmd + total keep)⟩))
      ∨ (¬ CanAdd config balance (total keep) cmd
        ∧ ∃ e, addFromGossipRec config balance (depth + 1) cmd n (cutState s keep) = .error e) := by
  unfold cutState
  by_cases hk : keep = []
  · have hn' := hn hk
    subst hk
    simp only [ne_eq, not_true_eq_false, if_false]
    rcases addFromGossipRec_empty config balance cmd depth s n with ⟨-, hadd, heq⟩ | ⟨hno, he⟩
    · exact .inl ⟨hadd, by simpa using heq⟩
    · exact .inr ⟨fun hadd => hno ⟨hn', hadd⟩, he⟩
  · rw [if_pos hk]
    have hlast := List.getLast?_eq_some_getLast hk
    rcases addFromGossipRec_end config balance (total keep) depth s n hlast
      ((h.target_eq hlast).trans hd) with ⟨hadd, heq⟩ | ⟨hno, he⟩
    · exact .inl ⟨hadd, by simpa [hk] using heq⟩
    · exact .inr ⟨hno, he⟩

/-- The commands after the replaced one that stay in the pool. -/
def stay (config : Config) (balance : Nat) (keep : List (Command H)) (cmd : Command H)
    (tail : List (Command H)) : List (Command H) :=
  readdable config balance (cost cmd + total keep) tail

theorem stay_isPrefix (config : Config) (balance : Nat) (keep : List (Command H)) (cmd : Command H)
    (tail : List (Command H)) : stay config balance keep cmd tail <+: tail :=
  readdable_isPrefix _ _

theorem Consecutive.replace {keep tail pre : List (Command H)} {d cmd : Command H}
    (h : Consecutive (keep ++ d :: tail)) (hd : d.nonce = cmd.nonce) (hpre : pre <+: tail) :
    Consecutive (keep ++ cmd :: pre) := by
  obtain ⟨rest, rfl⟩ := hpre
  have hchain : ((keep ++ d :: (pre ++ rest)).map Command.nonce).IsChain
      (fun a b => b.toNat = a.toNat + 1) := (List.isChain_map Command.nonce).2 h
  have hmap : (keep ++ d :: (pre ++ rest)).map Command.nonce
      = (keep ++ cmd :: pre).map Command.nonce ++ rest.map Command.nonce := by
    simp [hd]
  rw [hmap] at hchain
  exact (List.isChain_map Command.nonce).1 (List.isChain_append.1 hchain).1

/-- The sender can pay for the new command behind the ones before it, and the fee pays for the command that is
replaced and for those behind it that do not stay. -/
def CanReplace (config : Config) (balance : Nat) (keep : List (Command H)) (d : Command H)
    (tail : List (Command H)) (cmd : Command H) : Prop :=
  CanAdd config balance (total keep) cmd ∧
    d.fee + fees (tail.drop (stay config balance keep cmd tail).length) + replaceFee ≤ cmd.fee

/-- **Replacement.** The new command takes the place of the old one, and the commands
after it stay as far as they can be added again. -/
theorem replaceCommand_spec (config : Config) (balance : Nat) (depth : Nat) (hok : QueueOk s (keep ++ d :: tail) r)
    (hd : d.nonce = cmd.nonce) (hn : keep = [] → n = cmd.nonce) (hbetween : low ≤ cmd.nonce ∧ cmd.nonce ≤ high) :
    (¬ CanReplace config balance keep d tail cmd
        ∧ ∃ e, replaceCommand (addFromGossipRec config balance (depth + 1)) cmd n low high
          (keep ++ d :: tail) ⟨s, some (keep ++ d :: tail, r)⟩ = .error e)
      ∨ (CanReplace config balance keep d tail cmd
        ∧ replaceCommand (addFromGossipRec config balance (depth + 1)) cmd n low high
            (keep ++ d :: tail) ⟨s, some (keep ++ d :: tail, r)⟩
          = .ok ((cmd, d :: (tail.drop (stay config balance keep cmd tail).length).tail),
              cutUpdates keep d tail ++ [.add cmd cmd.feePerWu (decide (keep = []))]
                ++ additions (stay config balance keep cmd tail),
              ⟨s, some (keep ++ cmd :: stay config balance keep cmd tail,
                total (keep ++ cmd :: stay config balance keep cmd tail))⟩)) := by
  have hidx := hok.consecutive.findIdx?_le
  rw [hd] at hidx
  have hb : (decide (low ≤ cmd.nonce) && decide (cmd.nonce ≤ high)) = true := by simpa using hbetween
  unfold replaceCommand CanReplace
  simp only [hb, Outcome.okIfTrue_true, Outcome.ok_bind, hidx, Outcome.ofOption_some, List.drop_left,
    List.head?_cons, hd, UInt32.le_refl, decide_true, Outcome.assert_true, removeWithDependentsExn_eq hok]
  by_cases hfee : d.fee ≤ cmd.fee
  · obtain ⟨inc, hinc⟩ : ∃ inc, Amount.sub cmd.fee d.fee = some inc :=
      ⟨cmd.fee - d.fee, Amount.sub_eq_some.2 (Nat.sub_add_cancel hfee).symm⟩
    have hincrement := Amount.sub_eq_some.1 hinc
    simp only [hfee, decide_true, Outcome.okIfTrue_true, Outcome.ok_bind]
    rcases addFromGossipRec_cut config balance s n depth hok.consecutive hd hn
      with ⟨hadd, heq⟩ | ⟨hno, e, he⟩
    · have hcons : Consecutive (keep ++ [cmd] ++ tail) := by
        rw [List.append_assoc]
        exact hok.consecutive.replace hd (List.prefix_refl tail)
      simp only [heq, Outcome.ok_bind, decide_true, Outcome.assert_true, hinc,
        Outcome.ofOption_some, List.tail_cons, readdDropped_eq (by simp) hcons]
      rw [show readdable config balance (cost cmd + total keep) tail = stay config balance keep cmd tail from rfl]
      rcases afterReadd_spec inc (tail.drop (stay config balance keep cmd tail).length)
        with ⟨i, hi, hr⟩ | ⟨hlt, e, he⟩
      · rw [hr]
        simp only [Outcome.ok_bind]
        by_cases hrep : replaceFee ≤ i
        · refine .inr ⟨⟨hadd, by omega⟩, ?_⟩
          have htotal : total (keep ++ cmd :: stay config balance keep cmd tail)
              = total (stay config balance keep cmd tail) + (cost cmd + total keep) := by
            rw [total_append, total_cons]
            omega
          simp [hrep, htotal]
        · exact .inl ⟨fun h => hrep (by omega), _, by simp [hrep]; rfl⟩
      · exact .inl ⟨fun h => by omega, e, by rw [he]; rfl⟩
    · exact .inl ⟨fun h => hno h.1, e, by simp [he]⟩
  · exact .inl ⟨fun h => by omega, _, by simp [hfee]; rfl⟩

/-! ### The queue of a sender -/

/-- What an addition from gossip does to the queue of the sender: the queue before and
after it, the dropped commands and the updates. -/
inductive Effect (config : Config) (balance : Nat) (cmd : Command H) :
    List (Command H) → List (Command H) → List (Command H) → List (Update H) → Prop where
  | first : CanAdd config balance 0 cmd →
      Effect config balance cmd [] [cmd] [] [.add cmd cmd.feePerWu true]
  | last {q : List (Command H)} {l : Command H} : q.getLast? = some l →
      l.command.expectedTargetNonce = cmd.nonce → CanAdd config balance (total q) cmd →
      Effect config balance cmd q (q ++ [cmd]) [] [.add cmd cmd.feePerWu false]
  | replace {keep tail : List (Command H)} {d l : Command H} : d.nonce = cmd.nonce →
      (keep ++ d :: tail).getLast? = some l → l.command.expectedTargetNonce ≠ cmd.nonce →
      d.fee < cmd.fee → CanAdd config balance (total keep) cmd →
      Effect config balance cmd (keep ++ d :: tail) (keep ++ cmd :: stay config balance keep cmd tail)
        (d :: (tail.drop (stay config balance keep cmd tail).length).tail)
        (cutUpdates keep d tail ++ [.add cmd cmd.feePerWu (decide (keep = []))]
          ++ additions (stay config balance keep cmd tail))

theorem replaceCommand_error {add : Command H → AccountNonce → SenderLocalState H → Added H}
    {st : SenderLocalState H} (h : ¬ (low ≤ cmd.nonce ∧ cmd.nonce ≤ high)) :
    ∃ e, replaceCommand add cmd n low high q st = .error e := by
  unfold replaceCommand
  rw [show (decide (low ≤ cmd.nonce) && decide (cmd.nonce ≤ high)) = false by
    rw [Bool.eq_false_iff]
    simpa using h]
  exact ⟨_, rfl⟩

theorem le_last_of_le_target (h : a ≤ AccountNonce.succ b) (hne : AccountNonce.succ b ≠ a) : a ≤ b := by
  rw [UInt32.le_iff_toNat_le] at h ⊢
  have hne' : (AccountNonce.succ b).toNat ≠ a.toNat := fun e => hne (UInt32.toNat_inj.1 e)
  by_cases hb : b = maxValue
  · subst hb
    have : (AccountNonce.succ maxValue).toNat = 0 := by decide
    omega
  · rw [AccountNonce.succ_toNat hb] at h hne'
    omega

theorem addFromGossipRec_none : (∃ e, addFromGossipRec config balance 1 cmd n ⟨s, none⟩ = .error e)
      ∨ ∃ q' dropped ups, Effect config balance cmd [] q' dropped ups
        ∧ addFromGossipRec config balance 1 cmd n ⟨s, none⟩
          = .ok ((cmd, dropped), ups, ⟨s, some (q', total q')⟩) := by
  rcases addFromGossipRec_empty config balance cmd 0 s n with ⟨-, hadd, heq⟩ | ⟨-, he⟩
  · exact .inr ⟨_, _, _, .first hadd, by simpa using heq⟩
  · exact .inl he

theorem addFromGossipRec_replace (config : Config) (balance : Nat)
    (hok : QueueOk s (keep ++ d :: tail) (total (keep ++ d :: tail))) (hd : d.nonce = cmd.nonce)
    (hf : (keep ++ d :: tail).head? = some f) (hn : f.nonce = n) (hl : (keep ++ d :: tail).getLast? = some l)
    (hend : l.command.expectedTargetNonce ≠ cmd.nonce) (hle : cmd.nonce ≤ l.command.expectedTargetNonce) :
    (¬ CanReplace config balance keep d tail cmd
        ∧ ∃ e, addFromGossipRec config balance ((keep ++ d :: tail).length + 1) cmd n
          ⟨s, some (keep ++ d :: tail, total (keep ++ d :: tail))⟩ = .error e)
      ∨ (CanReplace config balance keep d tail cmd
        ∧ addFromGossipRec config balance ((keep ++ d :: tail).length + 1) cmd n
            ⟨s, some (keep ++ d :: tail, total (keep ++ d :: tail))⟩
          = .ok ((cmd, d :: (tail.drop (stay config balance keep cmd tail).length).tail),
              cutUpdates keep d tail ++ [.add cmd cmd.feePerWu (decide (keep = []))]
                ++ additions (stay config balance keep cmd tail),
              ⟨s, some (keep ++ cmd :: stay config balance keep cmd tail,
                total (keep ++ cmd :: stay config balance keep cmd tail))⟩)) := by
  obtain ⟨depth, hdepth⟩ : ∃ depth, (keep ++ d :: tail).length = depth + 1 :=
    ⟨keep.length + tail.length, by rw [List.length_append, List.length_cons]; rfl⟩
  rw [addFromGossipRec, addFromGossipBody, hdepth]
  rcases checkCommand_spec config cmd with ⟨-, -, -, hcheck⟩ | ⟨⟨e, hcheck⟩, hno⟩
  · simp only [hcheck, Outcome.ok_bind, hf, hl, Outcome.ofOption_some, if_neg hend, if_pos hn]
    have hfirst : f.nonce ≤ cmd.nonce := by
      cases keep with
      | nil =>
        obtain rfl : d = f := Option.some.inj hf
        rw [hd]
        exact UInt32.le_refl _
      | cons k ks =>
        obtain rfl : k = f := Option.some.inj hf
        rw [UInt32.le_iff_toNat_le, ← hd]
        exact Nat.le_of_lt (List.rel_of_pairwise_cons hok.consecutive.pairwise (by simp))
    have hkeep : keep = [] → n = cmd.nonce := by
      intro hk
      subst hk
      obtain rfl : d = f := Option.some.inj hf
      exact hn.symm.trans hd
    exact replaceCommand_spec config balance depth hok hd hkeep ⟨hfirst, hle⟩
  · refine .inl ⟨fun h => hno ⟨h.1.1, h.1.2.1, ?_⟩, e, by rw [hcheck]; rfl⟩
    exact Nat.lt_of_le_of_lt (Nat.le_add_right _ _) h.1.2.2.1

/-- **`add_from_gossip_exn` does not raise on a queue in order**, and what it does is an
`Effect`. -/
theorem addFromGossipRec_some (hok : QueueOk s q (total q)) :
    (∃ e, addFromGossipRec config balance (q.length + 1) cmd n ⟨s, some (q, total q)⟩ = .error e)
      ∨ ∃ q' dropped ups, Effect config balance cmd q q' dropped ups
        ∧ addFromGossipRec config balance (q.length + 1) cmd n ⟨s, some (q, total q)⟩
          = .ok ((cmd, dropped), ups, ⟨s, some (q', total q')⟩) := by
  obtain ⟨l, hl⟩ : ∃ l, q.getLast? = some l := ⟨_, List.getLast?_eq_some_getLast hok.nonempty⟩
  obtain ⟨f, hf⟩ : ∃ f, q.head? = some f := ⟨_, List.head?_eq_some_head hok.nonempty⟩
  by_cases hend : l.command.expectedTargetNonce = cmd.nonce
  · rcases addFromGossipRec_end config balance (total q) q.length s n hl hend with ⟨hadd, heq⟩ | ⟨-, he⟩
    · refine .inr ⟨_, _, _, .last hl hend hadd, ?_⟩
      rw [heq, total_append, total_cons, total_nil, Nat.add_comm (total q), Nat.add_zero]
    · exact .inl he
  · by_cases hin : f.nonce = n ∧ f.nonce ≤ cmd.nonce ∧ cmd.nonce ≤ l.command.expectedTargetNonce
    · obtain ⟨keep, d, tail, rfl, hd⟩ := hok.consecutive.split hf hl hin.2.1 (le_last_of_le_target hin.2.2 hend)
      rcases addFromGossipRec_replace config balance hok hd hf hin.1 hl hend hin.2.2 with ⟨-, he⟩ | ⟨hcan, heq⟩
      · exact .inl he
      · refine .inr ⟨_, _, _, .replace hd hl hend ?_ hcan.1, heq⟩
        have hfee := hcan.2
        unfold replaceFee at hfee
        omega
    · rw [addFromGossipRec, addFromGossipBody]
      rcases checkCommand_spec config cmd with ⟨-, -, -, hcheck⟩ | ⟨⟨e, hcheck⟩, -⟩
      · simp only [hcheck, Outcome.ok_bind, hf, hl, Outcome.ofOption_some, if_neg hend]
        by_cases hn : f.nonce = n
        · rw [if_pos hn]
          exact .inl (replaceCommand_error fun h => hin ⟨hn, h⟩)
        · rw [if_neg hn]
          exact .inl ⟨_, rfl⟩
      · exact .inl ⟨e, by rw [hcheck]; rfl⟩

end MinaProtocol.IndexedPool
