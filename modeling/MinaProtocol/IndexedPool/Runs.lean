import MinaProtocol.IndexedPool.Add

/-!
# IndexedPool.Runs

Whole runs of the pool. Two things can go wrong. A command that comes back from a
block that is rolled back must fit before the queue of its sender, or
`add_from_backtrack` raises. And nonces wrap: after the command with the greatest nonce
the pool takes one with nonce 0, which `assert_pool_consistency` does not accept. In
every other run the pool is consistent at every point and nothing raises
(`run_consistent`).
-/

namespace MinaProtocol.IndexedPool

open Std

variable {H : Nat → Option UserCommand} {t : Pool H} {B : Pool H → Command H → Prop}
  {G : Pool H → Command H → Prop} {nonce : AccountNonce} {c : Command H} {balance : Nat}

/-- The pools reached from the empty pool by adding and removing commands, while the
clock goes on. `G` and `B` are what is known of the commands that are added from gossip
and added back. -/
inductive PoolRun (G B : Pool H → Command H → Prop) : Pool H → Prop where
  | empty (config : Config) : PoolRun G B (empty config)
  | clock {t : Pool H} (currentSlot : GlobalSlot) : PoolRun G B t →
      PoolRun G B { t with config := { t.config with currentSlot } }
  | gossip {t t' : Pool H} {cmd c : Command H} {nonce : AccountNonce} {balance : Nat}
      {dropped : List (Command H)} : PoolRun G B t → G t cmd →
      addFromGossipExn t cmd nonce balance = .ok (c, t', dropped) → PoolRun G B t'
  | backtrack {t t' : Pool H} {cmd : Command H} : PoolRun G B t → cmd ∉ commands t → B t cmd →
      addFromBacktrack t cmd = .ok t' → PoolRun G B t'
  | removeLowestFee {t t' : Pool H} {dropped : List (Command H)} : PoolRun G B t →
      removeLowestFee t = some (dropped, t') → PoolRun G B t'
  | removeExpired {t t' : Pool H} {dropped : List (Command H)} : PoolRun G B t →
      removeExpired t = some (dropped, t') → PoolRun G B t'

/-- The run does not go past the greatest nonce with this command. -/
def StaysBelowMax (t : Pool H) (cmd : Command H) : Prop := ¬ Wraps t cmd

/-- The command fits before the queue of its sender. -/
def FitsBefore (t : Pool H) (cmd : Command H) : Prop := BacktrackFits t cmd ∧ ¬ WrapsBack t cmd

theorem Consistent.clock (h : Consistent t) (currentSlot : GlobalSlot) :
    Consistent { t with config := { t.config with currentSlot } } :=
  ⟨⟨h.queueOk⟩, ⟨h.indexed.allByFee, h.indexed.allByHash, h.indexed.applicableByFee,
    h.indexed.expiration, h.indexed.size_eq⟩⟩

theorem PoolRun.consistent (hr : PoolRun StaysBelowMax FitsBefore t) : Consistent t := by
  induction hr with
  | empty config => exact consistent_empty config
  | clock currentSlot _ ih => exact ih.clock currentSlot
  | gossip _ hw ho ih => exact (ih.of_gossip ho).2.consistent ih hw
  | @backtrack t t' cmd _ hnew hfits ho ih =>
    rcases ih.addFromBacktrack hfits.1 with ⟨e, he⟩ | ⟨t₁, heq, hb⟩
    · rw [he] at ho
      cases ho
    · rw [heq, Outcome.ok.injEq] at ho
      subst ho
      exact hb.consistent ih hfits.1 hfits.2 hnew
  | removeLowestFee _ ho ih =>
    obtain ⟨dropped, t', heq, h', -, -⟩ := ih.removeLowestFee
    rw [heq, Option.some.injEq, Prod.mk.injEq] at ho
    exact ho.2 ▸ h'
  | removeExpired _ ho ih =>
    obtain ⟨dropped, t', heq, h', -, -⟩ := ih.removeExpired
    rw [heq, Option.some.injEq, Prod.mk.injEq] at ho
    exact ho.2 ▸ h'

/-- A payment that does not expire. -/
def payment (sender : Nat) (nonce : AccountNonce) (fee amount : Nat) : UserCommand :=
  .signedCommand ⟨fee, ⟨sender, false⟩, nonce, maxValue, .payment ⟨0, true⟩ amount⟩

/-- Commands that have their place in a list as hash. -/
def fromList (l : List UserCommand) : Nat → Option UserCommand := fun h => l[h]?

/-- A command of such a list. -/
def fromList.get (l : List UserCommand) (i : Nat) (h : i < l.length)
    (hw : (l.get ⟨i, h⟩).weight < 2 ^ 31) : Command (fromList l) where
  hash := i
  command := l.get ⟨i, h⟩
  hash_eq := by simp [fromList, h]
  weight_lt := hw

/-- Two payments of one sender, with a nonce missing between them. -/
def gap : List UserCommand := [payment 7 5 1 10, payment 7 3 1 10]

/-- Two payments of one sender, with the greatest nonce and with nonce 0. -/
def wrap : List UserCommand := [payment 7 maxValue 1 10, payment 7 0 1 10]

/-- The pool with the command added, if it is accepted. -/
def added (balance : Nat) (nonce : AccountNonce) (t : Pool H) (c : Command H) : Pool H :=
  match addFromGossipExn t c nonce balance with
  | .ok (_, t', _) => t'
  | _ => t

/-- The commands that are reported as dropped when the command is added. -/
def droppedBy (balance : Nat) (nonce : AccountNonce) (t : Pool H) (c : Command H) : List (Command H) :=
  match addFromGossipExn t c nonce balance with
  | .ok (_, _, dropped) => dropped
  | _ => []

theorem Consistent.gossip_eq (h : Consistent t) (hok : (addFromGossipExn t c nonce balance).isOk = true) :
    addFromGossipExn t c nonce balance
      = .ok (c, added balance nonce t c, droppedBy balance nonce t c) := by
  unfold added droppedBy
  rcases h.addFromGossip c nonce balance with ⟨e, he⟩ | ⟨t', dropped, ho, -⟩
  · rw [he] at hok
    cases hok
  · rw [ho]

/-- The pool after the commands have been added one after the other. -/
def addedAll (balance : Nat) (nonce : AccountNonce) (cs : List (Command H)) : Pool H :=
  cs.foldl (added balance nonce) (empty ⟨none, none, 0⟩)

theorem added_run (hr : PoolRun G B t) (hG : G t c) : PoolRun G B (added balance nonce t c) := by
  unfold added
  split
  · rename_i ho
    exact .gossip hr hG ho
  · exact hr

theorem addedAll_run (balance : Nat) (nonce : AccountNonce)
    (cs : List (Command H)) : PoolRun (fun _ _ => True) B (addedAll balance nonce cs) := by
  unfold addedAll
  induction cs using List.reverseRecOn with
  | nil => exact .empty _
  | append_singleton cs c ih =>
    rw [List.foldl_append]
    exact added_run ih trivial

theorem addedAll_staysBelowMax (balance : Nat) (nonce : AccountNonce)
    (cs : List (Command H)) (hcs : ∀ c ∈ cs, c.nonce ≠ 0) : PoolRun StaysBelowMax B (addedAll balance nonce cs) := by
  unfold addedAll
  induction cs using List.reverseRecOn with
  | nil => exact .empty _
  | append_singleton cs c ih =>
    rw [List.foldl_append]
    exact added_run (ih fun d hd => hcs d (List.mem_append_left _ hd))
      fun hw => hcs c (by simp) hw.1

/-- Two payments in order, and a third one that was in a block. -/
def inOrder : List UserCommand := [payment 7 5 1 10, payment 7 6 2 10, payment 7 4 1 10]

/-- The pool with the command added back, if it is accepted. -/
def addedBack (t : Pool H) (c : Command H) : Pool H :=
  match addFromBacktrack t c with
  | .ok t' => t'
  | _ => t

theorem addedBack_run (hr : PoolRun G B t) (hc : c ∉ commands t) (hB : B t c) : PoolRun G B (addedBack t c) := by
  unfold addedBack
  split
  · rename_i ho
    exact .backtrack hr hc hB ho
  · exact hr

end MinaProtocol.IndexedPool
