import MinaProtocol.IndexedPool.Replacement
import MinaProtocol.IndexedPool.RevalidateExact

/-!
# IndexedPool.Diff

`Diff.apply` of `transaction_pool.ml`: the commands of a verified diff are added one after
the other, then the pool is cut down to its maximal size, and the commands are sorted into
accepted and rejected ones by what the additions reported. A command that an addition drops
without reporting it (`Addition.Forgets`) stays among the accepted ones although it is not
in the pool. The tables of verification keys and of locally generated commands, which
`apply` also writes, are read by none of this and left out.
-/

namespace MinaProtocol.IndexedPool

open Std

variable {H : Nat → Option UserCommand} {dropped q : List (Command H)} {balance : Nat} {cmd : Command H}
  {config : Config} {t t' : Pool H} {d c : Command H}

/-- `Diff_error.t`. -/
inductive DiffError where
  | insufficientReplaceFee
  | duplicate
  | invalidNonce
  | insufficientFunds
  | overflow
  | badToken
  | unwantedFeeToken
  | expired
  | overloaded
  | feePayerAccountNotFound
  | feePayerNotPermittedToSend
  | afterSlotTxEnd
deriving DecidableEq

/-- `Diff_error.grounds_for_diff_rejection`. -/
def DiffError.groundsForDiffRejection : DiffError → Bool
  | .expired | .invalidNonce | .insufficientFunds | .insufficientReplaceFee | .duplicate
  | .overloaded | .feePayerAccountNotFound | .feePayerNotPermittedToSend | .afterSlotTxEnd => false
  | .overflow | .badToken | .unwantedFeeToken => true

/-- `diff_error_of_indexed_pool_error`. -/
def diffErrorOfIndexedPoolError : CommandError → DiffError
  | .invalidNonceExpected _ _ => .invalidNonce
  | .invalidNonceBetween _ _ _ => .invalidNonce
  | .insufficientFunds _ _ => .insufficientFunds
  | .insufficientReplaceFee _ _ => .insufficientReplaceFee
  | .overflow => .overflow
  | .badToken => .badToken
  | .unwantedFeeToken _ => .unwantedFeeToken
  | .expired _ _ => .expired
  | .afterSlotTxEnd => .afterSlotTxEnd

/-- What `apply` reads and writes of the resource pool. -/
structure ResourcePool (H : Nat → Option UserCommand) where
  pool : Pool H
  poolMaxSize : Nat
  bestTipLedger : Option (AccountId → Option Account)

/-- `preload_accounts`. -/
def preloadAccounts (ledger : AccountId → Option Account) (accountIds : ExtTreeSet AccountId) :
    ExtTreeMap AccountId Account :=
  accountIds.toList.foldl
    (fun map id =>
      match ledger id with
      | some account => map.insert id account
      | none => map) ∅

/-- The loop `go` of `drop_until_below_max_size`. Every round drops a command, so that
`rounds` bounds the recursion once it is greater than the size of the pool. -/
def dropUntilBelowMaxSizeGo (poolMaxSize : Nat) : Nat → Pool H → List (Command H) → Option (Pool H × List (Command H))
  | 0, _, _ => none
  | rounds + 1, pool', dropped =>
    if pool'.size > poolMaxSize then do
      let (dropped', pool'') ← removeLowestFee pool'
      guard (dropped' ≠ [])
      dropUntilBelowMaxSizeGo poolMaxSize rounds pool'' (dropped ++ dropped')
    else some (pool', dropped)

/-- `drop_until_below_max_size`. -/
def dropUntilBelowMaxSize (poolMaxSize : Nat) (pool : Pool H) : Option (Pool H × List (Command H)) :=
  dropUntilBelowMaxSizeGo poolMaxSize (pool.size.toNat + 1) pool []

namespace Diff

/-- An entry of `add_results`. -/
abbrev AddResult (H : Nat → Option UserCommand) :=
  Except (Command H × DiffError) (Command H × List (Command H))

/-- `check_command`. -/
def checkCommand (feePayerAccounts : ExtTreeMap AccountId Account) (pool : Pool H)
    (cmd : Command H) : Outcome DiffError Unit :=
  if member pool cmd then .error .duplicate
  else
    match feePayerAccounts[cmd.sender]? with
    | none => .error .feePayerAccountNotFound
    | some account =>
      Outcome.okIfTrue (account.hasPermissionToSend && account.hasPermissionToIncrementNonce)
        .feePayerNotPermittedToSend

/-- The `result` for one command of the diff. The slot is that of the pool before the call. -/
def addCommand (feePayerAccounts : ExtTreeMap AccountId Account) (globalSlot : GlobalSlot)
    (pool : Pool H) (cmd : Command H) : Outcome DiffError (Command H × Pool H × List (Command H)) := do
  checkCommand feePayerAccounts pool cmd
  let account ← Outcome.ofOption feePayerAccounts[cmd.sender]?
  let balance ← Outcome.ofOption (account.liquidBalanceAtSlot globalSlot)
  Outcome.mapError diffErrorOfIndexedPoolError (addFromGossipExn pool cmd account.nonce balance)

/-- The fold of `apply` over the diff: the pool and `add_results`. -/
def addCommands (feePayerAccounts : ExtTreeMap AccountId Account) (globalSlot : GlobalSlot) :
    Pool H → List (Command H) → Option (Pool H × List (AddResult H))
  | pool, [] => some (pool, [])
  | pool, cmd :: cmds =>
    match addCommand feePayerAccounts globalSlot pool cmd with
    | .raise => none
    | .ok (cmd', pool', dropped) => do
      let (pool'', results) ← addCommands feePayerAccounts globalSlot pool' cmds
      some (pool'', .ok (cmd', dropped) :: results)
    | .error err => do
      let (pool'', results) ← addCommands feePayerAccounts globalSlot pool cmds
      some (pool'', .error (cmd, err) :: results)

variable (results : List (AddResult H))

/-- `dropped_for_add`. -/
def droppedForAdd : List (Command H) :=
  results.flatMap fun
    | .ok (_, dropped) => dropped
    | .error _ => []

/-- The results that go into `accepted`. -/
def accepted (allDroppedCmdHashes : ExtTreeSet Nat) : List (Command H) :=
  results.filterMap fun
    | .ok (cmd, _) => if cmd.hash ∈ allDroppedCmdHashes then none else some cmd
    | .error _ => none

/-- The results that go into `rejected`. -/
def rejected : List (Command H × DiffError) :=
  results.filterMap fun
    | .ok _ => none
    | .error e => some e

/-- The decision on the diff as a whole. -/
inductive Decision where
  | accept
  | reject
deriving DecidableEq

/-- What `apply` returns. -/
structure Applied (H : Nat → Option UserCommand) where
  decision : Decision
  accepted : List (Command H)
  rejected : List (Command H × DiffError)

/-- `apply`, for the commands of the diff; the pool is changed in place there. -/
def apply (t : ResourcePool H) (diff : List (Command H)) : Outcome String (ResourcePool H × Applied H) := do
  let ledger ← Outcome.okOr t.bestTipLedger
    "Got transaction pool diff when transitin frontier is unavailable, ignoring."
  let feePayerAccounts := preloadAccounts ledger (ExtTreeSet.ofList (diff.map Command.sender) compare)
  let (pool, results) ← Outcome.ofOption
    (addCommands feePayerAccounts (globalSlotSinceGenesis t.pool.config) t.pool diff)
  let (pool, droppedForSize) ← Outcome.ofOption (dropUntilBelowMaxSize t.poolMaxSize pool)
  let allDroppedCmdHashes :=
    ExtTreeSet.ofList ((droppedForAdd results).map Command.hash) compare
      ∪ ExtTreeSet.ofList (droppedForSize.map Command.hash) compare
  let decision :=
    if (rejected results).any (fun r => r.2.groundsForDiffRejection) then Decision.reject
    else Decision.accept
  return ({ t with pool }, ⟨decision, accepted results allDroppedCmdHashes, rejected results⟩)

end Diff

/-! ### Dropping for size -/

theorem getElem?_preloadAccounts (ledger : AccountId → Option Account) (ids : ExtTreeSet AccountId)
    (id : AccountId) : (preloadAccounts ledger ids)[id]? = if id ∈ ids then ledger id else none := by
  have hfold : ∀ (l : List AccountId) (map : ExtTreeMap AccountId Account),
      (l.foldl (fun map id =>
        match ledger id with
        | some account => map.insert id account
        | none => map) map)[id]? = if id ∈ l then (ledger id).or map[id]? else map[id]? := by
    intro l
    induction l with
    | nil => simp
    | cons k l ih =>
      intro map
      rw [List.foldl_cons, ih]
      by_cases hk : id = k
      · subst hk
        cases hid : ledger id <;> simp
      · have hne : compare k id ≠ .eq := fun e => hk (LawfulEqOrd.eq_of_compare e).symm
        cases ledger k <;> simp [hk, ExtTreeMap.getElem?_insert, hne]
  unfold preloadAccounts
  rw [hfold]
  simp [ExtTreeSet.mem_toList]

theorem Consistent.size_eq_length (h : Consistent t) {l : List (Command H)}
    (hl : ∀ c, c ∈ l ↔ c ∈ commands t) (hnodup : l.Nodup) : t.size = l.length := by
  have hhash : ∀ k c, t.allByHash[k]? = some c ↔ c ∈ commands t ∧ c.hash = k := h.indexed.allByHash
  have hkeys : (l.map Command.hash).Perm t.allByHash.keys := by
    refine (List.perm_ext_iff_of_nodup (hnodup.map Command.hash_injective) ExtTreeMap.nodup_keys).2 fun k => ?_
    rw [List.mem_map, ExtTreeMap.mem_keys, ExtTreeMap.mem_iff_isSome_getElem?, Option.isSome_iff_exists]
    simp only [hhash, hl]
  rw [h.indexed.size_eq, ← ExtTreeMap.length_keys, ← hkeys.length_eq, List.length_map]

theorem Consistent.size_of_drops (h : Consistent t)
    (h' : Consistent t') (hd : Drops t t' dropped) : t.size = t'.size + dropped.length := by
  obtain ⟨l, hnodup, hl⟩ : ∃ l : List (Command H), l.Nodup ∧ ∀ c, c ∈ l ↔ c ∈ commands t' :=
    ⟨(allBySenderSet t').toList, (ExtTreeSet.distinct_toList).imp fun hne heq => hne (by rw [heq]; exact ReflCmp.compare_self), fun c =>
      ExtTreeSet.mem_toList.trans mem_allBySenderSet⟩
  rw [h'.size_eq_length hl hnodup, h.size_eq_length (l := l ++ dropped)]
  · simp
  · intro c
    rw [List.mem_append, hl, hd.mem_iff]
  · refine List.nodup_append.2 ⟨hnodup, hd.nodup, ?_⟩
    rintro c hc _ hc' rfl
    exact hd.disjoint c hc' ((hl c).1 hc)

/-- **The pool is cut down to its maximal size.** -/
theorem Consistent.dropUntilBelowMaxSizeGo (h : Consistent t) (poolMaxSize : Nat)
    {rounds : Nat} (hrounds : t.size.toNat < rounds) (dropped : List (Command H)) :
    ∃ t' l, IndexedPool.dropUntilBelowMaxSizeGo poolMaxSize rounds t dropped = some (t', dropped ++ l)
      ∧ Consistent t' ∧ Drops t t' l ∧ t'.config = t.config ∧ t'.size ≤ poolMaxSize := by
  induction rounds generalizing t dropped with
  | zero => omega
  | succ rounds ih =>
    unfold IndexedPool.dropUntilBelowMaxSizeGo
    by_cases hsize : t.size > poolMaxSize
    · obtain ⟨l₁, t₁, heq, h₁, hd₁, hc₁, hempty⟩ := h.removeLowestFee
      have hne : l₁ ≠ [] := by
        intro he
        have hzero := h.size_eq_length (l := []) (by simp [hempty he]) List.nodup_nil
        rw [List.length_nil] at hzero
        omega
      have hlen : 0 < l₁.length := List.length_pos_of_ne_nil hne
      have hsize₁ := h.size_of_drops h₁ hd₁
      obtain ⟨t₂, l₂, heq₂, h₂, hd₂, hc₂, hle⟩ := ih h₁ (by omega) (dropped ++ l₁)
      refine ⟨t₂, l₁ ++ l₂, ?_, h₂, hd₁.trans hd₂, hc₂.trans hc₁, hle⟩
      rw [if_pos hsize, heq]
      simp [hne, heq₂, guard]
    · rw [if_neg hsize]
      exact ⟨t, [], by rw [List.append_nil], h, Drops.refl t, rfl, by omega⟩

/-! ### One addition -/

/-- A successful addition: the pool before it, the command and the sender's balance. -/
structure Addition (H : Nat → Option UserCommand) where
  before : Pool H
  command : Command H
  balance : Nat

/-- The command is the first one behind the replaced command that cannot be added again:
it ends the loop, and is neither added nor reported. -/
def EndsReadding (config : Config) (balance : Nat) (q : List (Command H)) (cmd c : Command H) : Prop :=
  ∃ keep d tail, q = keep ++ d :: tail ∧ d.nonce = cmd.nonce
    ∧ (tail.drop (stay config balance keep cmd tail).length).head? = some c

/-- The command is dropped by the addition without being reported. -/
def Addition.Forgets (a : Addition H) (c : Command H) : Prop :=
  EndsReadding a.before.config a.balance (queue a.before a.command.sender) a.command c

theorem Consecutive.nonce_ne_target {l : Command H} (hq : Consecutive q)
    (hl : q.getLast? = some l) (hmax : l.nonce ≠ maxValue) (hd : d ∈ q) : d.nonce ≠ l.command.expectedTargetNonce := by
  intro hn
  have hle := getLast_nonce_le hq hl hd
  have hsucc := AccountNonce.succ_toNat hmax
  rw [hn] at hle
  change (AccountNonce.succ l.nonce).toNat ≤ l.nonce.toNat at hle
  omega

theorem EndsReadding.mem (h : EndsReadding config balance q cmd c) : c ∈ q := by
  obtain ⟨keep, d, tail, rfl, -, hc⟩ := h
  have hmem := List.mem_of_mem_drop (List.mem_of_head? hc)
  simp [hmem]

theorem endsReadding_iff {keep tail : List (Command H)}
    (hq : Consecutive (keep ++ d :: tail)) (hd : d.nonce = cmd.nonce) :
    EndsReadding config balance (keep ++ d :: tail) cmd c
      ↔ (tail.drop (stay config balance keep cmd tail).length).head? = some c := by
  constructor
  · rintro ⟨keep', d', tail', he, hd', hc⟩
    obtain ⟨rfl, rfl⟩ := hq.split_unique he (hd'.trans hd.symm)
    exact hc
  · intro hc
    exact ⟨keep, d, tail, rfl, hd, hc⟩

/-- **What leaves the queue of the sender** is what the addition reports, and at most one
command that it does not report. -/
theorem Effect.mem_iff {q' : List (Command H)} {ups : List (Update H)}
    (he : Effect config balance cmd q q' dropped ups) (hq : Consecutive q) (hnew : cmd ∉ q)
    (hw : ¬ (cmd.nonce = 0 ∧ ∃ l, q.getLast? = some l ∧ l.nonce = maxValue)) (c : Command H) :
    (c ∈ q' ↔ (c ∈ q ∨ c = cmd) ∧ c ∉ dropped ∧ ¬ EndsReadding config balance q cmd c)
      ∧ (EndsReadding config balance q cmd c → c ∉ dropped) := by
  cases he with
  | first =>
    have hno : ¬ EndsReadding config balance [] cmd c := fun h => by simpa using h.mem
    simp [hno]
  | @last _ l hl hn hadd =>
    have hno : ¬ EndsReadding config balance q cmd c := by
      rintro ⟨keep, d, tail, rfl, hd, -⟩
      refine hq.nonce_ne_target hl (fun hmax => hw ⟨?_, l, hl, hmax⟩) (by simp) (hd.trans hn.symm)
      rw [← hn]
      exact target_of_maxValue hmax
    simp [hno]
  | @replace keep tail d l hd hl hne hfee hadd =>
    rw [endsReadding_iff hq hd]
    obtain ⟨rest, hrest⟩ := stay_isPrefix config balance keep cmd tail
    generalize stay config balance keep cmd tail = pre at hrest
    subst hrest
    have hnd := hq.nodup
    rw [List.drop_left]
    rw [List.nodup_append, List.nodup_cons, List.nodup_append] at hnd
    cases rest with
    | nil =>
      simp only [List.append_nil, List.mem_append, List.mem_cons, List.head?_nil, List.tail_nil] at *
      grind
    | cons x rest =>
      simp only [List.mem_append, List.mem_cons, List.head?_cons, List.tail_cons, List.nodup_cons] at *
      grind

/-- **What leaves the pool** with an addition is what it reports and what it forgets. -/
theorem Gossip.mem_iff (hg : Gossip t cmd balance t' dropped) (h : Consistent t) (hnew : cmd ∉ commands t)
    (hw : ¬ Wraps t cmd) (c : Command H) :
    (c ∈ commands t' ↔ (c ∈ commands t ∨ c = cmd) ∧ c ∉ dropped ∧ ¬ Addition.Forgets ⟨t, cmd, balance⟩ c)
      ∧ (c ∈ dropped → c ∈ commands t)
      ∧ (Addition.Forgets ⟨t, cmd, balance⟩ c → c ∈ commands t ∧ c ∉ dropped) := by
  obtain ⟨ups, heff⟩ := hg.effect
  have hmem : ∀ c, c ∈ queue t cmd.sender → c ∈ commands t := fun c hc => ⟨_, hc⟩
  have hcmd : cmd ∉ queue t cmd.sender := fun hc => hnew (hmem _ hc)
  obtain ⟨hiff, hdisj⟩ := heff.mem_iff (h.consecutive cmd.sender) hcmd hw c
  have hqueue := fun hc => heff.mem_of_mem.2 c hc
  have hforgets : Addition.Forgets ⟨t, cmd, balance⟩ c → c ∈ queue t cmd.sender := EndsReadding.mem
  refine ⟨?_, fun hc => hmem c (hqueue hc), fun hc => ⟨hmem c (hforgets hc), hdisj hc⟩⟩
  rw [h.commands_update hg.frame, Set.mem_union, Set.mem_ofPred_eq, Set.mem_ofPred_eq, hiff]
  unfold Addition.Forgets at hforgets ⊢
  have := hmem c
  dsimp only at *
  grind

/-! ### The fold over the diff -/

/-- No account holds less than its minimum balance at the slot. -/
def Solvent (globalSlot : GlobalSlot) (ledger : AccountId → Option Account) : Prop :=
  ∀ id account, ledger id = some account → (account.liquidBalanceAtSlot globalSlot).isSome

namespace Diff

variable {accounts : ExtTreeMap AccountId Account} {globalSlot : GlobalSlot} {pool : Pool H}
  {ledger : AccountId → Option Account} {results : List (AddResult H)} {diff : List (Command H)}

/-- The balance that an addition is checked against. -/
def balanceOf (accounts : ExtTreeMap AccountId Account) (globalSlot : GlobalSlot) (cmd : Command H) : Nat :=
  ((accounts[cmd.sender]?).bind (·.liquidBalanceAtSlot globalSlot)).getD 0

/-- The successful additions of the fold. -/
def additionsFrom (accounts : ExtTreeMap AccountId Account) (globalSlot : GlobalSlot) :
    Pool H → List (Command H) → List (Addition H)
  | _, [] => []
  | pool, cmd :: cmds =>
    match addCommand accounts globalSlot pool cmd with
    | .ok (_, pool', _) =>
      ⟨pool, cmd, balanceOf accounts globalSlot cmd⟩ :: additionsFrom accounts globalSlot pool' cmds
    | _ => additionsFrom accounts globalSlot pool cmds

/-- The commands of the successful results. -/
def addedCmds (results : List (AddResult H)) : List (Command H) :=
  results.filterMap fun
    | .ok (cmd, _) => some cmd
    | .error _ => none

theorem addCommand_spec (h : Consistent pool)
    (hsolvent : Solvent globalSlot fun id => accounts[id]?) (cmd : Command H) :
    (∃ e, addCommand accounts globalSlot pool cmd = .error e)
      ∨ ∃ pool' dropped, addCommand accounts globalSlot pool cmd = .ok (cmd, pool', dropped)
        ∧ cmd ∉ commands pool ∧ Gossip pool cmd (balanceOf accounts globalSlot cmd) pool' dropped := by
  unfold addCommand checkCommand balanceOf
  by_cases hm : member pool cmd = true
  · exact .inl ⟨.duplicate, by simp [hm]⟩
  · have hnew : cmd ∉ commands pool := fun hc => hm (h.indexed.member_iff.2 hc)
    rw [if_neg hm]
    cases ha : accounts[cmd.sender]? with
    | none => exact .inl ⟨.feePayerAccountNotFound, rfl⟩
    | some account =>
      obtain ⟨balance, hbalance⟩ := Option.isSome_iff_exists.1 (hsolvent _ _ ha)
      dsimp only
      cases account.hasPermissionToSend && account.hasPermissionToIncrementNonce with
      | false => exact .inl ⟨.feePayerNotPermittedToSend, rfl⟩
      | true =>
        simp only [Outcome.okIfTrue_true, Outcome.ok_bind, Outcome.ofOption_some, hbalance,
          Option.bind_some, Option.getD_some]
        rcases h.addFromGossip cmd account.nonce balance with ⟨e, he⟩ | ⟨pool', dropped, ho, hg⟩
        · exact .inl ⟨diffErrorOfIndexedPoolError e, by rw [he]; rfl⟩
        · exact .inr ⟨pool', dropped, by rw [ho]; rfl, hnew, hg⟩

/-- What the additions from `pool` to `pool'` did: the commands of `pool'` are those of
`pool` and the added ones without the reported and the forgotten ones, and none of the
latter is reported. -/
structure Tally (pool pool' : Pool H) (added : List (Addition H)) (dropped : List (Command H)) : Prop where
  mem_iff : ∀ c, c ∈ commands pool' ↔ (c ∈ commands pool ∨ c ∈ added.map Addition.command)
    ∧ c ∉ dropped ∧ ∀ a ∈ added, ¬ a.Forgets c
  dropped_mem : ∀ c ∈ dropped, c ∈ commands pool ∨ c ∈ added.map Addition.command
  forgotten_mem : ∀ a ∈ added, ∀ c, a.Forgets c →
    (c ∈ commands pool ∨ c ∈ added.map Addition.command) ∧ c ∉ dropped

/-- No command comes back: what is added was not in the pool and has not been added. -/
def NoReturn (pool : Pool H) (added : List (Addition H)) : Prop :=
  (∀ a ∈ added, a.command ∉ commands pool) ∧ (added.map Addition.command).Nodup

theorem Tally.cons {pool pool₁ pool' : Pool H} {a : Addition H} {added : List (Addition H)}
    {dropped dropped' : List (Command H)} (ha : a.before = pool) (h : Consistent pool)
    (hg : Gossip pool a.command a.balance pool₁ dropped) (hnew : a.command ∉ commands pool)
    (hw : ¬ Wraps pool a.command) (hreturn : NoReturn pool (a :: added))
    (ht : Tally pool₁ pool' added dropped') : Tally pool pool' (a :: added) (dropped ++ dropped') := by
  subst ha
  have hstep : ∀ c, (c ∈ commands pool₁ ↔ (c ∈ commands a.before ∨ c = a.command) ∧ c ∉ dropped ∧ ¬ a.Forgets c)
      ∧ (c ∈ dropped → c ∈ commands a.before) ∧ (a.Forgets c → c ∈ commands a.before ∧ c ∉ dropped) :=
    hg.mem_iff h hnew hw
  have hfresh : ∀ c ∈ added.map Addition.command, c ∉ commands a.before ∧ c ≠ a.command := by
    intro c hc
    obtain ⟨b, hb, rfl⟩ := List.mem_map.1 hc
    exact ⟨hreturn.1 b (List.mem_cons_of_mem a hb), fun he => (List.nodup_cons.1 hreturn.2).1 (he ▸ hc)⟩
  refine ⟨fun c => ?_, fun c hc => ?_, List.forall_mem_cons.2 ⟨fun c hc => ?_, fun b hb c hc => ?_⟩⟩ <;>
    obtain ⟨hin, hreported, hforgets⟩ := hstep c <;>
    have hnot := hfresh c <;>
    have hlater := ht.dropped_mem c
  · rw [ht.mem_iff c, List.forall_mem_cons]
    generalize (∀ b ∈ added, ¬ b.Forgets c) = stays
    simp only [List.map_cons, List.mem_cons, List.mem_append] at *
    grind
  · simp only [List.map_cons, List.mem_cons, List.mem_append] at hc ⊢
    grind
  · simp only [List.map_cons, List.mem_cons, List.mem_append]
    grind
  · have hrest := ht.forgotten_mem b hb c hc
    simp only [List.map_cons, List.mem_cons, List.mem_append]
    grind

theorem Tally.refl (pool : Pool H) : Tally pool pool [] [] := ⟨by simp, by simp, by simp⟩

/-- Every result is for a command of the diff: it was added, or is among the rejected ones. -/
structure Results (cmds : List (Command H)) (added : List (Addition H)) (results : List (AddResult H)) :
    Prop where
  added_eq : addedCmds results = added.map Addition.command
  mem : ∀ c ∈ cmds, c ∈ added.map Addition.command ∨ c ∈ (rejected results).map Prod.fst

/-- **The fold over the diff** returns, keeps the pool consistent, and drops what its
additions drop. -/
theorem addCommands_spec (h : Consistent pool)
    (hsolvent : Solvent globalSlot fun id => accounts[id]?) (cmds : List (Command H))
    (hw : ∀ a ∈ additionsFrom accounts globalSlot pool cmds, ¬ Wraps a.before a.command) :
    ∃ pool' results, addCommands accounts globalSlot pool cmds = some (pool', results)
      ∧ Consistent pool' ∧ Results cmds (additionsFrom accounts globalSlot pool cmds) results
      ∧ (NoReturn pool (additionsFrom accounts globalSlot pool cmds) →
        Tally pool pool' (additionsFrom accounts globalSlot pool cmds) (droppedForAdd results)) := by
  induction cmds generalizing pool with
  | nil => exact ⟨pool, [], rfl, h, ⟨rfl, by simp⟩, fun _ => Tally.refl pool⟩
  | cons cmd cmds ih =>
    unfold addCommands additionsFrom
    rw [additionsFrom] at hw
    rcases addCommand_spec h hsolvent cmd with ⟨e, he⟩ | ⟨pool₁, dropped, ho, hnew, hg⟩
    · simp only [he] at hw ⊢
      obtain ⟨pool', results, heq, h', hr, ht⟩ := ih h hw
      refine ⟨pool', .error (cmd, e) :: results, by simp [heq], h', ⟨hr.added_eq, ?_⟩, ht⟩
      intro c hc
      have := hr.mem c
      simp only [rejected, List.filterMap_cons, List.map_cons, List.mem_cons] at this hc ⊢
      grind
    · simp only [ho] at hw ⊢
      have hw₁ := hw _ List.mem_cons_self
      have h₁ := hg.consistent h hw₁
      obtain ⟨pool', results, heq, h', hr, ht⟩ := ih h₁ fun a ha => hw a (List.mem_cons_of_mem _ ha)
      refine ⟨pool', .ok (cmd, dropped) :: results, by simp [heq], h', ⟨?_, ?_⟩, fun hreturn => ?_⟩
      · simp [addedCmds, ← hr.added_eq]
      · intro c hc
        have := hr.mem c
        simp only [rejected, List.filterMap_cons, List.map_cons, List.mem_cons] at this hc ⊢
        grind
      · refine Tally.cons rfl h hg hnew hw₁ hreturn (ht ⟨fun a ha hmem => ?_, (List.nodup_cons.1 hreturn.2).2⟩)
        -- what the pool has after the addition it had before, or it is the added command
        rcases ((hg.mem_iff h hnew hw₁ a.command).1.1 hmem).1 with hbefore | he
        · exact hreturn.1 a (List.mem_cons_of_mem _ ha) hbefore
        · refine (List.nodup_cons.1 hreturn.2).1 (List.mem_map.2 ⟨a, ha, he⟩)

theorem additionsFrom_sublist (accounts : ExtTreeMap AccountId Account) (globalSlot : GlobalSlot)
    (pool : Pool H) (cmds : List (Command H)) :
    ((additionsFrom accounts globalSlot pool cmds).map Addition.command).Sublist cmds := by
  induction cmds generalizing pool with
  | nil => exact List.Sublist.refl []
  | cons cmd cmds ih =>
    unfold additionsFrom
    split
    · exact (ih _).cons_cons cmd
    · exact (ih pool).cons cmd

theorem noReturn_of_nodup {cmds : List (Command H)} (hnodup : cmds.Nodup)
    (hnew : ∀ c ∈ cmds, c ∉ commands pool) : NoReturn pool (additionsFrom accounts globalSlot pool cmds) := by
  have hsub := additionsFrom_sublist accounts globalSlot pool cmds
  exact ⟨fun a ha => hnew _ (hsub.subset (List.mem_map_of_mem ha)), hnodup.sublist hsub⟩

/-! ### The verdict -/

/-- The fee payers' accounts that `apply` looks at. -/
def feePayerAccounts (ledger : AccountId → Option Account) (diff : List (Command H)) : ExtTreeMap AccountId Account :=
  preloadAccounts ledger (ExtTreeSet.ofList (diff.map Command.sender) compare)

/-- The successful additions of a call of `apply`. -/
def additions (t : ResourcePool H) (ledger : AccountId → Option Account) (diff : List (Command H)) :
    List (Addition H) :=
  additionsFrom (feePayerAccounts ledger diff) (globalSlotSinceGenesis t.pool.config) t.pool diff

/-- **The verdict matches the pool**: the pool is not too large, the accepted commands of
the diff are those that the call brought into it, and what is neither accepted nor rejected
was added and dropped. -/
structure Verdict (t t' : ResourcePool H) (diff : List (Command H)) (added : List (Addition H))
    (applied : Applied H) : Prop where
  size_le : t'.pool.size ≤ t.poolMaxSize
  accepted_iff : ∀ c ∈ diff, c ∈ applied.accepted ↔ c ∈ commands t'.pool ∧ c ∉ commands t.pool
  added_dropped : ∀ c ∈ diff, c ∉ applied.accepted → c ∉ applied.rejected.map Prod.fst →
    c ∈ added.map Addition.command ∧ c ∉ commands t'.pool

theorem solvent_feePayerAccounts
    (h : Solvent globalSlot ledger) : Solvent globalSlot fun id => (feePayerAccounts ledger diff)[id]? := by
  intro id account ha
  replace ha : (feePayerAccounts ledger diff)[id]? = some account := ha
  rw [feePayerAccounts, getElem?_preloadAccounts] at ha
  split at ha
  · exact h id account ha
  · cases ha

theorem mem_accepted {hashes : ExtTreeSet Nat} {c : Command H} :
    c ∈ accepted results hashes ↔ c ∈ addedCmds results ∧ c.hash ∉ hashes := by
  unfold accepted addedCmds
  induction results with
  | nil => simp
  | cons r results ih =>
    cases r with
    | error e => simpa using ih
    | ok p =>
      obtain ⟨cmd, dropped⟩ := p
      simp only [List.filterMap_cons, List.mem_cons]
      by_cases hm : cmd.hash ∈ hashes
      · rw [if_pos hm]
        grind
      · rw [if_neg hm]
        grind

theorem hash_mem_ofList {l : List (Command H)} {c : Command H} :
    c.hash ∈ ExtTreeSet.ofList (l.map Command.hash) compare ↔ c ∈ l := by
  rw [ExtTreeSet.mem_ofList, List.contains_iff_mem, List.mem_map]
  constructor
  · rintro ⟨d, hd, he⟩
    exact Command.hash_injective he ▸ hd
  · intro hc
    exact ⟨c, hc, rfl⟩

/-- What `apply` returns, from the results of its two loops. -/
theorem apply_eq {t : ResourcePool H} {pool' : Pool H} {droppedForSize : List (Command H)}
    (hledger : t.bestTipLedger = some ledger)
    (hadd : addCommands (feePayerAccounts ledger diff) (globalSlotSinceGenesis t.pool.config) t.pool diff
      = some (pool, results))
    (hdrop : dropUntilBelowMaxSize t.poolMaxSize pool = some (pool', droppedForSize)) :
    ∃ applied, apply t diff = .ok ({ t with pool := pool' }, applied)
      ∧ applied.rejected = rejected results
      ∧ ∀ c, c ∈ applied.accepted
        ↔ c ∈ addedCmds results ∧ c ∉ droppedForAdd results ∧ c ∉ droppedForSize := by
  unfold feePayerAccounts at hadd
  let hashes := ExtTreeSet.ofList ((droppedForAdd results).map Command.hash) compare
    ∪ ExtTreeSet.ofList (droppedForSize.map Command.hash) compare
  let decision :=
    if (rejected results).any (fun r => r.2.groundsForDiffRejection) then Decision.reject
    else Decision.accept
  refine ⟨⟨decision, accepted results hashes, rejected results⟩, ?_, rfl, fun c => ?_⟩
  · unfold apply
    simp only [hledger, Outcome.okOr, Outcome.ok_bind, hadd, Outcome.ofOption_some, hdrop]
    rfl
  · rw [mem_accepted, ExtTreeSet.mem_union_iff, hash_mem_ofList, hash_mem_ofList]
    grind

/-- Two payments of one sender, and one that replaces the first. -/
def replacingDiff : List UserCommand := [payment 7 5 1 10, payment 7 6 1 10, payment 7 5 10 10]

/-- The diff of the three payments. -/
def threeInOneDiff : List (Command (fromList replacingDiff)) :=
  [fromList.get replacingDiff 0 (by decide) (by decide), fromList.get replacingDiff 1 (by decide) (by decide),
    fromList.get replacingDiff 2 (by decide) (by decide)]

/-- The ledger in which every account has the balance. -/
def equalLedger (balance : Nat) : AccountId → Option Account := fun _ => some (userAccount 5 balance)

/-- An empty pool for at most two commands. -/
def emptyPool (balance : Nat) : ResourcePool (fromList replacingDiff) where
  pool := empty ⟨none, none, 0⟩
  poolMaxSize := 2
  bestTipLedger := some (equalLedger balance)

end Diff

end MinaProtocol.IndexedPool
