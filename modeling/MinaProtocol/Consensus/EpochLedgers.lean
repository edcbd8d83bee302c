import MinaProtocol.Consensus.EpochHistory

/-!
# Consensus.EpochLedgers

The snapshots of the epoch ledgers that a node keeps. `frontier_root_transition` moves them
on when the root of the frontier enters another epoch, and `select_epoch_snapshot` chooses
between them from the number of blocks of the epoch of a tip. The root is `k` blocks
behind, so the tip has more than `k` blocks in its epoch exactly when the root is in it
too. The files of the ledgers are left out.
-/

namespace MinaProtocol.Consensus

variable {hashes : Hashes} {constants : Constants} {Ledger Table : Type}

/-- `Local_state.Snapshot.t`. -/
structure Snapshot (Ledger Table : Type) where
  ledger : Ledger
  delegateeTable : Table

/-- The snapshots of `Local_state.Data.t`. -/
structure LocalState (Ledger Table : Type) where
  stakingEpochSnapshot : Snapshot Ledger Table
  nextEpochSnapshot : Snapshot Ledger Table
  lastEpochDelegateeTable : Option Table

/-- What is computed from a ledger. -/
structure LedgerHooks (Ledger Table : Type) where
  /-- `merkle_root`. -/
  merkleRoot : Ledger → Nat
  /-- `compute_delegatee_table` for the current block production keys. -/
  computeDelegateeTable : Ledger → Table

/-- `Local_state.snapshot_identifier`. -/
inductive SnapshotIdentifier where
  | stakingEpochSnapshot
  | nextEpochSnapshot
deriving DecidableEq, Repr

/-- `Local_state.get_snapshot`. -/
def getSnapshot (localState : LocalState Ledger Table) : SnapshotIdentifier → Snapshot Ledger Table
  | .stakingEpochSnapshot => localState.stakingEpochSnapshot
  | .nextEpochSnapshot => localState.nextEpochSnapshot

/-- The name of the snapshot that is selected. -/
inductive SnapshotSource where
  | curr
  | last
deriving DecidableEq, Repr

/-- `Hooks.select_epoch_snapshot`, with the `k` of the constants. -/
def selectEpochSnapshot (k : UInt32) (s : ConsensusState) (localState : LocalState Ledger Table)
    (epoch : UInt32) : SnapshotSource × Snapshot Ledger Table :=
  let inNextEpoch : Bool := epoch = s.currGlobalSlot.epoch + 1
  -- the first block of the epoch has not reached the root yet, except in epoch 0
  let epochIsNotFinalized : Bool := !(k < s.nextEpochData.epochLength) && !(epoch = 0)
  if inNextEpoch || epochIsNotFinalized then (.curr, localState.nextEpochSnapshot)
  else (.last, localState.stakingEpochSnapshot)

/-- `Hooks.required_snapshot`. -/
structure RequiredSnapshot where
  snapshotId : SnapshotIdentifier
  expectedRoot : Nat
deriving DecidableEq, Repr

/-- `Hooks.local_state_sync`. -/
inductive LocalStateSync where
  | one (required : RequiredSnapshot)
  | both (next staking : Nat)
deriving DecidableEq, Repr

/-- `required_snapshot_sync`. -/
def requiredSnapshotSync (hooks : LedgerHooks Ledger Table) (localState : LocalState Ledger Table)
    (snapshotId : SnapshotIdentifier) (expectedRoot : Nat) : Option RequiredSnapshot :=
  if expectedRoot = hooks.merkleRoot (getSnapshot localState snapshotId).ledger then none
  else some ⟨snapshotId, expectedRoot⟩

/-- `Hooks.required_local_state_sync`. -/
def requiredLocalStateSync (hooks : LedgerHooks Ledger Table) (k : UInt32) (s : ConsensusState)
    (localState : LocalState Ledger Table) : Option LocalStateSync :=
  match (selectEpochSnapshot k s localState s.currGlobalSlot.epoch).1 with
  | .curr =>
    (requiredSnapshotSync hooks localState .nextEpochSnapshot s.stakingEpochData.ledger.hash).map .one
  | .last =>
    match requiredSnapshotSync hooks localState .nextEpochSnapshot s.nextEpochData.ledger.hash,
      requiredSnapshotSync hooks localState .stakingEpochSnapshot s.stakingEpochData.ledger.hash with
    | none, none => none
    | some x, none => some (.one x)
    | none, some x => some (.one x)
    | some next, some staking => some (.both next.expectedRoot staking.expectedRoot)

/-- `Hooks.frontier_root_transition`. -/
def frontierRootTransition (hooks : LedgerHooks Ledger Table) (prev next : ConsensusState)
    (localState : LocalState Ledger Table) (snarkedLedger : Ledger) (genesisLedgerHash : Nat) :
    LocalState Ledger Table :=
  if prev.currGlobalSlot.epoch = next.currGlobalSlot.epoch then localState
  else
    { stakingEpochSnapshot := localState.nextEpochSnapshot
      nextEpochSnapshot :=
        if hooks.merkleRoot snarkedLedger = genesisLedgerHash then localState.nextEpochSnapshot
        else ⟨snarkedLedger, hooks.computeDelegateeTable snarkedLedger⟩
      lastEpochDelegateeTable := some localState.stakingEpochSnapshot.delegateeTable }

/-! ### Moving the root along a chain -/

/-- A block of the frontier: its snarked ledger, and the hash of the genesis ledger in its
blockchain state. -/
structure FrontierBlock (Ledger : Type) extends Link where
  snarkedLedger : Ledger
  genesisLedgerHash : Nat

/-- A chain from the genesis block on, the newest block first. The state of a block is
updated with the snarked ledger of the block before. -/
structure FrontierChain (hooks : LedgerHooks Ledger Table) (hashes : Hashes) (constants : Constants)
    (genesis : Genesis) (chain : List (FrontierBlock Ledger)) : Prop where
  blockChain : BlockChain hashes constants genesis (chain.map FrontierBlock.toLink)
  snarked : chain.IsChain fun b parent =>
    b.block.snarkedLedgerHash = hooks.merkleRoot parent.snarkedLedger
      ∧ b.block.genesisLedgerHash = parent.genesisLedgerHash

/-- Move the root from `start` over the blocks, the newest one first: the new root, and the
snapshots then. -/
def moveRoots (hooks : LedgerHooks Ledger Table) (localState : LocalState Ledger Table)
    (start : FrontierBlock Ledger) : List (FrontierBlock Ledger) → FrontierBlock Ledger × LocalState Ledger Table
  | [] => (start, localState)
  | next :: earlier =>
    let (root, localState) := moveRoots hooks localState start earlier
    (next, frontierRootTransition hooks root.state next.state localState root.snarkedLedger root.genesisLedgerHash)

/-- The snapshots have the hashes of the epoch data of the state. -/
structure Synced (hooks : LedgerHooks Ledger Table) (localState : LocalState Ledger Table)
    (s : ConsensusState) : Prop where
  staking : hooks.merkleRoot localState.stakingEpochSnapshot.ledger = s.stakingEpochData.ledger.hash
  next : hooks.merkleRoot localState.nextEpochSnapshot.ledger = s.nextEpochData.ledger.hash

/-! ### The ledgers of the epoch data -/

variable {genesis : Genesis} {hooks : LedgerHooks Ledger Table} {localState : LocalState Ledger Table}
  {ahead past : List Link} {root : Link}
  {s' s : ConsensusState} {older : List Link} {block : Block} {parent b : Link} {α : Type}

theorem Updated.ledgers (h : Updated hashes constants s block s') :
    (s.currGlobalSlot.epoch < s'.currGlobalSlot.epoch ∧ s'.stakingEpochData = s.nextEpochData ∧ s'.nextEpochData.ledger
          = if block.snarkedLedgerHash = block.genesisLedgerHash then s.nextEpochData.ledger
            else ⟨block.snarkedLedgerHash, s'.totalCurrency⟩)
      ∨ (s'.currGlobalSlot.epoch = s.currGlobalSlot.epoch ∧ s'.stakingEpochData = s.stakingEpochData
        ∧ s'.nextEpochData.ledger = s.nextEpochData.ledger) := by
  rcases (updatePair_eq_some h.epochData).2 with ⟨hlt, hstaking, -, hnext⟩ | ⟨heq, hstaking, -, hnext⟩
  · refine .inl ⟨hlt, hstaking, ?_⟩
    rw [hnext, withSeed_ledger]
    rfl
  · refine .inr ⟨heq, hstaking, ?_⟩
    rw [hnext, withSeed_ledger]
    rfl

theorem BlockChain.updated (h : BlockChain hashes constants genesis (b :: parent :: older)) :
    Updated hashes constants parent.state b.block b.state := by
  cases h with
  | step _ _ hu => exact updated_of_update hu

theorem BlockChain.tail (h : BlockChain hashes constants genesis (b :: parent :: older)) :
    BlockChain hashes constants genesis (parent :: older) := by
  cases h with
  | step hchain _ _ => exact hchain

theorem Synced.frontierRootTransition {snarkedLedger : Ledger}
    (h : Synced hooks localState s) (hu : Updated hashes constants s block s')
    (hsnarked : block.snarkedLedgerHash = hooks.merkleRoot snarkedLedger) : Synced hooks
      (frontierRootTransition hooks s s' localState snarkedLedger block.genesisLedgerHash) s' := by
  unfold Consensus.frontierRootTransition
  rcases hu.ledgers with ⟨hlt, hstaking, hnext⟩ | ⟨heq, hstaking, hnext⟩
  · rw [if_neg (UInt32.ne_of_lt hlt)]
    refine ⟨?_, ?_⟩
    · rw [hstaking]
      exact h.next
    · rw [hnext, hsnarked]
      dsimp only
      split
      · exact h.next
      · rfl
  · rw [if_pos heq.symm]
    refine ⟨?_, ?_⟩
    · rw [hstaking]
      exact h.staking
    · rw [hnext]
      exact h.next

/-! ### From the root to a tip -/

/-- The newest of the blocks after the root, or the root. -/
def tipOf {α : Type} (root : α) (ahead : List α) : α := ahead.head?.getD root

@[simp] theorem tipOf_cons (root b : α) (ahead : List α) : tipOf root (b :: ahead) = b := rfl

theorem exists_tipOf_cons (root : α) (ahead past : List α) :
    ∃ rest, ahead ++ root :: past = tipOf root ahead :: rest := by
  cases ahead with
  | nil => exact ⟨past, rfl⟩
  | cons b ahead => exact ⟨ahead ++ root :: past, rfl⟩

/-- The tip is in the epoch of the root. -/
structure InEpochOf (root : Link) (ahead : List Link) : Prop where
  epoch_eq : ∀ b ∈ ahead, b.epoch = root.epoch
  staking : (tipOf root ahead).state.stakingEpochData = root.state.stakingEpochData
  next : (tipOf root ahead).state.nextEpochData.ledger = root.state.nextEpochData.ledger

/-- The epoch has changed once since the root. -/
structure OneEpochAfter (root : Link) (ahead : List Link) : Prop where
  epoch_lt : root.epoch < (tipOf root ahead).epoch
  staking : (tipOf root ahead).state.stakingEpochData.ledger = root.state.nextEpochData.ledger

theorem InEpochOf.tip_epoch (h : InEpochOf root ahead) : (tipOf root ahead).epoch = root.epoch := by
  cases ahead with
  | nil => rfl
  | cons b ahead => exact h.epoch_eq b List.mem_cons_self

theorem epochChanges_tipOf (b root : Link) (ahead : List Link) : epochChanges (b :: ahead ++ [root])
      = epochChanges (ahead ++ [root]) + if (tipOf root ahead).epoch < b.epoch then 1 else 0 := by
  obtain ⟨rest, hrest⟩ := exists_tipOf_cons root ahead []
  rw [List.cons_append, hrest, epochChanges_cons]

variable (h : BlockChain hashes constants genesis (ahead ++ root :: past))

include h in
theorem BlockChain.sinceRoot (hone : epochChanges (ahead ++ [root]) ≤ 1) :
    (epochChanges (ahead ++ [root]) = 0 ∧ InEpochOf root ahead)
      ∨ (epochChanges (ahead ++ [root]) = 1 ∧ OneEpochAfter root ahead) := by
  induction ahead with
  | nil => exact .inl ⟨rfl, by simp, rfl, rfl⟩
  | cons b ahead ih =>
    obtain ⟨rest, hrest⟩ := exists_tipOf_cons root ahead past
    rw [List.cons_append, hrest] at h
    have hcons := epochChanges_tipOf b root ahead
    rw [hcons] at hone ⊢
    have hcase := ih (hrest ▸ h.tail) (by omega)
    rcases h.updated.ledgers with ⟨hlt, hstaking, -⟩ | ⟨heq, hstaking, hnext⟩
    · change (tipOf root ahead).epoch < b.epoch at hlt
      rw [if_pos hlt] at hone ⊢
      rcases hcase with ⟨hzero, hin⟩ | ⟨hchange, -⟩
      · refine .inr ⟨by rw [hzero], ?_, ?_⟩
        · rw [tipOf_cons, ← hin.tip_epoch]
          exact hlt
        · rw [tipOf_cons, hstaking]
          exact hin.next
      · omega
    · change b.epoch = (tipOf root ahead).epoch at heq
      rw [if_neg (by rw [heq]; exact UInt32.lt_irrefl _)] at hone ⊢
      rcases hcase with ⟨hzero, hin⟩ | ⟨hchange, hafter⟩
      · refine .inl ⟨hzero, ?_, ?_, ?_⟩
        · intro b' hb'
          rcases List.mem_cons.1 hb' with rfl | hb'
          · rw [heq, hin.tip_epoch]
          · exact hin.epoch_eq b' hb'
        · rw [tipOf_cons, hstaking, hin.staking]
        · rw [tipOf_cons, hnext, hin.next]
      · refine .inr ⟨hchange, ?_, ?_⟩
        · rw [tipOf_cons, heq]
          exact hafter.epoch_lt
        · rw [tipOf_cons, hstaking]
          exact hafter.staking

theorem InEpochOf.length_le (h : InEpochOf root ahead) (past : List Link) :
    ahead.length + 1 ≤ (blocksIn root.epoch (ahead ++ root :: past)).length := by
  have hahead : ahead.filter (fun b => b.epoch = root.epoch) = ahead :=
    List.filter_eq_self.2 fun b hb => decide_eq_true (h.epoch_eq b hb)
  unfold blocksIn
  rw [List.filter_append, hahead, List.filter_cons, if_pos (decide_eq_true rfl), List.length_append, List.length_cons]
  omega

theorem OneEpochAfter.length_le (h : OneEpochAfter root ahead) (ho : Ordered constants root past) :
    (blocksIn (tipOf root ahead).epoch (ahead ++ root :: past)).length ≤ ahead.length := by
  have hlt := UInt32.lt_iff_toNat_lt.1 h.epoch_lt
  have hpast : blocksIn (tipOf root ahead).epoch (root :: past) = [] := by
    refine blocksIn_of_lt fun b hb => ?_
    exact UInt32.lt_iff_toNat_lt.2 (lt_of_le_of_lt (ho.epoch_le b hb) hlt)
  unfold blocksIn at hpast ⊢
  rw [List.filter_append, hpast, List.append_nil]
  exact List.length_filter_le _ _

include h

theorem BlockChain.drop : BlockChain hashes constants genesis (root :: past) := by
  induction ahead with
  | nil => exact h
  | cons b ahead ih =>
    obtain ⟨rest, hrest⟩ := exists_tipOf_cons root ahead past
    rw [List.cons_append, hrest] at h
    exact ih (hrest ▸ h.tail)

theorem BlockChain.epochLength (hne : (tipOf root ahead).epoch ≠ 0) :
    (tipOf root ahead).state.nextEpochData.epochLength.toNat
      = (blocksIn (tipOf root ahead).epoch (ahead ++ root :: past)).length := by
  obtain ⟨rest, hrest⟩ := exists_tipOf_cons root ahead past
  rw [hrest] at h ⊢
  have hlength := h.recordsHistory.epochLength_exact (.inl hne)
  unfold recordedLength at hlength
  change (tipOf root ahead).state.currGlobalSlot.epoch ≠ 0 at hne
  rwa [if_neg hne, add_zero] at hlength

omit h

/-! ### The selection of a snapshot -/

theorem selectEpochSnapshot_own (k : UInt32) (s : ConsensusState) (localState : LocalState Ledger Table) :
    selectEpochSnapshot k s localState s.currGlobalSlot.epoch
      = if k < s.nextEpochData.epochLength ∨ s.currGlobalSlot.epoch = 0 then
          (.last, localState.stakingEpochSnapshot)
        else (.curr, localState.nextEpochSnapshot) := by
  have hnext : s.currGlobalSlot.epoch ≠ s.currGlobalSlot.epoch + 1 := by
    intro h
    have := congrArg UInt32.toNat h
    rw [UInt32.toNat_add, UInt32.toNat_one] at this
    omega
  unfold selectEpochSnapshot
  by_cases hfin : k < s.nextEpochData.epochLength <;> by_cases hzero : s.currGlobalSlot.epoch = 0 <;>
    simp [hnext, hfin, hzero]

/-- The tip needs no other snapshots, and the snapshot for its epoch is that of its staking
data. -/
structure InStep (hooks : LedgerHooks Ledger Table) (k : UInt32) (localState : LocalState Ledger Table)
    (tip : ConsensusState) : Prop where
  required : requiredLocalStateSync hooks k tip localState = none
  selected : hooks.merkleRoot
      (selectEpochSnapshot k tip localState tip.currGlobalSlot.epoch).2.ledger
    = tip.stakingEpochData.ledger.hash

section Tip

variable {hooks : LedgerHooks Ledger Table} {k : UInt32} {localState : LocalState Ledger Table}
  {root : Link} {ahead : List Link}

theorem InEpochOf.inStep (h : InEpochOf root ahead) (hsynced : Synced hooks localState root.state)
    (hfin : k < (tipOf root ahead).state.nextEpochData.epochLength ∨ root.epoch = 0) :
    InStep hooks k localState (tipOf root ahead).state := by
  have hfin' : k < (tipOf root ahead).state.nextEpochData.epochLength
      ∨ (tipOf root ahead).state.currGlobalSlot.epoch = 0 := hfin.imp_right fun e => h.tip_epoch.trans e
  have hstaking := hsynced.staking
  have hnext := hsynced.next
  rw [← h.staking] at hstaking
  rw [← h.next] at hnext
  refine ⟨?_, ?_⟩
  · unfold requiredLocalStateSync requiredSnapshotSync getSnapshot
    rw [selectEpochSnapshot_own, if_pos hfin']
    dsimp only
    rw [if_pos hnext.symm, if_pos hstaking.symm]
  · rw [selectEpochSnapshot_own, if_pos hfin']
    exact hstaking

theorem OneEpochAfter.inStep (h : OneEpochAfter root ahead) (hsynced : Synced hooks localState root.state)
    (hfin : ¬ k < (tipOf root ahead).state.nextEpochData.epochLength) :
    InStep hooks k localState (tipOf root ahead).state := by
  have hne : (tipOf root ahead).epoch ≠ 0 := by
    intro hzero
    have hlt := UInt32.lt_iff_toNat_lt.1 h.epoch_lt
    rw [hzero] at hlt
    exact Nat.not_lt_zero _ hlt
  have hfin' : ¬ (k < (tipOf root ahead).state.nextEpochData.epochLength
      ∨ (tipOf root ahead).state.currGlobalSlot.epoch = 0) := not_or.2 ⟨hfin, hne⟩
  have hnext := hsynced.next
  rw [← h.staking] at hnext
  refine ⟨?_, ?_⟩
  · unfold requiredLocalStateSync requiredSnapshotSync getSnapshot
    rw [selectEpochSnapshot_own, if_neg hfin']
    dsimp only
    rw [if_pos hnext.symm]
    rfl
  · rw [selectEpochSnapshot_own, if_neg hfin']
    exact hnext

end Tip

theorem BlockChain.genesis_epoch (h : BlockChain hashes constants genesis [root]) : root.epoch = 0 := by
  cases h with
  | genesis hu =>
    have hzero : (0 : UInt32) / constants.slotsPerEpoch = 0 := UInt32.zero_div
    unfold Link.epoch GlobalSlot.epoch
    rw [(updated_of_update hu).currGlobalSlot]
    exact hzero

include h in
theorem BlockChain.inStep {k : UInt32} (hsynced : Synced hooks localState root.state)
    (hdist : ahead.length = k.toNat ∨ past = [] ∧ ahead.length < k.toNat)
    (hone : epochChanges (ahead ++ [root]) ≤ 1) : InStep hooks k localState (tipOf root ahead).state := by
  rcases h.sinceRoot hone with ⟨-, hin⟩ | ⟨-, hafter⟩
  · refine hin.inStep hsynced ?_
    by_cases hzero : root.epoch = 0
    · exact .inr hzero
    · refine .inl (UInt32.lt_iff_toNat_lt.2 ?_)
      have hlen := hin.length_le past
      rw [h.epochLength (hin.tip_epoch ▸ hzero), hin.tip_epoch]
      rcases hdist with hk | ⟨rfl, -⟩
      · omega
      · exact absurd h.drop.genesis_epoch hzero
  · refine hafter.inStep hsynced ?_
    have hlen := hafter.length_le h.drop.ordered
    have hne : (tipOf root ahead).epoch ≠ 0 := by
      intro hzero
      have hlt := UInt32.lt_iff_toNat_lt.1 hafter.epoch_lt
      rw [hzero] at hlt
      exact Nat.not_lt_zero _ hlt
    rw [UInt32.lt_iff_toNat_lt, h.epochLength hne]
    omega

theorem FrontierChain.moveRoots_synced {start : FrontierBlock Ledger} {moved past : List (FrontierBlock Ledger)}
    (h : FrontierChain hooks hashes constants genesis (moved ++ start :: past))
    (hsynced : Synced hooks localState start.state) : (moveRoots hooks localState start moved).1 = tipOf start moved
      ∧ Synced hooks (moveRoots hooks localState start moved).2 (tipOf start moved).state := by
  induction moved with
  | nil => exact ⟨rfl, hsynced⟩
  | cons next earlier ih =>
    obtain ⟨hchain, hsnarked⟩ := h
    obtain ⟨rest, hrest⟩ := exists_tipOf_cons start earlier past
    rw [List.cons_append, hrest, List.map_cons, List.map_cons] at hchain
    rw [List.cons_append, hrest, List.isChain_cons_cons] at hsnarked
    obtain ⟨⟨hhash, hgenesis⟩, hsnarked⟩ := hsnarked
    obtain ⟨hroot, hih⟩ := ih ⟨by rw [hrest]; exact hchain.tail, by rw [hrest]; exact hsnarked⟩
    refine ⟨rfl, ?_⟩
    have hstep := hih.frontierRootTransition hchain.updated hhash
    rw [hgenesis] at hstep
    unfold moveRoots
    dsimp only
    rw [hroot]
    exact hstep

theorem FrontierChain.drop {root : FrontierBlock Ledger} {ahead past : List (FrontierBlock Ledger)}
    (h : FrontierChain hooks hashes constants genesis (ahead ++ root :: past)) :
    FrontierChain hooks hashes constants genesis (root :: past) := by
  refine ⟨?_, h.snarked.right_of_append⟩
  have hchain := h.blockChain
  rw [List.map_append, List.map_cons] at hchain
  exact hchain.drop

theorem map_tipOf {β : Type} (f : α → β) (root : α) (ahead : List α) :
    f (tipOf root ahead) = tipOf (f root) (ahead.map f) := by
  cases ahead <;> rfl

/-- **The epoch ledgers follow the best tip.** When the root moves along a chain, the
snapshots keep the hashes of its epoch data, and they are those that a tip `k` blocks
after the root needs. -/
theorem epoch_ledgers_follow_best_tip (hooks : LedgerHooks Ledger Table) (hashes : Hashes)
    (constants : Constants) (genesis : Genesis) (k : UInt32)
    (localState localState' : LocalState Ledger Table) (start root : FrontierBlock Ledger)
    (ahead moved past : List (FrontierBlock Ledger))
    (hchain : FrontierChain hooks hashes constants genesis (ahead ++ (moved ++ start :: past)))
    (hsynced : Synced hooks localState start.state)
    (hmoved : moveRoots hooks localState start moved = (root, localState')) : root = tipOf start moved
      ∧ Synced hooks localState' root.state
      ∧ (ahead.length = k.toNat ∨ (moved = [] ∧ past = []) ∧ ahead.length < k.toNat →
        epochChanges ((ahead ++ [root]).map FrontierBlock.toLink) ≤ 1 →
        requiredLocalStateSync hooks k (tipOf root ahead).state localState' = none
          ∧ hooks.merkleRoot (selectEpochSnapshot k (tipOf root ahead).state localState'
              (tipOf root ahead).state.currGlobalSlot.epoch).2.ledger
            = (tipOf root ahead).state.stakingEpochData.ledger.hash) := by
  obtain ⟨rest, hrest⟩ := exists_tipOf_cons start moved past
  have hpath : FrontierChain hooks hashes constants genesis (moved ++ start :: past) := by
    rw [hrest] at hchain ⊢
    exact hchain.drop
  obtain ⟨hroot, hsynced'⟩ := hpath.moveRoots_synced hsynced
  rw [hmoved] at hroot hsynced'
  dsimp only at hroot hsynced'
  rw [← hroot] at hsynced' hrest
  refine ⟨hroot, hsynced', fun hdist hone => ?_⟩
  have hblocks := hchain.blockChain
  rw [hrest, List.map_append, List.map_cons] at hblocks
  rw [List.map_append, List.map_cons, List.map_nil] at hone
  have hdist' : (ahead.map FrontierBlock.toLink).length = k.toNat
      ∨ rest.map FrontierBlock.toLink = [] ∧ (ahead.map FrontierBlock.toLink).length < k.toNat := by
    rw [List.length_map]
    refine hdist.imp_right fun ⟨⟨hm, hp⟩, hlt⟩ => ⟨?_, hlt⟩
    subst hm hp
    obtain ⟨-, rfl⟩ := List.cons.inj hrest
    rfl
  have h := hblocks.inStep hsynced' hdist' hone
  rw [← map_tipOf] at h
  exact ⟨h.required, h.selected⟩

/-- Ledgers that are their own hashes. -/
def smallHooks : LedgerHooks Nat Unit := ⟨fun ledger => ledger, fun _ => ()⟩

/-- The snapshots of the genesis ledger. -/
def smallLocalState : LocalState Nat Unit := ⟨⟨0, ()⟩, ⟨0, ()⟩, none⟩

/-- A block of a frontier whose snarked ledger is still the genesis ledger. -/
def smallFrontierBlock (block : Block) (s : ConsensusState) : FrontierBlock Nat := ⟨⟨block, s⟩, 0, 0⟩

/-- The root is the last block of epoch 0, and the tip after it is in epoch 2. -/
theorem epoch_ledgers_follow_best_tip_later_epoch : requiredLocalStateSync smallHooks 1
      (afterBlock smallConstants (afterBlock smallConstants smallGenesisState 2) 7)
      (moveRoots smallHooks smallLocalState (smallFrontierBlock (genesisBlock smallGenesis 1 1) smallGenesisState)
        [smallFrontierBlock (blockAt 2 1) (afterBlock smallConstants smallGenesisState 2)]).2 = none := by
  have hchain : FrontierChain smallHooks smallHashes smallConstants smallGenesis
      ([smallFrontierBlock (blockAt 7 1) (afterBlock smallConstants (afterBlock smallConstants smallGenesisState 2) 7)]
        ++ ([smallFrontierBlock (blockAt 2 1) (afterBlock smallConstants smallGenesisState 2)]
          ++ smallFrontierBlock (genesisBlock smallGenesis 1 1) smallGenesisState :: [])) :=
    ⟨smallChain, .cons_cons ⟨rfl, rfl⟩ (.cons_cons ⟨rfl, rfl⟩ (.singleton _))⟩
  have hsynced : Synced smallHooks smallLocalState smallGenesisState :=
    ⟨by decide, by decide⟩
  have h := epoch_ledgers_follow_best_tip smallHooks smallHashes smallConstants smallGenesis 1
    smallLocalState _ _ _ _ _ _ hchain hsynced rfl
  exact (h.2.2 (.inl rfl) (by decide)).1

end MinaProtocol.Consensus
