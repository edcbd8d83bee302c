import MinaProtocol.TransitionHandler.Subtrees

/-!
# TransitionHandler.Runs

Whole runs of the catchup scheduler: blocks are watched, parents are announced and timeouts go off, in any order. A
timeout that is cancelled does not go off, and the pipe of catchup jobs is open. The blocks that have been watched
and not handed out since are those that wait (`Holds`), and a hash that is waited for and does not wait itself has a
timeout. So nothing gets lost, and nothing is built twice (`scheduler_keeps_blocks`).
-/

namespace MinaProtocol.TransitionHandler

open Std ParentTree

variable {Transition Hash Callback : Type} [LinearOrder Hash] {B : Header Transition Hash}
  {previous : Hash → Hash} {height : Hash → Nat}

/-- The hash of a block that waits. -/
def Collected (B : Header Transition Hash) (t : Scheduler Transition Hash Callback) (x : Hash) : Prop :=
  ∃ h, x ∈ childrenOf B t.collectedTransitions h

/-- A block that waits for a hash, or for a block that does. -/
def Descendant (B : Header Transition Hash) (t : Scheduler Transition Hash Callback) : Hash → Hash → Prop :=
  Relation.TransGen fun h x => x ∈ childrenOf B t.collectedTransitions h

/-- The blocks of a job, each with the hash of what stands above it. -/
def jobBlocks (B : Header Transition Hash) (h : Hash) (forest : List (RoseTree (Transition × Option Callback))) :
    List (Hash × Transition × Option Callback) :=
  RoseTree.placedAll (fun v => B.stateHash v.1) h forest

/-- The hashes of the blocks that are handed out. -/
def handedOut (B : Header Transition Hash) : Option (Hash × List (RoseTree (Transition × Option Callback))) → Set Hash
  | none => ∅
  | some (h, forest) => {x | x ∈ hashes B (jobBlocks B h forest)}

/-- The schedulers that a run leads to, with the hashes of the blocks that have been watched, and not handed out
since. -/
inductive Run (B : Header Transition Hash) : Scheduler Transition Hash Callback → Set Hash → Prop where
  | create : Run B create ∅
  | watch {t : Scheduler Transition Hash Callback} {W : Set Hash} (now timeoutDuration : UInt64)
      (cachedTransition : Transition) (validCb : Option Callback) : Run B t W →
      Run B (t.watch B now timeoutDuration cachedTransition validCb) (insert (B.stateHash cachedTransition) W)
  | callbackResolved {t : Scheduler Transition Hash Callback} {W : Set Hash} (hash : Hash) : Run B t W →
      Run B { t with validationCallbacks := t.validationCallbacks.erase hash } W
  | timedOut {t t' : Scheduler Transition Hash Callback} {W : Set Hash} {h : Hash}
      {job : Option (Hash × List (RoseTree (Transition × Option Callback)))} : Run B t W → h ∈ t.parentRootTimeouts →
      t.timedOut B false h = some (job, t') → Run B t' (W \ handedOut B job)
  | notify {t t' : Scheduler Transition Hash Callback} {W : Set Hash} {now : UInt64} {h : Hash}
      {job : Option (Hash × List (RoseTree (Transition × Option Callback)))} : Run B t W →
      t.notify B now h = .ok (job, t') → Run B t' (W \ handedOut B job)

/-- **The invariant**: the watched blocks wait under their parents, each is a key, and the other keys have timeouts. -/
structure Holds (B : Header Transition Hash) (t : Scheduler Transition Hash Callback) (W : Set Hash) : Prop where
  forest : IsForest B t.collectedTransitions
  key : ∀ x, Collected B t x → x ∈ t.collectedTransitions
  timeouts : ∀ k, k ∈ t.parentRootTimeouts ↔ k ∈ t.collectedTransitions ∧ ¬ Collected B t k
  watched : ∀ x, x ∈ W ↔ Collected B t x

/-- The trees have the blocks below a hash, each once and under its parent. Afterwards these are gone, and the hash
is not waited for; all else is as before. -/
structure HandsOut (B : Header Transition Hash) (t : Scheduler Transition Hash Callback) (h : Hash)
    (forest : List (RoseTree (Transition × Option Callback))) (t' : Scheduler Transition Hash Callback) : Prop where
  mem_hashes : ∀ x, x ∈ hashes B (jobBlocks B h forest) ↔ Descendant B t h x
  nodup : (hashes B (jobBlocks B h forest)).Nodup
  under_parent : ∀ p ∈ jobBlocks B h forest, p.1 = B.previousStateHash p.2.1 ∧ p.2.1 ∈ t.successors p.1 ∧
    p.2.2 = t.validationCallbacks[B.stateHash p.2.1]?
  gone : ∀ x, x = h ∨ Descendant B t h x →
    ¬ Collected B t' x ∧ x ∉ t'.collectedTransitions ∧ x ∉ t'.parentRootTimeouts
  others : ∀ x, x ≠ h → ¬ Descendant B t h x →
    t'.collectedTransitions[x]? = t.collectedTransitions[x]? ∧ t'.parentRootTimeouts[x]? = t.parentRootTimeouts[x]?

/-! ### Watching a block -/

section Map

variable {V : Type} {m : ExtTreeMap Hash V} {a k : Hash} {v : V}

theorem mem_insertIfNew_iff : k ∈ m.insertIfNew a v ↔ k = a ∨ k ∈ m := by
  rw [ExtTreeMap.mem_insertIfNew, Std.compare_eq_iff_eq, eq_comm]

theorem mem_insert_iff : k ∈ m.insert a v ↔ k = a ∨ k ∈ m := by
  rw [ExtTreeMap.mem_insert, Std.compare_eq_iff_eq, eq_comm]

theorem mem_erase_iff : k ∈ m.erase a ↔ k ∈ m ∧ k ≠ a := by
  rw [ExtTreeMap.mem_erase, ne_eq, Std.compare_eq_iff_eq, eq_comm, and_comm]

end Map

variable {t : Scheduler Transition Hash Callback} {W : Set Hash} {x : Hash}

section Watch

variable {b : Transition} {k : Hash} {t' : Scheduler Transition Hash Callback}
  {collected : ExtTreeMap Hash (List Transition)} {hash : Hash}

theorem addCallback_eq (t : Scheduler Transition Hash Callback) (hash : Hash) (validCb : Option Callback) :
    (t.addCallback hash validCb).collectedTransitions = t.collectedTransitions ∧
      (t.addCallback hash validCb).parentRootTimeouts = t.parentRootTimeouts := by
  cases validCb <;> exact ⟨rfl, rfl⟩

/-- The block now waits under its parent, and is a key. -/
structure Inserts (B : Header Transition Hash) (b : Transition) (t t' : Scheduler Transition Hash Callback) : Prop where
  waiting_eq : ∀ k, waiting t'.collectedTransitions k =
    if k = B.previousStateHash b then b :: waiting t.collectedTransitions k else waiting t.collectedTransitions k
  mem_collected : ∀ k, k ∈ t'.collectedTransitions ↔
    k = B.stateHash b ∨ k = B.previousStateHash b ∨ k ∈ t.collectedTransitions
  mem_timeouts : ∀ k, k ∈ t'.parentRootTimeouts ↔ (k ∈ t.parentRootTimeouts ∧ k ≠ B.stateHash b) ∨
    (k = B.previousStateHash b ∧ B.previousStateHash b ∉ t.collectedTransitions)

theorem waiting_insertIfNew : waiting (collected.insertIfNew hash []) k = waiting collected k := by
  unfold waiting
  rw [ExtTreeMap.getElem?_insertIfNew]
  split
  · rename_i h
    have hk : hash = k := Std.compare_eq_iff_eq.1 h.1
    rw [← hk, ExtTreeMap.getElem?_eq_none h.2]
    rfl
  · rfl

theorem waiting_insert {l : List Transition} :
    waiting (collected.insert hash l) k = if k = hash then l else waiting collected k := by
  unfold waiting
  rw [ExtTreeMap.getElem?_insert]
  by_cases hk : k = hash
  · simp [hk]
  · rw [if_neg (by simpa using Ne.symm hk), if_neg hk]

/-- **`watch`** inserts the block, unless it waits already. -/
theorem watch_cases (t : Scheduler Transition Hash Callback) (now timeoutDuration : UInt64) (b : Transition)
    (validCb : Option Callback) : (B.stateHash b ∈ childrenOf B t.collectedTransitions (B.previousStateHash b) ∧
      (t.watch B now timeoutDuration b validCb).collectedTransitions = t.collectedTransitions ∧
      (t.watch B now timeoutDuration b validCb).parentRootTimeouts = t.parentRootTimeouts) ∨
    (B.stateHash b ∉ childrenOf B t.collectedTransitions (B.previousStateHash b) ∧
      Inserts B b t (t.watch B now timeoutDuration b validCb)) := by
  obtain ⟨hcollected, htimeouts⟩ := addCallback_eq t (B.stateHash b) validCb
  unfold Scheduler.watch
  dsimp only
  rw [hcollected]
  cases hfind : t.collectedTransitions[B.previousStateHash b]? with
  | none =>
    have hwaiting : waiting t.collectedTransitions (B.previousStateHash b) = [] := by
      unfold waiting
      rw [hfind]
      rfl
    have hnot : B.previousStateHash b ∉ t.collectedTransitions := by
      rw [ExtTreeMap.mem_iff_isSome_getElem?, hfind]
      simp
    refine .inr ⟨by simp [childrenOf, hwaiting], fun k => ?_, fun k => ?_, fun k => ?_⟩
    all_goals simp only [Scheduler.cancelTimeout, hcollected, htimeouts]
    · rw [waiting_insertIfNew, waiting_insert]
      split
      · rename_i hk
        rw [hk, hwaiting]
      · rfl
    · rw [mem_insertIfNew_iff, mem_insert_iff]
    · rw [mem_insertIfNew_iff, mem_erase_iff, or_comm]
      simp [hnot]
  | some siblings =>
    have hwaiting : waiting t.collectedTransitions (B.previousStateHash b) = siblings := by
      unfold waiting
      rw [hfind]
      rfl
    have hmem : B.previousStateHash b ∈ t.collectedTransitions := by
      rw [ExtTreeMap.mem_iff_isSome_getElem?, hfind]
      rfl
    have hany : (siblings.any fun sibling => decide (B.stateHash b = B.stateHash sibling)) = true ↔
        B.stateHash b ∈ childrenOf B t.collectedTransitions (B.previousStateHash b) := by
      rw [mem_childrenOf, hwaiting, List.any_eq_true]
      exact exists_congr fun c => and_congr_right fun _ => decide_eq_true_iff.trans eq_comm
    dsimp only
    by_cases hsibling : (siblings.any fun sibling => decide (B.stateHash b = B.stateHash sibling)) = true
    · rw [if_pos hsibling]
      exact .inl ⟨hany.1 hsibling, hcollected, htimeouts⟩
    · rw [if_neg hsibling]
      refine .inr ⟨fun h => hsibling (hany.2 h), fun k => ?_, fun k => ?_, fun k => ?_⟩
      all_goals simp only [Scheduler.cancelTimeout, hcollected, htimeouts]
      · rw [waiting_insertIfNew, waiting_insert]
        split
        · rename_i hk
          rw [hk, hwaiting]
        · rfl
      · rw [mem_insertIfNew_iff, mem_insert_iff]
      · rw [mem_erase_iff]
        simp [hmem]

theorem Inserts.collected_iff (hi : Inserts B b t t') : Collected B t' x ↔ x = B.stateHash b ∨ Collected B t x := by
  unfold Collected childrenOf
  simp only [hi.waiting_eq]
  constructor
  · intro h
    obtain ⟨h, hx⟩ := h
    split at hx
    · rcases List.mem_cons.1 hx with hx | hx
      · exact .inl hx
      · exact .inr ⟨h, hx⟩
    · exact .inr ⟨h, hx⟩
  · intro h
    rcases h with rfl | ⟨h, hx⟩
    · exact ⟨B.previousStateHash b, by simp⟩
    · refine ⟨h, ?_⟩
      split
      · exact List.mem_cons_of_mem _ hx
      · exact hx

theorem Holds.inserts (hB : Committed B previous height) (h : Holds B t W)
    (hnew : B.stateHash b ∉ childrenOf B t.collectedTransitions (B.previousStateHash b)) (hi : Inserts B b t t') :
    Holds B t' (insert (B.stateHash b) W) where
  forest := by
    refine ⟨fun k c hc => ?_, fun k => ?_⟩
    · rw [hi.waiting_eq] at hc
      split at hc
      · rename_i hk
        rcases List.mem_cons.1 hc with rfl | hc
        · exact hk.symm
        · exact h.forest.parent_eq k c hc
      · exact h.forest.parent_eq k c hc
    · unfold childrenOf
      rw [hi.waiting_eq]
      split
      · rename_i hk
        rw [List.map_cons, List.nodup_cons, hk]
        exact ⟨hnew, h.forest.nodup _⟩
      · exact h.forest.nodup k
  key := by
    intro x hx
    rw [hi.mem_collected]
    rcases hi.collected_iff.1 hx with hx | hx
    · exact .inl hx
    · exact .inr (.inr (h.key x hx))
  timeouts := by
    intro k
    have hne : B.previousStateHash b ≠ B.stateHash b := by
      intro heq
      have := hB.height_eq b
      rw [heq] at this
      omega
    rw [hi.mem_timeouts, hi.mem_collected, hi.collected_iff, h.timeouts, not_or]
    constructor
    · intro hk
      rcases hk with ⟨⟨hk, hnot⟩, hkb⟩ | ⟨rfl, hk⟩
      · exact ⟨.inr (.inr hk), hkb, hnot⟩
      · exact ⟨.inr (.inl rfl), hne, fun hc => hk (h.key _ hc)⟩
    · intro hk
      obtain ⟨hk, hkb, hnot⟩ := hk
      by_cases hmem : k ∈ t.collectedTransitions
      · exact .inl ⟨⟨hmem, hnot⟩, hkb⟩
      · obtain rfl := (hk.resolve_left hkb).resolve_right hmem
        exact .inr ⟨rfl, hmem⟩
  watched := by
    intro x
    rw [Set.mem_insert_iff, h.watched, hi.collected_iff]

/-- The invariant is about what waits and for what. -/
theorem Holds.congr (h : Holds B t W)
    (hcollected : t'.collectedTransitions = t.collectedTransitions) (htimeouts : t'.parentRootTimeouts = t.parentRootTimeouts) :
    Holds B t' W := by
  have hiff : ∀ x, Collected B t' x ↔ Collected B t x := by
    intro x
    unfold Collected
    rw [hcollected]
  refine ⟨hcollected ▸ h.forest, fun x hx => ?_, fun k => ?_, fun x => (h.watched x).trans (hiff x).symm⟩
  · rw [hcollected]
    exact h.key x ((hiff x).1 hx)
  · rw [htimeouts, hcollected, hiff]
    exact h.timeouts k

end Watch

/-! ### Handing out blocks -/

section HandOut

variable {h : Hash} {forest : List (RoseTree (Transition × Option Callback))}

variable (hB : Committed B previous height)

include hB

variable (hf : IsForest B t.collectedTransitions)

include hf

theorem descendant_iff : Descendant B t h x ↔
      ∃ b ∈ waiting t.collectedTransitions h, Below (parentOf B previous t.collectedTransitions) (B.stateHash b) x := by
  have hbelow : ∀ a, Relation.ReflTransGen (fun h x => x ∈ childrenOf B t.collectedTransitions h) a x ↔
      Below (parentOf B previous t.collectedTransitions) a x := by
    intro a
    constructor
    · intro hr
      induction hr with
      | refl => exact .refl
      | tail _ hx ih => exact .step ((parentOf_eq_some hB hf).2 hx) ih
    · intro hr
      induction hr with
      | refl => exact .refl
      | step hp _ ih => exact ih.tail ((parentOf_eq_some hB hf).1 hp)
  unfold Descendant
  rw [Relation.TransGen.head'_iff]
  constructor
  · intro hc
    obtain ⟨c, hc, hcx⟩ := hc
    obtain ⟨b, hb, rfl⟩ := mem_childrenOf.1 hc
    exact ⟨b, hb, (hbelow _).1 hcx⟩
  · intro hc
    obtain ⟨b, hb, hbx⟩ := hc
    exact ⟨B.stateHash b, mem_childrenOf.2 ⟨b, hb, rfl⟩, (hbelow _).2 hbx⟩

theorem below_iff_descendant :
    Below (parentOf B previous t.collectedTransitions) h x ↔ x = h ∨ Descendant B t h x := by
  rw [below_iff hB hf, descendant_iff hB hf]

omit hf

omit hB

/-- What is below a hash without being it waits. -/
theorem collected_of_descendant (hd : Descendant B t h x) : Collected B t x := by
  obtain ⟨p, -, hx⟩ := Relation.TransGen.tail'_iff.1 hd
  exact ⟨p, hx⟩

include hB

include hf in
theorem collected_removes {t' : Scheduler Transition Hash Callback}
    (hh : ¬ Collected B t h)
    (hr : Removes (Below (parentOf B previous t.collectedTransitions) h) t.collectedTransitions t'.collectedTransitions) :
    Collected B t' x ↔ Collected B t x ∧ ¬ Below (parentOf B previous t.collectedTransitions) h x := by
  have hchildren : ∀ k, x ∈ childrenOf B t'.collectedTransitions k ↔
      x ∈ childrenOf B t.collectedTransitions k ∧ ¬ Below (parentOf B previous t.collectedTransitions) h k := by
    intro k
    unfold childrenOf waiting
    by_cases hk : Below (parentOf B previous t.collectedTransitions) h k
    · simp [(hr k).1 hk, hk]
    · simp [(hr k).2 hk, hk]
  have hparent : ∀ k, x ∈ childrenOf B t.collectedTransitions k →
      (Below (parentOf B previous t.collectedTransitions) h x ↔ Below (parentOf B previous t.collectedTransitions) h k) := by
    intro k hx
    have hp := (parentOf_eq_some hB hf).2 hx
    constructor
    · intro hbelow
      obtain rfl | ⟨p, hp', hbelow⟩ := Below.iff_parent.1 hbelow
      · exact absurd ⟨k, hx⟩ hh
      · rwa [← Option.some.inj (hp'.symm.trans hp)]
    · exact .step hp
  constructor
  · intro hc
    obtain ⟨k, hk⟩ := hc
    obtain ⟨hx, hnot⟩ := (hchildren k).1 hk
    exact ⟨⟨k, hx⟩, fun hbelow => hnot ((hparent k hx).1 hbelow)⟩
  · intro hc
    obtain ⟨⟨k, hx⟩, hnot⟩ := hc
    exact ⟨k, (hchildren k).2 ⟨hx, fun hbelow => hnot ((hparent k hx).2 hbelow)⟩⟩

/-- **The blocks below a hash are handed out**, and the invariant holds for the others. -/
theorem Holds.handsOut (hinv : Holds B t W) (hh : ¬ Collected B t h) (t' : Scheduler Transition Hash Callback)
    (hextracts : Extracts B previous t (waiting t.collectedTransitions h) (jobBlocks B h forest))
    (hr : Removes (Below (parentOf B previous t.collectedTransitions) h) t.collectedTransitions t'.collectedTransitions)
    (htimeouts : t'.parentRootTimeouts = t.parentRootTimeouts.erase h) :
    HandsOut B t h forest t' ∧ Holds B t' (W \ {x | x ∈ hashes B (jobBlocks B h forest)}) := by
  have hf := hinv.forest
  have hmem : ∀ x, x ∈ hashes B (jobBlocks B h forest) ↔ Descendant B t h x := by
    intro x
    rw [hextracts.mem_hashes, descendant_iff hB hf]
  have hcollected : ∀ x, Collected B t' x ↔ Collected B t x ∧ ¬ Descendant B t h x := by
    intro x
    rw [collected_removes hB hf hh hr, below_iff_descendant hB hf, not_or]
    exact and_congr_right fun hx => ⟨fun hnot => hnot.2, fun hnot => ⟨fun hxh => hh (hxh ▸ hx), hnot⟩⟩
  have hkeys : ∀ k, k ∈ t'.collectedTransitions ↔ k ∈ t.collectedTransitions ∧ k ≠ h ∧ ¬ Descendant B t h k := by
    intro k
    rw [ExtTreeMap.mem_iff_isSome_getElem?, ExtTreeMap.mem_iff_isSome_getElem?, ← not_or, ← below_iff_descendant hB hf]
    by_cases hk : Below (parentOf B previous t.collectedTransitions) h k
    · simp [(hr k).1 hk, hk]
    · simp [(hr k).2 hk, hk]
  have htimeout : ∀ k, k ∈ t'.parentRootTimeouts ↔ k ≠ h ∧ k ∈ t.parentRootTimeouts := by
    intro k
    rw [htimeouts, mem_erase_iff, and_comm]
  refine ⟨⟨hmem, hextracts.nodup, fun p hp => ?_, fun x hx => ?_, fun x hne hx => ⟨?_, ?_⟩⟩, ⟨?_, ?_⟩, fun x hx => ?_,
    fun k => ?_, fun x => ?_⟩
  · obtain ⟨hp, hcallback⟩ := hextracts.placed p hp
    exact ⟨(hf.parent_eq _ _ hp).symm, hp, hcallback⟩
  · refine ⟨fun hc => ?_, fun hk => ?_, fun hk => ?_⟩
    · obtain ⟨hc, hnot⟩ := (hcollected x).1 hc
      rcases hx with rfl | hx
      · exact hh hc
      · exact hnot hx
    · obtain ⟨-, hne, hnot⟩ := (hkeys x).1 hk
      exact hx.elim hne hnot
    · obtain ⟨hne, hk⟩ := (htimeout x).1 hk
      exact ((hinv.timeouts x).1 hk).2 (collected_of_descendant (hx.resolve_left hne))
  · exact (hr x).2 fun hbelow => ((below_iff_descendant hB hf).1 hbelow).elim hne hx
  · rw [htimeouts, ExtTreeMap.getElem?_erase, if_neg (by simpa using Ne.symm hne)]
  · intro k b hb
    have hb' := mem_of_waiting hb
    obtain ⟨-, hne, hnot⟩ := (hkeys k).1 hb'
    have hsame := (hr k).2 fun hbelow => ((below_iff_descendant hB hf).1 hbelow).elim hne hnot
    unfold waiting at hb
    rw [hsame] at hb
    exact hf.parent_eq k b hb
  · intro k
    unfold childrenOf waiting
    by_cases hk : Below (parentOf B previous t.collectedTransitions) h k
    · simp [(hr k).1 hk]
    · rw [(hr k).2 hk]
      exact hf.nodup k
  · obtain ⟨hx, hnot⟩ := (hcollected x).1 hx
    exact (hkeys x).2 ⟨hinv.key x hx, fun hxh => hh (hxh ▸ hx), hnot⟩
  · rw [htimeout, hkeys, hcollected, hinv.timeouts]
    constructor
    · intro hk
      exact ⟨⟨hk.2.1, hk.1, fun hd => hk.2.2 (collected_of_descendant hd)⟩, fun hc => hk.2.2 hc.1⟩
    · intro hk
      exact ⟨hk.1.2.1, hk.1.1, fun hc => hk.2 ⟨hc, hk.1.2.2⟩⟩
  · rw [Set.mem_sdiff, hinv.watched, hcollected, Set.mem_ofPred_eq, hmem]

omit hB

theorem Holds.not_collected (hinv : Holds B t W) (hh : h ∈ t.parentRootTimeouts) : ¬ Collected B t h :=
  ((hinv.timeouts h).1 hh).2

/-- **A timeout** hands out the blocks below its hash. -/
theorem Holds.timedOut (hB : Committed B previous height) (hinv : Holds B t W) (hh : h ∈ t.parentRootTimeouts)
    (isClosed : Bool) : ∃ forest t', t.timedOut B isClosed h = some (if isClosed then none else some (h, forest), t') ∧
      HandsOut B t h forest t' ∧ Holds B t' (W \ {x | x ∈ hashes B (jobBlocks B h forest)}) := by
  obtain ⟨forest, hforest, hextracts⟩ := extractForest_spec hB hinv.forest h
  obtain ⟨collected', hremove, hr⟩ := removeTree_spec hB hinv.forest h
  refine ⟨forest, { t with
    collectedTransitions := collected', parentRootTimeouts := t.parentRootTimeouts.erase h }, ?_,
    hinv.handsOut hB (hinv.not_collected hh) _ hextracts hr rfl⟩
  unfold Scheduler.timedOut Scheduler.depth
  simp [hforest, hremove]

/-- The trees of a job, if there is one. -/
def jobForest (job : Option (Hash × List (RoseTree (Transition × Option Callback)))) :
    List (RoseTree (Transition × Option Callback)) := job.elim [] Prod.snd

/-- **A notification** for a hash that does not wait hands out the blocks below it. -/
theorem Holds.notify (hB : Committed B previous height) (hinv : Holds B t W) (now : UInt64) (hh : ¬ Collected B t h) :
    ∃ job t', t.notify B now h = .ok (job, t') ∧ (∀ p, job = some p → p.1 = h) ∧
      HandsOut B t h (jobForest job) t' ∧ Holds B t' (W \ handedOut B job) := by
  obtain ⟨forest, hforest, hextracts⟩ := extractForest_spec hB (t := (t.cancelTimeout now h).2) hinv.forest h
  obtain ⟨collected', hremove, hr⟩ := removeTree_spec hB hinv.forest h
  have hroot : ¬ (h ∉ t.parentRootTimeouts ∧ h ∈ t.collectedTransitions) :=
    fun hno => hno.1 ((hinv.timeouts h).2 ⟨hno.2, hh⟩)
  have hforest' : (t.cancelTimeout now h).2.extractForest B h = some (h, forest) := hforest
  have hremove' : removeTree B (t.cancelTimeout now h).2.depth (t.cancelTimeout now h).2.collectedTransitions h =
      some collected' := hremove
  unfold Scheduler.notify
  rw [if_neg hroot]
  dsimp only
  cases hfind : t.collectedTransitions[h]? with
  | none =>
    have hdispatched : (t.cancelTimeout now h).2.dispatched B h = some none := by
      unfold Scheduler.dispatched
      rw [show (t.cancelTimeout now h).2.collectedTransitions[h]? = none from hfind]
    have hnil : waiting t.collectedTransitions h = [] := by
      unfold waiting
      rw [hfind]
      rfl
    have hextracts' : Extracts B previous t (waiting t.collectedTransitions h) (jobBlocks B h ([] : List (RoseTree (Transition × Option Callback)))) := by
      rw [hnil]
      exact ⟨fun x => by simp [jobBlocks, RoseTree.placedAll, hashes], by simp [jobBlocks, RoseTree.placedAll, hashes],
        by simp [jobBlocks, RoseTree.placedAll]⟩
    have hout := hinv.handsOut hB hh ⟨collected', t.validationCallbacks, t.parentRootTimeouts.erase h⟩ hextracts' hr rfl
    refine ⟨none, ⟨collected', t.validationCallbacks, t.parentRootTimeouts.erase h⟩, ?_, by simp, hout.1, ?_⟩
    · rw [hdispatched, hremove']
      rfl
    · have hempty : handedOut B (none : Option (Hash × List (RoseTree (Transition × Option Callback)))) =
          {x | x ∈ hashes B (jobBlocks B h ([] : List (RoseTree (Transition × Option Callback))))} := by
        ext x
        simp [handedOut, jobBlocks, RoseTree.placedAll, hashes]
      rw [hempty]
      exact hout.2
  | some l =>
    have hdispatched : (t.cancelTimeout now h).2.dispatched B h = some (some (h, forest)) := by
      unfold Scheduler.dispatched
      rw [show (t.cancelTimeout now h).2.collectedTransitions[h]? = some l from hfind, hforest']
      rfl
    have hextracts' : Extracts B previous t (waiting t.collectedTransitions h) (jobBlocks B h forest) :=
      ⟨hextracts.mem_hashes, hextracts.nodup, hextracts.placed⟩
    have hout := hinv.handsOut hB hh ⟨collected', t.validationCallbacks, t.parentRootTimeouts.erase h⟩ hextracts' hr rfl
    refine ⟨some (h, forest), ⟨collected', t.validationCallbacks, t.parentRootTimeouts.erase h⟩, ?_, ?_, hout.1, hout.2⟩
    · rw [hdispatched, hremove']
      rfl
    · intro p hp
      rw [← Option.some.inj hp]

theorem Holds.notify_error (hinv : Holds B t W) (now : UInt64) (hh : Collected B t h) :
    t.notify B now h = .error .nonParentRootTransition := by
  unfold Scheduler.notify
  rw [if_pos ⟨fun hmem => hinv.not_collected hmem hh, hinv.key h hh⟩]

end HandOut

/-! ### Runs -/

theorem Run.holds (hB : Committed B previous height) {t : Scheduler Transition Hash Callback} {W : Set Hash}
    (hr : Run B t W) : Holds B t W := by
  induction hr with
  | create =>
    have hnone : ∀ x, ¬ Collected B (TransitionHandler.create : Scheduler Transition Hash Callback) x := by
      intro x hx
      obtain ⟨h, hx⟩ := hx
      simp [childrenOf, waiting, TransitionHandler.create] at hx
    refine ⟨⟨?_, ?_⟩, fun x hx => absurd hx (hnone x), ?_, ?_⟩
    · simp [waiting, TransitionHandler.create]
    · simp [childrenOf, waiting, TransitionHandler.create]
    · simp [TransitionHandler.create]
    · intro x
      simp [hnone x]
  | @watch t W now timeoutDuration b validCb _ ih =>
    rcases watch_cases t now timeoutDuration b validCb with ⟨hmem, hcollected, htimeouts⟩ | ⟨hnew, hi⟩
    · rw [Set.insert_eq_of_mem ((ih.watched _).2 ⟨_, hmem⟩)]
      exact ih.congr hcollected htimeouts
    · exact ih.inserts hB hnew hi
  | callbackResolved _ _ ih => exact ih.congr rfl rfl
  | @timedOut t t' W h job _ hh ho ih =>
    obtain ⟨forest, t₁, heq, -, hholds⟩ := ih.timedOut hB hh false
    rw [heq, Option.some.injEq, Prod.mk.injEq] at ho
    obtain ⟨rfl, rfl⟩ := ho
    exact hholds
  | @notify t t' W now h job _ ho ih =>
    by_cases hh : Collected B t h
    · rw [ih.notify_error now hh] at ho
      cases ho
    · obtain ⟨job₁, t₁, heq, -, -, hholds⟩ := ih.notify hB now hh
      rw [heq, Outcome.ok.injEq, Prod.mk.injEq] at ho
      obtain ⟨rfl, rfl⟩ := ho
      exact hholds

/-- Blocks that are numbered, each twice as far as its parent. -/
def numbered : Header Nat Nat := ⟨fun n => n + 2, fun n => (n + 2) / 2⟩

theorem numbered_committed : Committed numbered (fun h => h / 2) Nat.log2 where
  previous_eq := fun _ => rfl
  height_eq := by
    intro n
    show Nat.log2 (n + 2) = Nat.log2 ((n + 2) / 2) + 1
    rw [Nat.log2_def, if_pos (by omega)]

/-- A block, one that waits for it, and then the one that the first waits for. -/
def watchedThree : Scheduler Nat Nat Unit :=
  ((create.watch numbered 5 100 4 none).watch numbered 6 100 10 none).watch numbered 7 100 1 (some ())

theorem watchedThree_run : Run numbered watchedThree (insert 3 (insert 12 (insert 6 ∅))) :=
  .watch 7 100 1 (some ()) (.watch 6 100 10 none (.watch 5 100 4 none .create))

/-- The three blocks come out in one tree. -/
example : (watchedThree.extractForest numbered 1).map (fun p => hashes numbered (jobBlocks numbered p.1 p.2)) =
    some [3, 6, 12] := by decide

end MinaProtocol.TransitionHandler
