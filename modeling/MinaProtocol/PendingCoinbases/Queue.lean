import MinaProtocol.Lib.Fifo
import MinaProtocol.PendingCoinbases.Collection

/-!
# PendingCoinbases.Queue

Pending coinbases are a queue of stacks in the slots of a ring: the ids. An update with a new stack pushes one,
made from the empty stack; one without changes the newest stack. As long as there is no update without a new
stack while no stack is live, and never more stacks than ids, the collection is that of a queue.

With no live stack an update without a new stack writes to the first slot, which belongs to no stack then; and
with all slots in use the latest stack, asked for as a new one, shows the coinbases of the oldest.
-/

namespace MinaProtocol.PendingCoinbases

open StagedLedger
open SparseLedger (Hashing)

/-! ### Operations -/

/-- The operations that update a stack. -/
inductive Update where
  | updateCoinbaseStack (stack : Stack)
  | addCoinbase (coinbase : Coinbase)
  | addState (stateBodyHash : Nat) (globalSlot : GlobalSlot)

inductive Op where
  | update (u : Update) (isNewStack : Bool)
  | removeCoinbaseStack

section Runs

variable {Hash : Type} (hashing : Hashing Hash Stack) (digests : StackDigests) (depth : Nat)

def update (t : T Hash) (u : Update) (isNewStack : Bool) : Outcome Error (T Hash) :=
  match u with
  | .updateCoinbaseStack stack => updateCoinbaseStack hashing depth t stack isNewStack
  | .addCoinbase coinbase => addCoinbase hashing digests depth t coinbase isNewStack
  | .addState stateBodyHash globalSlot => addState hashing digests depth t stateBodyHash globalSlot isNewStack

/-- The collection after an operation; one that fails leaves the caller with the old one. -/
def after (t : T Hash) : Op → T Hash
  | .update u isNewStack =>
    match update hashing digests depth t u isNewStack with
    | .ok t' => t'
    | _ => t
  | .removeCoinbaseStack =>
    match removeCoinbaseStack hashing digests depth t with
    | .ok (_, t') => t'
    | _ => t

/-- What an update makes of a stack. -/
def Update.apply : Update → Stack → Stack
  | .updateCoinbaseStack stack, _ => stack
  | .addCoinbase coinbase, stack => stack.pushCoinbase digests coinbase
  | .addState stateBodyHash globalSlot, stack => stack.pushState digests stateBodyHash globalSlot

/-! ### The queue of stacks -/

variable (q : Fifo Stack)

/-- The queue after an operation. -/
def queueAfter : Op → Fifo Stack
  | .update u true => q.push (u.apply digests (Stack.empty digests))
  | .update u false => q.modifyNewest (u.apply digests)
  | .removeCoinbaseStack => if q.live.isEmpty then q else q.pop

/-- There is a slot for a new stack, and a stack to change for an update without one. -/
def Admits : Op → Prop
  | .update _ true => q.live.length < 2 ^ depth
  | .update _ false => q.live ≠ []
  | .removeCoinbaseStack => True

instance instDecidableAdmits : (op : Op) → Decidable (Admits depth q op)
  | .update _ true => inferInstanceAs (Decidable (q.live.length < 2 ^ depth))
  | .update _ false => inferInstanceAs (Decidable (q.live ≠ []))
  | .removeCoinbaseStack => inferInstanceAs (Decidable True)

/-- Every operation of a sequence is admitted where it comes. -/
def Admitted (q : Fifo Stack) : List Op → Prop
  | [] => True
  | op :: ops => Admits depth q op ∧ Admitted (queueAfter digests q op) ops

instance instDecidableAdmitted (q : Fifo Stack) : (ops : List Op) → Decidable (Admitted digests depth q ops)
  | [] => inferInstanceAs (Decidable True)
  | op :: ops =>
    have := instDecidableAdmitted (queueAfter digests q op) ops
    inferInstanceAs (Decidable (Admits depth q op ∧ Admitted digests depth (queueAfter digests q op) ops))

/-- The newest stack, or an empty one if none is live. -/
def newest : Stack := q.newest?.getD (Stack.empty digests)

/-- The stack with an id: a live one in its slot, and empty ones elsewhere. -/
def stackOf (id : StackId) : Stack := q.atSlot (2 ^ depth) (Stack.empty digests) id

/-- The collection is that of the queue; `t₀` is what was created. -/
structure IsQueue (t₀ : T Hash) (q : Fifo Stack) (t : T Hash) : Prop where
  updates : ∀ u isNewStack, Admits depth q (.update u isNewStack) → ∃ t', update hashing digests depth t u isNewStack = .ok t'
  /-- The oldest one comes out. -/
  removes : ∀ stack, q.oldest? = some stack → ∃ t', removeCoinbaseStack hashing digests depth t = .ok (stack, t')
  fails : q.live = [] → removeCoinbaseStack hashing digests depth t = .error .noStackToPop
  latest : latestStack t false = .ok (newest digests q)
  latestNew : q.live.length < 2 ^ depth →
    latestStack t true = .ok { Stack.empty digests with state := StateStack.create (newest digests q).state.curr }
  oldest : oldestStack t = .ok (q.oldest?.getD (Stack.empty digests))
  root : merkleRoot hashing t = rootOf hashing depth (stackOf digests depth q)
  restored : q.live = [] → merkleRoot hashing t = merkleRoot hashing t₀

/-- The collection of a queue. -/
def ofQueue : T Hash where
  tree := treeOf hashing depth (stackOf digests depth q)
  posList := q.slots (2 ^ depth)
  newPos := q.nextSlot (2 ^ depth)

end Runs

section Spec

variable {Hash : Type} {hashing : Hashing Hash Stack} {digests : StackDigests} {depth : Nat} {q : Fifo Stack}
  {t : T Hash} {isNewStack : Bool} {u : Update}

theorem update_eq :
    update hashing digests depth t u isNewStack = updateStack' hashing depth t (u.apply digests) isNewStack := by
  cases u <;> rfl

/-! ### Which ids are read and written -/

theorem latestStackId_new : latestStackId (ofQueue hashing digests depth q) true = q.nextSlot (2 ^ depth) := rfl

theorem currStackId_ofQueue (hlive : q.live ≠ []) :
    currStackId (ofQueue hashing digests depth q) = some ((q.pushed.length - 1) % 2 ^ depth) :=
  Fifo.slots_head? hlive

theorem latestStackId_eq (t : T Hash) : latestStackId t false = (currStackId t).getD 0 := by
  rw [latestStackId, if_neg Bool.false_ne_true, currStackId]
  cases t.posList <;> rfl

theorem exists_currStackId (hashing : Hashing Hash Stack) (digests : StackDigests) (hfits : q.Fits (2 ^ depth)) :
    ∃ id, (currStackId (ofQueue hashing digests depth q)).getD 0 = id ∧ id < 2 ^ depth ∧ stackOf digests depth q id = newest digests q := by
  have hsize := Nat.two_pow_pos depth
  by_cases hlive : q.live = []
  · refine ⟨0, ?_, hsize, ?_⟩
    · have hslots : q.slots (2 ^ depth) = [] := Fifo.slots_eq_nil_iff.2 hlive
      rw [currStackId, ofQueue, hslots]
      rfl
    · rw [stackOf, Fifo.atSlot_of_live_nil hlive, newest, Fifo.newest?, hlive]
      rfl
  · exact ⟨_, by rw [currStackId_ofQueue hlive, Option.getD_some], Nat.mod_lt _ hsize, Fifo.atSlot_newest hsize hfits hlive⟩

theorem exists_oldestStackId (hashing : Hashing Hash Stack) (digests : StackDigests) (q : Fifo Stack) :
    ∃ id, (oldestStackId (ofQueue hashing digests depth q)).getD 0 = id ∧ id < 2 ^ depth ∧
      stackOf digests depth q id = q.oldest?.getD (Stack.empty digests) := by
  have hsize := Nat.two_pow_pos depth
  by_cases hlive : q.live = []
  · refine ⟨0, ?_, hsize, ?_⟩
    · have hslots : q.slots (2 ^ depth) = [] := Fifo.slots_eq_nil_iff.2 hlive
      rw [oldestStackId, ofQueue, hslots]
      rfl
    · rw [stackOf, Fifo.atSlot_of_live_nil hlive, Fifo.oldest?, hlive]
      rfl
  · refine ⟨q.popped % 2 ^ depth, ?_, Nat.mod_lt _ hsize, Fifo.atSlot_oldest hsize⟩
    rw [oldestStackId, ofQueue, Fifo.slots_getLast? hlive, Option.getD_some]

/-! ### Reading -/

theorem currentStack_ofQueue (hfits : q.Fits (2 ^ depth)) :
    currentStack (ofQueue hashing digests depth q) = .ok (newest digests q) := by
  obtain ⟨id, hid, hlt, hstack⟩ := exists_currStackId hashing digests hfits
  rw [currentStack, hid, findIndex_treeOf rfl hlt, Outcome.ok_bind, getStack_treeOf rfl hlt, hstack]

theorem latestStack_ofQueue (hfits : q.Fits (2 ^ depth)) :
    latestStack (ofQueue hashing digests depth q) false = .ok (newest digests q) := by
  obtain ⟨id, hid, hlt, hstack⟩ := exists_currStackId hashing digests hfits
  rw [latestStack, latestStackId_eq, hid, findIndex_treeOf rfl hlt, Outcome.ok_bind, getStack_treeOf rfl hlt, Outcome.ok_bind, hstack]
  rfl

theorem latestStack_new (hfits : q.Fits (2 ^ depth)) (hlength : q.live.length < 2 ^ depth) :
    latestStack (ofQueue hashing digests depth q) true =
      .ok { Stack.empty digests with state := StateStack.create (newest digests q).state.curr } := by
  have hsize := Nat.two_pow_pos depth
  have hlt : q.nextSlot (2 ^ depth) < 2 ^ depth := Fifo.nextSlot_lt hsize
  have hempty : stackOf digests depth q (q.nextSlot (2 ^ depth)) = Stack.empty digests :=
    Fifo.atSlot_nextSlot hsize hfits.popped_le hlength
  rw [latestStack, latestStackId_new, findIndex_treeOf rfl hlt, Outcome.ok_bind, getStack_treeOf rfl hlt, Outcome.ok_bind, hempty,
    if_pos rfl, currentStack_ofQueue hfits]
  rfl

theorem oldestStack_ofQueue :
    oldestStack (ofQueue hashing digests depth q) = .ok (q.oldest?.getD (Stack.empty digests)) := by
  obtain ⟨id, hid, hlt, hstack⟩ := exists_oldestStackId hashing digests q
  rw [oldestStack, hid, findIndex_treeOf rfl hlt, Outcome.ok_bind, getStack_treeOf rfl hlt, hstack]

/-! ### Writing -/

variable (hcount : 2 ^ depth < 2 ^ 62) {f : Stack → Stack} {stack : Stack} {op : Op}

include hcount

theorem nextIndex_ofQueue (hpos : t.newPos = q.nextSlot (2 ^ depth)) :
    nextIndex depth t = .ok ((q.push stack).nextSlot (2 ^ depth)) := by
  have hsize := Nat.two_pow_pos depth
  have hlt : q.nextSlot (2 ^ depth) < 2 ^ depth := Fifo.nextSlot_lt hsize
  rw [nextIndex, maxCoinbaseStackCount, if_pos hcount, Outcome.ok_bind, hpos, Fifo.nextSlot_push hsize]
  split_ifs with hlast
  · rfl
  · exact if_pos (show q.nextSlot (2 ^ depth) + 1 < 2 ^ 62 by omega)

theorem incrIndex_ofQueue (hle : q.popped ≤ q.pushed.length)
    (hposList : t.posList = q.slots (2 ^ depth)) (hnewPos : t.newPos = q.nextSlot (2 ^ depth)) :
    incrIndex depth t true =
      .ok ⟨t.tree, (q.push stack).slots (2 ^ depth), (q.push stack).nextSlot (2 ^ depth)⟩ := by
  rw [incrIndex, if_pos rfl, nextIndex_ofQueue hcount hnewPos, Outcome.ok_bind, hposList, hnewPos, Fifo.slots_push hle]
  rfl

theorem updateStack'_new (hfits : q.Fits (2 ^ depth)) (hlength : q.live.length < 2 ^ depth) :
    updateStack' hashing depth (ofQueue hashing digests depth q) f true =
      .ok (ofQueue hashing digests depth (q.push (f (Stack.empty digests)))) := by
  have hsize := Nat.two_pow_pos depth
  have hlt : q.nextSlot (2 ^ depth) < 2 ^ depth := Fifo.nextSlot_lt hsize
  have hempty : stackOf digests depth q (q.nextSlot (2 ^ depth)) = Stack.empty digests :=
    Fifo.atSlot_nextSlot hsize hfits.popped_le hlength
  have htree : treeOf hashing depth (Function.update (stackOf digests depth q) (q.nextSlot (2 ^ depth)) (f (Stack.empty digests))) =
      treeOf hashing depth (stackOf digests depth (q.push (f (Stack.empty digests)))) := by
    refine treeOf_congr fun id hid => ?_
    rw [Function.update_apply]
    exact (Fifo.atSlot_push hfits.popped_le hlength hid).symm
  rw [updateStack', latestStackId_new, findIndex_treeOf rfl hlt, Outcome.ok_bind, getStack_treeOf rfl hlt, Outcome.ok_bind, hempty,
    setStack_treeOf rfl hlt, htree, incrIndex_ofQueue hcount hfits.popped_le rfl rfl]
  rfl

omit hcount

theorem updateStack'_old (hfits : q.Fits (2 ^ depth)) (hlive : q.live ≠ []) :
    updateStack' hashing depth (ofQueue hashing digests depth q) f false =
      .ok (ofQueue hashing digests depth (q.modifyNewest f)) := by
  have hsize := Nat.two_pow_pos depth
  have hlt : (q.pushed.length - 1) % 2 ^ depth < 2 ^ depth := Nat.mod_lt _ hsize
  have hstack : stackOf digests depth q ((q.pushed.length - 1) % 2 ^ depth) = newest digests q := Fifo.atSlot_newest hsize hfits hlive
  have htree : treeOf hashing depth (Function.update (stackOf digests depth q) ((q.pushed.length - 1) % 2 ^ depth) (f (newest digests q))) =
      treeOf hashing depth (stackOf digests depth (q.modifyNewest f)) := by
    refine treeOf_congr fun id hid => ?_
    rw [Function.update_apply]
    exact (Fifo.atSlot_modifyNewest hfits hlive hid).symm
  have hnext : (q.modifyNewest f).nextSlot (2 ^ depth) = q.nextSlot (2 ^ depth) := by
    rw [Fifo.nextSlot, Fifo.modifyNewest, List.length_modify, Fifo.nextSlot]
  rw [updateStack', latestStackId_eq, currStackId_ofQueue hlive, Option.getD_some, findIndex_treeOf rfl hlt, Outcome.ok_bind,
    getStack_treeOf rfl hlt, Outcome.ok_bind, hstack, setStack_treeOf rfl hlt, htree, ofQueue, ofQueue, Fifo.slots_modifyNewest, hnext]
  rfl

theorem removeCoinbaseStack_ofQueue (hashing : Hashing Hash Stack) (digests : StackDigests) (hfits : q.Fits (2 ^ depth)) (hlive : q.live ≠ []) :
    removeCoinbaseStack hashing digests depth (ofQueue hashing digests depth q) =
      .ok (q.oldest?.getD (Stack.empty digests), ofQueue hashing digests depth q.pop) := by
  have hsize := Nat.two_pow_pos depth
  have hlt : q.popped % 2 ^ depth < 2 ^ depth := Nat.mod_lt _ hsize
  have hstack : stackOf digests depth q (q.popped % 2 ^ depth) = q.oldest?.getD (Stack.empty digests) := Fifo.atSlot_oldest hsize
  have htree : treeOf hashing depth (Function.update (stackOf digests depth q) (q.popped % 2 ^ depth) (Stack.empty digests)) =
      treeOf hashing depth (stackOf digests depth q.pop) := by
    refine treeOf_congr fun id hid => ?_
    rw [Function.update_apply]
    exact (Fifo.atSlot_pop hfits hid).symm
  have holdest : removeOldestStackId (ofQueue hashing digests depth q).posList = .ok (q.popped % 2 ^ depth, q.pop.slots (2 ^ depth)) := by
    have hslots : (q.slots (2 ^ depth)).reverse = q.popped % 2 ^ depth :: (q.pop.slots (2 ^ depth)).reverse := by
      rw [Fifo.slots_eq_concat hlive, List.reverse_append]
      rfl
    rw [removeOldestStackId, ofQueue, hslots]
    exact congrArg (fun slots => Outcome.ok (_, slots)) (List.reverse_reverse _)
  rw [removeCoinbaseStack, holdest, Outcome.ok_bind]
  change (findIndex _ _ >>= _) = _
  rw [findIndex_treeOf rfl hlt, Outcome.ok_bind, getStack_treeOf rfl hlt, Outcome.ok_bind, hstack, setStack_treeOf rfl hlt, htree]
  rfl

theorem removeCoinbaseStack_nil (hnil : t.posList = []) :
    removeCoinbaseStack hashing digests depth t = .error .noStackToPop := by
  rw [removeCoinbaseStack, hnil]
  rfl

/-! ### Runs -/

theorem Admits.fits (hadmits : Admits depth q op) (hfits : q.Fits (2 ^ depth)) :
    (queueAfter digests q op).Fits (2 ^ depth) := by
  match op with
  | .update u true => exact hfits.push hadmits
  | .update u false => exact hfits.modifyNewest
  | .removeCoinbaseStack =>
    rw [queueAfter]
    split_ifs with hlive
    · exact hfits
    · exact hfits.pop fun hnil => hlive (List.isEmpty_iff.2 hnil)

include hcount

theorem update_ofQueue (hfits : q.Fits (2 ^ depth)) (hadmits : Admits depth q (.update u isNewStack)) :
    update hashing digests depth (ofQueue hashing digests depth q) u isNewStack =
      .ok (ofQueue hashing digests depth (queueAfter digests q (.update u isNewStack))) := by
  rw [update_eq]
  cases isNewStack with
  | true => exact updateStack'_new hcount hfits hadmits
  | false => exact updateStack'_old hfits hadmits

/-- **An operation** on the collection of a queue gives that of the queue after it. -/
theorem after_ofQueue (hfits : q.Fits (2 ^ depth)) (hadmits : Admits depth q op) :
    after hashing digests depth (ofQueue hashing digests depth q) op =
      ofQueue hashing digests depth (queueAfter digests q op) := by
  cases op with
  | update u isNewStack => rw [after, update_ofQueue hcount hfits hadmits]
  | removeCoinbaseStack =>
    rw [queueAfter]
    split_ifs with hlive
    · have hslots : q.slots (2 ^ depth) = [] := Fifo.slots_eq_nil_iff.2 (List.isEmpty_iff.1 hlive)
      rw [after, removeCoinbaseStack_nil hslots]
    · rw [after, removeCoinbaseStack_ofQueue hashing digests hfits fun hnil => hlive (List.isEmpty_iff.2 hnil)]

theorem foldl_after_ofQueue {ops : List Op} (hfits : q.Fits (2 ^ depth))
    (hadmitted : Admitted digests depth q ops) : (ops.foldl (queueAfter digests) q).Fits (2 ^ depth) ∧
      ops.foldl (after hashing digests depth) (ofQueue hashing digests depth q) =
        ofQueue hashing digests depth (ops.foldl (queueAfter digests) q) := by
  induction ops generalizing q with
  | nil => exact ⟨hfits, rfl⟩
  | cons op ops ih =>
    obtain ⟨hop, hops⟩ := hadmitted
    rw [List.foldl_cons, List.foldl_cons, after_ofQueue hcount hfits hop]
    exact ih (hop.fits hfits) hops

omit hcount

theorem ofQueue_of_live_nil (hlive : q.live = []) :
    merkleRoot hashing (ofQueue hashing digests depth q) = rootOf hashing depth fun _ => Stack.empty digests := by
  have hempty : treeOf hashing depth (stackOf digests depth q) = treeOf hashing depth fun _ => Stack.empty digests :=
    treeOf_congr fun _ _ => Fifo.atSlot_of_live_nil hlive
  exact merkleRoot_treeOf hempty

include hcount in
theorem isQueue_ofQueue {t₀ : T Hash} (hfits : q.Fits (2 ^ depth))
    (ht₀ : t₀.tree = treeOf hashing depth fun _ => Stack.empty digests) :
    IsQueue hashing digests depth t₀ q (ofQueue hashing digests depth q) where
  updates _ _ hadmits := ⟨_, update_ofQueue hcount hfits hadmits⟩
  removes stack holdest := by
    have hlive : q.live ≠ [] := by
      intro hnil
      simp [Fifo.oldest?, hnil] at holdest
    have hremoves := removeCoinbaseStack_ofQueue hashing digests hfits hlive
    rw [holdest, Option.getD_some] at hremoves
    exact ⟨_, hremoves⟩
  fails hlive := removeCoinbaseStack_nil (Fifo.slots_eq_nil_iff.2 hlive)
  latest := latestStack_ofQueue hfits
  latestNew := latestStack_new hfits
  oldest := oldestStack_ofQueue
  root := merkleRoot_treeOf rfl
  restored hlive := by rw [ofQueue_of_live_nil hlive, merkleRoot_treeOf ht₀]

/-- **Pending coinbases are a queue.** After any sequence of operations in which no update without a new stack
comes while no stack is live, and none with a new stack while there are as many stacks as ids, the collection is
that of the queue of stacks. -/
theorem run_isQueue (hashing : Hashing Hash Stack) (digests : StackDigests) (depth : Nat) (t₀ : T Hash) (ops : List Op)
    (hcreate : createExn' hashing digests depth = .ok t₀) (hadmitted : Admitted digests depth Fifo.empty ops) :
    IsQueue hashing digests depth t₀ (ops.foldl (queueAfter digests) Fifo.empty)
      (ops.foldl (after hashing digests depth) t₀) := by
  rw [createExn'_eq] at hcreate
  split_ifs at hcreate with hcount
  obtain rfl := Outcome.ok.inj hcreate
  have hstart : (⟨treeOf hashing depth fun _ => Stack.empty digests, [], 0⟩ : T Hash) = ofQueue hashing digests depth Fifo.empty := by
    have htree : treeOf hashing depth (stackOf digests depth Fifo.empty) = treeOf hashing depth fun _ => Stack.empty digests :=
      treeOf_congr fun _ _ => Fifo.atSlot_of_live_nil rfl
    have hnext : (Fifo.empty : Fifo Stack).nextSlot (2 ^ depth) = 0 := Nat.zero_mod _
    rw [ofQueue, htree, hnext]
    rfl
  obtain ⟨hfits, hrun⟩ := foldl_after_ofQueue hcount Fifo.fits_empty hadmitted
  rw [hstart, hrun]
  exact isQueue_ofQueue hcount hfits rfl

end Spec

/-! ### A small tree -/

/-- Hashes that show what they are made from. -/
def shownStacks : Hashing (List Nat) Stack :=
  ⟨fun height l r => height :: l ++ r, fun stack => [stack.data, stack.state.init, stack.state.curr]⟩

/-- Hashes of stacks that count what is pushed. -/
def countingDigests : StackDigests where
  emptyCoinbaseStack := 0
  pushCoinbase coinbase h := h + coinbase.2
  dummyStackHash := 0
  pushState curr _ _ := curr + 1

/-- Of two ids the first is used again: the third stack is opened while the second is live. -/
theorem run_isQueue_two : ∃ t : T (List Nat),
      [Op.update (.addState 5 ⟨1⟩) true, .update (.updateCoinbaseStack ⟨7, ⟨1, 2⟩⟩) true, .removeCoinbaseStack,
        .update (.addState 5 ⟨2⟩) true, .update (.addState 5 ⟨3⟩) false].foldl (after shownStacks countingDigests 1)
        ⟨treeOf shownStacks 1 fun _ => Stack.empty countingDigests, [], 0⟩ = t ∧
      t.posList = [0, 1] ∧ latestStack t false = .ok ⟨0, ⟨0, 2⟩⟩ ∧ oldestStack t = .ok ⟨7, ⟨1, 2⟩⟩ ∧
      merkleRoot shownStacks t = [0, 0, 0, 2, 7, 1, 2] := by
  refine ⟨_, rfl, by decide, ?_⟩
  have hqueue := run_isQueue shownStacks countingDigests 1 _
    [Op.update (.addState 5 ⟨1⟩) true, .update (.updateCoinbaseStack ⟨7, ⟨1, 2⟩⟩) true, .removeCoinbaseStack,
      .update (.addState 5 ⟨2⟩) true, .update (.addState 5 ⟨3⟩) false] createExn'_eq (by decide)
  exact ⟨hqueue.latest, hqueue.oldest, hqueue.root⟩

/-- With a single id: an update without a new stack leaves something behind when no stack is live, and with the
one stack live the latest stack, asked for as a new one, has its coinbases. -/
theorem not_queue_always : ∃ t₀ t₁ t₂ : T (List Nat), createExn' shownStacks countingDigests 0 = .ok t₀ ∧
      update shownStacks countingDigests 0 t₀ (.updateCoinbaseStack ⟨7, ⟨1, 2⟩⟩) true = .ok t₁ ∧
      latestStack t₁ true = .ok ⟨7, ⟨2, 2⟩⟩ ∧ (Stack.empty countingDigests).data ≠ 7 ∧
      removeCoinbaseStack shownStacks countingDigests 0 t₁ = .ok (⟨7, ⟨1, 2⟩⟩, t₀) ∧
      update shownStacks countingDigests 0 t₀ (.updateCoinbaseStack ⟨8, ⟨3, 4⟩⟩) false = .ok t₂ ∧
      removeCoinbaseStack shownStacks countingDigests 0 t₂ = .error .noStackToPop ∧
      merkleRoot shownStacks t₂ ≠ merkleRoot shownStacks t₀ := by
  refine ⟨_, _, _, rfl, rfl, rfl, by decide, rfl, rfl, rfl, ?_⟩
  decide

end MinaProtocol.PendingCoinbases
