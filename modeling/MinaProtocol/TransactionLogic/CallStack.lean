import MinaProtocol.Base.UserCommand

/-!
# TransactionLogic.CallStack

The order in which the account updates of a zkApp command run. `get_next_account_update`
keeps the forest that is being executed in a frame and the rests of its parents on a
stack. It visits the forest in pre-order, and gives every account update the caller that
it has by its parent (`account_updates_popped_in_preorder`).
-/

namespace MinaProtocol.TransactionLogic

/-- `Stack_frame.t`. -/
structure StackFrame where
  caller : Nat
  callerCaller : Nat
  calls : CallForest AccountUpdate
deriving DecidableEq, Repr

/-- `stack_frame_default`. -/
def stackFrameDefault : StackFrame := ⟨TokenId.default, TokenId.default, .nil⟩

/-- The frame with which `start` begins. -/
def startFrame (accountUpdates : CallForest AccountUpdate) : StackFrame :=
  ⟨TokenId.default, TokenId.default, accountUpdates⟩

/-- `Call_stack.t`. -/
abbrev CallStack := List StackFrame

/-- `pop_call_stack`. -/
def popCallStack : CallStack → StackFrame × CallStack
  | [] => (stackFrameDefault, [])
  | frame :: stack => (frame, stack)

/-- `get_next_account_update_result`. -/
structure NextAccountUpdate where
  accountUpdate : AccountUpdate
  callerId : Nat
  accountUpdateForest : CallForest AccountUpdate
  newCallStack : CallStack
  newFrame : StackFrame
deriving DecidableEq, Repr

/-- `get_next_account_update`, for the hash that derives the token of an account. It is
`none` where popping from an empty forest raises. -/
def getNextAccountUpdate (deriveTokenId : AccountId → Nat) (currentForest : StackFrame)
    (callStack : CallStack) : Option NextAccountUpdate :=
  -- if the current forest is complete, return to the one that was left for it
  let (currentForest, callStack) :=
    if currentForest.calls.isEmpty then popCallStack callStack else (currentForest, callStack)
  match currentForest.calls with
  | .nil => none
  | .cons accountUpdate accountUpdateForest remainder =>
    let callerId :=
      if accountUpdate.mayUseToken = MayUseToken.inheritFromParent then currentForest.callerCaller
      else if accountUpdate.mayUseToken = MayUseToken.parentsOwnToken then currentForest.caller
      else TokenId.default
    let (newlyPoppedFrame, poppedCallStack) := popCallStack callStack
    let remainderFrame : StackFrame := ⟨currentForest.caller, currentForest.callerCaller, remainder⟩
    let newCallStack :=
      if accountUpdateForest.isEmpty then
        if remainder.isEmpty then poppedCallStack else callStack
      else
        if remainder.isEmpty then callStack else remainderFrame :: callStack
    let newFrame :=
      if accountUpdateForest.isEmpty then
        if remainder.isEmpty then newlyPoppedFrame else remainderFrame
      else ⟨deriveTokenId accountUpdate.accountId, callerId, accountUpdateForest⟩
    some ⟨accountUpdate, callerId, accountUpdateForest, newCallStack, newFrame⟩

/-- The `k`-th call of `get_next_account_update` for a forest, counted from 0. -/
def popped (deriveTokenId : AccountId → Nat) (accountUpdates : CallForest AccountUpdate) :
    Nat → Option NextAccountUpdate
  | 0 => getNextAccountUpdate deriveTokenId (startFrame accountUpdates) []
  | k + 1 => do
    let next ← popped deriveTokenId accountUpdates k
    getNextAccountUpdate deriveTokenId next.newFrame next.newCallStack

/-! ### The order by recursion on the forest -/

/-- An account update that runs, with its caller. -/
structure Visit where
  accountUpdate : AccountUpdate
  callerId : Nat
  calls : CallForest AccountUpdate
deriving DecidableEq, Repr

/-- The caller of an account update by its parent: none at the root, or the parent's
account and caller. -/
def callerIdOf (deriveTokenId : AccountId → Nat) (parent : Option (AccountId × Nat))
    (accountUpdate : AccountUpdate) : Nat :=
  match accountUpdate.mayUseToken, parent with
  | .no, _ => TokenId.default
  | .parentsOwnToken, some (account, _) => deriveTokenId account
  | .inheritFromParent, some (_, callerId) => callerId
  | _, none => TokenId.default

/-- The account updates of a forest in pre-order. -/
def visits (deriveTokenId : AccountId → Nat) (parent : Option (AccountId × Nat)) : CallForest AccountUpdate → List Visit
  | .nil => []
  | .cons u calls rest =>
    ⟨u, callerIdOf deriveTokenId parent u, calls⟩
      :: (visits deriveTokenId (some (u.accountId, callerIdOf deriveTokenId parent u)) calls
        ++ visits deriveTokenId parent rest)

section Walk

variable (deriveTokenId : AccountId → Nat) {rest : List Visit} {stack : CallStack} {t : CallForest AccountUpdate}
  {frame : StackFrame}

theorem visits_map_accountUpdate (parent : Option (AccountId × Nat)) (t : CallForest AccountUpdate) :
    (visits deriveTokenId parent t).map Visit.accountUpdate = t.toList := by
  induction t generalizing parent with
  | nil => rfl
  | cons u calls rest ihc ihr =>
    rw [visits, List.map_cons, List.map_append, ihc, ihr, CallForest.toList]

/-- The frame runs the children of the parent. -/
def FrameOf (parent : Option (AccountId × Nat)) (frame : StackFrame) : Prop :=
  frame.caller = (parent.map fun p => deriveTokenId p.1).getD TokenId.default
    ∧ frame.callerCaller = (parent.map Prod.snd).getD TokenId.default

/-- What the frames of a stack still have to run. None of them is empty. -/
inductive Pending : CallStack → List Visit → Prop where
  | nil : Pending [] []
  | cons {parent : Option (AccountId × Nat)} {frame : StackFrame} {stack : CallStack}
      {rest : List Visit} : FrameOf deriveTokenId parent frame → frame.calls ≠ .nil →
      Pending stack rest →
      Pending (frame :: stack) (visits deriveTokenId parent frame.calls ++ rest)

/-- What the current frame and the stack still have to run. The frame is empty only at the
end. -/
def Remaining (frame : StackFrame) (stack : CallStack) (rest : List Visit) : Prop :=
  Pending deriveTokenId (frame :: stack) rest ∨ frame = stackFrameDefault ∧ stack = [] ∧ rest = []

variable {deriveTokenId} {parent : Option (AccountId × Nat)}

theorem Pending.calls_ne_nil (h : Pending deriveTokenId stack rest) : ∀ frame ∈ stack, frame.calls ≠ .nil := by
  induction h with
  | nil => exact fun _ hmem => absurd hmem (List.not_mem_nil)
  | cons _ hne _ ih =>
    intro frame hmem
    rcases List.mem_cons.1 hmem with rfl | hmem
    · exact hne
    · exact ih frame hmem

theorem visits_ne_nil (h : t ≠ .nil) : visits deriveTokenId parent t ≠ [] := by
  cases t with
  | nil => exact absurd rfl h
  | cons u calls rest => simp [visits]

/-- Returning to the frame that was left last. -/
theorem Pending.popCallStack (h : Pending deriveTokenId stack rest) :
    Remaining deriveTokenId (popCallStack stack).1 (popCallStack stack).2 rest := by
  cases h with
  | nil => exact .inr ⟨rfl, rfl, rfl⟩
  | cons hframe hne hstack => exact .inl (.cons hframe hne hstack)

theorem FrameOf.callerId (h : FrameOf deriveTokenId parent frame) (u : AccountUpdate) :
    (if u.mayUseToken = MayUseToken.inheritFromParent then frame.callerCaller
      else if u.mayUseToken = MayUseToken.parentsOwnToken then frame.caller
      else TokenId.default) = callerIdOf deriveTokenId parent u := by
  unfold callerIdOf
  rw [h.1, h.2]
  cases hu : u.mayUseToken <;> cases parent <;> simp

/-- **One call**: it pops the first account update that is left, with its caller, and
leaves the others. -/
theorem Remaining.next {v : Visit} (h : Remaining deriveTokenId frame stack (v :: rest)) :
    ∃ next, getNextAccountUpdate deriveTokenId frame stack = some next
      ∧ (⟨next.accountUpdate, next.callerId, next.accountUpdateForest⟩ : Visit) = v
      ∧ Remaining deriveTokenId next.newFrame next.newCallStack rest := by
  rcases h with h | ⟨-, -, h⟩
  swap
  · exact absurd h (List.cons_ne_nil _ _)
  obtain ⟨caller, callerCaller, calls⟩ := frame
  generalize hrest : v :: rest = all at h
  cases h with
  | @cons parent _ _ below hframe hne hstack =>
    cases calls with
    | nil => exact absurd rfl hne
    | cons u children remainder =>
      simp only [visits, List.cons_append, List.append_assoc, List.cons.injEq] at hrest
      obtain ⟨rfl, rfl⟩ := hrest
      have hcaller := hframe.callerId u
      have hchild : ∀ c, FrameOf deriveTokenId (some (u.accountId, c))
          ⟨deriveTokenId u.accountId, c, children⟩ := fun c => ⟨rfl, rfl⟩
      have hremainder : FrameOf deriveTokenId parent ⟨caller, callerCaller, remainder⟩ := hframe
      refine ⟨_, rfl, ?_, ?_⟩
      · simp only [hcaller]
      · simp only [hcaller]
        cases children with
        | nil =>
          cases remainder with
          | nil => exact hstack.popCallStack
          | cons u' calls' rest' => exact .inl (.cons hremainder nofun hstack)
        | cons w grandchildren siblings =>
          cases remainder with
          | nil => exact .inl (.cons (hchild _) nofun hstack)
          | cons u' calls' rest' => exact .inl (.cons (hchild _) nofun (.cons hremainder nofun hstack))

theorem Remaining.calls_eq_nil_iff (h : Remaining deriveTokenId frame stack rest) : frame.calls = .nil ↔ rest = [] := by
  rcases h with h | ⟨rfl, rfl, rfl⟩
  · cases h with
    | cons hframe hne hstack =>
      refine ⟨fun hnil => absurd hnil hne, fun hnil => ?_⟩
      exact absurd (List.append_eq_nil_iff.1 hnil).1 (visits_ne_nil hne)
  · exact ⟨fun _ => rfl, fun _ => rfl⟩

theorem Remaining.stack_ne_nil (h : Remaining deriveTokenId frame stack rest) : ∀ f ∈ stack, f.calls ≠ .nil := by
  rcases h with h | ⟨rfl, rfl, rfl⟩
  · intro f hf
    exact h.calls_ne_nil f (List.mem_cons_of_mem _ hf)
  · exact fun _ hmem => absurd hmem List.not_mem_nil

theorem remaining_start (deriveTokenId : AccountId → Nat) (h : t ≠ .nil) :
    Remaining deriveTokenId (startFrame t) [] (visits deriveTokenId none t) := by
  have hpending : Pending deriveTokenId [startFrame t] (visits deriveTokenId none t ++ []) :=
    .cons ⟨rfl, rfl⟩ h .nil
  rw [List.append_nil] at hpending
  exact .inl hpending

/-- The calls up to any one of them. -/
theorem popped_spec (h : t ≠ .nil) (k : Nat) (hk : k < (visits deriveTokenId none t).length) :
    ∃ next, popped deriveTokenId t k = some next
      ∧ (⟨next.accountUpdate, next.callerId, next.accountUpdateForest⟩ : Visit)
        = (visits deriveTokenId none t)[k]
      ∧ Remaining deriveTokenId next.newFrame next.newCallStack
        ((visits deriveTokenId none t).drop (k + 1)) := by
  induction k with
  | zero =>
    have hrem := remaining_start deriveTokenId h
    rw [← List.drop_zero (l := visits deriveTokenId none t), List.drop_eq_getElem_cons hk] at hrem
    exact hrem.next
  | succ k ih =>
    obtain ⟨next, hpop, -, hrem⟩ := ih (by omega)
    rw [List.drop_eq_getElem_cons hk] at hrem
    obtain ⟨next', hnext', hvisit, hrem'⟩ := hrem.next
    refine ⟨next', ?_, hvisit, hrem'⟩
    rw [popped, hpop, Option.bind_eq_bind, Option.bind_some, hnext']

end Walk

/-- **The account updates run in pre-order, the fee payer first, with the callers that the
forest gives them.** The frame is empty exactly after the last one, and the stack never
holds an empty forest. -/
theorem account_updates_popped_in_preorder (deriveTokenId : AccountId → Nat) (command : ZkappCommand) :
    let order := visits deriveTokenId none command.allAccountUpdates
    order.map Visit.accountUpdate
        = AccountUpdate.ofFeePayer command.feePayer :: command.accountUpdates.toList
      ∧ ∀ k (hk : k < order.length), ∃ next,
        popped deriveTokenId command.allAccountUpdates k = some next
        ∧ next.accountUpdate = order[k].accountUpdate
        ∧ next.callerId = order[k].callerId
        ∧ next.accountUpdateForest = order[k].calls
        ∧ (∀ frame ∈ next.newCallStack, frame.calls ≠ .nil)
        ∧ (next.newFrame.calls = .nil ↔ k + 1 = order.length) := by
  dsimp only
  refine ⟨visits_map_accountUpdate _ _ _, fun k hk => ?_⟩
  obtain ⟨next, hpop, hvisit, hrem⟩ := popped_spec (t := command.allAccountUpdates) nofun k hk
  refine ⟨next, hpop, ?_, ?_, ?_, hrem.stack_ne_nil, ?_⟩
  · rw [← hvisit]
  · rw [← hvisit]
  · rw [← hvisit]
  · rw [hrem.calls_eq_nil_iff, List.drop_eq_nil_iff]
    omega

end MinaProtocol.TransactionLogic
