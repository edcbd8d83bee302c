import MinaProtocol.StagedLedger.Fees

/-!
# StagedLedger.Resources

What a pre-diff is made from. The producer of a block starts with all the commands and all the works that are
at hand, and leaves out the last of them until the fees of the commands pay for the works and everything has a
slot in the scan state. A part of the coinbase can pay for a work, of which the cheapest are taken; the fees of
the others are charged to the commands.

Commands and works are kept with the last one first, and what is left out is kept for the pre-diff after.
-/

namespace MinaProtocol.StagedLedger

open Std PreDiffInfo

namespace Resources

/-- `Resources.Discarded.t`. -/
structure Discarded where
  commandsRev : List Command
  completedWork : List TransactionSnarkWork
deriving DecidableEq, Repr

/-- `Discarded.add_user_command`. -/
def Discarded.addUserCommand (t : Discarded) (uc : Command) : Discarded :=
  { t with commandsRev := t.commandsRev ++ [uc] }

/-- `Discarded.add_completed_work`. -/
def Discarded.addCompletedWork (t : Discarded) (cw : TransactionSnarkWork) : Discarded :=
  { t with completedWork := cw :: t.completedWork }

end Resources

/-- `Resources.t`. A budget of `none` is an error. -/
structure Resources where
  maxSpace : Int
  maxJobs : Nat
  commandsRev : List Command
  completedWorkRev : List TransactionSnarkWork
  feeTransfers : ExtTreeMap PublicKey Nat
  addCoinbase : Bool
  coinbase : AtMostTwo CoinbaseFeeTransfer
  superchargeCoinbase : Bool
  receiverPk : PublicKey
  budget : Option Nat
  discarded : Resources.Discarded
  isCoinbaseReceiverNew : Bool

namespace Resources

variable (constants : ConstraintConstants)

/-! ### The works that the coinbase pays -/

/-- `coinbase_ft`. -/
def coinbaseFt (cw : TransactionSnarkWork) : Option CoinbaseFeeTransfer :=
  if 0 < cw.fee then some ⟨cw.prover, cw.fee⟩ else none

/-- A step of `cheapest_two_work`. -/
def cheaper : Option TransactionSnarkWork × Option TransactionSnarkWork → TransactionSnarkWork →
    Option TransactionSnarkWork × Option TransactionSnarkWork
  | (none, _), w => (some w, none)
  | (some x, none), w => if w.fee < x.fee then (some w, some x) else (some x, some w)
  | (some x, some y), w =>
    if w.fee < x.fee then (some w, some x)
    else if w.fee < y.fee then (some x, some w)
    else (some x, some y)

variable (works : List TransactionSnarkWork)

/-- `cheapest_two_work`. -/
def cheapestTwoWork : Option TransactionSnarkWork × Option TransactionSnarkWork :=
  works.foldl cheaper (none, none)

/-- `diff` in `coinbase_work`. -/
def diff (ws' : List (OneOrTwo Statement)) : List TransactionSnarkWork :=
  works.filter fun w => !ws'.contains w.statement

/-- The `budget` in `coinbase_work`: the account creation fee of a new receiver is taken from the reward. -/
def coinbaseBudget (isCoinbaseReceiverNew : Bool) (coinbaseAmount : Nat) : Option Nat :=
  if isCoinbaseReceiverNew then Amount.sub coinbaseAmount constants.accountCreationFee else some coinbaseAmount

/-- `coinbase_work` for two parts, with what it can spend. -/
def twoWorks (coinbaseAmount budget : Nat) : Option (AtMostTwo CoinbaseFeeTransfer × List TransactionSnarkWork) :=
  match cheapestTwoWork works with
  | (none, _) => none
  | (some w, none) =>
    if w.fee ≤ budget then some (.two ((coinbaseFt w).map fun ft => (ft, none)), diff works [w.statement])
    else some (.two none, works)
  | (some w1, some w2) => do
    let sum ← Amount.add w1.fee w2.fee
    if sum ≤ budget then
      some (.two ((coinbaseFt w1).map fun ft => (ft, coinbaseFt w2)), diff works [w1.statement, w2.statement])
    else if w1.fee ≤ coinbaseAmount then
      some (.two ((coinbaseFt w1).map fun ft => (ft, none)), diff works [w1.statement])
    else some (.two none, works)

/-- `coinbase_work` for one part, with what it can spend. -/
def oneWork (budget : Nat) : Option (AtMostTwo CoinbaseFeeTransfer × List TransactionSnarkWork) :=
  (cheapestTwoWork works).1.map fun w =>
    if w.fee ≤ budget then (.one (coinbaseFt w), diff works [w.statement]) else (.one none, works)

/-- `coinbase_work`. -/
def coinbaseWork (isTwo : Bool) (works : List TransactionSnarkWork) (isCoinbaseReceiverNew superchargeCoinbase : Bool) :
    Option (AtMostTwo CoinbaseFeeTransfer × List TransactionSnarkWork) := do
  let coinbaseAmount ← Diff.coinbaseAmount constants superchargeCoinbase
  let budget ← coinbaseBudget constants isCoinbaseReceiverNew coinbaseAmount
  if isTwo then twoWorks works coinbaseAmount budget else oneWork works budget

/-! ### The fees of the other works -/

/-- `singles`: the fees to pay, without the works that have none. -/
def singles (remCw : List TransactionSnarkWork) : List (PublicKey × Nat) :=
  (remCw.filterMap fun w => if w.fee = 0 then none else some (w.prover, w.fee)).reverse

/-- The coinbase and the works it does not pay, in `init_coinbase_and_fee_transfers`. -/
def initialSelection (cwSeq : List TransactionSnarkWork) (addCoinbase : Bool) (jobCount : Nat) (slots : Int)
    (isCoinbaseReceiverNew superchargeCoinbase : Bool) : AtMostTwo CoinbaseFeeTransfer × List TransactionSnarkWork :=
  match addCoinbase, coinbaseWork constants false cwSeq isCoinbaseReceiverNew superchargeCoinbase with
  | true, some (ft, remCw) => (ft, remCw)
  | true, none =>
    -- no jobs are required, or there is a slot that is free without any work
    if jobCount = 0 ∨ 1 ≤ slots - jobCount then (.one none, cwSeq) else (.zero, cwSeq)
  | false, _ => (.zero, cwSeq)

/-- `init_coinbase_and_fee_transfers`. -/
def initCoinbaseAndFeeTransfers (cwSeq : List TransactionSnarkWork) (addCoinbase : Bool) (jobCount : Nat)
    (slots : Int) (isCoinbaseReceiverNew superchargeCoinbase : Bool) :
    AtMostTwo CoinbaseFeeTransfer × List (PublicKey × Nat) :=
  let (coinbase, remCw) :=
    initialSelection constants cwSeq addCoinbase jobCount slots isCoinbaseReceiverNew superchargeCoinbase
  (coinbase, singles remCw)

/-- The `budget` in `init`. -/
def initialBudget (ucSeq : List Command) (singles : List (PublicKey × Nat)) (receiverPk : PublicKey) : Option Nat := do
  let r ← sumFees (ucSeq.map Command.fee)
  let c ← sumFees ((singles.filter fun e => e.1 ≠ receiverPk).map Prod.snd)
  Amount.sub r c

/-- `init`, which raises where the fees of a prover overflow. -/
def init (ucSeq : List Command) (cwSeq : List TransactionSnarkWork) (slots : Int) (jobCount : Nat)
    (receiverPk : PublicKey) (addCoinbase superchargeCoinbase isCoinbaseReceiverNew : Bool) : Option Resources := do
  let (coinbase, singles) := initCoinbaseAndFeeTransfers constants cwSeq addCoinbase jobCount slots
    isCoinbaseReceiverNew superchargeCoinbase
  let feeTransfers ← singlesMap singles
  return {
    maxSpace := slots
    maxJobs := jobCount
    commandsRev := ucSeq
    completedWorkRev := cwSeq.reverse
    feeTransfers := feeTransfers
    addCoinbase := addCoinbase
    coinbase := coinbase
    superchargeCoinbase := superchargeCoinbase
    receiverPk := receiverPk
    budget := initialBudget ucSeq singles receiverPk
    discarded := ⟨[], []⟩
    isCoinbaseReceiverNew := isCoinbaseReceiverNew }

variable (t : Resources)

/-- The coinbase and the works it does not pay, in `reselect_coinbase_work`. -/
def reselection : AtMostTwo CoinbaseFeeTransfer × List TransactionSnarkWork :=
  match t.coinbase with
  | .zero => (t.coinbase, t.completedWorkRev)
  | .one _ =>
    match coinbaseWork constants false t.completedWorkRev t.isCoinbaseReceiverNew t.superchargeCoinbase with
    | none => (.one none, t.completedWorkRev)
    | some (ft, remCw) => (ft, remCw)
  | .two _ =>
    match coinbaseWork constants true t.completedWorkRev t.isCoinbaseReceiverNew t.superchargeCoinbase with
    | none => (.two none, t.completedWorkRev)
    | some (fts', remCw) => (fts', remCw)

/-- `reselect_coinbase_work`, which raises where the fees of a prover overflow. -/
def reselectCoinbaseWork : Option Resources := do
  let (coinbase, remCw) := reselection constants t
  let feeTransfers ← singlesMap (singles remCw)
  return { t with coinbase := coinbase, feeTransfers := feeTransfers }

/-- A step of the fold in `rebudget`. -/
def addOther (receiverPk : PublicKey) (others : Nat) (e : PublicKey × Nat) : Option Nat :=
  if receiverPk = e.1 then some others else Amount.add others e.2

/-- `rebudget`. -/
def rebudget : Option Nat := do
  let paymentFees ← sumFees (t.commandsRev.map Command.fee)
  let proverFeeOthers ← t.feeTransfers.toList.foldlM (addOther t.receiverPk) 0
  Amount.sub paymentFees proverFeeOthers

/-! ### The constraints -/

/-- `budget_sufficient`. -/
def budgetSufficient : Bool := t.budget.isSome

/-- `coinbase_added`. -/
def coinbaseAdded : Nat :=
  match t.coinbase with
  | .zero => 0
  | .one _ => 1
  | .two _ => 2

/-- The `fee_for_self` in `slots_occupied`: a fee transfer of what the producer keeps. -/
def feeForSelf : Nat :=
  match t.budget with
  | none => 0
  | some b => if 0 < b then 1 else 0

/-- The `other_provers` in `slots_occupied`. -/
def otherProvers : List PublicKey := t.feeTransfers.keys.filter fun pk => t.receiverPk ≠ pk

/-- `slots_occupied`. -/
def slotsOccupied : Nat :=
  t.commandsRev.length + (t.otherProvers.length + t.feeForSelf + 1) / 2 + t.coinbaseAdded

/-- `space_available`. -/
def spaceAvailable : Bool := t.slotsOccupied < t.maxSpace

/-- `work_done`. -/
def workDone : Bool :=
  t.completedWorkRev.length = t.maxJobs ∨ (t.slotsOccupied : Int) ≤ t.maxSpace - t.maxJobs

/-- `space_constraint_satisfied`. -/
def spaceConstraintSatisfied : Bool := t.slotsOccupied ≤ t.maxSpace

/-- `work_constraint_satisfied`. -/
def workConstraintSatisfied : Bool :=
  t.workDone || t.slotsOccupied = 0 || t.slotsOccupied ≤ t.completedWorkRev.length

/-- `available_space`. -/
def availableSpace : Int := t.maxSpace - t.slotsOccupied

/-! ### Leaving out -/

/-- `discard_last_work`. -/
def discardLastWork : Option (Resources × Option TransactionSnarkWork) :=
  match t.completedWorkRev with
  | [] => some (t, none)
  | w :: remSeq => do
    let discarded := t.discarded.addCompletedWork w
    let newT ← reselectCoinbaseWork constants { t with completedWorkRev := remSeq, discarded := discarded }
    let budget :=
      match t.budget with
      | some b => Amount.add b w.fee
      | none => rebudget newT
    return ({ newT with budget := budget }, some w)

/-- `update_fee_transfers` in `discard_user_command`. -/
def updateFeeTransfers (ft : CoinbaseFeeTransfer) (coinbase : AtMostTwo CoinbaseFeeTransfer) : Resources :=
  let newT := { t with coinbase := coinbase, feeTransfers := t.feeTransfers.insert ft.receiverPk ft.fee }
  { newT with budget := rebudget newT }

/-- `decr_coinbase` in `discard_user_command`. -/
def decrCoinbase : Resources :=
  match t.coinbase with
  | .zero => t
  | .one none => { t with coinbase := .zero }
  | .two none => { t with coinbase := .one none }
  | .two (some (ft, none)) => { t with coinbase := .one (some ft) }
  | .one (some ft) => t.updateFeeTransfers ft .zero
  | .two (some (ft1, some ft2)) => t.updateFeeTransfers ft2 (.one (some ft1))

/-- `discard_user_command`. -/
def discardUserCommand : Resources × Option Command :=
  match t.commandsRev with
  | [] => (t.decrCoinbase, none)
  | uc :: remSeq =>
    let discarded := t.discarded.addUserCommand uc
    let newT := { t with commandsRev := remSeq, discarded := discarded }
    let budget :=
      match t.budget with
      | some b => Amount.sub b uc.fee
      | none => rebudget newT
    ({ newT with budget := budget }, some uc)

/-- `more_work` in `worked_more`. -/
def moreWork : Bool := 0 < t.completedWorkRev.length ∧ t.slotsOccupied ≤ t.completedWorkRev.length

/-- `worked_more`. -/
def workedMore (resources : Resources) : Option Bool := do
  let (r, _) ← discardLastWork constants resources
  return r.moreWork

/-! ### Adding coinbases -/

/-- `incr` in `incr_coinbase_part_by`, where `none` is an error. -/
def incr : AtMostTwo CoinbaseFeeTransfer → Option (AtMostTwo CoinbaseFeeTransfer)
  | .zero => some (.one none)
  | .one none => some (.two none)
  | .one (some ft) => some (.two (some (ft, none)))
  | .two _ => none

/-- `by_one` in `incr_coinbase_part_by`. Where it makes an error, this is logged, and nothing is changed. -/
def byOne (res : Resources) : Option Resources :=
  match res.discarded.completedWork, incr res.coinbase with
  | w :: remWork, some coinbase =>
    reselectCoinbaseWork constants
      { res with
        completedWorkRev := w :: res.completedWorkRev
        discarded := { res.discarded with completedWork := remWork }
        coinbase := coinbase }
  | [], some coinbase =>
    let res' := { res with coinbase := coinbase }
    if res'.workDone then some res' else some res
  | _, none => some res

/-- The parts of a coinbase to add. -/
inductive Count where
  | one
  | two
deriving DecidableEq, Repr

/-- `incr_coinbase_part_by`. -/
def incrCoinbasePartBy : Count → Option Resources
  | .one => byOne constants t
  | .two => do byOne constants (← byOne constants t)

/-! ### What a selection takes -/

end Resources

/-- The number of the parts of a coinbase. -/
def AtMostTwo.parts {α : Type} : AtMostTwo α → Nat
  | .zero => 0
  | .one _ => 1
  | .two _ => 2

variable {α : Type}

@[simp] theorem AtMostTwo.parts_zero : (AtMostTwo.zero : AtMostTwo α).parts = 0 := rfl

@[simp] theorem AtMostTwo.parts_one {a : Option α} : (AtMostTwo.one a).parts = 1 := rfl

@[simp] theorem AtMostTwo.parts_two {a : Option (α × Option α)} : (AtMostTwo.two a).parts = 2 := rfl

namespace Resources

variable {constants : ConstraintConstants} {works : List TransactionSnarkWork} {w : TransactionSnarkWork}

section Selection

variable {w1 w2 : TransactionSnarkWork} {budget : Nat}

theorem coinbaseAdded_eq (t : Resources) : t.coinbaseAdded = t.coinbase.parts := by
  unfold coinbaseAdded
  cases t.coinbase <;> rfl

/-- **The two cheapest works are works at hand**. -/
theorem foldl_cheaper {acc : Option TransactionSnarkWork × Option TransactionSnarkWork} (hacc : acc.1 = none → acc.2 = none) :
    ∃ rest, (acc.1.toList ++ acc.2.toList ++ works).Perm
      ((works.foldl cheaper acc).1.toList ++ (works.foldl cheaper acc).2.toList ++ rest) := by
  induction works generalizing acc with
  | nil => exact ⟨[], by simp⟩
  | cons w works ih =>
    rw [List.foldl_cons]
    obtain ⟨dropped, hstep, hnext⟩ : ∃ dropped,
        (acc.1.toList ++ acc.2.toList ++ [w]).Perm
          ((cheaper acc w).1.toList ++ (cheaper acc w).2.toList ++ dropped) ∧
        ((cheaper acc w).1 = none → (cheaper acc w).2 = none) := by
      obtain ⟨o1, o2⟩ := acc
      cases o1 with
      | none =>
        obtain rfl : o2 = none := hacc rfl
        exact ⟨[], by simp [cheaper]⟩
      | some x =>
        cases o2 with
        | none =>
          refine ⟨[], ?_⟩
          by_cases h : w.fee < x.fee
          · simp [cheaper, h, List.Perm.swap]
          · simp [cheaper, h]
        | some y =>
          by_cases hx : w.fee < x.fee
          · refine ⟨[y], ?_⟩
            simp only [cheaper, if_pos hx]
            grind
          · by_cases hy : w.fee < y.fee
            · refine ⟨[y], ?_⟩
              simp [cheaper, hx, hy, List.Perm.swap]
            · refine ⟨[w], ?_⟩
              simp [cheaper, hx, hy]
    obtain ⟨rest, hrest⟩ := ih hnext
    refine ⟨rest ++ dropped, ?_⟩
    have hmoved : ((cheaper acc w).1.toList ++ (cheaper acc w).2.toList ++ dropped ++ works).Perm
        ((cheaper acc w).1.toList ++ (cheaper acc w).2.toList ++ works ++ dropped) := by
      rw [List.append_assoc _ dropped, List.append_assoc _ works]
      exact List.perm_append_comm.append_left _
    have hmore := hrest.append_right dropped
    rw [List.append_assoc _ rest] at hmore
    rw [List.append_cons]
    exact ((hstep.append_right works).trans hmoved).trans hmore

theorem foldl_cheaper_eq_none {acc : Option TransactionSnarkWork × Option TransactionSnarkWork}
    (h : (works.foldl cheaper acc).1 = none) : acc.1 = none ∧ works = [] := by
  induction works generalizing acc with
  | nil => exact ⟨h, rfl⟩
  | cons w works ih =>
    have hstep := (ih h).1
    obtain ⟨o1, o2⟩ := acc
    unfold cheaper at hstep
    grind

theorem cheapestTwoWork_perm : ∃ rest,
    works.Perm ((cheapestTwoWork works).1.toList ++ (cheapestTwoWork works).2.toList ++ rest) := by
  obtain ⟨rest, hperm⟩ := @foldl_cheaper works (none, none) fun _ => rfl
  exact ⟨rest, hperm⟩

theorem cheapest_mem (h : (cheapestTwoWork works).1 = some w) : w ∈ works := by
  obtain ⟨rest, hperm⟩ := @cheapestTwoWork_perm works
  exact hperm.mem_iff.2 (by simp [h])

theorem second_mem (h : (cheapestTwoWork works).2 = some w) : w ∈ works := by
  obtain ⟨rest, hperm⟩ := @cheapestTwoWork_perm works
  exact hperm.mem_iff.2 (by simp [h])

/-- What can be said of any selection: it has its parts, they are of works at hand, and so are the others. -/
structure Selected (n : Nat) (works : List TransactionSnarkWork)
    (selection : AtMostTwo CoinbaseFeeTransfer × List TransactionSnarkWork) : Prop where
  parts : selection.1.parts = n
  others : selection.2.Sublist works
  paid : ∀ ft ∈ selection.1.feeTransfers, ∃ w ∈ works, coinbaseFt w = some ft

theorem diff_sublist {ws' : List (OneOrTwo Statement)} : (diff works ws').Sublist works := List.filter_sublist

theorem selected_zero : Selected 0 works (.zero, works) := ⟨rfl, List.Sublist.refl _, by simp [AtMostTwo.feeTransfers]⟩

theorem selected_one_none : Selected 1 works (.one none, works) :=
  ⟨rfl, List.Sublist.refl _, by simp [AtMostTwo.feeTransfers]⟩

theorem selected_two_none : Selected 2 works (.two none, works) :=
  ⟨rfl, List.Sublist.refl _, by simp [AtMostTwo.feeTransfers]⟩

theorem selected_oneWork {selection : AtMostTwo CoinbaseFeeTransfer × List TransactionSnarkWork}
    (h : oneWork works budget = some selection) : Selected 1 works selection := by
  obtain ⟨w, hw, rfl⟩ := Option.map_eq_some_iff.1 h
  split
  · refine ⟨rfl, diff_sublist, fun ft hft => ⟨w, cheapest_mem hw, ?_⟩⟩
    simpa [AtMostTwo.feeTransfers] using hft
  · exact selected_one_none

theorem mem_feeTransfers_two {ft : CoinbaseFeeTransfer} {o : Option CoinbaseFeeTransfer}
    (h : ft ∈ (AtMostTwo.two ((coinbaseFt w1).map fun ft => (ft, o))).feeTransfers) :
    coinbaseFt w1 = some ft ∨ o = some ft := by
  cases hw : coinbaseFt w1 with
  | none => simp [hw, AtMostTwo.feeTransfers] at h
  | some ft1 => simpa [hw, AtMostTwo.feeTransfers, eq_comm] using h

theorem selected_twoWorks {coinbaseAmount : Nat} {selection : AtMostTwo CoinbaseFeeTransfer × List TransactionSnarkWork}
    (h : twoWorks works coinbaseAmount budget = some selection) : Selected 2 works selection := by
  have hfirst {w : TransactionSnarkWork} (hw : (cheapestTwoWork works).1 = some w) :
      Selected 2 works (.two ((coinbaseFt w).map fun ft => (ft, none)), diff works [w.statement]) := by
    refine ⟨rfl, diff_sublist, fun ft hft => ⟨w, cheapest_mem hw, ?_⟩⟩
    simpa using mem_feeTransfers_two hft
  unfold twoWorks at h
  split at h
  · cases h
  · rename_i w hw
    split at h
    · obtain rfl := Option.some.inj h
      exact hfirst (by rw [hw])
    · obtain rfl := Option.some.inj h
      exact selected_two_none
  · rename_i w1 w2 hw
    obtain ⟨sum, -, h⟩ := Option.bind_eq_some_iff.1 h
    split at h
    · obtain rfl := Option.some.inj h
      refine ⟨rfl, diff_sublist, fun ft hft => ?_⟩
      rcases mem_feeTransfers_two hft with hft | hft
      · exact ⟨w1, cheapest_mem (by rw [hw]), hft⟩
      · exact ⟨w2, second_mem (by rw [hw]), hft⟩
    · split at h
      · obtain rfl := Option.some.inj h
        exact hfirst (by rw [hw])
      · obtain rfl := Option.some.inj h
        exact selected_two_none

variable {isCoinbaseReceiverNew superchargeCoinbase : Bool}
  {selection : AtMostTwo CoinbaseFeeTransfer × List TransactionSnarkWork}

theorem selected_coinbaseWork_one
    (h : coinbaseWork constants false works isCoinbaseReceiverNew superchargeCoinbase = some selection) :
    Selected 1 works selection := by
  obtain ⟨amount, -, h⟩ := Option.bind_eq_some_iff.1 h
  obtain ⟨budget, -, h⟩ := Option.bind_eq_some_iff.1 h
  exact selected_oneWork h

theorem selected_coinbaseWork_two
    (h : coinbaseWork constants true works isCoinbaseReceiverNew superchargeCoinbase = some selection) :
    Selected 2 works selection := by
  obtain ⟨amount, -, h⟩ := Option.bind_eq_some_iff.1 h
  obtain ⟨budget, -, h⟩ := Option.bind_eq_some_iff.1 h
  exact selected_twoWorks h

theorem selected_initialSelection {addCoinbase : Bool} {jobCount : Nat} {slots : Int} : ∃ n ≤ 1, Selected n works
    (initialSelection constants works addCoinbase jobCount slots isCoinbaseReceiverNew superchargeCoinbase) := by
  unfold initialSelection
  split
  · rename_i h
    exact ⟨1, Nat.le_refl _, selected_coinbaseWork_one h⟩
  · split
    · exact ⟨1, Nat.le_refl _, selected_one_none⟩
    · exact ⟨0, Nat.zero_le _, selected_zero⟩
  · exact ⟨0, Nat.zero_le _, selected_zero⟩

theorem selected_reselection (t : Resources) :
    Selected t.coinbase.parts t.completedWorkRev (reselection constants t) := by
  unfold reselection
  cases hcoinbase : t.coinbase with
  | zero => exact selected_zero
  | one ft =>
    dsimp only
    split
    · exact selected_one_none
    · rename_i h
      exact selected_coinbaseWork_one h
  | two fts =>
    dsimp only
    split
    · exact selected_two_none
    · rename_i h
      exact selected_coinbaseWork_two h

end Selection

/-! ### What the others are charged -/

section Charged

variable {works' : List TransactionSnarkWork} {m m' : ExtTreeMap PublicKey Nat} {pk : PublicKey}
  {l : List (PublicKey × Nat)}

theorem paid_workPayments : paid (workPayments works) = (works.map TransactionSnarkWork.fee).sum := by
  unfold paid workPayments
  rw [List.map_map]
  rfl

theorem paid_singles : paid (singles works) = (works.map TransactionSnarkWork.fee).sum := by
  rw [← paid_workPayments, ← paid_paidWorks]
  exact paid_perm (List.reverse_perm _)

theorem paidTo_singles : paidTo pk (singles works) = paidTo pk (workPayments works) := by
  rw [← paidTo_paidWorks]
  exact paidTo_perm (List.reverse_perm _)

theorem singles_ne_zero : ∀ e ∈ singles works, e.2 ≠ 0 := by
  intro e he
  unfold singles at he
  grind

theorem singles_prover : ∀ e ∈ singles works, ∃ w ∈ works, w.prover = e.1 := by
  intro e he
  unfold singles at he
  grind

theorem fees_le_of_sublist (h : works'.Sublist works) :
    (works'.map TransactionSnarkWork.fee).sum ≤ (works.map TransactionSnarkWork.fee).sum :=
  (h.map _).sum_le_sum fun _ _ => Nat.zero_le _

/-- Fees that can be added up have a map. -/
theorem exists_foldlM_addSingle (h : paid m.toList + paid l < 2 ^ 64) : ∃ m', l.foldlM addSingle m = some m' := by
  induction l generalizing m with
  | nil => exact ⟨m, rfl⟩
  | cons e l ih =>
    rw [paid_cons] at h
    have hentry := paid_toList m e.1
    have hstep : addSingle m e = some (m.insert e.1 (m[e.1]?.getD 0 + e.2)) := by
      unfold addSingle
      cases hget : m[e.1]? with
      | none => simp
      | some fee =>
        rw [hget, Option.getD_some] at hentry
        simp [Amount.add_eq_some.2 ⟨rfl, (by omega : fee + e.2 < 2 ^ 64)⟩]
    have hinsert := @paid_insert m e.1 (m[e.1]?.getD 0 + e.2)
    rw [List.foldlM_cons, hstep]
    exact ih (by omega)

theorem exists_singlesMap (h : (works.map TransactionSnarkWork.fee).sum < 2 ^ 64) :
    ∃ m, singlesMap (singles works) = some m := by
  rw [singlesMap_eq]
  refine exists_foldlM_addSingle ?_
  rw [paid_singles, ExtTreeMap.toList_eq_nil_iff.2 rfl, paid_nil, Nat.zero_add]
  exact h

theorem mem_of_foldlM_addSingle (h : l.foldlM addSingle m = some m') (hpk : pk ∈ m') : pk ∈ m ∨ ∃ e ∈ l, e.1 = pk := by
  induction l generalizing m with
  | nil =>
    obtain rfl := Option.some.inj h
    exact .inl hpk
  | cons e l ih =>
    rw [List.foldlM_cons] at h
    obtain ⟨m₁, hstep, h⟩ := Option.bind_eq_some_iff.1 h
    obtain rfl := addSingle_eq hstep
    rcases ih h with hm | ⟨e', he', heq⟩
    · rcases ExtTreeMap.mem_insert.1 hm with heq | hm
      · exact .inr ⟨e, List.mem_cons_self, LawfulEqOrd.compare_eq_iff_eq.1 heq⟩
      · exact .inl hm
    · exact .inr ⟨e', List.mem_cons_of_mem _ he', heq⟩

/-- **Only provers are charged.** -/
theorem prover_of_mem (h : singlesMap (singles works) = some m) (hpk : pk ∈ m) : ∃ w ∈ works, w.prover = pk := by
  rcases mem_of_foldlM_addSingle h hpk with hm | ⟨e, he, rfl⟩
  · simp at hm
  · exact singles_prover e he

/-- **What a prover is charged** are the fees of its works, where there are any. -/
theorem singlesMap_getElem? (h : singlesMap (singles works) = some m) :
    m[pk]? = if paidTo pk (workPayments works) = 0 then none else some (paidTo pk (workPayments works)) := by
  have hnil : (∅ : ExtTreeMap PublicKey Nat).toList = [] := ExtTreeMap.toList_eq_nil_iff.2 rfl
  obtain ⟨hzero, hto, -⟩ := foldlM_addSingle h (fun pk v hv => by simp at hv) singles_ne_zero
  have hpk := hto pk
  rw [paidTo_singles, hnil, paidTo_nil, Nat.zero_add, paidTo_toList] at hpk
  cases hget : m[pk]? with
  | none => simp [← hpk, hget]
  | some v =>
    have hv := hzero pk v hget
    simp [← hpk, hget, hv]

end Charged

/-! ### What a step changes -/

section Steps

variable {t t' : Resources} {remSeq : List TransactionSnarkWork}

/-- **The start**: all the commands and all the works, and what a selection leaves is charged. -/
theorem init_cases {ucSeq : List Command} {cwSeq : List TransactionSnarkWork} {slots : Int} {jobCount : Nat}
    {receiverPk : PublicKey} {addCoinbase superchargeCoinbase isCoinbaseReceiverNew : Bool}
    {selection : AtMostTwo CoinbaseFeeTransfer × List TransactionSnarkWork}
    (hselection : initialSelection constants cwSeq addCoinbase jobCount slots isCoinbaseReceiverNew
      superchargeCoinbase = selection) :
    init constants ucSeq cwSeq slots jobCount receiverPk addCoinbase superchargeCoinbase isCoinbaseReceiverNew = some t ↔
      ∃ m, singlesMap (singles selection.2) = some m ∧
        t = ⟨slots, jobCount, ucSeq, cwSeq.reverse, m, addCoinbase, selection.1, superchargeCoinbase, receiverPk,
          initialBudget ucSeq (singles selection.2) receiverPk, ⟨[], []⟩, isCoinbaseReceiverNew⟩ := by
  subst hselection
  unfold init initCoinbaseAndFeeTransfers
  simp only [Option.bind_eq_bind, Option.bind_eq_some_iff, Option.pure_def, Option.some.injEq]
  exact exists_congr fun m => and_congr_right fun _ => eq_comm

/-- The resources when the coinbase is selected anew. -/
def charging (constants : ConstraintConstants) (t : Resources) (m : ExtTreeMap PublicKey Nat) : Resources :=
  { t with coinbase := (reselection constants t).1, feeTransfers := m }

/-- The resources without their last work, before the coinbase is selected anew. -/
def withoutWork (t : Resources) (w : TransactionSnarkWork) (remSeq : List TransactionSnarkWork) : Resources :=
  { t with completedWorkRev := remSeq, discarded := t.discarded.addCompletedWork w }

/-- The resources with a work taken back, before the coinbase is selected anew. -/
def withWork (t : Resources) (w : TransactionSnarkWork) (remWork : List TransactionSnarkWork)
    (coinbase : AtMostTwo CoinbaseFeeTransfer) : Resources :=
  { t with
    completedWorkRev := w :: t.completedWorkRev
    discarded := { t.discarded with completedWork := remWork }
    coinbase := coinbase }

/-- The budget without a work, when the coinbase is selected anew. -/
def budgetWithout (t : Resources) (w : TransactionSnarkWork) (newT : Resources) : Option Nat :=
  match t.budget with
  | some b => Amount.add b w.fee
  | none => rebudget newT

theorem reselectCoinbaseWork_eq : reselectCoinbaseWork constants t =
    (singlesMap (singles (reselection constants t).2)).map (charging constants t) := by
  change (singlesMap (singles (reselection constants t).2)).bind _ = _
  cases singlesMap (singles (reselection constants t).2) <;> rfl

theorem discardLastWork_of_nil (h : t.completedWorkRev = []) : discardLastWork constants t = some (t, none) := by
  unfold discardLastWork
  rw [h]

theorem discardLastWork_of_cons (h : t.completedWorkRev = w :: remSeq) :
    discardLastWork constants t = (reselectCoinbaseWork constants (t.withoutWork w remSeq)).map fun newT =>
      ({ newT with budget := t.budgetWithout w newT }, some w) := by
  unfold discardLastWork
  rw [h]
  change (reselectCoinbaseWork constants (t.withoutWork w remSeq)).bind _ = _
  cases reselectCoinbaseWork constants (t.withoutWork w remSeq) <;> rfl

/-- **Leaving out a work** keeps the commands, and the coinbase and the fee transfers are those of a selection
from the other works. -/
theorem discardLastWork_cases {wo : Option TransactionSnarkWork} (h : discardLastWork constants t = some (t', wo)) :
    (t.completedWorkRev = [] ∧ t' = t) ∨
      ∃ w remSeq m, t.completedWorkRev = w :: remSeq ∧
        singlesMap (singles (reselection constants (t.withoutWork w remSeq)).2) = some m ∧
        t' = { charging constants (t.withoutWork w remSeq) m with
          budget := t.budgetWithout w (charging constants (t.withoutWork w remSeq) m) } := by
  cases hworks : t.completedWorkRev with
  | nil =>
    rw [discardLastWork_of_nil hworks] at h
    cases h
    exact .inl ⟨rfl, rfl⟩
  | cons w remSeq =>
    rw [discardLastWork_of_cons hworks, reselectCoinbaseWork_eq, Option.map_map] at h
    obtain ⟨m, hm, heq⟩ := Option.map_eq_some_iff.1 h
    cases heq
    exact .inr ⟨w, remSeq, m, rfl, hm, rfl⟩

end Steps

end Resources

/-- A work with a statement of its own. -/
def workOf (n fee : Nat) (prover : PublicKey) : TransactionSnarkWork where
  fee := fee
  proofs := .one ⟨⟨sampleRegisters, sampleRegisters, n, 0, FeeExcess.zero, Signed.zero⟩, 0, 0⟩
  prover := prover

/-- A payment with this fee. -/
def paymentOf (fee : Nat) : Command :=
  .signedCommand ⟨⟨fee, ⟨1, false⟩, 0, 10, .payment ⟨2, false⟩ 1000⟩, ⟨1, false⟩⟩

end MinaProtocol.StagedLedger
