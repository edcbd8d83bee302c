import MinaProtocol.StagedLedger.Resources

/-!
# StagedLedger.Creation

The loop that leaves out works and commands until a pre-diff is affordable and fits. Each turn leaves out a
work, a command or a part of the coinbase, so `size` goes down by one.

That a turn always finds something to leave out rests on `Sound`: the keys that are charged are provers of
works at hand, so that they do not take more slots than there are works; and when no work is left, the budget
is what the commands pay.
-/

namespace MinaProtocol.StagedLedger

open Std PreDiffInfo

/-! ### The loop -/

/-- What a call of `check_constraints_and_update` does. -/
inductive Call where
  /-- It returns its argument. -/
  | finished
  /-- It calls itself. -/
  | again (resources : Resources)

section Model

variable (constants : ConstraintConstants)

/-- The body of `check_constraints_and_update`, which raises where `discard_last_work` does. -/
def checkConstraints (resources : Resources) : Option Call :=
  if resources.slotsOccupied = 0 then some .finished
  else if resources.workConstraintSatisfied then
    if resources.budgetSufficient then
      if resources.spaceConstraintSatisfied then some .finished
      else do
        let worked ← resources.workedMore constants
        if worked then
          -- too many fee transfers occupy the slots
          let (resources', _) ← resources.discardLastWork constants
          return .again resources'
        else return .again resources.discardUserCommand.1
    else do
      let (resources', _) ← resources.discardLastWork constants
      return .again resources'
  else some (.again resources.discardUserCommand.1)

/-- `check_constraints_and_update`, with a bound on the calls. -/
def checkConstraintsAndUpdate : Nat → Resources → Option Resources
  | 0, _ => none
  | fuel + 1, resources => do
    match ← checkConstraints constants resources with
    | .finished => return resources
    | .again resources' => checkConstraintsAndUpdate fuel resources'

/-- The arguments of the calls that start with these resources. -/
inductive CalledWith (t : Resources) : Resources → Prop
  | first : CalledWith t t
  | next {r r' : Resources} (h : CalledWith t r) (hcall : checkConstraints constants r = some (.again r')) :
      CalledWith t r'

end Model

/-- No slot is occupied, or all constraints hold. -/
def Settled (r : Resources) : Prop :=
  r.slotsOccupied = 0 ∨
    (r.workConstraintSatisfied = true ∧ r.budgetSufficient = true ∧ r.spaceConstraintSatisfied = true)

namespace Resources

/-! ### What the loop keeps -/

/-- The resources that the loop goes through. -/
structure Sound (t : Resources) : Prop where
  charged : ∀ pk ∈ t.feeTransfers, ∃ w ∈ t.completedWorkRev, w.prover = pk
  paid : ∀ ft ∈ t.coinbase.feeTransfers, ∃ w ∈ t.completedWorkRev, w.prover = ft.receiverPk
  room : (t.completedWorkRev.length : Int) ≤ t.maxSpace
  noWork : t.completedWorkRev = [] → t.budget = some (t.commandsRev.map Command.fee).sum
  commandFees : (t.commandsRev.map Command.fee).sum < 2 ^ 64
  workFees : (t.completedWorkRev.map TransactionSnarkWork.fee).sum < 2 ^ 64

/-- How much there is to leave out. -/
def size (t : Resources) : Nat := t.completedWorkRev.length + t.commandsRev.length + t.coinbase.parts

section Sound

variable {constants : ConstraintConstants} {t t' : Resources} {w : TransactionSnarkWork}
  {works : List TransactionSnarkWork} {wo : Option TransactionSnarkWork} {ft : CoinbaseFeeTransfer}

theorem coinbaseFt_prover (h : coinbaseFt w = some ft) : w.prover = ft.receiverPk := by
  unfold coinbaseFt at h
  grind

theorem sumFees_of_lt {fees : List Nat} (h : fees.sum < 2 ^ 64) : sumFees fees = some fees.sum := by
  have hfrom (init : Nat) (hinit : init + fees.sum < 2 ^ 64) : fees.foldlM Amount.add init = some (init + fees.sum) := by
    induction fees generalizing init with
    | nil => rfl
    | cons fee fees ih =>
      rw [List.sum_cons] at h hinit ⊢
      rw [List.foldlM_cons, Amount.add_eq_some.2 ⟨rfl, by omega⟩]
      rw [← Nat.add_assoc]
      exact ih (by omega) _ (by omega)
  have hzero := hfrom 0 (by omega)
  rw [Nat.zero_add] at hzero
  exact hzero

theorem Sound.otherProvers_le (h : Sound t) : t.otherProvers.length ≤ t.completedWorkRev.length := by
  have hnodup : t.otherProvers.Nodup := ExtTreeMap.nodup_keys.filter _
  have hsubset : t.otherProvers ⊆ t.completedWorkRev.map TransactionSnarkWork.prover := by
    intro pk hpk
    obtain ⟨w, hw, rfl⟩ := h.charged pk (ExtTreeMap.mem_keys.1 (List.mem_filter.1 hpk).1)
    exact List.mem_map_of_mem hw
  simpa using (hnodup.subperm hsubset).length_le

theorem feeForSelf_le (t : Resources) : t.feeForSelf ≤ 1 := by
  unfold feeForSelf
  grind

/-- **Without commands and without a coinbase** there are no more slots than works. -/
theorem Sound.slotsOccupied_le (h : Sound t) (hcommands : t.commandsRev = []) (hcoinbase : t.coinbase = .zero) :
    t.slotsOccupied ≤ t.completedWorkRev.length := by
  have hothers := h.otherProvers_le
  have hself := t.feeForSelf_le
  unfold slotsOccupied
  rw [coinbaseAdded_eq, hcommands, hcoinbase]
  simp only [AtMostTwo.parts, List.length_nil]
  by_cases hworks : t.completedWorkRev = []
  · have hzero : t.feeForSelf = 0 := by
      unfold feeForSelf
      rw [h.noWork hworks, hcommands]
      rfl
    rw [hworks, List.length_nil] at hothers ⊢
    omega
  · have hpos := List.length_pos_of_ne_nil hworks
    omega

/-! ### Leaving out a work -/

theorem exists_reselect (hfees : (t.completedWorkRev.map TransactionSnarkWork.fee).sum < 2 ^ 64) :
    ∃ m, singlesMap (singles (reselection constants t).2) = some m :=
  exists_singlesMap (Nat.lt_of_le_of_lt (fees_le_of_sublist (selected_reselection t).others) hfees)

theorem exists_discardLastWork (h : Sound t) : ∃ result, discardLastWork constants t = some result := by
  cases hworks : t.completedWorkRev with
  | nil => exact ⟨_, discardLastWork_of_nil hworks⟩
  | cons w remSeq =>
    have hfees := h.workFees
    rw [hworks, List.map_cons, List.sum_cons] at hfees
    obtain ⟨m, hm⟩ := @exists_reselect constants (t.withoutWork w remSeq)
      (Nat.lt_of_le_of_lt (Nat.le_add_left _ _) hfees)
    rw [discardLastWork_of_cons hworks, reselectCoinbaseWork_eq, hm]
    exact ⟨_, rfl⟩

theorem rebudget_of_nil {m : ExtTreeMap PublicKey Nat} (hm : singlesMap (singles []) = some m)
    (htransfers : t.feeTransfers = m) (hfees : (t.commandsRev.map Command.fee).sum < 2 ^ 64) :
    rebudget t = some (t.commandsRev.map Command.fee).sum := by
  obtain rfl : ∅ = m := Option.some.inj hm
  unfold rebudget
  rw [sumFees_of_lt hfees, htransfers, ExtTreeMap.toList_eq_nil_iff.2 rfl]
  simp [Amount.sub]

theorem Sound.discardLastWork (h : Sound t) (hdiscard : Resources.discardLastWork constants t = some (t', wo))
    (hstill : t.budget = none ∨ t'.completedWorkRev ≠ []) : Sound t' := by
  rcases discardLastWork_cases hdiscard with ⟨-, rfl⟩ | ⟨w, remSeq, m, hworks, hm, rfl⟩
  · exact h
  have hselected := @selected_reselection constants (t.withoutWork w remSeq)
  have hroom := h.room
  have hfees := h.workFees
  rw [hworks, List.length_cons] at hroom
  rw [hworks, List.map_cons, List.sum_cons] at hfees
  refine ⟨fun pk hpk => ?_, fun ft hft => ?_, ?_, fun hnil => ?_, h.commandFees, ?_⟩
  · obtain ⟨w', hw', hprover⟩ := prover_of_mem hm hpk
    exact ⟨w', hselected.others.subset hw', hprover⟩
  · obtain ⟨w', hw', hft'⟩ := hselected.paid ft hft
    exact ⟨w', hw', coinbaseFt_prover hft'⟩
  · change (remSeq.length : Int) ≤ t.maxSpace
    omega
  · change remSeq = [] at hnil
    subst hnil
    rw [List.sublist_nil.1 hselected.others] at hm
    have hbudget : t.budget = none := hstill.resolve_right fun hne => hne rfl
    change t.budgetWithout w _ = _
    unfold budgetWithout
    rw [hbudget]
    exact rebudget_of_nil hm rfl h.commandFees
  · change (remSeq.map TransactionSnarkWork.fee).sum < 2 ^ 64
    omega

theorem size_discardLastWork
    (hdiscard : discardLastWork constants t = some (t', wo)) (hworks : t.completedWorkRev ≠ []) :
    t'.size + 1 = t.size := by
  rcases discardLastWork_cases hdiscard with ⟨hnil, -⟩ | ⟨w, remSeq, m, hcons, -, rfl⟩
  · exact absurd hnil hworks
  · have hparts := (@selected_reselection constants (t.withoutWork w remSeq)).parts
    unfold size
    rw [hcons, List.length_cons]
    change remSeq.length + t.commandsRev.length + (reselection constants (t.withoutWork w remSeq)).1.parts + 1 = _
    rw [hparts]
    change _ + t.coinbase.parts + 1 = _
    omega

/-! ### Leaving out a command -/

theorem Sound.updateFeeTransfers (h : Sound t) {coinbase : AtMostTwo CoinbaseFeeTransfer}
    (hft : ft ∈ t.coinbase.feeTransfers) (hparts : ∀ ft' ∈ coinbase.feeTransfers, ft' ∈ t.coinbase.feeTransfers) :
    Sound (t.updateFeeTransfers ft coinbase) := by
  obtain ⟨w, hw, hprover⟩ := h.paid ft hft
  refine ⟨fun pk hpk => ?_, fun ft' hft' => h.paid ft' (hparts ft' hft'), h.room, fun hnil => ?_, h.commandFees,
    h.workFees⟩
  · rcases ExtTreeMap.mem_insert.1 hpk with heq | hpk
    · exact ⟨w, hw, hprover.trans (LawfulEqOrd.compare_eq_iff_eq.1 heq)⟩
    · exact h.charged pk hpk
  · change t.completedWorkRev = [] at hnil
    rw [hnil] at hw
    cases hw

theorem Sound.decrCoinbase (h : Sound t) : Sound t.decrCoinbase := by
  have hkept {coinbase : AtMostTwo CoinbaseFeeTransfer}
      (hparts : ∀ ft' ∈ coinbase.feeTransfers, ft' ∈ t.coinbase.feeTransfers) :
      Sound { t with coinbase := coinbase } :=
    ⟨h.charged, fun ft' hft' => h.paid ft' (hparts ft' hft'), h.room, h.noWork, h.commandFees, h.workFees⟩
  unfold Resources.decrCoinbase
  split
  · exact h
  · exact hkept (by simp [AtMostTwo.feeTransfers])
  · exact hkept (by simp [AtMostTwo.feeTransfers])
  · rename_i ft hcoinbase
    exact hkept (by simp [hcoinbase, AtMostTwo.feeTransfers])
  · rename_i ft hcoinbase
    exact h.updateFeeTransfers (by simp [hcoinbase, AtMostTwo.feeTransfers]) (by simp [AtMostTwo.feeTransfers])
  · rename_i ft1 ft2 hcoinbase
    exact h.updateFeeTransfers (by simp [hcoinbase, AtMostTwo.feeTransfers])
      (by simp [hcoinbase, AtMostTwo.feeTransfers])

theorem size_decrCoinbase (hcoinbase : t.coinbase ≠ .zero) : t.decrCoinbase.size + 1 = t.size := by
  unfold decrCoinbase
  split
  · rename_i hzero
    exact absurd hzero hcoinbase
  all_goals
    rename_i heq
    simp [size, updateFeeTransfers, heq, AtMostTwo.parts]

theorem Sound.discardUserCommand (h : Sound t) : Sound t.discardUserCommand.1 := by
  unfold Resources.discardUserCommand
  split
  · exact h.decrCoinbase
  · rename_i uc remSeq hcommands
    have hfees := h.commandFees
    rw [hcommands, List.map_cons, List.sum_cons] at hfees
    refine ⟨h.charged, h.paid, h.room, fun hnil => ?_, Nat.lt_of_le_of_lt (Nat.le_add_left _ _) hfees, h.workFees⟩
    have hbudget := h.noWork hnil
    rw [hcommands, List.map_cons, List.sum_cons] at hbudget
    dsimp only
    rw [hbudget]
    simp [Amount.sub]

theorem size_discardUserCommand (h : t.commandsRev ≠ [] ∨ t.coinbase ≠ .zero) :
    t.discardUserCommand.1.size + 1 = t.size := by
  unfold discardUserCommand
  split
  · rename_i hnil
    exact size_decrCoinbase (h.resolve_left fun hne => hne hnil)
  · rename_i uc remSeq hcommands
    simp only [size, hcommands, List.length_cons]
    omega

end Sound

end Resources

variable {constants : ConstraintConstants} {t : Resources}

section Loop

variable {r r' : Resources}

/-- **What a turn leaves out**: a work when the budget does not suffice, or when the works that are left are
still enough; and else a command. -/
theorem checkConstraints_again (h : checkConstraints constants r = some (.again r')) :
    (∃ wo, Resources.discardLastWork constants r = some (r', wo) ∧ (r.budget = none ∨ r'.moreWork = true)) ∨
      (r' = r.discardUserCommand.1 ∧ (r.workConstraintSatisfied = false ∨ r.spaceConstraintSatisfied = false)) := by
  unfold checkConstraints at h
  split at h
  · cases h
  split at h
  · split at h
    · split at h
      · cases h
      · rename_i hspace
        obtain ⟨worked, hworked, h⟩ := Option.bind_eq_some_iff.1 h
        obtain ⟨⟨r₁, wo⟩, hdiscard, hmore⟩ := Option.bind_eq_some_iff.1 hworked
        obtain rfl : r₁.moreWork = worked := Option.some.inj hmore
        split at h
        · rename_i hwork
          obtain ⟨⟨r₂, wo'⟩, hdiscard', h⟩ := Option.bind_eq_some_iff.1 h
          cases h
          rw [hdiscard] at hdiscard'
          cases hdiscard'
          exact .inl ⟨wo, hdiscard, .inr hwork⟩
        · cases h
          exact .inr ⟨rfl, .inr (Bool.not_eq_true _ ▸ hspace)⟩
    · rename_i hbudget
      obtain ⟨⟨r₁, wo⟩, hdiscard, h⟩ := Option.bind_eq_some_iff.1 h
      cases h
      refine .inl ⟨wo, hdiscard, .inl ?_⟩
      simpa [Resources.budgetSufficient] using hbudget
  · rename_i hwork
    cases h
    exact .inr ⟨rfl, .inl (Bool.not_eq_true _ ▸ hwork)⟩

theorem settled_of_finished (h : checkConstraints constants r = some .finished) : Settled r := by
  unfold checkConstraints at h
  split at h
  · rename_i hslots
    exact .inl hslots
  split at h
  · rename_i hwork
    split at h
    · rename_i hbudget
      split at h
      · rename_i hspace
        exact .inr ⟨hwork, hbudget, hspace⟩
      · obtain ⟨worked, -, h⟩ := Option.bind_eq_some_iff.1 h
        split at h
        · obtain ⟨result, -, h⟩ := Option.bind_eq_some_iff.1 h
          cases h
        · cases h
    · obtain ⟨result, -, h⟩ := Option.bind_eq_some_iff.1 h
      cases h
  · cases h

namespace Resources

theorem workConstraintSatisfied_of_le (h : r.slotsOccupied ≤ r.completedWorkRev.length) :
    r.workConstraintSatisfied = true := by
  simp [workConstraintSatisfied, h]

theorem spaceConstraintSatisfied_of_le (h : (r.slotsOccupied : Int) ≤ r.maxSpace) :
    r.spaceConstraintSatisfied = true := by
  simpa [spaceConstraintSatisfied] using h

/-- **Where a command is to be left out**, there is one, or a part of the coinbase. -/
theorem Sound.exists_command (h : Sound r)
    (hfails : r.workConstraintSatisfied = false ∨ r.spaceConstraintSatisfied = false) :
    r.commandsRev ≠ [] ∨ r.coinbase ≠ .zero := by
  by_contra hnone
  rw [not_or, not_ne_iff, not_ne_iff] at hnone
  have hslots := h.slotsOccupied_le hnone.1 hnone.2
  have hroom := h.room
  rcases hfails with hwork | hspace
  · rw [workConstraintSatisfied_of_le hslots] at hwork
    cases hwork
  · rw [spaceConstraintSatisfied_of_le (by omega)] at hspace
    cases hspace

/-- **A turn keeps what the loop needs**, and there is less to leave out after it. -/
theorem Sound.again (h : Sound r) (hcall : checkConstraints constants r = some (.again r')) :
    Sound r' ∧ r'.size + 1 = r.size := by
  rcases checkConstraints_again hcall with ⟨wo, hdiscard, hwhy⟩ | ⟨rfl, hfails⟩
  · have hstill : r.budget = none ∨ r'.completedWorkRev ≠ [] := by
      refine hwhy.imp_right fun hmore hnil => ?_
      simp [moreWork, hnil] at hmore
    have hworks : r.completedWorkRev ≠ [] := by
      intro hnil
      rcases discardLastWork_cases hdiscard with ⟨-, rfl⟩ | ⟨w, remSeq, m, hcons, -⟩
      · rcases hstill with hbudget | hne
        · rw [h.noWork hnil] at hbudget
          cases hbudget
        · exact hne hnil
      · rw [hnil] at hcons
        cases hcons
    exact ⟨h.discardLastWork hdiscard hstill, size_discardLastWork hdiscard hworks⟩
  · exact ⟨h.discardUserCommand, size_discardUserCommand (h.exists_command hfails)⟩

theorem Sound.exists_call (h : Sound r) : ∃ call, checkConstraints constants r = some call := by
  obtain ⟨⟨r₁, wo⟩, hdiscard⟩ := @exists_discardLastWork constants r h
  have hworked : r.workedMore constants = some r₁.moreWork := by
    unfold workedMore
    rw [hdiscard]
    rfl
  unfold checkConstraints
  rw [hworked, hdiscard]
  simp only [Option.bind_eq_bind, Option.bind_some]
  split_ifs <;> exact ⟨_, rfl⟩

end Resources

theorem CalledWith.sound (h : t.Sound) (hcalled : CalledWith constants t r) : r.Sound := by
  induction hcalled with
  | first => exact h
  | next _ hcall ih => exact (ih.again hcall).1

/-- **The loop ends** within as many turns as there are things to leave out. -/
theorem exists_checkConstraintsAndUpdate {fuel : Nat} (h : r.Sound) (hfuel : r.size < fuel) :
    ∃ result, checkConstraintsAndUpdate constants fuel r = some result ∧ Settled result := by
  induction fuel generalizing r with
  | zero => omega
  | succ fuel ih =>
    obtain ⟨call, hcall⟩ := @Resources.Sound.exists_call constants r h
    unfold checkConstraintsAndUpdate
    rw [hcall]
    cases call with
    | finished => exact ⟨r, rfl, settled_of_finished hcall⟩
    | again r' =>
      obtain ⟨hsound, hsize⟩ := h.again hcall
      exact ih hsound (by omega)

end Loop

/-! ### The start -/

section Start

variable {ucSeq : List Command} {cwSeq : List TransactionSnarkWork} {slots : Int} {jobCount : Nat}
  {receiverPk : PublicKey} {addCoinbase superchargeCoinbase isCoinbaseReceiverNew : Bool}

namespace Resources

theorem exists_init (hworks : (cwSeq.map TransactionSnarkWork.fee).sum < 2 ^ 64) :
    ∃ t, init constants ucSeq cwSeq slots jobCount receiverPk addCoinbase superchargeCoinbase isCoinbaseReceiverNew =
      some t := by
  obtain ⟨n, -, hselected⟩ := @selected_initialSelection constants cwSeq isCoinbaseReceiverNew superchargeCoinbase
    addCoinbase jobCount slots
  obtain ⟨m, hm⟩ := exists_singlesMap (Nat.lt_of_le_of_lt (fees_le_of_sublist hselected.others) hworks)
  exact ⟨_, (init_cases rfl).2 ⟨m, hm, rfl⟩⟩

theorem sound_init (hjobs : cwSeq.length ≤ jobCount) (hslots : (jobCount : Int) ≤ slots)
    (hcommands : (ucSeq.map Command.fee).sum < 2 ^ 64) (hworks : (cwSeq.map TransactionSnarkWork.fee).sum < 2 ^ 64)
    (h : init constants ucSeq cwSeq slots jobCount receiverPk addCoinbase superchargeCoinbase isCoinbaseReceiverNew =
      some t) :
    Sound t ∧ t.size ≤ cwSeq.length + ucSeq.length + 1 := by
  obtain ⟨n, hn, hselected⟩ := @selected_initialSelection constants cwSeq isCoinbaseReceiverNew superchargeCoinbase
    addCoinbase jobCount slots
  generalize hselection : initialSelection constants cwSeq addCoinbase jobCount slots isCoinbaseReceiverNew
    superchargeCoinbase = selection at hselected
  obtain ⟨m, hm, rfl⟩ := (init_cases hselection).1 h
  refine ⟨⟨fun pk hpk => ?_, fun ft hft => ?_, ?_, fun hnil => ?_, hcommands, ?_⟩, ?_⟩
  · obtain ⟨w, hw, hprover⟩ := prover_of_mem hm hpk
    exact ⟨w, List.mem_reverse.2 (hselected.others.subset hw), hprover⟩
  · obtain ⟨w, hw, hft'⟩ := hselected.paid ft hft
    exact ⟨w, List.mem_reverse.2 hw, coinbaseFt_prover hft'⟩
  · change (cwSeq.reverse.length : Int) ≤ slots
    rw [List.length_reverse]
    omega
  · obtain rfl := List.reverse_eq_nil_iff.1 hnil
    change initialBudget ucSeq (singles selection.2) receiverPk = _
    rw [List.sublist_nil.1 hselected.others]
    unfold initialBudget
    rw [sumFees_of_lt hcommands]
    simp [singles, sumFees, Amount.sub]
  · simpa using hworks
  · have hparts := hselected.parts
    simp only [size, List.length_reverse]
    omega

end Resources

/-- **The creation of a diff terminates.** From works that are no more than the jobs, in no fewer slots, the loop
returns resources that occupy no slot or meet all constraints, within as many turns as there are works, commands
and coinbases; and it never calls itself with what it was called with. -/
theorem diff_creation_terminates (constants : ConstraintConstants) (ucSeq : List Command)
    (cwSeq : List TransactionSnarkWork) (slots : Int) (jobCount : Nat) (receiverPk : PublicKey)
    (addCoinbase superchargeCoinbase isCoinbaseReceiverNew : Bool) (hjobs : cwSeq.length ≤ jobCount)
    (hslots : (jobCount : Int) ≤ slots) (hcommands : (ucSeq.map Command.fee).sum < 2 ^ 64)
    (hworks : (cwSeq.map TransactionSnarkWork.fee).sum < 2 ^ 64) :
    ∃ t, Resources.init constants ucSeq cwSeq slots jobCount receiverPk addCoinbase superchargeCoinbase
        isCoinbaseReceiverNew = some t ∧
      (∃ result, checkConstraintsAndUpdate constants (cwSeq.length + ucSeq.length + 2) t = some result ∧
        Settled result) ∧
      ∀ r r', CalledWith constants t r → checkConstraints constants r = some (.again r') → r' ≠ r := by
  obtain ⟨t, ht⟩ : ∃ t, Resources.init constants ucSeq cwSeq slots jobCount receiverPk addCoinbase
      superchargeCoinbase isCoinbaseReceiverNew = some t := Resources.exists_init hworks
  obtain ⟨hsound, hsize⟩ := Resources.sound_init hjobs hslots hcommands hworks ht
  refine ⟨t, ht, exists_checkConstraintsAndUpdate hsound (by omega), fun r r' hcalled hcall heq => ?_⟩
  have hless := ((hcalled.sound hsound).again hcall).2
  rw [heq] at hless
  omega

end Start

/-- Works that cost more than the commands pay. -/
theorem diff_creation_terminates_costly :
    ∃ t, Resources.init sampleConstants [paymentOf 2] [workOf 1 5 sampleProver, workOf 2 7 sampleProver] 3 2 ⟨1, false⟩
        true false false = some t ∧
      (∃ result, checkConstraintsAndUpdate sampleConstants 5 t = some result ∧ Settled result) ∧
      ∀ r r', CalledWith sampleConstants t r → checkConstraints sampleConstants r = some (.again r') → r' ≠ r :=
  diff_creation_terminates sampleConstants [paymentOf 2] [workOf 1 5 sampleProver, workOf 2 7 sampleProver] 3 2
    ⟨1, false⟩ true false false (by decide) (by decide) (by decide) (by decide)

end MinaProtocol.StagedLedger
