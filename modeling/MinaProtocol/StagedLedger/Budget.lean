import MinaProtocol.StagedLedger.Creation

/-!
# StagedLedger.Budget

The books of the creation of a diff. `Exact` says that they are right: each work at hand is paid by the
coinbase or charged to its prover's entry, and the budget is what `rebudget` makes of the commands and the
entries.

They are not always kept right. A work that is left out is added back to the budget in full, also if nothing
was charged for it or if another work takes its place; a part of the coinbase that is left out overwrites what
its prover is charged already; a work that is taken back is charged, and the budget is not; and when the
cheapest work is free, the second part of a coinbase pays for none. `Kept` is the condition, for each operation,
under which none of this happens.
-/

namespace MinaProtocol.StagedLedger

open Std PreDiffInfo

/-! ### Payments to others -/

/-- The payments to others than the receiver of the coinbase. -/
def toOthers (receiver : PublicKey) (l : List (PublicKey × Nat)) : List (PublicKey × Nat) :=
  l.filter fun e => receiver ≠ e.1

variable {receiver : PublicKey} {l : List (PublicKey × Nat)}

section Payments

variable {l' : List (PublicKey × Nat)}

theorem paid_eq_sum {s : Finset PublicKey} (h : ∀ e ∈ l, e.1 ∈ s) : paid l = ∑ pk ∈ s, paidTo pk l := by
  induction l with
  | nil => simp
  | cons e l ih =>
    have hhead := h e List.mem_cons_self
    have hsingle : (∑ pk ∈ s, if pk = e.1 then e.2 else 0) = e.2 := by
      rw [Finset.sum_ite_eq', if_pos hhead]
    simp only [paid_cons, paidTo_cons, Finset.sum_add_distrib, hsingle,
      ih fun e' he' => h e' (List.mem_cons_of_mem _ he')]

/-- **What is paid in all** is what is paid to each key. -/
theorem paid_eq_of_paidTo (h : ∀ pk, paidTo pk l = paidTo pk l') : paid l = paid l' := by
  have hmem : ∀ e ∈ l ++ l', e.1 ∈ ((l ++ l').map Prod.fst).toFinset := fun e he =>
    List.mem_toFinset.2 (List.mem_map_of_mem he)
  rw [paid_eq_sum fun e he => hmem e (List.mem_append_left _ he),
    paid_eq_sum fun e he => hmem e (List.mem_append_right _ he)]
  exact Finset.sum_congr rfl fun pk _ => h pk

theorem paid_toOthers_of_paidTo (h : ∀ pk, paidTo pk l = paidTo pk l') :
    paid (toOthers receiver l) = paid (toOthers receiver l') := by
  refine paid_eq_of_paidTo fun pk => ?_
  unfold toOthers
  by_cases hpk : pk = receiver
  · rw [hpk, paidTo_filter_self, paidTo_filter_self]
  · rw [paidTo_filter_ne hpk, paidTo_filter_ne hpk, h pk]

end Payments

/-! ### The budget -/

section Budget

variable {fees charged : List Nat} {total : Nat}

theorem foldlM_add_lt {init : Nat} (h : fees.foldlM Amount.add init = some total) (hinit : init < 2 ^ 64) :
    total < 2 ^ 64 := by
  induction fees generalizing init with
  | nil =>
    obtain rfl := Option.some.inj h
    exact hinit
  | cons fee fees ih =>
    rw [List.foldlM_cons] at h
    obtain ⟨next, hadd, h⟩ := Option.bind_eq_some_iff.1 h
    exact ih h (Amount.add_eq_some.1 hadd).2

theorem sumFees_eq_some : sumFees fees = some total ↔ total = fees.sum ∧ fees.sum < 2 ^ 64 := by
  constructor
  · intro h
    obtain rfl := sumFees_eq h
    exact ⟨rfl, foldlM_add_lt h (Nat.two_pow_pos 64)⟩
  · intro h
    obtain ⟨rfl, hlt⟩ := h
    exact Resources.sumFees_of_lt hlt

theorem budget_eq (hfees : fees.sum < 2 ^ 64) : (do
      let r ← sumFees fees
      let c ← sumFees charged
      Amount.sub r c) = if charged.sum ≤ fees.sum then some (fees.sum - charged.sum) else none := by
  rw [Resources.sumFees_of_lt hfees]
  by_cases hle : charged.sum ≤ fees.sum
  · rw [Resources.sumFees_of_lt (Nat.lt_of_le_of_lt hle hfees), if_pos hle]
    simp [Amount.sub, hle]
  · rw [if_neg hle]
    cases hcharged : sumFees charged with
    | none => rfl
    | some c =>
      obtain ⟨rfl, -⟩ := sumFees_eq_some.1 hcharged
      simp [Amount.sub, hle]

theorem foldlM_addOther (init : Nat) : l.foldlM (Resources.addOther receiver) init =
    ((toOthers receiver l).map Prod.snd).foldlM Amount.add init := by
  unfold toOthers
  induction l generalizing init with
  | nil => rfl
  | cons e l ih =>
    rw [List.foldlM_cons]
    by_cases h : receiver = e.1
    · simpa [Resources.addOther, h] using ih init
    · simp only [Resources.addOther, List.filter_cons, ne_eq, h, not_false_eq_true, decide_true, if_true, List.map_cons,
        List.foldlM_cons]
      exact bind_congr fun next => ih next

end Budget

namespace Resources

variable (t : Resources)

/-- The fees of the commands. -/
def commandFees : Nat := (t.commandsRev.map Command.fee).sum

/-- The fees that are charged for the works of other provers. -/
def otherFees : Nat := paid (toOthers t.receiverPk t.feeTransfers.toList)

/-- **`rebudget`** is what the commands pay less what is charged, if that is not negative. -/
theorem rebudget_eq {t : Resources} (h : t.commandFees < 2 ^ 64) :
    rebudget t = if t.otherFees ≤ t.commandFees then some (t.commandFees - t.otherFees) else none := by
  unfold rebudget
  rw [foldlM_addOther]
  exact budget_eq h

theorem initialBudget_eq {ucSeq : List Command} {singles : List (PublicKey × Nat)} {receiverPk : PublicKey}
    (h : (ucSeq.map Command.fee).sum < 2 ^ 64) : initialBudget ucSeq singles receiverPk =
      if paid (toOthers receiverPk singles) ≤ (ucSeq.map Command.fee).sum then
        some ((ucSeq.map Command.fee).sum - paid (toOthers receiverPk singles))
      else none := by
  have hfilter : (singles.filter fun e => e.1 ≠ receiverPk) = toOthers receiverPk singles :=
    List.filter_congr fun e _ => decide_eq_decide.2 ne_comm
  unfold initialBudget
  rw [hfilter]
  exact budget_eq h

/-! ### Books that are right -/

/-- The works at hand are those that the coinbase pays, each with its fee transfer if it has a fee, and others
whose fees are charged to their provers. -/
def Accounted : Prop :=
  ∃ paidWorks rest, t.completedWorkRev.Perm (paidWorks ++ rest) ∧
    paidWorks.filterMap coinbaseFt = t.coinbase.feeTransfers ∧
    ∀ pk, t.feeTransfers[pk]? =
      if paidTo pk (workPayments rest) = 0 then none else some (paidTo pk (workPayments rest))

/-- **The books are right.** The works are accounted for, and the budget is what `rebudget` computes, which is what
the fees of the commands leave of the charges to others. -/
structure Exact : Prop where
  works : Accounted t
  budget : t.budget = rebudget t
  rebudget : rebudget t = if t.otherFees ≤ t.commandFees then some (t.commandFees - t.otherFees) else none

/-- The second part of the coinbase takes a work that it does not pay, because the first part takes a free one. -/
def DropsSecond (constants : ConstraintConstants) (t : Resources) : Prop :=
  ∃ fts w1 w2 coinbaseAmount budget, t.coinbase = .two fts ∧ cheapestTwoWork t.completedWorkRev = (some w1, some w2) ∧
    w1.fee = 0 ∧ 0 < w2.fee ∧ Diff.coinbaseAmount constants t.superchargeCoinbase = some coinbaseAmount ∧
    coinbaseBudget constants t.isCoinbaseReceiverNew coinbaseAmount = some budget ∧ w2.fee ≤ budget

/-! ### A selection -/

variable {constants : ConstraintConstants} {coinbase : AtMostTwo CoinbaseFeeTransfer}

section Selection

variable {works ws rest : List TransactionSnarkWork} {w : TransactionSnarkWork}
  {selection : AtMostTwo CoinbaseFeeTransfer × List TransactionSnarkWork} {t : Resources} {budget : Nat}

/-- The selection has each work, either among those that it pays or among the others. -/
def Covers (works : List TransactionSnarkWork)
    (selection : AtMostTwo CoinbaseFeeTransfer × List TransactionSnarkWork) : Prop :=
  ∃ paidWorks, works.Perm (paidWorks ++ selection.2) ∧ paidWorks.filterMap coinbaseFt = selection.1.feeTransfers

theorem covers_of_nil (h : coinbase.feeTransfers = []) :
    Covers works (coinbase, works) := ⟨[], List.Perm.refl _, h.symm⟩

theorem diff_perm (hperm : works.Perm (ws ++ rest)) (hdistinct : (works.map TransactionSnarkWork.statement).Nodup) :
    works.Perm (ws ++ diff works (ws.map TransactionSnarkWork.statement)) := by
  have hnodup : ((ws ++ rest).map TransactionSnarkWork.statement).Nodup := (hperm.map _).nodup_iff.1 hdistinct
  rw [List.map_append, List.nodup_append] at hnodup
  have hws : diff ws (ws.map TransactionSnarkWork.statement) = [] := by
    unfold diff
    rw [List.filter_eq_nil_iff]
    intro w hw
    simpa using ⟨w, hw, rfl⟩
  have hrest : diff rest (ws.map TransactionSnarkWork.statement) = rest := by
    unfold diff
    rw [List.filter_eq_self]
    intro w hw
    have hnew := fun h => hnodup.2.2 w.statement h w.statement (List.mem_map_of_mem hw) rfl
    simpa using hnew
  have hdiff : (diff works (ws.map TransactionSnarkWork.statement)).Perm rest := by
    have hfilter : (diff works (ws.map TransactionSnarkWork.statement)).Perm
        (diff (ws ++ rest) (ws.map TransactionSnarkWork.statement)) := hperm.filter _
    unfold diff at hfilter hws hrest ⊢
    rwa [List.filter_append, hws, hrest, List.nil_append] at hfilter
  exact hperm.trans (hdiff.symm.append_left ws)

theorem covers_first (h : (cheapestTwoWork works).1 = some w)
    (hdistinct : (works.map TransactionSnarkWork.statement).Nodup)
    (hcoinbase : coinbase.feeTransfers = (coinbaseFt w).toList) : Covers works (coinbase, diff works [w.statement]) := by
  obtain ⟨rest, hperm⟩ := @cheapestTwoWork_perm works
  rw [h, List.append_assoc] at hperm
  refine ⟨[w], diff_perm hperm hdistinct, ?_⟩
  rw [hcoinbase]
  cases hft : coinbaseFt w <;> simp [hft]

theorem covers_oneWork (h : oneWork works budget = some selection)
    (hdistinct : (works.map TransactionSnarkWork.statement).Nodup) : Covers works selection := by
  obtain ⟨w, hw, rfl⟩ := Option.map_eq_some_iff.1 h
  split
  · exact covers_first hw hdistinct rfl
  · exact covers_of_nil rfl

theorem feeTransfers_two_map {o : Option CoinbaseFeeTransfer} :
    (AtMostTwo.two ((coinbaseFt w).map fun ft => (ft, o))).feeTransfers =
      if w.fee = 0 then [] else (coinbaseFt w).toList ++ o.toList := by
  unfold coinbaseFt
  by_cases h : w.fee = 0
  · simp [h, AtMostTwo.feeTransfers]
  · simp [h, Nat.pos_of_ne_zero h, AtMostTwo.feeTransfers]

theorem coinbaseFt_of_zero (h : w.fee = 0) : coinbaseFt w = none := by simp [coinbaseFt, h]

theorem covers_twoWorks {coinbaseAmount : Nat} (h : twoWorks works coinbaseAmount budget = some selection)
    (hdistinct : (works.map TransactionSnarkWork.statement).Nodup)
    (hpays : ∀ w1 w2, cheapestTwoWork works = (some w1, some w2) → w1.fee = 0 → w2.fee ≤ budget → w2.fee = 0) :
    Covers works selection := by
  have hfirst {w : TransactionSnarkWork} (hw : (cheapestTwoWork works).1 = some w) :
      Covers works (.two ((coinbaseFt w).map fun ft => (ft, none)), diff works [w.statement]) := by
    refine covers_first hw hdistinct ?_
    rw [feeTransfers_two_map]
    by_cases hfee : w.fee = 0
    · simp [hfee, coinbaseFt_of_zero]
    · simp [hfee]
  unfold twoWorks at h
  split at h
  · cases h
  · rename_i w hw
    split at h
    · obtain rfl := Option.some.inj h
      exact hfirst (by rw [hw])
    · obtain rfl := Option.some.inj h
      exact covers_of_nil rfl
  · rename_i w1 w2 hw
    obtain ⟨sum, hsum, h⟩ := Option.bind_eq_some_iff.1 h
    obtain ⟨rfl, -⟩ := Amount.add_eq_some.1 hsum
    split at h
    · rename_i hle
      obtain rfl := Option.some.inj h
      obtain ⟨rest, hperm⟩ := @cheapestTwoWork_perm works
      rw [hw] at hperm
      refine ⟨[w1, w2], diff_perm hperm hdistinct, ?_⟩
      rw [feeTransfers_two_map]
      by_cases hfee : w1.fee = 0
      · have hfree := hpays w1 w2 hw hfee (by omega)
        simp [hfee, coinbaseFt_of_zero hfee, coinbaseFt_of_zero hfree]
      · rw [if_neg hfee]
        cases h1 : coinbaseFt w1 <;> cases h2 : coinbaseFt w2 <;> simp [h1, h2]
    · split at h
      · obtain rfl := Option.some.inj h
        exact hfirst (by rw [hw])
      · obtain rfl := Option.some.inj h
        exact covers_of_nil rfl

/-- **A selection covers the works**, where the second part of the coinbase takes none without paying it. -/
theorem covers_reselection (hdistinct : (t.completedWorkRev.map TransactionSnarkWork.statement).Nodup)
    (hpays : ¬ DropsSecond constants t) : Covers t.completedWorkRev (reselection constants t) := by
  unfold reselection
  cases hcoinbase : t.coinbase with
  | zero => exact covers_of_nil rfl
  | one ft =>
    dsimp only
    split
    · exact covers_of_nil rfl
    · rename_i h
      obtain ⟨amount, -, h⟩ := Option.bind_eq_some_iff.1 h
      obtain ⟨budget, -, h⟩ := Option.bind_eq_some_iff.1 h
      exact covers_oneWork h hdistinct
  | two fts =>
    dsimp only
    split
    · exact covers_of_nil rfl
    · rename_i h
      obtain ⟨amount, hamount, h⟩ := Option.bind_eq_some_iff.1 h
      obtain ⟨budget, hbudget, h⟩ := Option.bind_eq_some_iff.1 h
      refine covers_twoWorks h hdistinct fun w1 w2 hw hfree hle => ?_
      by_contra hfee
      exact hpays ⟨fts, w1, w2, amount, budget, hcoinbase, hw, hfree, Nat.pos_of_ne_zero hfee, hamount, hbudget, hle⟩

theorem covers_initialSelection (hdistinct : (works.map TransactionSnarkWork.statement).Nodup) {addCoinbase : Bool}
    {jobCount : Nat} {slots : Int} {isCoinbaseReceiverNew superchargeCoinbase : Bool} : Covers works
      (initialSelection constants works addCoinbase jobCount slots isCoinbaseReceiverNew superchargeCoinbase) := by
  unfold initialSelection
  split
  · rename_i h
    obtain ⟨amount, -, h⟩ := Option.bind_eq_some_iff.1 h
    obtain ⟨budget, -, h⟩ := Option.bind_eq_some_iff.1 h
    exact covers_oneWork h hdistinct
  · split
    · exact covers_of_nil rfl
    · exact covers_of_nil rfl
  · exact covers_of_nil rfl

end Selection

/-! ### Operations -/

/-- What changes resources. -/
inductive Operation where
  | discardLastWork
  | discardUserCommand
  | incrCoinbasePartBy (count : Count)
deriving DecidableEq, Repr

section Conditions

variable (constants : ConstraintConstants)

variable (t : Resources)

/-- What an operation makes of the resources. -/
def perform : Operation → Option Resources
  | .discardLastWork => (discardLastWork constants t).map Prod.fst
  | .discardUserCommand => some t.discardUserCommand.1
  | .incrCoinbasePartBy count => incrCoinbasePartBy constants t count

/-- What the works of other provers are charged when the coinbase is selected anew. -/
def charges : Nat := paid (toOthers t.receiverPk (singles (reselection constants t).2))

/-- When a work is left out, the charges to others are less by its fee, or the budget does not suffice already. -/
def KeptByDiscard : Prop :=
  ∀ w remSeq, t.completedWorkRev = w :: remSeq →
    ¬ DropsSecond constants (t.withoutWork w remSeq) ∧
      (t.budget.isSome → t.otherFees = charges constants (t.withoutWork w remSeq) + w.fee)

/-- The fee transfer of the coinbase that is left out next. -/
def lastPart : AtMostTwo CoinbaseFeeTransfer → Option CoinbaseFeeTransfer
  | .zero => none
  | .one ft => ft
  | .two none => none
  | .two (some (_, ft2)) => ft2

/-- When a part of the coinbase is left out, its prover is not charged for another work. -/
def KeptByDecr : Prop :=
  t.commandsRev = [] → ∀ ft, lastPart t.coinbase = some ft → t.feeTransfers[ft.receiverPk]? = none

/-- When a work is taken back, the charges to others stay the same, or the budget suffices neither before nor after. -/
def KeptByOne : Prop :=
  ∀ w remWork coinbase, t.discarded.completedWork = w :: remWork → incr t.coinbase = some coinbase →
    ¬ DropsSecond constants (t.withWork w remWork coinbase) ∧
      (charges constants (t.withWork w remWork coinbase) = t.otherFees ∨
        (t.budget = none ∧ t.commandFees < charges constants (t.withWork w remWork coinbase)))

/-- **The condition** under which an operation keeps the books right. -/
def Kept : Operation → Prop
  | .discardLastWork => KeptByDiscard constants t
  | .discardUserCommand => KeptByDecr t
  | .incrCoinbasePartBy .one => KeptByOne constants t
  | .incrCoinbasePartBy .two => KeptByOne constants t ∧ ∀ t', byOne constants t = some t' → KeptByOne constants t'

/-- Operations, each of which meets the condition. -/
inductive KeptRun (t : Resources) : Resources → Prop
  | start : KeptRun t t
  | step {t' t'' : Resources} (op : Operation) (h : KeptRun t t') (hkept : Kept constants t' op)
      (hstep : perform constants t' op = some t'') : KeptRun t t''

end Conditions

/-! ### What keeps the books right -/

/-- The books are right, each work has a statement of its own, and the fees of the commands can be added up. -/
structure Books : Prop where
  exact : Exact t
  distinct : ((t.completedWorkRev ++ t.discarded.completedWork).map TransactionSnarkWork.statement).Nodup
  fees : t.commandFees < 2 ^ 64

section Books

variable {t t' : Resources} {m : ExtTreeMap PublicKey Nat} {ft : CoinbaseFeeTransfer}

theorem Exact.of_fees (haccounted : Accounted t) (hfees : t.commandFees < 2 ^ 64)
    (hbudget : t.budget = if t.otherFees ≤ t.commandFees then some (t.commandFees - t.otherFees) else none) :
    Exact t := ⟨haccounted, hbudget.trans (rebudget_eq hfees).symm, rebudget_eq hfees⟩

/-! #### Selecting anew -/

theorem accounted_charging (hcovers : Covers t.completedWorkRev (reselection constants t))
    (hm : singlesMap (singles (reselection constants t).2) = some m) : Accounted (charging constants t m) := by
  obtain ⟨paidWorks, hperm, hpaid⟩ := hcovers
  exact ⟨paidWorks, _, hperm, hpaid, fun pk => singlesMap_getElem? hm⟩

theorem otherFees_charging (hm : singlesMap (singles (reselection constants t).2) = some m) :
    (charging constants t m).otherFees = charges constants t := by
  have hnil : (∅ : ExtTreeMap PublicKey Nat).toList = [] := ExtTreeMap.toList_eq_nil_iff.2 rfl
  obtain ⟨-, hto, -⟩ := foldlM_addSingle hm (fun pk v hv => by simp at hv) singles_ne_zero
  refine paid_toOthers_of_paidTo fun pk => ?_
  have hpk := hto pk
  rwa [hnil, paidTo_nil, Nat.zero_add] at hpk

/-! #### Leaving out a part of the coinbase -/

theorem coinbaseFt_eq_some {w : TransactionSnarkWork} (h : coinbaseFt w = some ft) :
    w.prover = ft.receiverPk ∧ w.fee = ft.fee ∧ 0 < ft.fee := by
  unfold coinbaseFt at h
  grind

theorem Accounted.updateFeeTransfers (h : Accounted t) (hparts : t.coinbase.feeTransfers = coinbase.feeTransfers ++ [ft])
    (hnone : t.feeTransfers[ft.receiverPk]? = none) : Accounted (t.updateFeeTransfers ft coinbase) := by
  obtain ⟨paidWorks, rest, hperm, hpaid, hcharged⟩ := h
  rw [hparts] at hpaid
  obtain ⟨before, after, rfl, hbefore, hafter⟩ := List.filterMap_eq_append_iff.1 hpaid
  obtain ⟨free, w, free', rfl, hfree, hw, hfree'⟩ := List.filterMap_eq_cons_iff.1 hafter
  obtain ⟨hprover, hfee, hpos⟩ := coinbaseFt_eq_some hw
  refine ⟨before ++ (free ++ free'), w :: rest, ?_, ?_, fun pk => ?_⟩
  · refine hperm.trans ?_
    have hmoved : (before ++ free ++ w :: (free' ++ rest)).Perm (before ++ free ++ free' ++ w :: rest) :=
      List.perm_middle.trans (by simpa using (@List.perm_middle _ w (before ++ free ++ free') rest).symm)
    simpa using hmoved
  · have hnil : free.filterMap coinbaseFt = [] := List.filterMap_eq_nil_iff.2 hfree
    rw [List.filterMap_append, List.filterMap_append, hbefore, hnil, hfree']
    simp [Resources.updateFeeTransfers]
  · have hzero : paidTo ft.receiverPk (workPayments rest) = 0 := by
      have hreceiver := hcharged ft.receiverPk
      rw [hnone] at hreceiver
      by_contra hne
      rw [if_neg hne] at hreceiver
      cases hreceiver
    change (t.feeTransfers.insert ft.receiverPk ft.fee)[pk]? = _
    have hcons : paidTo pk (workPayments (w :: rest)) =
        (if pk = ft.receiverPk then ft.fee else 0) + paidTo pk (workPayments rest) := by
      rw [← hprover, ← hfee]
      exact paidTo_cons
    rw [ExtTreeMap.getElem?_insert, hcons]
    by_cases hpk : pk = ft.receiverPk
    · subst hpk
      simp [hzero, Nat.ne_of_gt hpos]
    · have hne : compare ft.receiverPk pk ≠ .eq := fun heq => hpk (LawfulEqOrd.compare_eq_iff_eq.1 heq).symm
      rw [if_neg hne, if_neg hpk, Nat.zero_add]
      exact hcharged pk

theorem Accounted.withCoinbase (h : Accounted t) (hparts : coinbase.feeTransfers = t.coinbase.feeTransfers) :
    Accounted { t with coinbase := coinbase } := by
  obtain ⟨paidWorks, rest, hperm, hpaid, hcharged⟩ := h
  exact ⟨paidWorks, rest, hperm, hpaid.trans hparts.symm, hcharged⟩

theorem Exact.withCoinbase (h : Exact t) (hparts : coinbase.feeTransfers = t.coinbase.feeTransfers) :
    Exact { t with coinbase := coinbase } := ⟨h.works.withCoinbase hparts, h.budget, h.rebudget⟩

theorem Exact.updateFeeTransfers (h : Exact t) (hfees : t.commandFees < 2 ^ 64)
    (hparts : t.coinbase.feeTransfers = coinbase.feeTransfers ++ [ft])
    (hnone : t.feeTransfers[ft.receiverPk]? = none) : Exact (t.updateFeeTransfers ft coinbase) :=
  .of_fees (h.works.updateFeeTransfers hparts hnone) hfees (rebudget_eq hfees)

theorem Exact.decrCoinbase (h : Exact t) (hfees : t.commandFees < 2 ^ 64)
    (hkept : ∀ ft, lastPart t.coinbase = some ft → t.feeTransfers[ft.receiverPk]? = none) : Exact t.decrCoinbase := by
  unfold Resources.decrCoinbase
  split
  · exact h
  · rename_i hcoinbase
    exact h.withCoinbase (by rw [hcoinbase]; rfl)
  · rename_i hcoinbase
    exact h.withCoinbase (by rw [hcoinbase]; rfl)
  · rename_i ft hcoinbase
    exact h.withCoinbase (by rw [hcoinbase]; rfl)
  · rename_i ft hcoinbase
    rw [hcoinbase] at hkept
    exact h.updateFeeTransfers hfees (by rw [hcoinbase]; rfl) (hkept ft rfl)
  · rename_i ft1 ft2 hcoinbase
    rw [hcoinbase] at hkept
    exact h.updateFeeTransfers hfees (by rw [hcoinbase]; rfl) (hkept ft2 rfl)

/-! #### The operations -/

theorem Exact.budget_eq (h : Exact t) :
    t.budget = if t.otherFees ≤ t.commandFees then some (t.commandFees - t.otherFees) else none :=
  h.budget.trans h.rebudget

theorem Books.discardUserCommand (h : Books t) (hkept : KeptByDecr t) : Books t.discardUserCommand.1 := by
  cases hcommands : t.commandsRev with
  | nil =>
    have heq : t.discardUserCommand.1 = t.decrCoinbase := by
      unfold Resources.discardUserCommand
      rw [hcommands]
    have hkeeps : t.decrCoinbase.completedWorkRev = t.completedWorkRev ∧ t.decrCoinbase.discarded = t.discarded ∧
        t.decrCoinbase.commandsRev = t.commandsRev := by
      unfold Resources.decrCoinbase Resources.updateFeeTransfers
      split <;> exact ⟨rfl, rfl, rfl⟩
    rw [heq]
    refine ⟨h.exact.decrCoinbase h.fees (hkept hcommands), ?_, ?_⟩
    · rw [hkeeps.1, hkeeps.2.1]
      exact h.distinct
    · unfold commandFees
      rw [hkeeps.2.2]
      exact h.fees
  | cons uc remSeq =>
    have hpaid : t.commandFees = uc.fee + (remSeq.map Command.fee).sum := by
      unfold commandFees
      rw [hcommands, List.map_cons, List.sum_cons]
    have hless : (remSeq.map Command.fee).sum < 2 ^ 64 := by
      have hfees := h.fees
      omega
    have hbudget := h.exact.budget_eq
    unfold Resources.discardUserCommand
    rw [hcommands]
    refine ⟨.of_fees h.exact.works hless ?_, h.distinct, hless⟩
    change _ = if t.otherFees ≤ (remSeq.map Command.fee).sum then some ((remSeq.map Command.fee).sum - t.otherFees) else none
    cases hb : t.budget with
    | none => exact @rebudget_eq { t with commandsRev := remSeq } hless
    | some b =>
      rw [hb, hpaid] at hbudget
      dsimp only
      unfold Amount.sub
      grind

theorem Books.discardLastWork {wo : Option TransactionSnarkWork} (h : Books t) (hkept : KeptByDiscard constants t)
    (hdiscard : Resources.discardLastWork constants t = some (t', wo)) : Books t' := by
  rcases discardLastWork_cases hdiscard with ⟨-, rfl⟩ | ⟨w, remSeq, m, hworks, hm, rfl⟩
  · exact h
  obtain ⟨hpays, hcharges⟩ := hkept w remSeq hworks
  have hdistinct := h.distinct
  rw [hworks] at hdistinct
  have hmoved : ((remSeq ++ w :: t.discarded.completedWork).map TransactionSnarkWork.statement).Nodup :=
    (List.perm_middle.map _).nodup_iff.2 hdistinct
  have hrest : (remSeq.map TransactionSnarkWork.statement).Nodup := by
    rw [List.map_append] at hmoved
    exact hmoved.of_append_left
  have haccounted := accounted_charging (covers_reselection hrest hpays) hm
  have hother := otherFees_charging hm
  have hbudget := h.exact.budget_eq
  refine ⟨.of_fees haccounted h.fees ?_, hmoved, h.fees⟩
  change t.budgetWithout w _ =
    if (charging constants (t.withoutWork w remSeq) m).otherFees ≤ t.commandFees then
      some (t.commandFees - (charging constants (t.withoutWork w remSeq) m).otherFees) else none
  unfold budgetWithout
  cases hb : t.budget with
  | none => exact @rebudget_eq (charging constants (t.withoutWork w remSeq) m) h.fees
  | some b =>
    rw [hb] at hbudget hcharges
    have hless := h.fees
    have heq := hcharges rfl
    dsimp only
    rw [hother]
    unfold Amount.add
    grind

theorem feeTransfers_incr {c c' : AtMostTwo CoinbaseFeeTransfer} (h : incr c = some c') :
    c'.feeTransfers = c.feeTransfers := by
  unfold incr at h
  split at h
  all_goals cases h
  all_goals rfl

theorem Books.byOne (h : Books t) (hkept : KeptByOne constants t) (hone : Resources.byOne constants t = some t') :
    Books t' := by
  unfold Resources.byOne at hone
  split at hone
  · rename_i w remWork coinbase hworks hincr
    change reselectCoinbaseWork constants (t.withWork w remWork coinbase) = some t' at hone
    rw [reselectCoinbaseWork_eq] at hone
    obtain ⟨m, hm, rfl⟩ := Option.map_eq_some_iff.1 hone
    obtain ⟨hpays, hcharges⟩ := hkept w remWork coinbase hworks hincr
    have hdistinct := h.distinct
    rw [hworks] at hdistinct
    have hmoved : ((w :: t.completedWorkRev ++ remWork).map TransactionSnarkWork.statement).Nodup :=
      (List.perm_middle.map _).nodup_iff.1 hdistinct
    have hrest : ((w :: t.completedWorkRev).map TransactionSnarkWork.statement).Nodup := by
      rw [List.map_append] at hmoved
      exact hmoved.of_append_left
    have haccounted := accounted_charging (covers_reselection hrest hpays) hm
    have hother := otherFees_charging hm
    have hbudget := h.exact.budget_eq
    refine ⟨.of_fees haccounted h.fees ?_, hmoved, h.fees⟩
    rw [hother]
    change t.budget = if _ ≤ t.commandFees then some (t.commandFees - _) else none
    grind
  · rename_i coinbase hworks hincr
    have hparts := feeTransfers_incr hincr
    dsimp only at hone
    split at hone
    · obtain rfl := Option.some.inj hone
      exact ⟨h.exact.withCoinbase hparts, h.distinct, h.fees⟩
    · obtain rfl := Option.some.inj hone
      exact h
  · obtain rfl := Option.some.inj hone
    exact h

theorem Books.perform {op : Operation} (h : Books t) (hkept : Kept constants t op)
    (hstep : Resources.perform constants t op = some t') : Books t' := by
  cases op with
  | discardLastWork =>
    obtain ⟨⟨t₁, wo⟩, hdiscard, rfl⟩ := Option.map_eq_some_iff.1 hstep
    exact h.discardLastWork hkept hdiscard
  | discardUserCommand =>
    obtain rfl := Option.some.inj hstep
    exact h.discardUserCommand hkept
  | incrCoinbasePartBy count =>
    cases count with
    | one => exact h.byOne hkept hstep
    | two =>
      obtain ⟨t₁, hone, htwo⟩ := Option.bind_eq_some_iff.1 hstep
      exact (h.byOne hkept.1 hone).byOne (hkept.2 t₁ hone) htwo

theorem Books.run (h : Books t) (hrun : KeptRun constants t t') : Books t' := by
  induction hrun with
  | start => exact h
  | step op _ hkept hstep ih => exact ih.perform hkept hstep

theorem books_init {ucSeq : List Command} {cwSeq : List TransactionSnarkWork} {slots : Int} {jobCount : Nat}
    {receiverPk : PublicKey} {addCoinbase superchargeCoinbase isCoinbaseReceiverNew : Bool}
    (hdistinct : (cwSeq.map TransactionSnarkWork.statement).Nodup) (hfees : (ucSeq.map Command.fee).sum < 2 ^ 64)
    (hinit : init constants ucSeq cwSeq slots jobCount receiverPk addCoinbase superchargeCoinbase
      isCoinbaseReceiverNew = some t) : Books t := by
  have hcovers := @covers_initialSelection constants cwSeq hdistinct addCoinbase jobCount slots isCoinbaseReceiverNew
    superchargeCoinbase
  generalize hselection : initialSelection constants cwSeq addCoinbase jobCount slots isCoinbaseReceiverNew
    superchargeCoinbase = selection at hcovers
  obtain ⟨m, hm, rfl⟩ := (init_cases hselection).1 hinit
  obtain ⟨paidWorks, hperm, hpaid⟩ := hcovers
  have hnil : (∅ : ExtTreeMap PublicKey Nat).toList = [] := ExtTreeMap.toList_eq_nil_iff.2 rfl
  obtain ⟨-, hto, -⟩ := foldlM_addSingle hm (fun pk v hv => by simp at hv) singles_ne_zero
  have hother : paid (toOthers receiverPk m.toList) = paid (toOthers receiverPk (singles selection.2)) := by
    refine paid_toOthers_of_paidTo fun pk => ?_
    have hpk := hto pk
    rwa [hnil, paidTo_nil, Nat.zero_add] at hpk
  refine ⟨.of_fees ⟨paidWorks, selection.2, (List.reverse_perm _).trans hperm, hpaid, fun pk => singlesMap_getElem? hm⟩
    hfees ?_, ?_, hfees⟩
  · change initialBudget ucSeq (singles selection.2) receiverPk =
      if paid (toOthers receiverPk m.toList) ≤ (ucSeq.map Command.fee).sum then
        some ((ucSeq.map Command.fee).sum - paid (toOthers receiverPk m.toList)) else none
    rw [hother]
    exact initialBudget_eq hfees
  · change ((cwSeq.reverse ++ []).map TransactionSnarkWork.statement).Nodup
    rw [List.append_nil]
    exact ((List.reverse_perm _).map _).nodup_iff.2 hdistinct

end Books

/-- **The books stay right** in every run whose operations each meet the condition, from works with statements of
their own and commands whose fees can be added up. -/
theorem exact_of_keptRun {constants : ConstraintConstants} {ucSeq : List Command} {cwSeq : List TransactionSnarkWork}
    {slots : Int} {jobCount : Nat} {receiverPk : PublicKey} {addCoinbase superchargeCoinbase isCoinbaseReceiverNew : Bool}
    {t t' : Resources} (hdistinct : (cwSeq.map TransactionSnarkWork.statement).Nodup)
    (hfees : (ucSeq.map Command.fee).sum < 2 ^ 64)
    (hinit : init constants ucSeq cwSeq slots jobCount receiverPk addCoinbase superchargeCoinbase
      isCoinbaseReceiverNew = some t) (hrun : KeptRun constants t t') : Exact t' :=
  ((books_init hdistinct hfees hinit).run hrun).exact

/-- The dearer of two works is left out, and nothing else changes. -/
theorem exact_of_keptRun_dearer :
    ∃ t t', init sampleConstants [paymentOf 9] [workOf 1 5 sampleProver, workOf 2 7 ⟨3, false⟩] 3 2 ⟨1, false⟩ true false
        false = some t ∧
      perform sampleConstants t .discardLastWork = some t' ∧ Exact t' := by
  refine ⟨_, _, rfl, rfl, ?_⟩
  refine @exact_of_keptRun sampleConstants [paymentOf 9] [workOf 1 5 sampleProver, workOf 2 7 ⟨3, false⟩] 3 2 ⟨1, false⟩
    true false false _ _ (by decide) (by decide) rfl (@KeptRun.step _ _ _ _ .discardLastWork .start ?_ rfl)
  intro w remSeq hworks
  obtain ⟨rfl, rfl⟩ := List.cons.inj hworks
  refine ⟨fun h => ?_, fun _ => by decide⟩
  obtain ⟨fts, w1, w2, amount, budget, hcoinbase, -⟩ := h
  cases hcoinbase

/-- **The books get wrong** when the producer's own work is left out, which nobody was charged for. -/
theorem own_work_added_back :
    ∃ t t', init sampleConstants [paymentOf 7] [workOf 1 5 ⟨1, false⟩] 3 1 ⟨1, false⟩ false false false = some t ∧
      perform sampleConstants t .discardLastWork = some t' ∧ t'.budget = some 12 ∧ rebudget t' = some 7 ∧ ¬ Exact t' := by
  refine ⟨_, _, rfl, rfl, rfl, ?_, ?_⟩
  · decide
  · intro h
    have hbudget := h.budget
    revert hbudget
    decide

end Resources

end MinaProtocol.StagedLedger
