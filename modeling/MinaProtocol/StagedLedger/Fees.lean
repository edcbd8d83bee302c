import MinaProtocol.StagedLedger.Rejection
import MinaProtocol.TransactionLogic.Conservation

/-!
# StagedLedger.Fees

What the fees and the coinbase of a diff pay, and to whom. The fees of the works of a pre-diff, its fee
transfers and the fee transfers of its coinbases are all payments to keys, and are compared as such.

The map in `create_fee_transfers` never holds a zero, so a fee that the coinbase pays is taken from what a
key has, as far as it has it. What the fee transfers come to is therefore at least the fees of the commands,
in each pre-diff; that the excess of both is zero makes it these fees.
-/

namespace MinaProtocol.StagedLedger

open Std PreDiffInfo

/-! ### Lists side by side -/

section SideBySide

variable {A B : Type} {R S : A → B → Prop} {l : List A} {l' : List B}

theorem forall₂_of_mem (h : List.Forall₂ R l l') (himp : ∀ a ∈ l, ∀ b, R a b → S a b) : List.Forall₂ S l l' := by
  induction h with
  | nil => exact .nil
  | cons hhead _ ih =>
    exact .cons (himp _ List.mem_cons_self _ hhead) (ih fun a ha => himp a (List.mem_cons_of_mem _ ha))

theorem exists_of_forall₂ (h : List.Forall₂ R l l') {a : A} (ha : a ∈ l) : ∃ b, R a b := by
  induction h with
  | nil => cases ha
  | cons hhead _ ih =>
    rcases List.mem_cons.1 ha with rfl | ha
    · exact ⟨_, hhead⟩
    · exact ih ha

end SideBySide

/-! ### Payments -/

/-- What is paid to a key. -/
def paidTo (pk : PublicKey) (payments : List (PublicKey × Nat)) : Nat :=
  ((payments.filter fun e => e.1 = pk).map Prod.snd).sum

/-- What is paid in all. -/
def paid (payments : List (PublicKey × Nat)) : Nat := (payments.map Prod.snd).sum

variable {pk : PublicKey}

section Payments

variable {e : PublicKey × Nat} {l l' : List (PublicKey × Nat)}

@[simp] theorem paidTo_nil : paidTo pk [] = 0 := rfl

@[simp] theorem paid_nil : paid [] = 0 := rfl

@[simp] theorem paidTo_cons : paidTo pk (e :: l) = (if pk = e.1 then e.2 else 0) + paidTo pk l := by
  by_cases h : pk = e.1 <;> simp [paidTo, h, eq_comm]

@[simp] theorem paid_cons : paid (e :: l) = e.2 + paid l := by simp [paid]

@[simp] theorem paidTo_append : paidTo pk (l ++ l') = paidTo pk l + paidTo pk l' := by simp [paidTo]

@[simp] theorem paid_append : paid (l ++ l') = paid l + paid l' := by simp [paid]

theorem paidTo_perm (h : l.Perm l') : paidTo pk l = paidTo pk l' := ((h.filter _).map _).sum_eq

theorem paid_perm (h : l.Perm l') : paid l = paid l' := (h.map _).sum_eq

theorem paidTo_le_paid : paidTo pk l ≤ paid l := by
  induction l with
  | nil => rfl
  | cons e l ih =>
    rw [paidTo_cons, paid_cons]
    split <;> omega

theorem paidTo_filter_ne {receiver : PublicKey} (h : pk ≠ receiver) :
    paidTo pk (l.filter fun e => receiver ≠ e.1) = paidTo pk l := by
  unfold paidTo
  rw [List.filter_filter]
  congr 2
  refine List.filter_congr fun e _ => ?_
  by_cases he : e.1 = pk
  · simp [he, Ne.symm h]
  · simp [he]

theorem paidTo_eq_zero (h : ∀ e ∈ l, e.1 ≠ pk) : paidTo pk l = 0 := by
  have hnil : l.filter (fun e => e.1 = pk) = [] := by
    rw [List.filter_eq_nil_iff]
    intro e he
    simpa using h e he
  simp [paidTo, hnil]

theorem paidTo_filter_self : paidTo pk (l.filter fun e => pk ≠ e.1) = 0 := by
  refine paidTo_eq_zero fun e he => ?_
  have hne : pk ≠ e.1 := by simpa using (List.mem_filter.1 he).2
  exact hne.symm

end Payments

/-! ### Payments in a map -/

section Map

variable {m : ExtTreeMap PublicKey Nat} {k : PublicKey}

theorem paidTo_toList : paidTo pk m.toList = m[pk]?.getD 0 := by
  rw [paidTo_perm (EntrySum.toList_perm m pk), paidTo_append, paidTo_eq_zero (l := (m.erase pk).toList)]
  · unfold EntrySum.entry
    cases m[pk]? <;> simp
  · intro e he
    obtain ⟨k, v⟩ := e
    rw [ExtTreeMap.mem_toList_iff_getElem?_eq_some, ExtTreeMap.getElem?_erase] at he
    rintro rfl
    simp at he

theorem paid_toList (m : ExtTreeMap PublicKey Nat) (k : PublicKey) :
    paid m.toList = m[k]?.getD 0 + paid (m.erase k).toList := by
  rw [paid_perm (EntrySum.toList_perm m k), paid_append]
  unfold EntrySum.entry
  cases m[k]? <;> simp

theorem paid_insert {v : Nat} : paid (m.insert k v).toList + m[k]?.getD 0 = paid m.toList + v := by
  rw [paid_toList m k, paid_toList (m.insert k v) k, EntrySum.erase_insert, ExtTreeMap.getElem?_insert_self,
    Option.getD_some]
  omega

end Map

/-! ### The payments of a pre-diff -/

theorem flatMap_groupList {A : Type} (l : List A) : (OneOrTwo.groupList l).flatMap OneOrTwo.toList = l := by
  induction l using OneOrTwo.groupList.induct with
  | case1 => rfl
  | case2 a => rfl
  | case3 a b rest ih => simp [OneOrTwo.groupList, OneOrTwo.toList, ih]

/-- The fees of works. -/
def workPayments (works : List TransactionSnarkWork) : List (PublicKey × Nat) := works.map fun w => (w.prover, w.fee)

/-- Fee transfers of coinbases, as payments. -/
def coinbasePayments (fts : List CoinbaseFeeTransfer) : List (PublicKey × Nat) := fts.map fun ft => (ft.receiverPk, ft.fee)

/-- The fee transfers that are named with a coinbase. -/
def AtMostTwo.feeTransfers : AtMostTwo CoinbaseFeeTransfer → List CoinbaseFeeTransfer
  | .zero => []
  | .one ft => ft.toList
  | .two none => []
  | .two (some (ft1, ft2)) => ft1 :: ft2.toList

namespace PreDiffInfo.TransactionData

/-- What the fee transfers pay. -/
def transferred (d : TransactionData) : List (PublicKey × Nat) :=
  (d.feeTransfers.flatMap OneOrTwo.toList).map fun t => (t.receiverPk, t.fee)

/-- What the coinbases pay besides. -/
def coinbaseTransferred (d : TransactionData) : List (PublicKey × Nat) :=
  coinbasePayments (d.coinbases.filterMap Coinbase.feeTransfer)

/-- The transactions, without their statuses. -/
def transactions (d : TransactionData) : List Transaction :=
  d.commands.map (fun c => c.data.transaction) ++ d.coinbases.map Transaction.coinbase ++
    d.feeTransfers.map Transaction.feeTransfer

end PreDiffInfo.TransactionData

/-- The pre-diffs, of which the second one has a coinbase of another type. -/
def Diff.preDiffs (t : Diff) : List (PreDiff (AtMostTwo CoinbaseFeeTransfer)) :=
  t.first :: (t.second.map fun p => ⟨p.completedWorks, p.commands, p.coinbase.toAtMostTwo, p.internalCommandStatuses⟩).toList

/-- The fees of the commands of a pre-diff. -/
def PreDiff.commandFees (p : PreDiff (AtMostTwo CoinbaseFeeTransfer)) : Nat := (p.commands.map fun c => c.data.fee).sum

section Works

variable {receiver : PublicKey} {works : List TransactionSnarkWork}

theorem paidTo_paidWorks : paidTo pk (works.filterMap fun w => if w.fee = 0 then none else some (w.prover, w.fee)) =
      paidTo pk (workPayments works) := by
  unfold workPayments
  induction works with
  | nil => rfl
  | cons w works ih => by_cases h : w.fee = 0 <;> simp [h, ih]

theorem paid_paidWorks :
    paid (works.filterMap fun w => if w.fee = 0 then none else some (w.prover, w.fee)) = paid (workPayments works) := by
  unfold workPayments
  induction works with
  | nil => rfl
  | cons w works ih => by_cases h : w.fee = 0 <;> simp [h, ih]

theorem workPayments_filter : workPayments (works.filter fun w => receiver ≠ w.prover) =
    (workPayments works).filter fun e => receiver ≠ e.1 := by
  unfold workPayments
  rw [List.filter_map]
  rfl

theorem coinbasePayments_filter {fts : List CoinbaseFeeTransfer} :
    coinbasePayments (fts.filter fun f => receiver ≠ f.receiverPk) =
      (coinbasePayments fts).filter fun e => receiver ≠ e.1 := by
  unfold coinbasePayments
  rw [List.filter_map]
  rfl

end Works

/-! ### The map of fee transfers -/

namespace PreDiffInfo

/-- No key has an entry of zero. -/
def NoZero (m : ExtTreeMap PublicKey Nat) : Prop := ∀ (pk : PublicKey) (v : Nat), m[pk]? = some v → v ≠ 0

section Fees

variable {m m' : ExtTreeMap PublicKey Nat} {pk : PublicKey} {k : PublicKey} {fees : List Nat} {total v : Nat}

theorem foldlM_add_eq {init : Nat} (h : fees.foldlM Amount.add init = some total) : total = init + fees.sum := by
  induction fees generalizing init with
  | nil =>
    obtain rfl := Option.some.inj h
    simp
  | cons fee fees ih =>
    rw [List.foldlM_cons] at h
    obtain ⟨next, hadd, h⟩ := Option.bind_eq_some_iff.1 h
    obtain ⟨rfl, -⟩ := Amount.add_eq_some.1 hadd
    rw [ih h, List.sum_cons, Nat.add_assoc]

theorem sumFees_eq (h : sumFees fees = some total) : total = fees.sum := by
  simpa using foldlM_add_eq h

/-- A step of `singlesMap`. -/
def addSingle (accum : ExtTreeMap PublicKey Nat) (e : PublicKey × Nat) : Option (ExtTreeMap PublicKey Nat) :=
  match accum[e.1]? with
  | none => some (accum.insert e.1 e.2)
  | some fee => (Amount.add fee e.2).map (accum.insert e.1)

theorem singlesMap_eq (singles : List (PublicKey × Nat)) : singlesMap singles = singles.foldlM addSingle ∅ := rfl

theorem addSingle_eq {e : PublicKey × Nat} (h : addSingle m e = some m') :
    m' = m.insert e.1 (m[e.1]?.getD 0 + e.2) := by
  unfold addSingle at h
  cases hget : m[e.1]? with
  | none =>
    rw [hget] at h
    obtain rfl := Option.some.inj h
    simp
  | some fee =>
    rw [hget] at h
    obtain ⟨total, hadd, rfl⟩ := Option.map_eq_some_iff.1 h
    obtain ⟨rfl, -⟩ := Amount.add_eq_some.1 hadd
    simp

theorem NoZero.insert (h : NoZero m) (hv : v ≠ 0) : NoZero (m.insert k v) := by
  intro pk w hw
  rw [ExtTreeMap.getElem?_insert] at hw
  split at hw
  · obtain rfl := Option.some.inj hw
    exact hv
  · exact h pk w hw

theorem NoZero.erase (h : NoZero m) : NoZero (m.erase k) := by
  intro pk w hw
  rw [ExtTreeMap.getElem?_erase] at hw
  split at hw
  · cases hw
  · exact h pk w hw

theorem paidTo_insert : paidTo pk (m.insert k v).toList = if pk = k then v else paidTo pk m.toList := by
  rw [paidTo_toList, paidTo_toList, ExtTreeMap.getElem?_insert]
  by_cases h : pk = k
  · simp [h]
  · simp [h, Ne.symm h]

theorem paidTo_erase : paidTo pk (m.erase k).toList = if pk = k then 0 else paidTo pk m.toList := by
  rw [paidTo_toList, paidTo_toList, ExtTreeMap.getElem?_erase]
  by_cases h : pk = k
  · simp [h]
  · simp [h, Ne.symm h]

/-- **The singles are added up** by their keys. -/
theorem foldlM_addSingle {l : List (PublicKey × Nat)} (h : l.foldlM addSingle m = some m') (hm : NoZero m)
    (hl : ∀ e ∈ l, e.2 ≠ 0) : NoZero m' ∧ (∀ pk, paidTo pk m'.toList = paidTo pk m.toList + paidTo pk l) ∧
      paid m'.toList = paid m.toList + paid l := by
  induction l generalizing m with
  | nil =>
    obtain rfl := Option.some.inj h
    exact ⟨hm, fun pk => by simp, by simp⟩
  | cons e l ih =>
    rw [List.foldlM_cons] at h
    obtain ⟨m₁, hstep, h⟩ := Option.bind_eq_some_iff.1 h
    obtain rfl := addSingle_eq hstep
    have he : e.2 ≠ 0 := hl e List.mem_cons_self
    obtain ⟨hzero, hto, hpaid⟩ := ih h (hm.insert (by omega)) fun e' he' => hl e' (List.mem_cons_of_mem _ he')
    refine ⟨hzero, fun pk => ?_, ?_⟩
    · rw [hto, paidTo_insert, paidTo_cons]
      by_cases hpk : pk = e.1
      · rw [if_pos hpk, if_pos hpk, hpk, paidTo_toList]
        omega
      · rw [if_neg hpk, if_neg hpk, Nat.zero_add]
    · have hinsert := paid_insert (m := m) (k := e.1) (v := m[e.1]?.getD 0 + e.2)
      rw [hpaid, paid_cons]
      omega

/-- **A fee that the coinbase pays** is taken from what its receiver has. -/
theorem deductCoinbaseFee_spec {ft : CoinbaseFeeTransfer} (h : deductCoinbaseFee m ft = some m') (hm : NoZero m) :
    NoZero m' ∧ (∀ pk, paidTo pk m'.toList = paidTo pk m.toList - if pk = ft.receiverPk then ft.fee else 0) ∧
      paid m.toList ≤ paid m'.toList + ft.fee := by
  unfold deductCoinbaseFee at h
  cases hget : m[ft.receiverPk]? with
  | none =>
    rw [hget] at h
    obtain rfl := Option.some.inj h
    refine ⟨hm, fun pk => ?_, by omega⟩
    by_cases hpk : pk = ft.receiverPk
    · rw [hpk, paidTo_toList, hget]
      simp
    · simp [hpk]
  | some fee =>
    rw [hget] at h
    obtain ⟨newFee, hsub, rfl⟩ := Option.map_eq_some_iff.1 h
    obtain rfl := Amount.sub_eq_some.1 hsub
    have htotal := paid_toList m ft.receiverPk
    rw [hget, Option.getD_some] at htotal
    by_cases hpos : 0 < newFee
    · rw [if_pos hpos]
      refine ⟨hm.insert (by omega), fun pk => ?_, ?_⟩
      · rw [paidTo_insert]
        by_cases hpk : pk = ft.receiverPk
        · rw [if_pos hpk, if_pos hpk, hpk, paidTo_toList, hget]
          simp
        · simp [hpk]
      · rw [paid_toList (m.insert _ _) ft.receiverPk, EntrySum.erase_insert, ExtTreeMap.getElem?_insert_self]
        rw [Option.getD_some]
        omega
    · -- what was left is nothing
      rw [if_neg hpos]
      refine ⟨hm.erase, fun pk => ?_, by omega⟩
      rw [paidTo_erase]
      by_cases hpk : pk = ft.receiverPk
      · rw [if_pos hpk, if_pos hpk, hpk, paidTo_toList, hget]
        simp only [Option.getD_some]
        omega
      · simp [hpk]

/-- **The fees that the coinbases pay** are taken from what their receivers have, as far as they have it. -/
theorem foldlM_deductCoinbaseFee {fts : List CoinbaseFeeTransfer} (h : fts.foldlM deductCoinbaseFee m = some m')
    (hm : NoZero m) : (∀ pk, paidTo pk m'.toList = paidTo pk m.toList - paidTo pk (coinbasePayments fts)) ∧
      paid m.toList ≤ paid m'.toList + paid (coinbasePayments fts) := by
  induction fts generalizing m with
  | nil =>
    obtain rfl := Option.some.inj h
    exact ⟨fun pk => by simp [coinbasePayments], by simp [coinbasePayments]⟩
  | cons ft fts ih =>
    rw [List.foldlM_cons] at h
    obtain ⟨m₁, hstep, h⟩ := Option.bind_eq_some_iff.1 h
    obtain ⟨hm₁, hto₁, hpaid₁⟩ := deductCoinbaseFee_spec hstep hm
    obtain ⟨hto, hpaid⟩ := ih h hm₁
    unfold coinbasePayments at hto hpaid ⊢
    refine ⟨fun pk => ?_, ?_⟩
    · rw [hto, hto₁, List.map_cons, paidTo_cons, Nat.sub_sub]
    · rw [List.map_cons, paid_cons]
      omega

end Fees

/-! ### The transactions of a pre-diff -/

section Transactions

variable {constants : ConstraintConstants} {parts : AtMostTwo CoinbaseFeeTransfer} {receiver : PublicKey}
  {coinbaseAmount : Nat} {coinbases : List Coinbase} {commands : List (WithStatus Command)}
  {works : List TransactionSnarkWork} {data : TransactionData} {delta : Nat} {info : Info}

theorem createOneCoinbase_eq {amount : Nat} {ft : Option CoinbaseFeeTransfer} {cb : Coinbase}
    (h : createOneCoinbase amount receiver ft = .ok cb) :
    cb = ⟨receiver, amount, ft.filter fun f => receiver ≠ f.receiverPk⟩ ∧ ∀ f ∈ ft, f.fee ≤ amount := by
  unfold createOneCoinbase at h
  cases ft with
  | none =>
    cases h
    exact ⟨rfl, fun f hf => by cases hf⟩
  | some ft =>
    by_cases hle : ft.fee ≤ amount
    · simp only [hle, decide_true, if_true, Outcome.ok.injEq] at h
      refine ⟨h.symm, fun f hf => ?_⟩
      obtain rfl := Option.some.inj hf
      exact hle
    · simp [hle] at h

/-- What the coinbases of a pre-diff are. -/
structure CoinbasesOf (receiver : PublicKey) (coinbaseAmount : Nat) (parts : AtMostTwo CoinbaseFeeTransfer)
    (coinbases : List Coinbase) : Prop where
  amount : (coinbases.map Coinbase.amount).sum = if parts = .zero then 0 else coinbaseAmount
  feeTransfers : coinbases.filterMap Coinbase.feeTransfer =
    parts.feeTransfers.filter fun f => receiver ≠ f.receiverPk
  covers : ∀ cb ∈ coinbases, ∀ f ∈ cb.feeTransfer, f.fee ≤ cb.amount

theorem twoParts_eq {amt : Nat} {ft1 ft2 : Option CoinbaseFeeTransfer}
    (h : twoParts coinbaseAmount receiver amt ft1 ft2 = .ok coinbases) :
    (coinbases.map Coinbase.amount).sum = coinbaseAmount ∧
      coinbases.filterMap Coinbase.feeTransfer =
        (ft1.toList ++ ft2.toList).filter (fun f => receiver ≠ f.receiverPk) ∧
      ∀ cb ∈ coinbases, ∀ f ∈ cb.feeTransfer, f.fee ≤ cb.amount := by
  obtain ⟨rem, hrem, h⟩ := Outcome.bind_eq_ok.1 h
  obtain ⟨_, -, h⟩ := Outcome.bind_eq_ok.1 h
  obtain ⟨cb1, h1, h⟩ := Outcome.bind_eq_ok.1 h
  obtain ⟨cb2, h2, h⟩ := Outcome.bind_eq_ok.1 h
  cases h
  obtain ⟨rfl, hfits1⟩ := createOneCoinbase_eq h1
  obtain ⟨rfl, hfits2⟩ := createOneCoinbase_eq h2
  have hsub := Amount.sub_eq_some.1 (Outcome.okOr_eq_ok.1 hrem)
  refine ⟨by simp [hsub, Nat.add_comm], ?_, fun cb hcb f hf => ?_⟩
  · cases ft1 <;> cases ft2 <;> simp [Option.filter, List.filter] <;> grind
  · simp only [List.mem_cons, List.not_mem_nil, or_false] at hcb
    rcases hcb with rfl | rfl
    · exact hfits1 f (Option.mem_filter_iff.1 hf).1
    · exact hfits2 f (Option.mem_filter_iff.1 hf).1

/-- **The coinbases of a pre-diff** make up the coinbase, and name the fee transfers to others. -/
theorem coinbasesOf_createCoinbase (h : createCoinbase constants parts receiver coinbaseAmount = .ok coinbases) :
    CoinbasesOf receiver coinbaseAmount parts coinbases := by
  cases parts with
  | zero =>
    cases h
    exact ⟨rfl, rfl, fun cb hcb => absurd hcb List.not_mem_nil⟩
  | one ft =>
    obtain ⟨cb, hcb, h⟩ := Outcome.bind_eq_ok.1 h
    cases h
    obtain ⟨rfl, hfits⟩ := createOneCoinbase_eq hcb
    refine ⟨by simp, ?_, fun cb hcb f hf => ?_⟩
    · cases ft with
      | none => rfl
      | some ft => by_cases hne : receiver = ft.receiverPk <;> simp [AtMostTwo.feeTransfers, Option.filter, hne]
    · obtain rfl := List.mem_singleton.1 hcb
      exact hfits f (Option.mem_filter_iff.1 hf).1
  | two fts =>
    cases fts with
    | none =>
      obtain ⟨hsum, hfts, hcovers⟩ := twoParts_eq h
      exact ⟨by simpa using hsum, hfts, hcovers⟩
    | some fts =>
      obtain ⟨ft1, ft2⟩ := fts
      obtain ⟨amount, -, h⟩ := Outcome.bind_eq_ok.1 h
      obtain ⟨hsum, hfts, hcovers⟩ := twoParts_eq h
      exact ⟨by simpa using hsum, hfts, hcovers⟩

/-- **The fee transfers of a pre-diff**: the producer gets what is left over, and the provers what the
coinbase does not pay. -/
theorem createFeeTransfers_ok {fts : List CoinbaseFeeTransfer} {transfers : List FeeTransfer}
    (h : createFeeTransfers works delta receiver fts = .ok transfers) :
    (∀ pk, paidTo pk ((transfers.flatMap OneOrTwo.toList).map fun t => (t.receiverPk, t.fee)) =
        (if pk = receiver then delta else 0) + paidTo pk (workPayments works) - paidTo pk (coinbasePayments fts)) ∧
      delta + paid (workPayments works) ≤
        paid ((transfers.flatMap OneOrTwo.toList).map fun t => (t.receiverPk, t.fee)) + paid (coinbasePayments fts) ∧
      ∀ t ∈ transfers.flatMap OneOrTwo.toList, t.feeToken = TokenId.default := by
  unfold createFeeTransfers at h
  dsimp only at h
  obtain ⟨m, hm, h⟩ := Outcome.bind_eq_ok.1 h
  obtain ⟨remaining, hremaining, h⟩ := Outcome.bind_eq_ok.1 h
  cases h
  rw [Outcome.okOr_eq_ok, singlesMap_eq] at hm
  have hsingles : ∀ e ∈ (if delta = 0 then [] else [(receiver, delta)]) ++
      works.filterMap (fun w => if w.fee = 0 then none else some (w.prover, w.fee)), e.2 ≠ 0 := by
    intro e he
    rcases List.mem_append.1 he with he | he
    · split at he
      · cases he
      · obtain rfl := List.mem_singleton.1 he
        assumption
    · obtain ⟨w, -, hw⟩ := List.mem_filterMap.1 he
      split at hw
      · cases hw
      · obtain rfl := Option.some.inj hw
        assumption
  have hempty : NoZero ∅ := fun pk v hv => by simp at hv
  obtain ⟨hzero, hto, hpaid⟩ := foldlM_addSingle hm hempty hsingles
  obtain ⟨hto', hpaid'⟩ := foldlM_deductCoinbaseFee (Outcome.okOr_eq_ok.1 hremaining) hzero
  have hpayments : ((remaining.toList.map fun p => (⟨p.1, p.2, TokenId.default⟩ : FeeTransferSingle)).map
      fun t => (t.receiverPk, t.fee)) = remaining.toList := by
    rw [List.map_map]
    exact List.map_id _
  have hnone : (∅ : ExtTreeMap PublicKey Nat).toList = [] := ExtTreeMap.toList_eq_nil_iff.2 rfl
  have hdelta : ∀ pk, paidTo pk (if delta = 0 then [] else [(receiver, delta)]) = if pk = receiver then delta else 0 := by
    intro pk
    by_cases hd : delta = 0 <;> simp [hd]
  rw [flatMap_groupList, hpayments]
  refine ⟨fun pk => ?_, ?_, fun t ht => ?_⟩
  · rw [hto', hto, hnone, paidTo_nil, Nat.zero_add, paidTo_append, paidTo_paidWorks, hdelta]
  · have hsum : paid m.toList = delta + paid (workPayments works) := by
      rw [hpaid, hnone, paid_nil, Nat.zero_add, paid_append, paid_paidWorks]
      by_cases hd : delta = 0 <;> simp [hd]
    omega
  · obtain ⟨p, -, rfl⟩ := List.mem_map.1 ht
    rfl

theorem getD_sub (a b : Nat) : (Amount.sub a b).getD 0 = a - b := by
  cases h : Amount.sub a b with
  | none => simp [Nat.sub_eq_zero_of_le (Amount.sub_eq_none.1 h).le]
  | some c => simp [Amount.sub_eq_some.1 h]

theorem feeRemainder_ok {coinbaseFee : Nat} (h : feeRemainder commands works coinbaseFee = .ok delta) :
    (commands.map fun c => c.data.fee).sum = delta + (paid (workPayments works) - coinbaseFee) := by
  obtain ⟨budget, hbudget, h⟩ := Outcome.bind_eq_ok.1 h
  obtain ⟨workFee, hwork, h⟩ := Outcome.bind_eq_ok.1 h
  have hworks : paid (workPayments works) = workFee := by
    rw [sumFees_eq (Outcome.okOr_eq_ok.1 hwork), paid, workPayments, List.map_map]
    rfl
  rw [getD_sub, Outcome.okOr_eq_ok, Amount.sub_eq_some] at h
  rw [hworks, ← h]
  exact (sumFees_eq (Outcome.okOr_eq_ok.1 hbudget)).symm

theorem paid_coinbasePayments (fts : List CoinbaseFeeTransfer) :
    paid (coinbasePayments fts) = (fts.map CoinbaseFeeTransfer.fee).sum := by
  unfold paid coinbasePayments
  rw [List.map_map]
  rfl

/-- The fees of the works of others than a key. -/
def othersFees (receiver : PublicKey) (works : List TransactionSnarkWork) : Nat :=
  paid (workPayments (works.filter fun w => receiver ≠ w.prover))

/-- What the transactions of a pre-diff pay. -/
structure Pays (receiver : PublicKey) (coinbaseAmount : Nat) (p : PreDiff (AtMostTwo CoinbaseFeeTransfer))
    (data : TransactionData) : Prop where
  commands : data.commands = p.commands
  coinbases : CoinbasesOf receiver coinbaseAmount p.coinbase data.coinbases
  notReceiver : ∀ e ∈ data.coinbaseTransferred, e.1 ≠ receiver
  others : ∀ pk, pk ≠ receiver →
    paidTo pk data.transferred = paidTo pk (workPayments p.completedWorks) - paidTo pk data.coinbaseTransferred
  remainder : paidTo receiver data.transferred =
    p.commandFees - (othersFees receiver p.completedWorks - paid data.coinbaseTransferred)
  enough : p.commandFees ≤ paid data.transferred
  tokens : ∀ t ∈ data.feeTransfers.flatMap OneOrTwo.toList, t.feeToken = TokenId.default

theorem CoinbasesOf.notReceiver (h : CoinbasesOf receiver coinbaseAmount parts coinbases) :
    ∀ e ∈ coinbasePayments (coinbases.filterMap Coinbase.feeTransfer), e.1 ≠ receiver := by
  intro e he
  obtain ⟨f, hf, rfl⟩ := List.mem_map.1 he
  rw [h.feeTransfers] at hf
  have hne : receiver ≠ f.receiverPk := by simpa using (List.mem_filter.1 hf).2
  exact hne.symm

/-- **The payments of a pre-diff.** -/
theorem pays_getTransactionData {p : PreDiff (AtMostTwo CoinbaseFeeTransfer)}
    (h : getTransactionData constants p.coinbase receiver coinbaseAmount p.commands p.completedWorks = .ok data) :
    Pays receiver coinbaseAmount p data := by
  obtain ⟨coinbases, hcbs, h⟩ := Outcome.bind_eq_ok.1 h
  obtain ⟨coinbaseWorkFees, hfees, h⟩ := Outcome.bind_eq_ok.1 h
  obtain ⟨delta, hdelta, h⟩ := Outcome.bind_eq_ok.1 h
  obtain ⟨transfers, htransfers, h⟩ := Outcome.bind_eq_ok.1 h
  cases h
  have hcoinbases := coinbasesOf_createCoinbase hcbs
  have hnot := hcoinbases.notReceiver
  obtain ⟨hto, hpaid, htokens⟩ := createFeeTransfers_ok htransfers
  have hbudget := feeRemainder_ok hdelta
  rw [sumFees_eq (Outcome.ofOption_eq_ok.1 hfees), ← paid_coinbasePayments] at hbudget
  have hreceiver : paidTo receiver ((transfers.flatMap OneOrTwo.toList).map fun t => (t.receiverPk, t.fee)) = delta := by
    have hothers : paidTo receiver (workPayments (p.completedWorks.filter fun w => receiver ≠ w.prover)) = 0 := by
      rw [workPayments_filter, paidTo_filter_self]
    rw [hto, if_pos rfl, hothers, paidTo_eq_zero hnot]
    rfl
  refine ⟨rfl, hcoinbases, hnot, fun pk hpk => ?_, ?_, ?_, htokens⟩
  · unfold TransactionData.transferred TransactionData.coinbaseTransferred
    dsimp only
    rw [hto, if_neg hpk, workPayments_filter, paidTo_filter_ne hpk, Nat.zero_add]
  · unfold TransactionData.transferred TransactionData.coinbaseTransferred othersFees PreDiff.commandFees
    dsimp only
    omega
  · -- what the coinbase pays is taken off at most once
    have hle : paidTo receiver ((transfers.flatMap OneOrTwo.toList).map fun t => (t.receiverPk, t.fee)) ≤
        paid ((transfers.flatMap OneOrTwo.toList).map fun t => (t.receiverPk, t.fee)) := paidTo_le_paid
    unfold TransactionData.transferred PreDiff.commandFees
    dsimp only
    omega

theorem getIndividualInfo_eq {statuses : List TransactionStatus}
    (h : getIndividualInfo constants parts receiver coinbaseAmount commands works statuses = .ok info) :
    ∃ data, getTransactionData constants parts receiver coinbaseAmount commands works = .ok data ∧
      info.transactions.map WithStatus.data = data.transactions ∧
      info.coinbases = data.coinbases.map Coinbase.amount := by
  obtain ⟨data, hdata, h⟩ := Outcome.bind_eq_ok.1 h
  obtain ⟨_, hlength, h⟩ := Outcome.bind_eq_ok.1 h
  cases h
  rw [Outcome.okIfTrue_eq_ok, decide_eq_true_eq] at hlength
  refine ⟨data, hdata, ?_, rfl⟩
  have hzip : ∀ (l : List Transaction) (statuses : List TransactionStatus), l.length = statuses.length →
      (l.zipWith WithStatus.mk statuses).map WithStatus.data = l := by
    intro l
    induction l with
    | nil => exact fun statuses _ => by simp
    | cons t l ih =>
      intro statuses hl
      cases statuses with
      | nil => cases hl
      | cons status statuses => simp [ih statuses (by simpa using hl)]
  rw [List.map_append, hzip _ _ hlength, List.map_map]
  simp [TransactionData.transactions, Function.comp_def, WithStatus.map]

/-- A pre-diff and its transactions. -/
def HasData (constants : ConstraintConstants) (receiver : PublicKey) (coinbaseAmount : Nat)
    (p : PreDiff (AtMostTwo CoinbaseFeeTransfer)) (data : TransactionData) : Prop :=
  getTransactionData constants p.coinbase receiver coinbaseAmount p.commands p.completedWorks = .ok data

/-- **The transactions of a diff** are those of its pre-diffs. -/
theorem get'_eq {diff : Diff} {amount : Option Nat} (h : get' constants receiver amount diff = .ok info) :
    ∃ coinbaseAmount datas, amount = some coinbaseAmount ∧ checkCoinbase diff = .ok () ∧
      List.Forall₂ (HasData constants receiver coinbaseAmount) diff.preDiffs datas ∧
      info.transactions.map WithStatus.data = datas.flatMap TransactionData.transactions ∧
      info.coinbases = datas.flatMap fun d => d.coinbases.map Coinbase.amount := by
  obtain ⟨coinbaseAmount, hamount, h⟩ := Outcome.bind_eq_ok.1 h
  obtain ⟨_, hcheck, h⟩ := Outcome.bind_eq_ok.1 h
  obtain ⟨p1, h1, h⟩ := Outcome.bind_eq_ok.1 h
  obtain ⟨p2, h2, h⟩ := Outcome.bind_eq_ok.1 h
  cases h
  obtain ⟨data1, hdata1, htxns1, hcbs1⟩ := getIndividualInfo_eq h1
  unfold Diff.preDiffs
  cases hsecond : diff.second with
  | none =>
    rw [hsecond] at h2
    cases h2
    exact ⟨coinbaseAmount, [data1], Outcome.okOr_eq_ok.1 hamount, hcheck, .cons hdata1 .nil, by simp [htxns1],
      by simp [hcbs1]⟩
  | some t2 =>
    rw [hsecond] at h2
    obtain ⟨data2, hdata2, htxns2, hcbs2⟩ := getIndividualInfo_eq h2
    exact ⟨coinbaseAmount, [data1, data2], Outcome.okOr_eq_ok.1 hamount, hcheck, .cons hdata1 (.cons hdata2 .nil),
      by simp [htxns1, htxns2], by simp [hcbs1, hcbs2]⟩

end Transactions

end PreDiffInfo

/-! ### The excess of fees -/

section Excess

variable {t : Transaction} {e : FeeExcess} {txns : List (WithStatus Transaction)} {data : List TransactionWithWitness}

theorem total_rebalance {e r : FeeExcess} (h : FeeExcess.rebalance e = .ok r) (t : Nat) : r.total t = e.total t := by
  rw [← FeeExcess.part_value, ← FeeExcess.part_value, FeeExcess.rebalance_value h]

theorem total_ofSingle {x : Signed} (h : FeeExcess.ofSingle (TokenId.default, x) = some e) :
    e.total TokenId.default = x.toInt := by
  unfold FeeExcess.ofSingle at h
  cases hr : FeeExcess.rebalance ⟨TokenId.default, x, TokenId.default, Signed.zero⟩ with
  | error err =>
    rw [hr] at h
    cases h
  | ok r =>
    rw [hr] at h
    obtain rfl := Option.some.inj h
    rw [total_rebalance hr]
    simp [FeeExcess.total]

/-- A transaction whose fee transfers are in the default token. -/
def DefaultToken : Transaction → Prop
  | .feeTransfer t => ∀ s ∈ t.toList, s.feeToken = TokenId.default
  | _ => True

/-- **The excess of a transaction** in the default token. -/
theorem total_feeExcess (h : feeExcess t = .ok e) (ht : DefaultToken t) : e.total TokenId.default = t.feeExcess := by
  cases t with
  | signedCommand c =>
    rw [total_ofSingle (Outcome.ofOption_eq_ok.1 h)]
    simp [Transaction.feeExcess]
  | zkappCommand c =>
    rw [total_ofSingle (Outcome.ofOption_eq_ok.1 h)]
    simp [Transaction.feeExcess]
  | feeTransfer ft =>
    dsimp only [feeExcess] at h
    split at h
    · rename_i hr
      cases h
      cases ft with
      | one s =>
        have hs : s.feeToken = TokenId.default := ht s (by simp [OneOrTwo.toList])
        rw [total_rebalance hr]
        simp [FeeExcess.total, Transaction.feeExcess, OneOrTwo.toList, hs]
      | two s s' =>
        have hs : s.feeToken = TokenId.default := ht s (by simp [OneOrTwo.toList])
        have hs' : s'.feeToken = TokenId.default := ht s' (by simp [OneOrTwo.toList])
        rw [total_rebalance hr]
        simp only [FeeExcess.total, Transaction.feeExcess, OneOrTwo.toList, hs, hs', if_true, Signed.toInt_negate,
          Signed.toInt_ofUnsigned, List.map_cons, List.map_nil, List.sum_cons, List.sum_nil]
        push_cast
        ring
    · cases h
  | coinbase cb =>
    dsimp only [feeExcess] at h
    split at h
    · cases h
      simp [FeeExcess.total, FeeExcess.zero, Transaction.feeExcess]
    · cases h

theorem total_foldlM {step : FeeExcess → WithStatus Transaction → Outcome Error FeeExcess} {acc : FeeExcess}
    (hstep : ∀ (acc : FeeExcess) (txn : WithStatus Transaction) (acc' : FeeExcess), DefaultToken txn.data →
      step acc txn = .ok acc' → acc'.total TokenId.default = acc.total TokenId.default + txn.data.feeExcess)
    (h : txns.foldlM step acc = .ok e) (ht : ∀ t ∈ txns, DefaultToken t.data) :
    e.total TokenId.default = acc.total TokenId.default + ((txns.map WithStatus.data).map Transaction.feeExcess).sum := by
  induction txns generalizing acc with
  | nil =>
    cases h
    simp
  | cons txn txns ih =>
    rw [List.foldlM_cons] at h
    obtain ⟨next, hnext, h⟩ := Outcome.bind_eq_ok.1 h
    rw [ih h fun t htm => ht t (List.mem_cons_of_mem _ htm), hstep acc txn next (ht txn List.mem_cons_self) hnext]
    simp [add_assoc]

theorem total_totalFeeExcess (h : totalFeeExcess txns = .ok e) (ht : ∀ t ∈ txns, DefaultToken t.data) :
    e.total TokenId.default = ((txns.map WithStatus.data).map Transaction.feeExcess).sum := by
  have hzero : FeeExcess.zero.total TokenId.default = 0 := rfl
  unfold totalFeeExcess at h
  rw [total_foldlM ?_ h ht, hzero, zero_add]
  intro acc txn acc' hdefault hnext
  obtain ⟨e', he', hnext⟩ := Outcome.bind_eq_ok.1 hnext
  split at hnext
  · rename_i hcombine
    cases hnext
    rw [FeeExcess.combine_total hcombine, total_feeExcess he' hdefault]
  · cases hnext

/-- **A part of the transactions that passes the check** leaves no excess. -/
theorem sum_feeExcess_of_check {partitions : ParallelScan.SpacePartition}
    (h : checkZeroFeeExcessOf partitions data = .ok ())
    (ht : ∀ d ∈ data, DefaultToken d.transactionWithInfo.transactionWithStatus.data) :
    (data.map fun d => d.transactionWithInfo.transactionWithStatus.data.feeExcess).sum = 0 := by
  obtain ⟨e, he, h⟩ := Outcome.bind_eq_ok.1 h
  have htotal := total_totalFeeExcess he (by
    intro t htm
    obtain ⟨d, hd, rfl⟩ := List.mem_map.1 htm
    exact ht d hd)
  rw [Outcome.okIfTrue_eq_ok, Bool.and_eq_true, decide_eq_true_eq, decide_eq_true_eq] at h
  rw [List.map_map, List.map_map] at htotal
  have hzero : e.total TokenId.default = 0 := by
    simp [FeeExcess.total, Signed.toInt_eq_zero.2 h.1, Signed.toInt_eq_zero.2 h.2]
  exact htotal.symm.trans hzero

/-- **All the transactions** leave no excess, if there is room for them. -/
theorem sum_feeExcess {scanState : ScanState}
    (h : checkZeroFeeExcess scanState data = .ok ()) (hroom : data.length ≤ scanState.freeSpace)
    (ht : ∀ d ∈ data, DefaultToken d.transactionWithInfo.transactionWithStatus.data) :
    (data.map fun d => d.transactionWithInfo.transactionWithStatus.data.feeExcess).sum = 0 := by
  obtain ⟨_, hfirst, h⟩ := Outcome.bind_eq_ok.1 h
  have hfirst' := sum_feeExcess_of_check hfirst fun d hd => ht d (List.mem_of_mem_take hd)
  by_cases hsecond : scanState.partitionIfOverflowing.second.isSome = true
  · rw [if_pos hsecond] at h
    have hsecond' := sum_feeExcess_of_check h fun d hd => ht d (List.mem_of_mem_drop hd)
    rw [← List.take_append_drop scanState.partitionIfOverflowing.first.1.toNat data, List.map_append, List.sum_append]
    unfold ParallelScan.takeInt at hfirst'
    unfold ParallelScan.dropInt at hsecond'
    rw [hfirst', hsecond', add_zero]
  · -- one part is all
    have hall : ParallelScan.takeInt data scanState.partitionIfOverflowing.first.1 = data := by
      refine List.take_of_length_le (hroom.trans ?_)
      unfold ScanState.partitionIfOverflowing ParallelScan.partitionIfOverflowing at hsecond ⊢
      unfold ScanState.freeSpace ParallelScan.freeSpace
      dsimp only at hsecond ⊢
      split at hsecond
      · simp at hsecond
      · omega
    rwa [hall] at hfirst'

end Excess

/-! ### The money of a diff -/

/-- **A pre-diff adds up**: its fee transfers come to the fees of its commands; each prover but the receiver
of the coinbase gets the fees of its works, be it by fee transfers or with the coinbase; the receiver gets
what is left of the fees of the commands; and a coinbase pays no more than it has, and not to its receiver. -/
structure PreDiff.AddsUp (receiver : PublicKey) (p : PreDiff (AtMostTwo CoinbaseFeeTransfer))
    (data : TransactionData) : Prop where
  total : paid data.transferred = p.commandFees
  provers : ∀ w ∈ p.completedWorks, w.prover ≠ receiver →
    paidTo w.prover data.transferred + paidTo w.prover data.coinbaseTransferred =
      paidTo w.prover (workPayments p.completedWorks)
  remainder : paidTo receiver data.transferred =
    p.commandFees - (othersFees receiver p.completedWorks - paid data.coinbaseTransferred)
  notReceiver : ∀ e ∈ data.coinbaseTransferred, e.1 ≠ receiver
  covers : ∀ cb ∈ data.coinbases, ∀ f ∈ cb.feeTransfer, f.fee ≤ cb.amount

/-- **The fees and the coinbase of a diff add up**: each pre-diff does, the transactions are theirs, and the
coinbases come to the coinbase amount if there is any. -/
structure Diff.AddsUp (constants : ConstraintConstants) (receiver : PublicKey) (superchargeCoinbase : Bool)
    (diff : Diff) (info : Info) : Prop where
  preDiffs : ∃ coinbaseAmount datas, diff.coinbaseOf constants superchargeCoinbase = some coinbaseAmount ∧
    List.Forall₂ (fun p data => HasData constants receiver coinbaseAmount p data ∧ p.AddsUp receiver data)
      diff.preDiffs datas ∧
    info.transactions.map WithStatus.data = datas.flatMap TransactionData.transactions ∧
    info.coinbases = datas.flatMap fun d => d.coinbases.map Coinbase.amount
  coinbase : some info.coinbases.sum =
    if diff.first.coinbase = .zero ∧ diff.secondCoinbase = .zero then some 0
    else Diff.coinbaseAmount constants superchargeCoinbase

/-- The coinbase fee transfers to a prover are within the fees of its works, in each pre-diff. -/
def Diff.CoinbaseWithinWorks (receiver : PublicKey) (diff : Diff) : Prop :=
  ∀ p ∈ diff.preDiffs, ∀ w ∈ p.completedWorks, w.prover ≠ receiver →
    paidTo w.prover (coinbasePayments p.coinbase.feeTransfers) ≤ paidTo w.prover (workPayments p.completedWorks)

section Money

variable {constants : ConstraintConstants} {receiver : PublicKey} {superchargeCoinbase : Bool} {diff : Diff} {info : Info}
  {coinbaseAmount : Nat} {p : PreDiff (AtMostTwo CoinbaseFeeTransfer)} {data : TransactionData}
  {datas : List TransactionData}

variable (h : Pays receiver coinbaseAmount p data) {preDiffs : List (PreDiff (AtMostTwo CoinbaseFeeTransfer))}

include h

theorem PreDiffInfo.Pays.coinbaseTransferred (hpk : pk ≠ receiver) :
    paidTo pk data.coinbaseTransferred = paidTo pk (coinbasePayments p.coinbase.feeTransfers) := by
  unfold TransactionData.coinbaseTransferred
  rw [h.coinbases.feeTransfers, coinbasePayments_filter, paidTo_filter_ne hpk]

theorem PreDiffInfo.Pays.prover_iff (hpk : pk ≠ receiver) :
    paidTo pk data.transferred + paidTo pk data.coinbaseTransferred = paidTo pk (workPayments p.completedWorks) ↔
      paidTo pk (coinbasePayments p.coinbase.feeTransfers) ≤ paidTo pk (workPayments p.completedWorks) := by
  rw [h.others pk hpk, h.coinbaseTransferred hpk]
  omega

theorem PreDiffInfo.Pays.defaultToken : ∀ t ∈ data.transactions, DefaultToken t := by
  intro t ht
  unfold TransactionData.transactions at ht
  rcases List.mem_append.1 ht with ht | ht
  · rcases List.mem_append.1 ht with ht | ht
    · obtain ⟨c, -, rfl⟩ := List.mem_map.1 ht
      cases c.data <;> trivial
    · obtain ⟨cb, -, rfl⟩ := List.mem_map.1 ht
      trivial
  · obtain ⟨ft, hft, rfl⟩ := List.mem_map.1 ht
    exact fun s hs => h.tokens s (List.mem_flatMap.2 ⟨ft, hft, hs⟩)

/-- **The excess of a pre-diff**. -/
theorem PreDiffInfo.Pays.sum_feeExcess :
    (data.transactions.map Transaction.feeExcess).sum = (p.commandFees : Int) - paid data.transferred := by
  have hcommands : ∀ cs : List (WithStatus Command),
      ((cs.map fun c => c.data.transaction).map Transaction.feeExcess).sum = (((cs.map fun c => c.data.fee).sum : Nat) : Int) := by
    intro cs
    induction cs with
    | nil => rfl
    | cons c cs ih =>
      have hc : (c.data.transaction).feeExcess = (c.data.fee : Int) := by cases c.data <;> rfl
      simp [hc, ← ih]
  have hcoinbases : ∀ cbs : List Coinbase, ((cbs.map Transaction.coinbase).map Transaction.feeExcess).sum = 0 := by
    intro cbs
    induction cbs with
    | nil => rfl
    | cons cb cbs ih => simpa [Transaction.feeExcess] using ih
  have hfts : ∀ fts : List FeeTransfer, ((fts.map Transaction.feeTransfer).map Transaction.feeExcess).sum =
      -(paid ((fts.flatMap OneOrTwo.toList).map fun t => (t.receiverPk, t.fee)) : Int) := by
    intro fts
    induction fts with
    | nil => rfl
    | cons ft fts ih =>
      rw [List.map_cons, List.map_cons, List.sum_cons, ih, List.flatMap_cons, List.map_append, paid_append]
      have hft : (ft.toList.map FeeTransferSingle.fee).sum = paid (ft.toList.map fun t => (t.receiverPk, t.fee)) := by
        unfold paid
        rw [List.map_map]
        rfl
      simp only [Transaction.feeExcess, hft]
      push_cast
      ring
  unfold TransactionData.transactions PreDiff.commandFees TransactionData.transferred
  rw [List.map_append, List.map_append, List.sum_append, List.sum_append, hcoinbases, hfts, h.commands, hcommands]
  ring

omit h

theorem defaultToken_of_pays (h : List.Forall₂ (Pays receiver coinbaseAmount) preDiffs datas) :
    ∀ t ∈ datas.flatMap TransactionData.transactions, DefaultToken t := by
  induction h with
  | nil => simp
  | cons hpays _ ih =>
    intro t ht
    rw [List.flatMap_cons] at ht
    exact (List.mem_append.1 ht).elim (hpays.defaultToken t) (ih t)

theorem sum_feeExcess_nonpos (h : List.Forall₂ (Pays receiver coinbaseAmount) preDiffs datas) :
    ((datas.flatMap TransactionData.transactions).map Transaction.feeExcess).sum ≤ 0 := by
  induction h with
  | nil => rfl
  | cons hpays _ ih =>
    rw [List.flatMap_cons, List.map_append, List.sum_append, hpays.sum_feeExcess]
    have henough := hpays.enough
    omega

/-- **With no excess in all there is none in a pre-diff**, for none of them pays less than its fees. -/
theorem total_of_no_excess (h : List.Forall₂ (HasData constants receiver coinbaseAmount) preDiffs datas)
    (hzero : ((datas.flatMap TransactionData.transactions).map Transaction.feeExcess).sum = 0) :
    List.Forall₂ (fun p data => HasData constants receiver coinbaseAmount p data ∧ paid data.transferred = p.commandFees)
      preDiffs datas := by
  induction h with
  | nil => exact .nil
  | cons hhead htail ih =>
    have hpays := pays_getTransactionData hhead
    have hrest := sum_feeExcess_nonpos (htail.imp fun _ _ h => pays_getTransactionData h)
    have henough := hpays.enough
    rw [List.flatMap_cons, List.map_append, List.sum_append, hpays.sum_feeExcess] at hzero
    exact .cons ⟨hhead, by omega⟩ (ih (by omega))

/-- **The coinbases come to the coinbase amount.** -/
theorem sum_coinbases (hcheck : checkCoinbase diff = .ok ())
    (hpays : List.Forall₂ (Pays receiver coinbaseAmount) diff.preDiffs datas) :
    (datas.flatMap fun d => d.coinbases.map Coinbase.amount).sum =
      if diff.first.coinbase = .zero ∧ diff.secondCoinbase = .zero then 0 else coinbaseAmount := by
  unfold Diff.preDiffs at hpays
  unfold checkCoinbase Diff.secondCoinbase at *
  cases hsecond : diff.second with
  | none =>
    rw [hsecond] at hpays hcheck
    cases hpays with
    | cons h1 h2 =>
      cases h2
      simp [h1.coinbases.amount]
  | some t2 =>
    rw [hsecond] at hpays hcheck
    cases hpays with
    | cons h1 h2 =>
      cases h2 with
      | cons h2 h3 =>
        cases h3
        have hamount1 := h1.coinbases.amount
        have hamount2 := h2.coinbases.amount
        simp only [Option.map_some, Option.getD_some] at hcheck
        dsimp only at hamount2
        cases hfirst : diff.first.coinbase <;> cases ht2 : t2.coinbase <;>
          simp_all [AtMostOne.toAtMostTwo]

theorem coinbaseWithinWorks_of_addsUp (h : diff.AddsUp constants receiver superchargeCoinbase info) :
    diff.CoinbaseWithinWorks receiver := by
  obtain ⟨coinbaseAmount, datas, -, hdatas, -⟩ := h.preDiffs
  intro p hp w hw hpk
  obtain ⟨data, hdata, hadds⟩ := exists_of_forall₂ hdatas hp
  exact ((pays_getTransactionData hdata).prover_iff hpk).1 (hadds.provers w hw hpk)

end Money

/-- A prover other than the receiver of the coinbase. -/
def sampleProver : PublicKey := ⟨2, false⟩

/-- A diff with one work of fee 5, and a coinbase in two parts with a fee transfer each to its prover. -/
def twoPartsDiff (fee1 fee2 : Nat) : Diff :=
  ⟨⟨[{ sampleWork with fee := 5 }], [], .two (some (⟨sampleProver, fee1⟩, some ⟨sampleProver, fee2⟩)),
    [.applied, .applied]⟩, none⟩

/-- The parts of the coinbase. -/
def twoPartsCoinbases (fee1 fee2 : Nat) : List Coinbase :=
  [⟨⟨1, false⟩, 1000000000 + fee1, some ⟨sampleProver, fee1⟩⟩,
    ⟨⟨1, false⟩, 720000000000 - (1000000000 + fee1), some ⟨sampleProver, fee2⟩⟩]

def twoPartsInfo (fee1 fee2 : Nat) : Info where
  transactions := (twoPartsCoinbases fee1 fee2).map fun cb => ⟨.coinbase cb, .applied⟩
  work := [{ sampleWork with fee := 5 }]
  commandsCount := 0
  coinbases := (twoPartsCoinbases fee1 fee2).map Coinbase.amount

/-- The coinbases once they are applied. -/
def twoPartsData (fee1 fee2 : Nat) : List TransactionWithWitness :=
  (twoPartsCoinbases fee1 fee2).map fun cb =>
    { transactionWithInfo := .coinbase ⟨cb, .applied, [], 0⟩
      stateHash := (1, 2)
      statement := ⟨sampleRegisters, sampleRegisters, 0, 0, FeeExcess.zero, Signed.zero⟩
      initStack := .merge
      firstPassLedgerWitness := ⟨0, []⟩
      secondPassLedgerWitness := ⟨0, []⟩
      blockGlobalSlot := 1 }

theorem ok_of_isOk {x : Outcome Error Unit} (h : x.isOk = true) : x = .ok () := by
  cases x with
  | raise => cases h
  | error e => cases h
  | ok a => rfl

end MinaProtocol.StagedLedger
