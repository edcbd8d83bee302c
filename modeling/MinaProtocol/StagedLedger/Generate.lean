import MinaProtocol.StagedLedger.Creation

/-!
# StagedLedger.Generate

The diff of a new block, for the space that is left in the current tree of the scan state and for the next
tree. The first pre-diff is made without a coinbase; what it has left out of the commands goes to the second one,
which gets the coinbase where the first tree is full, and otherwise the one or two slots that are left there are
filled with parts of the coinbase.

Whatever is left out is left out from the end, so that commands and works are prefixes of those at hand. The works
of the second pre-diff have their jobs only if the first one has all of its own: a pre-diff that is full up to two
slots has left out at most two works, and the parts of the coinbase take these back.
-/

namespace MinaProtocol.StagedLedger

open Std PreDiffInfo

/-! ### The diff -/

/-- The arguments that `generate` hands on. -/
structure Creation where
  constants : ConstraintConstants
  receiver : PublicKey
  isCoinbaseReceiverNew : Bool
  superchargeCoinbase : Bool

/-- `Pre_diff_two.t` with valid commands, and `Pre_diff_one.t` with the other `C`. -/
structure CreatedPreDiff (C : Type) where
  completedWorks : List TransactionSnarkWork
  commands : List Command
  coinbase : C
  internalCommandStatuses : List TransactionStatus

namespace Resources

variable (res : Resources)

/-- `has_no_commands` in `generate`. -/
def hasNoCommands : Bool := res.commandsRev.length = 0

/-- `isEmpty` in `generate`. -/
def isEmpty : Bool := res.hasNoCommands && res.coinbaseAdded = 0

/-- `to_at_most_one` in `generate`, which logs an error where there are two parts. -/
def toAtMostOne : AtMostTwo CoinbaseFeeTransfer → AtMostOne CoinbaseFeeTransfer
  | .zero => .zero
  | .one x => .one x
  | .two _ => .zero

/-- `pre_diff_with_one`. The statuses are found when the diff is applied. -/
def preDiffWithOne : CreatedPreDiff (AtMostOne CoinbaseFeeTransfer) where
  completedWorks := res.completedWorkRev.reverse
  commands := res.commandsRev.reverse
  coinbase := toAtMostOne res.coinbase
  internalCommandStatuses := []

/-- `pre_diff_with_two`. -/
def preDiffWithTwo : CreatedPreDiff (AtMostTwo CoinbaseFeeTransfer) where
  completedWorks := res.completedWorkRev.reverse
  commands := res.commandsRev.reverse
  coinbase := res.coinbase
  internalCommandStatuses := []

end Resources

/-- What `generate` returns. -/
structure CreatedDiff where
  first : CreatedPreDiff (AtMostTwo CoinbaseFeeTransfer)
  second : Option (CreatedPreDiff (AtMostOne CoinbaseFeeTransfer))

/-- `make_diff` in `generate`. -/
def makeDiff (res : Resources × Option Resources) : CreatedDiff :=
  ⟨res.1.preDiffWithTwo, res.2.map Resources.preDiffWithOne⟩

namespace Creation

variable (c : Creation) (fuel : Nat)

variable (cwSeq : List TransactionSnarkWork)

variable (tsSeq : List Command)

/-- `one_prediff`. -/
def onePrediff (addCoinbase : Bool) (slotJobCount : Int × Nat) : Option Resources := do
  let initResources ← Resources.init c.constants tsSeq cwSeq slotJobCount.1 slotJobCount.2 c.receiver addCoinbase
    c.superchargeCoinbase c.isCoinbaseReceiverNew
  checkConstraintsAndUpdate c.constants fuel initResources

/-- `second_pre_diff` in `generate`. -/
def secondPreDiff (res : Resources) (partition : Int × Nat) (addCoinbase : Bool) (work : List TransactionSnarkWork) :
    Option Resources :=
  c.onePrediff fuel work res.discarded.commandsRev addCoinbase partition

/-- `try_with_coinbase` in `generate`: a pre-diff for the first partition only. -/
def tryWithCoinbase (cwSeq1 : List TransactionSnarkWork) (tsSeq : List Command) (first : Int × Nat) :
    Option (Resources × Option Resources) := do
  let res ← c.onePrediff fuel cwSeq1 tsSeq true first
  return (res, none)

/-- `incr_coinbase_and_compute` in `generate`. -/
def incrCoinbaseAndCompute (cwSeq1 cwSeq2 : List TransactionSnarkWork) (tsSeq : List Command) (first y : Int × Nat)
    (res : Resources) (count : Resources.Count) : Option (Resources × Option Resources) := do
  let newRes ← Resources.incrCoinbasePartBy c.constants res count
  if newRes.spaceAvailable then c.tryWithCoinbase fuel cwSeq1 tsSeq first
  else do
    let res2 ← c.secondPreDiff fuel newRes y false cwSeq2
    if res2.isEmpty then c.tryWithCoinbase fuel cwSeq1 tsSeq first else return (newRes, some res2)

/-- `res1` and `res2` in `generate`, for two partitions. -/
def twoPreDiffs (cwSeq1 cwSeq2 : List TransactionSnarkWork) (tsSeq : List Command) (first y : Int × Nat) :
    Option (Resources × Option Resources) := do
  let res ← c.onePrediff fuel cwSeq1 tsSeq false first
  if res.commandsRev.isEmpty then c.tryWithCoinbase fuel cwSeq1 tsSeq first
  else if res.availableSpace = 0 then do
    let res2 ← c.secondPreDiff fuel res y true cwSeq2
    return (res, some res2)
  else if res.availableSpace = 1 then c.incrCoinbaseAndCompute fuel cwSeq1 cwSeq2 tsSeq first y res .one
  else if res.availableSpace = 2 then c.incrCoinbaseAndCompute fuel cwSeq1 cwSeq2 tsSeq first y res .two
  -- too many slots are left in the first partition
  else c.tryWithCoinbase fuel cwSeq1 tsSeq first

/-- The resources that `generate` makes a diff from. -/
def resources (partitions : ParallelScan.SpacePartition) :
    Option (Resources × Option Resources) :=
  match partitions.second with
  | none => c.tryWithCoinbase fuel cwSeq tsSeq partitions.first
  | some y =>
    -- `assert`
    if partitions.first.2 + y.2 < cwSeq.length then none
    else do
      let cwSeq1 := cwSeq.take partitions.first.2
      let cwSeq2 := cwSeq.drop partitions.first.2
      let (res1, res2) ← c.twoPreDiffs fuel cwSeq1 cwSeq2 tsSeq partitions.first y
      let coinbaseAdded := res1.coinbaseAdded + (res2.map Resources.coinbaseAdded).getD 0
      if 0 < coinbaseAdded then return (res1, res2)
      -- a coinbase takes priority over commands
      else c.tryWithCoinbase fuel cwSeq1 tsSeq partitions.first

/-- `generate`. -/
def generate (partitions : ParallelScan.SpacePartition) : Option CreatedDiff := do
  let res ← c.resources fuel cwSeq tsSeq partitions
  return makeDiff res

end Creation

/-! ### What is left out is left out from the end -/

section Loop

variable {constants : ConstraintConstants} {t r r' : Resources}

theorem calledWith_of_result {fuel : Nat} {t' : Resources} (hcalled : CalledWith constants t t')
    (h : checkConstraintsAndUpdate constants fuel t' = some r) : CalledWith constants t r ∧ Settled r := by
  induction fuel generalizing t' with
  | zero => cases h
  | succ fuel ih =>
    unfold checkConstraintsAndUpdate at h
    obtain ⟨call, hcall, h⟩ := Option.bind_eq_some_iff.1 h
    cases call with
    | finished =>
      obtain rfl := Option.some.inj h
      exact ⟨hcalled, settled_of_finished hcall⟩
    | again t'' => exact ih (.next hcalled hcall) h

namespace Resources

/-- What is at hand and what is left out are the works and commands that there were, and the coinbase keeps its
parts as long as there is a command. -/
structure Split (cwSeq : List TransactionSnarkWork) (tsSeq : List Command) (slots : Int) (jobCount parts : Nat)
    (t : Resources) : Prop where
  works : t.completedWorkRev.reverse ++ t.discarded.completedWork = cwSeq
  commands : t.discarded.commandsRev ++ t.commandsRev = tsSeq
  maxSpace : t.maxSpace = slots
  maxJobs : t.maxJobs = jobCount
  parts_le : t.coinbase.parts ≤ parts
  parts : t.commandsRev = [] ∨ t.coinbase.parts = parts

variable {cwSeq : List TransactionSnarkWork} {tsSeq : List Command} {slots : Int} {jobCount parts : Nat}
  {m : ExtTreeMap PublicKey Nat} {coinbase c : AtMostTwo CoinbaseFeeTransfer} {count : Count}

theorem Split.discardLastWork {wo : Option TransactionSnarkWork} (h : Split cwSeq tsSeq slots jobCount parts r)
    (hdiscard : Resources.discardLastWork constants r = some (r', wo)) : Split cwSeq tsSeq slots jobCount parts r' := by
  rcases discardLastWork_cases hdiscard with ⟨-, rfl⟩ | ⟨w, remSeq, m, hworks, -, rfl⟩
  · exact h
  · have hparts := (@selected_reselection constants (r.withoutWork w remSeq)).parts
    refine ⟨?_, h.commands, h.maxSpace, h.maxJobs, ?_, ?_⟩
    · have heq := h.works
      rw [hworks, List.reverse_cons, List.append_assoc] at heq
      exact heq
    · exact (Nat.le_of_eq hparts).trans h.parts_le
    · exact h.parts.imp_right hparts.trans

theorem Split.discardUserCommand (h : Split cwSeq tsSeq slots jobCount parts r) :
    Split cwSeq tsSeq slots jobCount parts r.discardUserCommand.1 := by
  unfold Resources.discardUserCommand
  split
  · rename_i hnil
    have hless := h.parts_le
    unfold decrCoinbase updateFeeTransfers
    split
    · exact h
    all_goals
      rename_i hcoinbase
      rw [hcoinbase] at hless
      refine ⟨h.works, h.commands, h.maxSpace, h.maxJobs, ?_, .inl hnil⟩
      simp only [AtMostTwo.parts] at hless ⊢
      omega
  · rename_i uc remSeq hcommands
    refine ⟨h.works, ?_, h.maxSpace, h.maxJobs, h.parts_le, ?_⟩
    · have heq := h.commands
      rw [hcommands] at heq
      change r.discarded.commandsRev ++ [uc] ++ remSeq = tsSeq
      rw [List.append_assoc]
      exact heq
    · refine .inr (h.parts.resolve_left ?_)
      rw [hcommands]
      exact List.cons_ne_nil _ _

theorem Split.calledWith (h : Split cwSeq tsSeq slots jobCount parts t) (hcalled : CalledWith constants t r) :
    Split cwSeq tsSeq slots jobCount parts r := by
  induction hcalled with
  | first => exact h
  | next _ hcall ih =>
    rcases checkConstraints_again hcall with ⟨wo, hdiscard, -⟩ | ⟨rfl, -⟩
    · exact ih.discardLastWork hdiscard
    · exact ih.discardUserCommand

/-! ### Parts of the coinbase -/

/-- What adding up to `n` parts of the coinbase changes: works that were left out are taken back. -/
structure ToppedUp (n : Nat) (t t' : Resources) : Prop where
  works : t'.completedWorkRev.reverse ++ t'.discarded.completedWork =
    t.completedWorkRev.reverse ++ t.discarded.completedWork
  discarded : t'.discarded.completedWork.length = t.discarded.completedWork.length - n
  commands : t'.commandsRev = t.commandsRev
  discardedCommands : t'.discarded.commandsRev = t.discarded.commandsRev
  maxSpace : t'.maxSpace = t.maxSpace
  parts_le : t'.coinbase.parts ≤ t.coinbase.parts + n
  changed : t' = t ∨ t.coinbase.parts < t'.coinbase.parts

theorem parts_incr {c' : AtMostTwo CoinbaseFeeTransfer} (h : incr c = some c') : c'.parts = c.parts + 1 := by
  unfold incr at h
  split at h
  all_goals cases h
  all_goals rfl

theorem exists_incr (h : c.parts ≤ 1) : ∃ c', incr c = some c' := by
  unfold incr
  split
  · exact ⟨_, rfl⟩
  · exact ⟨_, rfl⟩
  · exact ⟨_, rfl⟩
  · simp [AtMostTwo.parts] at h

theorem toppedUp_byOne (h : byOne constants t = some t') (hparts : t.coinbase.parts ≤ 1) : ToppedUp 1 t t' := by
  obtain ⟨coinbase, hincr⟩ := exists_incr hparts
  have hless := parts_incr hincr
  unfold byOne at h
  rw [hincr] at h
  cases hworks : t.discarded.completedWork with
  | nil =>
    rw [hworks] at h
    dsimp only at h
    split at h
    · obtain rfl := Option.some.inj h
      refine ⟨rfl, by simp [hworks], rfl, rfl, rfl, Nat.le_of_eq hless, .inr ?_⟩
      exact Nat.lt_of_lt_of_eq (Nat.lt_succ_self _) hless.symm
    · obtain rfl := Option.some.inj h
      exact ⟨rfl, by simp [hworks], rfl, rfl, rfl, Nat.le_add_right _ _, .inl rfl⟩
  | cons w remWork =>
    rw [hworks] at h
    dsimp only at h
    rw [reselectCoinbaseWork_eq] at h
    obtain ⟨m, -, rfl⟩ := Option.map_eq_some_iff.1 h
    have hselected := (@selected_reselection constants { t with
      completedWorkRev := w :: t.completedWorkRev
      discarded := { t.discarded with completedWork := remWork }
      coinbase := coinbase }).parts.trans hless
    refine ⟨?_, by simp [charging, hworks], rfl, rfl, rfl, Nat.le_of_eq hselected, .inr ?_⟩
    · simp [charging, hworks]
    · exact Nat.lt_of_lt_of_eq (Nat.lt_succ_self _) hselected.symm

theorem ToppedUp.trans {t₁ t₂ : Resources} {n n' : Nat} (h : ToppedUp n t t₁) (h' : ToppedUp n' t₁ t₂) :
    ToppedUp (n + n') t t₂ := by
  refine ⟨h'.works.trans h.works, ?_, h'.commands.trans h.commands, h'.discardedCommands.trans h.discardedCommands,
    h'.maxSpace.trans h.maxSpace, ?_, ?_⟩
  · rw [h'.discarded, h.discarded, Nat.sub_sub]
  · have hfirst := h.parts_le
    have hsecond := h'.parts_le
    omega
  · rcases h.changed with rfl | hless
    · exact h'.changed
    · rcases h'.changed with rfl | hless'
      · exact .inr hless
      · exact .inr (hless.trans hless')

/-- The number of parts to add. -/
def Count.toNat : Count → Nat
  | .one => 1
  | .two => 2

theorem toppedUp_incrCoinbasePartBy (h : incrCoinbasePartBy constants t count = some t')
    (hparts : t.coinbase.parts = 0) : ToppedUp count.toNat t t' := by
  cases count with
  | one => exact toppedUp_byOne h (by omega)
  | two =>
    obtain ⟨t₁, hone, htwo⟩ := Option.bind_eq_some_iff.1 h
    have hfirst := toppedUp_byOne hone (by omega)
    have hless := hfirst.parts_le
    exact hfirst.trans (toppedUp_byOne htwo (by omega))

/-! ### The slots that this takes -/

/-- The number of the keys, other than the receiver of the coinbase, that fees are paid to. -/
def othersCharged (receiver : PublicKey) (l : List (PublicKey × Nat)) : Nat :=
  ((l.map Prod.fst).filter fun pk => receiver ≠ pk).dedup.length

theorem mem_singlesMap {l : List (PublicKey × Nat)} {m' : ExtTreeMap PublicKey Nat} {pk : PublicKey}
    (h : l.foldlM addSingle m = some m') : pk ∈ m' ↔ pk ∈ m ∨ pk ∈ l.map Prod.fst := by
  induction l generalizing m with
  | nil =>
    obtain rfl := Option.some.inj h
    simp
  | cons e l ih =>
    rw [List.foldlM_cons] at h
    obtain ⟨m₁, hstep, h⟩ := Option.bind_eq_some_iff.1 h
    obtain rfl := addSingle_eq hstep
    rw [ih h, ExtTreeMap.mem_insert, LawfulEqOrd.compare_eq_iff_eq, List.map_cons, List.mem_cons]
    grind

variable (hm : singlesMap (singles (reselection constants t).2) = some m)

include hm in
theorem otherProvers_charging :
    (charging constants t m).otherProvers.length =
      othersCharged t.receiverPk (singles (reselection constants t).2) := by
  unfold othersCharged otherProvers
  refine List.Perm.length_eq ((List.perm_ext_iff_of_nodup (ExtTreeMap.nodup_keys.filter _) (List.nodup_dedup _)).2
    fun pk => ?_)
  rw [List.mem_dedup, List.mem_filter, List.mem_filter, ExtTreeMap.mem_keys]
  refine and_congr_left fun _ => ?_
  exact (mem_singlesMap hm).trans (or_iff_right ExtTreeMap.not_mem_empty)

/-- The resources when all works that were left out are taken back, with as many parts of the coinbase. -/
def takenBack (res : Resources) : Resources :=
  { res with
    completedWorkRev := res.discarded.completedWork.reverse ++ res.completedWorkRev
    coinbase := if res.discarded.completedWork.length = 1 then .one none else .two none }

/-- The number of the other provers that are charged when all works are taken back. -/
def chargedWith (constants : ConstraintConstants) (res : Resources) : Nat :=
  othersCharged res.receiverPk (singles (reselection constants res.takenBack).2)

/-- The parts of the coinbase that are added while the slots are full: as many as asked for, if there is a work for
each of them or all jobs are done. -/
def addedParts (res : Resources) (count : Count) : Nat :=
  if res.discarded.completedWork.length = count.toNat ∨
      res.completedWorkRev.length + res.discarded.completedWork.length = res.maxJobs then
    count.toNat
  else res.discarded.completedWork.length

/-- **Works that are taken back need more slots than there are**: the fee transfers to the provers, two in a slot,
take more slots than those that the coinbase leaves. -/
def Overfills (constants : ConstraintConstants) (res : Resources) (count : Count) : Prop :=
  res.discarded.completedWork ≠ [] ∧
    (res.otherProvers.length + res.feeForSelf + 1) / 2 + count.toNat <
      (chargedWith constants res + res.feeForSelf + 1) / 2 + res.addedParts count

theorem slotsOccupied_eq (t : Resources) : t.slotsOccupied =
    t.commandsRev.length + (t.otherProvers.length + t.feeForSelf + 1) / 2 + t.coinbase.parts := by
  unfold slotsOccupied
  rw [coinbaseAdded_eq]

include hm in
theorem slotsOccupied_charging :
    (charging constants t m).slotsOccupied = t.commandsRev.length +
      (othersCharged t.receiverPk (singles (reselection constants t).2) + t.feeForSelf + 1) / 2 + t.coinbase.parts := by
  rw [slotsOccupied_eq, otherProvers_charging hm]
  change _ + (reselection constants t).1.parts = _
  rw [(selected_reselection t).parts]
  rfl

theorem byOne_of_nil (h : byOne constants t = some t')
    (hnil : t.discarded.completedWork = []) (hincr : incr t.coinbase = some coinbase) :
    t'.discarded = t.discarded ∧ t'.slotsOccupied =
      if t.completedWorkRev.length = t.maxJobs ∨ (t.slotsOccupied + 1 : Int) ≤ t.maxSpace - t.maxJobs then
        t.slotsOccupied + 1
      else t.slotsOccupied := by
  have hmore : ({ t with coinbase := coinbase } : Resources).slotsOccupied = t.slotsOccupied + 1 := by
    rw [slotsOccupied_eq, slotsOccupied_eq t]
    dsimp only
    rw [parts_incr hincr]
    rfl
  unfold byOne at h
  rw [hnil, hincr] at h
  simp only [workDone, decide_eq_true_eq] at h
  rw [hmore] at h
  split at h
  · rename_i hdone
    obtain rfl := Option.some.inj h
    exact ⟨rfl, hmore.trans (if_pos (by push_cast at hdone; exact hdone)).symm⟩
  · rename_i hdone
    obtain rfl := Option.some.inj h
    exact ⟨rfl, (if_neg (by push_cast at hdone; exact hdone)).symm⟩

theorem byOne_of_cons {w : TransactionSnarkWork} {remWork : List TransactionSnarkWork}
    (hcons : t.discarded.completedWork = w :: remWork) (hincr : incr t.coinbase = some coinbase) :
    byOne constants t = (singlesMap (singles (reselection constants (t.withWork w remWork coinbase)).2)).map
      (charging constants (t.withWork w remWork coinbase)) := by
  unfold byOne
  rw [hcons, hincr]
  exact reselectCoinbaseWork_eq

theorem reselection_congr (hparts : t.coinbase.parts = r.coinbase.parts) (hpositive : t.coinbase.parts ≠ 0)
    (hworks : t.completedWorkRev = r.completedWorkRev) (hnew : t.isCoinbaseReceiverNew = r.isCoinbaseReceiverNew)
    (hsupercharge : t.superchargeCoinbase = r.superchargeCoinbase) :
    reselection constants t = reselection constants r := by
  unfold reselection
  rw [hworks, hnew, hsupercharge]
  cases hcoinbase : t.coinbase <;> cases hcoinbase' : r.coinbase <;> simp_all

/-- **A pre-diff with one or two slots left is overfull** with as many parts of the coinbase if and only if the works
that it takes back need more slots than there are. -/
theorem overfull_iff {newRes : Resources} (hincr : incrCoinbasePartBy constants r count = some newRes)
    (hzero : r.coinbase = .zero) (hspace : r.availableSpace = count.toNat)
    (hleft : r.discarded.completedWork.length ≤ count.toNat) :
    r.maxSpace < newRes.slotsOccupied ↔ Overfills constants r count := by
  have hslots := slotsOccupied_eq r
  rw [hzero, AtMostTwo.parts_zero, Nat.add_zero] at hslots
  have hincrZero : incr r.coinbase = some (.one none) := by rw [hzero]; rfl
  unfold availableSpace at hspace
  cases hworks : r.discarded.completedWork with
  | nil =>
    have hnot : ¬ Overfills constants r count := fun h => h.1 hworks
    refine iff_of_false ?_ hnot
    cases count with
    | one =>
      have hless := (byOne_of_nil hincr hworks hincrZero).2
      simp only [Count.toNat] at hspace
      grind
    | two =>
      obtain ⟨r₁, hone, htwo⟩ := Option.bind_eq_some_iff.1 hincr
      obtain ⟨hdiscarded, hless⟩ := byOne_of_nil hone hworks hincrZero
      have hparts := (toppedUp_byOne hone (by rw [hzero]; exact Nat.zero_le _)).parts_le
      rw [hzero, AtMostTwo.parts_zero] at hparts
      obtain ⟨coinbase, hincrOne⟩ := exists_incr hparts
      have hless' := (byOne_of_nil htwo (hdiscarded ▸ hworks) hincrOne).2
      simp only [Count.toNat] at hspace
      grind
  | cons w remWork =>
    rw [hworks, List.length_cons] at hleft
    cases count with
    | one =>
      simp only [Count.toNat] at hleft hspace
      obtain rfl : remWork = [] := List.eq_nil_of_length_eq_zero (by omega)
      change byOne constants r = some newRes at hincr
      rw [byOne_of_cons hworks hincrZero] at hincr
      obtain ⟨m, hm, rfl⟩ := Option.map_eq_some_iff.1 hincr
      have hsame : reselection constants (r.withWork w [] (.one none)) = reselection constants r.takenBack :=
        reselection_congr (by simp [withWork, takenBack, hworks]) (by simp [withWork])
          (by simp [withWork, takenBack, hworks]) rfl rfl
      rw [slotsOccupied_charging hm, hsame]
      change _ < ((r.commandsRev.length + (chargedWith constants r + r.feeForSelf + 1) / 2 + 1 : Nat) : Int) ↔ _
      simp only [Overfills, addedParts, hworks, Count.toNat, List.length_singleton, true_or, if_true]
      simp only [ne_eq, List.cons_ne_nil, not_false_eq_true, true_and]
      omega
    | two =>
      obtain ⟨r₁, hone, htwo⟩ := Option.bind_eq_some_iff.1 hincr
      rw [byOne_of_cons hworks hincrZero] at hone
      obtain ⟨m, hm, rfl⟩ := Option.map_eq_some_iff.1 hone
      have hparts : (charging constants (r.withWork w remWork (.one none)) m).coinbase.parts = 1 :=
        (selected_reselection (r.withWork w remWork (.one none))).parts
      obtain ⟨coinbase, hincrOne⟩ := exists_incr (Nat.le_of_eq hparts)
      have htwoParts : coinbase.parts = 2 := by rw [parts_incr hincrOne, hparts]
      simp only [Count.toNat] at hleft hspace
      cases remWork with
      | nil =>
        have hsame : reselection constants (r.withWork w [] (.one none)) = reselection constants r.takenBack :=
          reselection_congr (by simp [withWork, takenBack, hworks]) (by simp [withWork])
            (by simp [withWork, takenBack, hworks]) rfl rfl
        have hcharged := slotsOccupied_charging hm
        rw [hsame] at hcharged
        change _ = r.commandsRev.length + (chargedWith constants r + r.feeForSelf + 1) / 2 + 1 at hcharged
        generalize hr₁ : charging constants (r.withWork w [] (.one none)) m = r₁ at *
        have hnil : r₁.discarded.completedWork = [] := by rw [← hr₁]; rfl
        have hmaxSpace : r₁.maxSpace = r.maxSpace := by rw [← hr₁]; rfl
        have hmaxJobs : r₁.maxJobs = r.maxJobs := by rw [← hr₁]; rfl
        have hlength : r₁.completedWorkRev.length = r.completedWorkRev.length + 1 := by rw [← hr₁]; rfl
        have hslots' := (byOne_of_nil htwo hnil hincrOne).2
        rw [hlength, hmaxJobs, hmaxSpace, hcharged] at hslots'
        simp only [Overfills, addedParts, hworks, Count.toNat, List.length_singleton, OfNat.one_ne_ofNat, false_or, ne_eq,
          List.cons_ne_nil, not_false_eq_true, true_and]
        rw [hslots']
        split <;> split <;> omega
      | cons w' remWork =>
        obtain rfl : remWork = [] := by
          rw [List.length_cons] at hleft
          exact List.eq_nil_of_length_eq_zero (by omega)
        rw [byOne_of_cons rfl hincrOne] at htwo
        obtain ⟨m', hm', rfl⟩ := Option.map_eq_some_iff.1 htwo
        have hsame : reselection constants ((charging constants (r.withWork w [w'] (.one none)) m).withWork w' []
            coinbase) = reselection constants r.takenBack :=
          reselection_congr (by simp [withWork, takenBack, hworks, htwoParts]) (by simp [withWork, htwoParts])
            (by simp [charging, withWork, takenBack, hworks]) rfl rfl
        rw [slotsOccupied_charging hm', hsame]
        change _ < ((r.commandsRev.length + (chargedWith constants r + r.feeForSelf + 1) / 2 + coinbase.parts : Nat) : Int)
          ↔ _
        simp only [Overfills, addedParts, hworks, htwoParts, Count.toNat, List.length_cons, List.length_nil, true_or,
          if_true]
        simp only [ne_eq, List.cons_ne_nil, not_false_eq_true, true_and]
        omega

/-! ### Without overflow -/

/-- The fees of the works at hand and of those that were left out. -/
def allFees (t : Resources) : Nat :=
  ((t.completedWorkRev.reverse ++ t.discarded.completedWork).map TransactionSnarkWork.fee).sum

theorem exists_byOne (hfees : t.allFees < 2 ^ 64) : ∃ t', byOne constants t = some t' := by
  cases hincr : incr t.coinbase with
  | none =>
    unfold byOne
    rw [hincr]
    exact ⟨t, by cases t.discarded.completedWork <;> rfl⟩
  | some coinbase =>
    cases hworks : t.discarded.completedWork with
    | nil =>
      unfold byOne
      rw [hworks, hincr]
      dsimp only
      split
      · exact ⟨_, rfl⟩
      · exact ⟨_, rfl⟩
    | cons w remWork =>
      have hless : ((t.withWork w remWork coinbase).completedWorkRev.map TransactionSnarkWork.fee).sum < 2 ^ 64 := by
        unfold allFees at hfees
        rw [hworks] at hfees
        simp only [List.map_append, List.map_reverse, List.sum_append, List.sum_reverse, List.map_cons, List.sum_cons]
          at hfees
        simp only [withWork, List.map_cons, List.sum_cons]
        omega
      obtain ⟨m, hm⟩ := @exists_reselect constants _ hless
      rw [byOne_of_cons hworks hincr, hm]
      exact ⟨_, rfl⟩

theorem exists_incrCoinbasePartBy {count : Count} (hfees : t.allFees < 2 ^ 64) (hparts : t.coinbase.parts = 0) :
    ∃ t', incrCoinbasePartBy constants t count = some t' := by
  cases count with
  | one => exact exists_byOne hfees
  | two =>
    obtain ⟨t₁, hone⟩ := @exists_byOne constants t hfees
    have hsame : t₁.allFees = t.allFees := by
      unfold allFees
      rw [(toppedUp_byOne hone (by omega)).works]
    obtain ⟨t₂, htwo⟩ := @exists_byOne constants t₁ (hsame ▸ hfees)
    refine ⟨t₂, ?_⟩
    unfold incrCoinbasePartBy
    rw [hone]
    exact htwo

end Resources

end Loop

end MinaProtocol.StagedLedger
