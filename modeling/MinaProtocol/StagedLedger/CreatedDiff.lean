import MinaProtocol.StagedLedger.Generate

/-!
# StagedLedger.CreatedDiff

The diff that is created, as a whole: its commands and its works are the first ones of those at hand, it fits
unless its first pre-diff is made overfull, and there is a coinbase before there is a command.
-/

namespace MinaProtocol.StagedLedger

open Std PreDiffInfo

/-! ### One pre-diff -/

namespace Creation

section One

variable {c : Creation} {fuel : Nat} {cwSeq : List TransactionSnarkWork} {tsSeq : List Command} {addCoinbase : Bool}
  {first : Int × Nat} {r : Resources}

/-- The coinbase can be paid out: it does not overflow, and covers the account of a new receiver. -/
def CoinbaseCovers (c : Creation) : Prop :=
  ∃ amount budget, Diff.coinbaseAmount c.constants c.superchargeCoinbase = some amount ∧
    Resources.coinbaseBudget c.constants c.isCoinbaseReceiverNew amount = some budget

/-- The parts of the coinbase that a pre-diff starts with. -/
def initialParts (c : Creation) (cwSeq : List TransactionSnarkWork) (addCoinbase : Bool) (first : Int × Nat) : Nat :=
  (Resources.initialSelection c.constants cwSeq addCoinbase first.2 first.1 c.isCoinbaseReceiverNew
    c.superchargeCoinbase).1.parts

theorem initialParts_le : c.initialParts cwSeq addCoinbase first ≤ 1 := by
  obtain ⟨n, hn, hselected⟩ := @Resources.selected_initialSelection c.constants cwSeq c.isCoinbaseReceiverNew
    c.superchargeCoinbase addCoinbase first.2 first.1
  unfold initialParts
  rw [hselected.parts]
  exact hn

theorem initialParts_false : c.initialParts cwSeq false first = 0 := rfl

/-- **Only a lack of work** keeps the coinbase out, if it can be paid out at all. -/
theorem initialParts_true (hcovers : c.CoinbaseCovers) : c.initialParts cwSeq true first = 1 ∨
    (cwSeq = [] ∧ first.2 ≠ 0 ∧ first.1 ≤ first.2) := by
  obtain ⟨amount, budget, hamount, hbudget⟩ := hcovers
  have hwork : Resources.coinbaseWork c.constants false cwSeq c.isCoinbaseReceiverNew c.superchargeCoinbase =
      Resources.oneWork cwSeq budget := by
    unfold Resources.coinbaseWork
    rw [hamount, Option.bind_eq_bind, Option.bind_some, hbudget]
    rfl
  unfold initialParts Resources.initialSelection
  rw [hwork]
  cases hone : Resources.oneWork cwSeq budget with
  | some selection => exact .inl (Resources.selected_oneWork hone).parts
  | none =>
    dsimp only
    split
    · exact .inl rfl
    · rename_i hfull
      have hnone := Resources.foldl_cheaper_eq_none (Option.map_eq_none_iff.1 hone)
      exact .inr ⟨hnone.2, by omega, by omega⟩

variable (h : c.onePrediff fuel cwSeq tsSeq addCoinbase first = some r)

include h in
/-- **A pre-diff is settled, and splits the works and the commands.** -/
theorem onePrediff_spec :
    Settled r ∧ Resources.Split cwSeq tsSeq first.1 first.2 (c.initialParts cwSeq addCoinbase first) r := by
  obtain ⟨t, hinit, hloop⟩ := Option.bind_eq_some_iff.1 h
  obtain ⟨m, -, rfl⟩ := (Resources.init_cases rfl).1 hinit
  obtain ⟨hcalled, hsettled⟩ := calledWith_of_result .first hloop
  refine ⟨hsettled, Resources.Split.calledWith ⟨?_, rfl, rfl, rfl, Nat.le_refl _, .inr rfl⟩ hcalled⟩
  change cwSeq.reverse.reverse ++ [] = cwSeq
  rw [List.reverse_reverse, List.append_nil]

theorem slotsOccupied_le (hsettled : Settled r) (hspace : r.maxSpace = first.1) (hslots : (first.2 : Int) ≤ first.1) :
    (r.slotsOccupied : Int) ≤ first.1 := by
  rcases hsettled with hzero | ⟨-, -, hfits⟩
  · omega
  · rw [← hspace]
    simpa [Resources.spaceConstraintSatisfied] using hfits

theorem commandsRev_of_slotsOccupied (h : r.slotsOccupied = 0) : r.commandsRev = [] := by
  unfold Resources.slotsOccupied at h
  exact List.eq_nil_of_length_eq_zero (by omega)

/-- **A pre-diff for its own partition** has the coinbase, or else no command. -/
theorem coinbase_of_onePrediff (h : c.onePrediff fuel cwSeq tsSeq true first = some r) (hcovers : c.CoinbaseCovers) :
    0 < r.coinbase.parts ∨ r.commandsRev = [] := by
  obtain ⟨hsettled, hsplit⟩ := onePrediff_spec h
  rcases @initialParts_true c cwSeq first hcovers with hone | ⟨rfl, hjobs, hfull⟩
  · rcases hsplit.parts with hnil | hparts
    · exact .inr hnil
    · exact .inl (by omega)
  · refine .inr (commandsRev_of_slotsOccupied ?_)
    have hworks := List.append_eq_nil_iff.1 hsplit.works
    have hlength : r.completedWorkRev.length = 0 := by rw [List.reverse_eq_nil_iff.1 hworks.1, List.length_nil]
    rcases hsettled with hzero | ⟨hwork, -⟩
    · exact hzero
    · simp only [Resources.workConstraintSatisfied, Resources.workDone, hsplit.maxSpace, hsplit.maxJobs, hlength,
        Bool.or_eq_true, decide_eq_true_eq] at hwork
      omega

include h in
/-- **A pre-diff that is nearly full** has left out no more works than it has slots left. -/
theorem discarded_le (hjobs : cwSeq.length ≤ first.2)
    (hslots : (first.2 : Int) ≤ first.1) (hcommands : r.commandsRev ≠ []) :
    (r.discarded.completedWork.length : Int) ≤ r.availableSpace := by
  obtain ⟨hsettled, hsplit⟩ := onePrediff_spec h
  have hfits := slotsOccupied_le hsettled hsplit.maxSpace hslots
  have hlength := congrArg List.length hsplit.works
  rw [List.length_append, List.length_reverse] at hlength
  unfold Resources.availableSpace
  rw [hsplit.maxSpace]
  rcases hsettled with hzero | ⟨hwork, -⟩
  · exact absurd (commandsRev_of_slotsOccupied hzero) hcommands
  · simp only [Resources.workConstraintSatisfied, Resources.workDone, hsplit.maxSpace, hsplit.maxJobs,
      Bool.or_eq_true, decide_eq_true_eq] at hwork
    omega

end One

/-! ### The diff as a whole -/

end Creation

namespace CreatedDiff

/-- The commands of both pre-diffs. -/
def commands (d : CreatedDiff) : List Command := d.first.commands ++ (d.second.map CreatedPreDiff.commands).getD []

/-- The works of both pre-diffs. -/
def completedWorks (d : CreatedDiff) : List TransactionSnarkWork :=
  d.first.completedWorks ++ (d.second.map CreatedPreDiff.completedWorks).getD []

/-- One of the pre-diffs has a part of the coinbase, or there is no command. -/
def CoinbaseFirst (d : CreatedDiff) : Prop :=
  d.first.coinbase ≠ .zero ∨ (∃ p, d.second = some p ∧ p.coinbase ≠ .zero) ∨ d.commands = []

end CreatedDiff

namespace Creation

/-- **A diff that is created right**: its commands and its works are the first ones there are, and each pre-diff has
a slot for what it occupies. -/
structure Right (cwSeq : List TransactionSnarkWork) (tsSeq : List Command) (partitions : ParallelScan.SpacePartition)
    (res : Resources × Option Resources) : Prop where
  commands : (makeDiff res).commands <+: tsSeq.reverse
  works : (makeDiff res).completedWorks <+: cwSeq
  firstSlots : (res.1.slotsOccupied : Int) ≤ partitions.first.1
  secondSlots : ∀ y res2, partitions.second = some y → res.2 = some res2 → (res2.slotsOccupied : Int) ≤ y.1

/-- **The first pre-diff is overfull**: one or two slots are left in it, and the works that are taken back for as many
parts of the coinbase need more slots than there are, while there is something for the second pre-diff. -/
def Overfull (c : Creation) (fuel : Nat) (cwSeq : List TransactionSnarkWork) (tsSeq : List Command)
    (partitions : ParallelScan.SpacePartition) : Prop :=
  ∃ y res res2 count, partitions.second = some y ∧
    c.onePrediff fuel (cwSeq.take partitions.first.2) tsSeq false partitions.first = some res ∧
    res.commandsRev ≠ [] ∧ res.availableSpace = Resources.Count.toNat count ∧
    Resources.Overfills c.constants res count ∧
    c.secondPreDiff fuel res y false (cwSeq.drop partitions.first.2) = some res2 ∧ res2.isEmpty = false

section Whole

variable {c : Creation} {fuel : Nat} {cwSeq cwSeq1 cwSeq2 : List TransactionSnarkWork} {tsSeq : List Command}
  {partitions : ParallelScan.SpacePartition} {first y : Int × Nat} {r res1 : Resources}
  {res : Resources × Option Resources} {res2 : Resources} {addCoinbase : Bool}
  {coinbase : AtMostTwo CoinbaseFeeTransfer}

theorem tryWithCoinbase_eq_some : c.tryWithCoinbase fuel cwSeq tsSeq first = some res ↔
    res.2 = none ∧ c.onePrediff fuel cwSeq tsSeq true first = some res.1 := by
  obtain ⟨res1, res2⟩ := res
  unfold tryWithCoinbase
  simp only [Option.bind_eq_bind, Option.bind_eq_some_iff, Option.pure_def, Option.some.injEq, Prod.mk.injEq]
  grind

/-- **How the resources of a diff come about.** -/
theorem twoPreDiffs_cases (h : c.twoPreDiffs fuel cwSeq1 cwSeq2 tsSeq first y = some res) :
    c.tryWithCoinbase fuel cwSeq1 tsSeq first = some res ∨
      ∃ r res2, c.onePrediff fuel cwSeq1 tsSeq false first = some r ∧ r.commandsRev ≠ [] ∧ res.2 = some res2 ∧
        ((r.availableSpace = 0 ∧ res.1 = r ∧ c.secondPreDiff fuel r y true cwSeq2 = some res2) ∨
          ∃ count, r.availableSpace = Resources.Count.toNat count ∧
            Resources.incrCoinbasePartBy c.constants r count = some res.1 ∧ res.1.spaceAvailable = false ∧
            c.secondPreDiff fuel res.1 y false cwSeq2 = some res2 ∧ res2.isEmpty = false) := by
  have hincr {r : Resources} {count : Resources.Count}
      (h : c.incrCoinbaseAndCompute fuel cwSeq1 cwSeq2 tsSeq first y r count = some res) :
      c.tryWithCoinbase fuel cwSeq1 tsSeq first = some res ∨ ∃ res2, res.2 = some res2 ∧
        Resources.incrCoinbasePartBy c.constants r count = some res.1 ∧ res.1.spaceAvailable = false ∧
        c.secondPreDiff fuel res.1 y false cwSeq2 = some res2 ∧ res2.isEmpty = false := by
    unfold incrCoinbaseAndCompute at h
    obtain ⟨newRes, hnew, h⟩ := Option.bind_eq_some_iff.1 h
    split at h
    · exact .inl h
    · rename_i hspace
      obtain ⟨res2, hres2, h⟩ := Option.bind_eq_some_iff.1 h
      split at h
      · exact .inl h
      · rename_i hempty
        obtain rfl := Option.some.inj h
        exact .inr ⟨res2, rfl, hnew, Bool.eq_false_iff.2 hspace, hres2, Bool.eq_false_iff.2 hempty⟩
  unfold twoPreDiffs at h
  obtain ⟨r, hr, h⟩ := Option.bind_eq_some_iff.1 h
  split at h
  · exact .inl h
  rename_i hcommands
  have hne : r.commandsRev ≠ [] := fun hnil => hcommands (by rw [hnil]; rfl)
  split at h
  · rename_i hfull
    obtain ⟨res2, hres2, h⟩ := Option.bind_eq_some_iff.1 h
    obtain rfl := Option.some.inj h
    exact .inr ⟨r, res2, hr, hne, rfl, .inl ⟨hfull, rfl, hres2⟩⟩
  split at h
  · rename_i hone
    refine (hincr h).imp_right fun hpair => ?_
    obtain ⟨res2, hres2, hpair⟩ := hpair
    exact ⟨r, res2, hr, hne, hres2, .inr ⟨.one, hone, hpair⟩⟩
  split at h
  · rename_i htwo
    refine (hincr h).imp_right fun hpair => ?_
    obtain ⟨res2, hres2, hpair⟩ := hpair
    exact ⟨r, res2, hr, hne, hres2, .inr ⟨.two, htwo, hpair⟩⟩
  · exact .inl h

theorem commands_single (h : res.2 = none) : (makeDiff res).commands = res.1.commandsRev.reverse := by
  obtain ⟨res1, res2⟩ := res
  obtain rfl : res2 = none := h
  exact List.append_nil _

theorem completedWorks_single (h : res.2 = none) : (makeDiff res).completedWorks = res.1.completedWorkRev.reverse := by
  obtain ⟨res1, res2⟩ := res
  obtain rfl : res2 = none := h
  exact List.append_nil _

theorem commands_paired (h : res.2 = some res2) :
    (makeDiff res).commands = res.1.commandsRev.reverse ++ res2.commandsRev.reverse := by
  obtain ⟨res1, res2'⟩ := res
  obtain rfl : res2' = some res2 := h
  rfl

theorem completedWorks_paired (h : res.2 = some res2) :
    (makeDiff res).completedWorks = res.1.completedWorkRev.reverse ++ res2.completedWorkRev.reverse := by
  obtain ⟨res1, res2'⟩ := res
  obtain rfl : res2' = some res2 := h
  rfl

theorem ne_zero_of_parts (h : 0 < coinbase.parts) : coinbase ≠ .zero := by
  rintro rfl
  exact absurd h (Nat.lt_irrefl 0)

/-- **A diff with one pre-diff** is right. -/
theorem right_of_single (h : c.tryWithCoinbase fuel cwSeq1 tsSeq partitions.first = some res)
    (hworks : cwSeq1 <+: cwSeq) (hslots : (partitions.first.2 : Int) ≤ partitions.first.1) :
    Right cwSeq tsSeq partitions res := by
  obtain ⟨hnone, hone⟩ := tryWithCoinbase_eq_some.1 h
  obtain ⟨hsettled, hsplit⟩ := onePrediff_spec hone
  refine ⟨?_, ?_, slotsOccupied_le hsettled hsplit.maxSpace hslots, fun y res2 _ hres2 => ?_⟩
  · rw [commands_single hnone, ← hsplit.commands, List.reverse_append]
    exact List.prefix_append _ _
  · rw [completedWorks_single hnone]
    refine List.IsPrefix.trans ?_ hworks
    rw [← hsplit.works]
    exact List.prefix_append _ _
  · rw [hnone] at hres2
    cases hres2

theorem coinbaseFirst_of_single (h : c.tryWithCoinbase fuel cwSeq1 tsSeq first = some res) (hcovers : c.CoinbaseCovers) :
    (makeDiff res).CoinbaseFirst := by
  obtain ⟨hnone, hone⟩ := tryWithCoinbase_eq_some.1 h
  rcases coinbase_of_onePrediff hone hcovers with hparts | hnil
  · exact .inl (ne_zero_of_parts hparts)
  · exact .inr (.inr ((commands_single hnone).trans (List.reverse_eq_nil_iff.2 hnil)))

/-- **A diff with two pre-diffs** is right, if the first one has all of its works and fits. -/
theorem right_of_paired (hres2 : res.2 = some res2)
    (hsecond : c.secondPreDiff fuel res.1 y addCoinbase (cwSeq.drop partitions.first.2) = some res2)
    (hy : partitions.second = some y) (hyslots : (y.2 : Int) ≤ y.1)
    (hworks : res.1.completedWorkRev.reverse = cwSeq.take partitions.first.2)
    (hcommands : res.1.discarded.commandsRev ++ res.1.commandsRev = tsSeq)
    (hfits : (res.1.slotsOccupied : Int) ≤ partitions.first.1) : Right cwSeq tsSeq partitions res := by
  obtain ⟨hsettled, hsplit⟩ := onePrediff_spec hsecond
  refine ⟨?_, ?_, hfits, fun y' res2' hy' hres2' => ?_⟩
  · rw [commands_paired hres2, ← hcommands, ← hsplit.commands, List.reverse_append, List.reverse_append]
    exact (List.prefix_append_right_inj _).2 (List.prefix_append _ _)
  · rw [completedWorks_paired hres2, hworks]
    have hsecondWorks : res2.completedWorkRev.reverse <+: cwSeq.drop partitions.first.2 := ⟨_, hsplit.works⟩
    have hboth := (List.prefix_append_right_inj (cwSeq.take partitions.first.2)).2 hsecondWorks
    rwa [List.take_append_drop] at hboth
  · obtain rfl := Option.some.inj (hy.symm.trans hy')
    obtain rfl := Option.some.inj (hres2.symm.trans hres2')
    exact slotsOccupied_le hsettled hsplit.maxSpace hyslots

theorem coinbaseFirst_of_paired (hres2 : res.2 = some res2)
    (hsecond : c.secondPreDiff fuel r y addCoinbase cwSeq2 = some res2)
    (hparts : 0 < res.1.coinbase.parts + res2.coinbase.parts) : (makeDiff res).CoinbaseFirst := by
  obtain ⟨-, hsplit⟩ := onePrediff_spec hsecond
  by_cases hfirst : 0 < res.1.coinbase.parts
  · exact .inl (ne_zero_of_parts hfirst)
  · refine .inr (.inl ⟨res2.preDiffWithOne, ?_, ?_⟩)
    · change res.2.map Resources.preDiffWithOne = _
      rw [hres2]
      rfl
    · have hle := hsplit.parts_le.trans initialParts_le
      change Resources.toAtMostOne res2.coinbase ≠ .zero
      cases hcoinbase : res2.coinbase with
      | zero =>
        rw [hcoinbase, AtMostTwo.parts_zero] at hparts
        omega
      | one ft => simp [Resources.toAtMostOne]
      | two fts =>
        rw [hcoinbase, AtMostTwo.parts_two] at hle
        omega

/-- The parts of the coinbase in both pre-diffs. -/
def coinbaseParts (res : Resources × Option Resources) : Nat :=
  res.1.coinbaseAdded + (res.2.map Resources.coinbaseAdded).getD 0

theorem resources_cases (h : c.resources fuel cwSeq tsSeq partitions = some res) :
    (partitions.second = none ∧ c.tryWithCoinbase fuel cwSeq tsSeq partitions.first = some res) ∨
      ∃ y p, partitions.second = some y ∧
        c.twoPreDiffs fuel (cwSeq.take partitions.first.2) (cwSeq.drop partitions.first.2) tsSeq partitions.first y =
          some p ∧
        ((0 < coinbaseParts p ∧ res = p) ∨
          (coinbaseParts p = 0 ∧ c.tryWithCoinbase fuel (cwSeq.take partitions.first.2) tsSeq partitions.first = some res)) := by
  unfold resources at h
  split at h
  · rename_i hnone
    exact .inl ⟨hnone, h⟩
  · rename_i y hy
    split at h
    · cases h
    · obtain ⟨p, hp, h⟩ := Option.bind_eq_some_iff.1 h
      refine .inr ⟨y, p, hy, hp, ?_⟩
      by_cases hparts : 0 < coinbaseParts p
      · exact .inl ⟨hparts, (Option.some.inj ((if_pos hparts).symm.trans h)).symm⟩
      · exact .inr ⟨by omega, (if_neg hparts).symm.trans h⟩

theorem secondPreDiff_congr {r' : Resources} (h : r'.discarded.commandsRev = r.discarded.commandsRev) :
    c.secondPreDiff fuel r' y addCoinbase cwSeq2 = c.secondPreDiff fuel r y addCoinbase cwSeq2 := by
  unfold secondPreDiff
  rw [h]

theorem eq_zero_of_parts (h : coinbase.parts ≤ 0) : coinbase = .zero := by
  cases coinbase with
  | zero => rfl
  | one ft => simp at h
  | two fts => simp at h

/-- **The first try**, which has no coinbase, when one or two slots are left in it. -/
theorem overfull_iff_overfills {count : Resources.Count} {newRes : Resources}
    (h : c.onePrediff fuel (cwSeq.take first.2) tsSeq false first = some r) (hslots : (first.2 : Int) ≤ first.1)
    (hcommands : r.commandsRev ≠ []) (hspace : r.availableSpace = Resources.Count.toNat count)
    (hincr : Resources.incrCoinbasePartBy c.constants r count = some newRes) :
    first.1 < newRes.slotsOccupied ↔ Resources.Overfills c.constants r count := by
  obtain ⟨-, hsplit⟩ := onePrediff_spec h
  have hleft := discarded_le h (List.length_take_le _ _) hslots hcommands
  rw [hspace] at hleft
  rw [← hsplit.maxSpace]
  exact Resources.overfull_iff hincr (eq_zero_of_parts (initialParts_false ▸ hsplit.parts_le)) hspace (by omega)

/-- **The overfull pre-diff** is used. -/
theorem resources_of_overfull (hoverfull : c.Overfull fuel cwSeq tsSeq partitions)
    (hslots : (partitions.first.2 : Int) ≤ partitions.first.1)
    (h : c.resources fuel cwSeq tsSeq partitions = some res) : partitions.first.1 < res.1.slotsOccupied := by
  obtain ⟨y, r, res2, count, hy, hr, hcommands, hspace, hover, hsecond, hempty⟩ := hoverfull
  obtain ⟨-, hsplit⟩ := onePrediff_spec hr
  have hzero : r.coinbase.parts = 0 := Nat.le_zero.1 (hsplit.parts_le.trans (Nat.le_of_eq initialParts_false))
  rcases resources_cases h with ⟨hnone, -⟩ | ⟨y', p, hy', hp, hchosen⟩
  · rw [hy] at hnone
    cases hnone
  obtain rfl := Option.some.inj (hy.symm.trans hy')
  have hcompute : c.incrCoinbaseAndCompute fuel (cwSeq.take partitions.first.2) (cwSeq.drop partitions.first.2) tsSeq
      partitions.first y r count = some p := by
    unfold twoPreDiffs at hp
    rw [hr] at hp
    cases count with
    | one => simpa [hcommands, hspace, Resources.Count.toNat] using hp
    | two => simpa [hcommands, hspace, Resources.Count.toNat] using hp
  unfold incrCoinbaseAndCompute at hcompute
  obtain ⟨newRes, hincr, hcompute⟩ := Option.bind_eq_some_iff.1 hcompute
  have htop := Resources.toppedUp_incrCoinbasePartBy hincr hzero
  have hmore := (overfull_iff_overfills hr hslots hcommands hspace hincr).2 hover
  have hspaceNot : newRes.spaceAvailable = false := by
    simp only [Resources.spaceAvailable, htop.maxSpace.trans hsplit.maxSpace, decide_eq_false_iff_not]
    omega
  rw [secondPreDiff_congr htop.discardedCommands, hsecond] at hcompute
  simp only [hspaceNot, Bool.false_eq_true, if_false, Option.bind_eq_bind, Option.bind_some, hempty, Option.pure_def,
    Option.some.injEq] at hcompute
  subst hcompute
  have hparts : 0 < newRes.coinbase.parts := by
    rcases htop.changed with rfl | hless
    · unfold Resources.availableSpace at hspace
      rw [hsplit.maxSpace] at hspace
      omega
    · omega
  rcases hchosen with ⟨-, rfl⟩ | ⟨hnone, -⟩
  · exact hmore
  · unfold coinbaseParts at hnone
    rw [Resources.coinbaseAdded_eq] at hnone
    dsimp only at hnone
    omega

/-- **When the first pre-diff is not overfull**, the diff is right. -/
theorem right_of_not_overfull (hslots : (partitions.first.2 : Int) ≤ partitions.first.1)
    (hsecondSlots : ∀ y, partitions.second = some y → (y.2 : Int) ≤ y.1)
    (h : c.resources fuel cwSeq tsSeq partitions = some res) (hfits : ¬ c.Overfull fuel cwSeq tsSeq partitions) :
    Right cwSeq tsSeq partitions res := by
  have htake : cwSeq.take partitions.first.2 <+: cwSeq := List.take_prefix _ _
  rcases resources_cases h with ⟨-, hone⟩ | ⟨y, p, hy, hp, ⟨-, rfl⟩ | ⟨-, hone⟩⟩
  · exact right_of_single hone List.prefix_rfl hslots
  · rcases twoPreDiffs_cases hp with hone | ⟨r, res2, hr, hcommands, hres2, hpair⟩
    · exact right_of_single hone htake hslots
    obtain ⟨hsettled, hsplit⟩ := onePrediff_spec hr
    have hleft := discarded_le hr (List.length_take_le _ _) hslots hcommands
    have hzero : r.coinbase.parts = 0 := Nat.le_zero.1 (hsplit.parts_le.trans (Nat.le_of_eq initialParts_false))
    rcases hpair with ⟨hfull, heq, hsecond⟩ | ⟨count, hspace, hincr, -, hsecond, hempty⟩
    · rw [hfull] at hleft
      have hnil : r.discarded.completedWork = [] := List.eq_nil_of_length_eq_zero (by omega)
      have hall := hsplit.works
      rw [hnil, List.append_nil] at hall
      refine right_of_paired hres2 (heq ▸ hsecond) hy (hsecondSlots y hy) (heq ▸ hall) (heq ▸ hsplit.commands) ?_
      rw [heq]
      exact slotsOccupied_le hsettled hsplit.maxSpace hslots
    · have htop := Resources.toppedUp_incrCoinbasePartBy hincr hzero
      rw [hspace] at hleft
      have hnil : res.1.discarded.completedWork = [] := List.eq_nil_of_length_eq_zero (by rw [htop.discarded]; omega)
      have hall := htop.works.trans hsplit.works
      rw [hnil, List.append_nil] at hall
      refine right_of_paired hres2 hsecond hy (hsecondSlots y hy) hall ?_ ?_
      · rw [htop.discardedCommands, htop.commands]
        exact hsplit.commands
      · by_contra hover
        have hoverfills := (overfull_iff_overfills hr hslots hcommands hspace hincr).1 (by omega)
        rw [secondPreDiff_congr htop.discardedCommands] at hsecond
        exact hfits ⟨y, r, res2, count, hy, hr, hcommands, hspace, hoverfills, hsecond, hempty⟩
  · exact right_of_single hone htake hslots

/-- **A coinbase takes priority over commands**, if it can be paid out. -/
theorem coinbaseFirst_of_resources (hcovers : c.CoinbaseCovers) (h : c.resources fuel cwSeq tsSeq partitions = some res) :
    (makeDiff res).CoinbaseFirst := by
  rcases resources_cases h with ⟨-, hone⟩ | ⟨y, p, hy, hp, ⟨hparts, rfl⟩ | ⟨-, hone⟩⟩
  · exact coinbaseFirst_of_single hone hcovers
  · rcases twoPreDiffs_cases hp with hone | ⟨r, res2, -, -, hres2, hpair⟩
    · exact coinbaseFirst_of_single hone hcovers
    have hadded : 0 < res.1.coinbase.parts + res2.coinbase.parts := by
      unfold coinbaseParts at hparts
      rw [hres2, Option.map_some, Option.getD_some, Resources.coinbaseAdded_eq, Resources.coinbaseAdded_eq] at hparts
      exact hparts
    rcases hpair with ⟨-, -, hsecond⟩ | ⟨count, -, -, -, hsecond, -⟩
    · exact coinbaseFirst_of_paired hres2 hsecond hadded
    · exact coinbaseFirst_of_paired hres2 hsecond hadded
  · exact coinbaseFirst_of_single hone hcovers

theorem exists_onePrediff (hjobs : cwSeq.length ≤ first.2) (hslots : (first.2 : Int) ≤ first.1)
    (hcommands : (tsSeq.map Command.fee).sum < 2 ^ 64) (hworks : (cwSeq.map TransactionSnarkWork.fee).sum < 2 ^ 64)
    (hfuel : cwSeq.length + tsSeq.length + 2 ≤ fuel) :
    ∃ r, c.onePrediff fuel cwSeq tsSeq addCoinbase first = some r := by
  obtain ⟨t, ht⟩ : ∃ t, Resources.init c.constants tsSeq cwSeq first.1 first.2 c.receiver addCoinbase
      c.superchargeCoinbase c.isCoinbaseReceiverNew = some t := Resources.exists_init hworks
  obtain ⟨hsound, hsize⟩ := Resources.sound_init hjobs hslots hcommands hworks ht
  obtain ⟨r, hr, -⟩ := @exists_checkConstraintsAndUpdate c.constants t fuel hsound (by omega)
  unfold onePrediff
  rw [ht]
  exact ⟨r, hr⟩

theorem exists_tryWithCoinbase (h : ∃ r, c.onePrediff fuel cwSeq tsSeq true first = some r) :
    ∃ res, c.tryWithCoinbase fuel cwSeq tsSeq first = some res := by
  obtain ⟨r, hr⟩ := h
  exact ⟨(r, none), tryWithCoinbase_eq_some.2 ⟨rfl, hr⟩⟩

theorem exists_twoPreDiffs (htry : ∃ r, c.onePrediff fuel cwSeq1 tsSeq true first = some r)
    (hfirst : ∃ r, c.onePrediff fuel cwSeq1 tsSeq false first = some r)
    (hsecond : ∀ commandsRev addCoinbase, commandsRev <+: tsSeq →
      ∃ r, c.onePrediff fuel cwSeq2 commandsRev addCoinbase y = some r)
    (hworks : (cwSeq1.map TransactionSnarkWork.fee).sum < 2 ^ 64) :
    ∃ res, c.twoPreDiffs fuel cwSeq1 cwSeq2 tsSeq first y = some res := by
  have hone := exists_tryWithCoinbase htry
  obtain ⟨r, hr⟩ := hfirst
  obtain ⟨-, hsplit⟩ := onePrediff_spec hr
  have hcompute (count : Resources.Count) :
      ∃ res, c.incrCoinbaseAndCompute fuel cwSeq1 cwSeq2 tsSeq first y r count = some res := by
    have hzero : r.coinbase.parts = 0 := Nat.le_zero.1 (hsplit.parts_le.trans (Nat.le_of_eq initialParts_false))
    have hfees : r.allFees < 2 ^ 64 := by
      unfold Resources.allFees
      rw [hsplit.works]
      exact hworks
    obtain ⟨newRes, hincr⟩ := @Resources.exists_incrCoinbasePartBy c.constants r count hfees hzero
    have htop := Resources.toppedUp_incrCoinbasePartBy hincr hzero
    obtain ⟨res2, hres2⟩ := hsecond newRes.discarded.commandsRev false (htop.discardedCommands ▸ ⟨_, hsplit.commands⟩)
    have hres2' : c.secondPreDiff fuel newRes y false cwSeq2 = some res2 := hres2
    unfold incrCoinbaseAndCompute
    simp only [hincr, hres2', Option.bind_eq_bind, Option.bind_some]
    split
    · exact hone
    · split
      · exact hone
      · exact ⟨_, rfl⟩
  obtain ⟨res2, hres2⟩ := hsecond r.discarded.commandsRev true ⟨_, hsplit.commands⟩
  have hres2' : c.secondPreDiff fuel r y true cwSeq2 = some res2 := hres2
  unfold twoPreDiffs
  simp only [hr, hres2', Option.bind_eq_bind, Option.bind_some]
  split
  · exact hone
  split
  · exact ⟨_, rfl⟩
  split
  · exact hcompute .one
  split
  · exact hcompute .two
  · exact hone

end Whole

/-- **A created diff takes prefixes** of the commands and the works and fits, if and only if its first pre-diff is not
made overfull by the works that are taken back; and it has a coinbase before it has a command, if that can be paid. -/
theorem right_iff_not_overfull (c : Creation) (fuel : Nat) (cwSeq : List TransactionSnarkWork) (tsSeq : List Command)
    (partitions : ParallelScan.SpacePartition) {res : Resources × Option Resources}
    (hslots : (partitions.first.2 : Int) ≤ partitions.first.1)
    (hsecondSlots : ∀ y, partitions.second = some y → (y.2 : Int) ≤ y.1)
    (h : c.resources fuel cwSeq tsSeq partitions = some res) :
    c.generate fuel cwSeq tsSeq partitions = some (makeDiff res) ∧
      (Right cwSeq tsSeq partitions res ↔ ¬ c.Overfull fuel cwSeq tsSeq partitions) ∧
      (c.CoinbaseCovers → (makeDiff res).CoinbaseFirst) := by
  refine ⟨?_, ⟨fun hright hoverfull => ?_, right_of_not_overfull hslots hsecondSlots h⟩,
    fun hcovers => coinbaseFirst_of_resources hcovers h⟩
  · unfold generate
    rw [h]
    rfl
  · have hmore := resources_of_overfull hoverfull hslots h
    have hfits := hright.firstSlots
    omega

/-- A block without a supercharged coinbase, for a receiver that has an account. -/
def sampleCreation : Creation := ⟨sampleConstants, ⟨1, false⟩, false, false⟩

/-- Three cheap works of a prover, and a dear one of another. -/
def costlyWorks : List TransactionSnarkWork :=
  [workOf 1 1 sampleProver, workOf 2 1 sampleProver, workOf 3 1 sampleProver, workOf 4 100 ⟨3, false⟩]

/-- Four slots and two in the next tree, for which no work is required. -/
def samplePartitions : ParallelScan.SpacePartition := ⟨(4, 4), some (2, 0)⟩

/-- One prover does all the work. -/
theorem right_iff_not_overfull_cheap : ∃ res,
    sampleCreation.resources 10 (costlyWorks.take 3) [paymentOf 2, paymentOf 2] samplePartitions = some res ∧
      sampleCreation.generate 10 (costlyWorks.take 3) [paymentOf 2, paymentOf 2] samplePartitions = some (makeDiff res) ∧
      (Right (costlyWorks.take 3) [paymentOf 2, paymentOf 2] samplePartitions res ↔
        ¬ sampleCreation.Overfull 10 (costlyWorks.take 3) [paymentOf 2, paymentOf 2] samplePartitions) ∧
      (sampleCreation.CoinbaseCovers → (makeDiff res).CoinbaseFirst) := by
  refine ⟨_, rfl, right_iff_not_overfull sampleCreation 10 (costlyWorks.take 3) [paymentOf 2, paymentOf 2]
    samplePartitions (by decide) (fun y hy => ?_) rfl⟩
  obtain rfl := Option.some.inj hy
  decide

/-- **The first pre-diff is overfull**: the dear work is left out and taken back for the coinbase, which pays a cheap one
instead, and there are five transactions in four slots. -/
theorem dear_work_taken_back : ∃ res,
    sampleCreation.resources 10 costlyWorks [paymentOf 2, paymentOf 2, paymentOf 2] samplePartitions = some res ∧
      res.1.slotsOccupied = 5 ∧
      ¬ Right costlyWorks [paymentOf 2, paymentOf 2, paymentOf 2] samplePartitions res := by
  refine ⟨_, rfl, rfl, fun h => ?_⟩
  have hfits := h.firstSlots
  revert hfits
  decide

end Creation

end MinaProtocol.StagedLedger
