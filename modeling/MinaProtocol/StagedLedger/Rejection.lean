import MinaProtocol.StagedLedger.Apply
import MinaProtocol.TransactionLogic.AllOrNothing

/-!
# StagedLedger.Rejection

What becomes of a staged ledger when a diff is not accepted (`apply_clean_iff`). The checks of
the completed works and of the diff alone come first and leave no trace, but the works are
zipped with the jobs by functions that raise. From the registration of the new mask on, a check
that fails leaves the mask where it is.
-/

namespace MinaProtocol.StagedLedger

/-! ### Pre-diffs -/

variable {diff : Diff} {works : List TransactionSnarkWork} {t : StagedLedger}

namespace PreDiffInfo

/-- What a coinbase pays for work, out of its amount. -/
def coinbaseFee (cb : Coinbase) : Nat := (cb.feeTransfer.map CoinbaseFeeTransfer.fee).getD 0

/-- The parts that a coinbase is asked for in. -/
def partsCount {α : Type} : AtMostTwo α → Nat
  | .zero => 0
  | .one _ => 1
  | .two _ => 2

variable {receiver : PublicKey} {coinbaseAmount : Nat} {constants : ConstraintConstants}
  {parts : AtMostTwo CoinbaseFeeTransfer} {ft1 ft2 ft : Option CoinbaseFeeTransfer} {cbs : List Coinbase}
  {fees : List Nat} {amount amt : Nat} {info : Info}

theorem createOneCoinbase_ok {cb : Coinbase} (h : createOneCoinbase amount receiver ft = .ok cb) :
    cb.amount = amount ∧ coinbaseFee cb ≤ amount := by
  unfold createOneCoinbase at h
  cases ft with
  | none =>
    obtain rfl := Outcome.ok.inj h
    exact ⟨rfl, Nat.zero_le _⟩
  | some ft =>
    dsimp only at h
    split at h
    · rename_i hvalid
      obtain rfl := Outcome.ok.inj h
      have hfee : ft.fee ≤ amount := of_decide_eq_true hvalid
      refine ⟨rfl, ?_⟩
      unfold coinbaseFee
      dsimp only
      rw [Option.filter_some]
      split
      · exact hfee
      · exact Nat.zero_le _
    · cases h

theorem createOneCoinbase_ne_raise : createOneCoinbase amount receiver ft ≠ .raise := by
  unfold createOneCoinbase
  cases ft with
  | none => simp
  | some ft =>
    dsimp only
    split <;> simp

theorem underflowErr_ok {a b c : Nat} (h : underflowErr a b = .ok c) : a = c + b :=
  Amount.sub_eq_some.1 (Outcome.okOr_eq_ok.1 h)

theorem twoParts_ok (h : twoParts coinbaseAmount receiver amt ft1 ft2 = .ok cbs) :
    ∃ cb1 cb2, cbs = [cb1, cb2] ∧ coinbaseFee cb1 + coinbaseFee cb2 ≤ coinbaseAmount := by
  unfold twoParts at h
  obtain ⟨rem, hrem, h⟩ := Outcome.bind_eq_ok.1 h
  obtain ⟨_, -, h⟩ := Outcome.bind_eq_ok.1 h
  obtain ⟨cb1, h1, h⟩ := Outcome.bind_eq_ok.1 h
  obtain ⟨cb2, h2, h⟩ := Outcome.bind_eq_ok.1 h
  obtain rfl := Outcome.ok.inj h
  have hsplit := underflowErr_ok hrem
  have hfee1 := (createOneCoinbase_ok h1).2
  have hfee2 := (createOneCoinbase_ok h2).2
  exact ⟨cb1, cb2, rfl, by omega⟩

theorem twoParts_ne_raise : twoParts coinbaseAmount receiver amt ft1 ft2 ≠ .raise := by
  unfold twoParts
  refine Outcome.bind_ne_raise Outcome.okOr_ne_raise fun _ _ => ?_
  refine Outcome.bind_ne_raise Outcome.okOr_ne_raise fun _ _ => ?_
  refine Outcome.bind_ne_raise createOneCoinbase_ne_raise fun _ _ => ?_
  refine Outcome.bind_ne_raise createOneCoinbase_ne_raise fun _ _ => ?_
  simp

/-- **The coinbases pay no more for work than the coinbase amount**, and are as many as asked for. -/
theorem createCoinbase_ok (h : createCoinbase constants parts receiver coinbaseAmount = .ok cbs) :
    cbs.length = partsCount parts ∧ (cbs.map coinbaseFee).sum ≤ coinbaseAmount := by
  have two : ∀ {amt : Nat} {ft1 ft2 : Option CoinbaseFeeTransfer},
      twoParts coinbaseAmount receiver amt ft1 ft2 = .ok cbs →
      cbs.length = 2 ∧ (cbs.map coinbaseFee).sum ≤ coinbaseAmount := by
    intro amt ft1 ft2 h
    obtain ⟨cb1, cb2, rfl, hle⟩ := twoParts_ok h
    exact ⟨rfl, by simpa using hle⟩
  cases parts with
  | zero =>
    obtain rfl := Outcome.ok.inj h
    exact ⟨rfl, Nat.zero_le _⟩
  | one x =>
    obtain ⟨cb, hcb, h⟩ := Outcome.bind_eq_ok.1 h
    obtain rfl := Outcome.ok.inj h
    exact ⟨rfl, by simpa using (createOneCoinbase_ok hcb).2⟩
  | two x =>
    cases x with
    | none => exact two h
    | some p =>
      obtain ⟨ft1, ft2⟩ := p
      obtain ⟨amount, -, h⟩ := Outcome.bind_eq_ok.1 h
      exact two h

theorem createCoinbase_ne_raise : createCoinbase constants parts receiver coinbaseAmount ≠ .raise := by
  cases parts with
  | zero => simp [createCoinbase]
  | one x => exact Outcome.bind_ne_raise createOneCoinbase_ne_raise fun _ _ => by simp
  | two x =>
    cases x with
    | none => exact twoParts_ne_raise
    | some p => exact Outcome.bind_ne_raise Outcome.okOr_ne_raise fun _ _ => twoParts_ne_raise

theorem foldlM_add {acc : Nat} (h : acc + fees.sum < 2 ^ 64) : fees.foldlM Amount.add acc = some (acc + fees.sum) := by
  induction fees generalizing acc with
  | nil => rfl
  | cons fee fees ih =>
    rw [List.sum_cons] at h
    have hadd : Amount.add acc fee = some (acc + fee) := Amount.add_eq_some.2 ⟨rfl, by omega⟩
    rw [List.foldlM_cons, hadd, List.sum_cons, ← Nat.add_assoc]
    exact ih (by omega)

theorem sumFees_of_lt (h : fees.sum < 2 ^ 64) : sumFees fees = some fees.sum := by
  unfold sumFees
  rw [foldlM_add (by omega), Nat.zero_add]

theorem sum_coinbaseFts (cbs : List Coinbase) :
    ((cbs.filterMap Coinbase.feeTransfer).map CoinbaseFeeTransfer.fee).sum = (cbs.map coinbaseFee).sum := by
  induction cbs with
  | nil => rfl
  | cons cb cbs ih =>
    rw [List.map_cons, List.sum_cons, ← ih]
    unfold coinbaseFee
    cases hft : cb.feeTransfer with
    | none => simp [hft]
    | some ft => simp [hft]

theorem feeRemainder_ne_raise {commands : List (WithStatus Command)}
    {coinbaseFee : Nat} : feeRemainder commands works coinbaseFee ≠ .raise := by
  unfold feeRemainder
  refine Outcome.bind_ne_raise Outcome.okOr_ne_raise fun _ _ => ?_
  exact Outcome.bind_ne_raise Outcome.okOr_ne_raise fun _ _ => Outcome.okOr_ne_raise

theorem createFeeTransfers_ne_raise {delta : Nat} {pk : PublicKey}
    {fts : List CoinbaseFeeTransfer} : createFeeTransfers works delta pk fts ≠ .raise := by
  unfold createFeeTransfers
  refine Outcome.bind_ne_raise Outcome.okOr_ne_raise fun _ _ => ?_
  exact Outcome.bind_ne_raise Outcome.okOr_ne_raise fun _ _ => by simp

section

variable {constants : ConstraintConstants} {parts : AtMostTwo CoinbaseFeeTransfer} {receiver : PublicKey}
  {coinbaseAmount : Nat} {commands : List (WithStatus Command)} {works : List TransactionSnarkWork}
  {statuses : List TransactionStatus}

theorem getTransactionData_ne_raise (hamount : coinbaseAmount < 2 ^ 64) :
    getTransactionData constants parts receiver coinbaseAmount commands works ≠ .raise := by
  unfold getTransactionData
  refine Outcome.bind_ne_raise createCoinbase_ne_raise fun cbs hcbs => ?_
  have hle := (createCoinbase_ok hcbs).2
  dsimp only
  rw [sumFees_of_lt (by rw [sum_coinbaseFts]; omega), Outcome.ofOption_some, Outcome.ok_bind]
  refine Outcome.bind_ne_raise feeRemainder_ne_raise fun _ _ => ?_
  exact Outcome.bind_ne_raise createFeeTransfers_ne_raise fun _ _ => by simp

theorem getIndividualInfo_ne_raise (hamount : coinbaseAmount < 2 ^ 64) :
    getIndividualInfo constants parts receiver coinbaseAmount commands works statuses ≠ .raise := by
  unfold getIndividualInfo
  refine Outcome.bind_ne_raise (getTransactionData_ne_raise hamount) fun _ _ => ?_
  exact Outcome.bind_ne_raise Outcome.okIfTrue_ne_raise fun _ _ => by simp

theorem getIndividualInfo_ok {info : Info}
    (h : getIndividualInfo constants parts receiver coinbaseAmount commands works statuses = .ok info) :
    info.coinbases.length = partsCount parts ∧ info.work = works := by
  unfold getIndividualInfo at h
  obtain ⟨data, hdata, h⟩ := Outcome.bind_eq_ok.1 h
  obtain ⟨_, -, h⟩ := Outcome.bind_eq_ok.1 h
  obtain rfl := Outcome.ok.inj h
  unfold getTransactionData at hdata
  obtain ⟨cbs, hcbs, hdata⟩ := Outcome.bind_eq_ok.1 hdata
  obtain ⟨_, -, hdata⟩ := Outcome.bind_eq_ok.1 hdata
  obtain ⟨_, -, hdata⟩ := Outcome.bind_eq_ok.1 hdata
  obtain ⟨_, -, hdata⟩ := Outcome.bind_eq_ok.1 hdata
  obtain rfl := Outcome.ok.inj hdata
  exact ⟨by simpa using (createCoinbase_ok hcbs).1, rfl⟩

end

theorem getSecondInfo_ne_raise
    {second : Option (PreDiff (AtMostOne CoinbaseFeeTransfer))} (hamount : coinbaseAmount < 2 ^ 64) :
    getSecondInfo constants receiver coinbaseAmount second ≠ .raise := by
  cases second with
  | none => simp [getSecondInfo]
  | some t2 => exact getIndividualInfo_ne_raise hamount

/-- The coinbase parts that `check_coinbase` lets through. -/
theorem checkCoinbase_ok (h : checkCoinbase diff = .ok ()) :
    partsCount diff.first.coinbase + partsCount diff.secondCoinbase.toAtMostTwo ≤ 2 := by
  unfold checkCoinbase at h
  split at h
  · rename_i h1 h2
    rw [h1, h2]
    decide
  · rename_i h1 h2
    rw [h1, h2]
    exact Nat.le_succ 1
  · rename_i h1 h2
    rw [h1, h2]
    exact Nat.le_succ 1
  · rename_i h1 h2
    rw [h1, h2]
    exact Nat.le_refl 2
  · cases h

theorem checkCoinbase_ne_raise : checkCoinbase diff ≠ .raise := by
  unfold checkCoinbase
  split <;> simp

theorem getSecondInfo_ok (h : getSecondInfo constants receiver coinbaseAmount diff.second = .ok info) :
    info.coinbases.length = partsCount diff.secondCoinbase.toAtMostTwo := by
  unfold Diff.secondCoinbase
  cases hsecond : diff.second with
  | none =>
    rw [hsecond] at h
    obtain rfl := Outcome.ok.inj h
    rfl
  | some t2 =>
    rw [hsecond] at h
    exact (getIndividualInfo_ok h).1

theorem get'_ne_raise {coinbaseAmount : Option Nat}
    (hamount : ∀ amount, coinbaseAmount = some amount → amount < 2 ^ 64) :
    get' constants receiver coinbaseAmount diff ≠ .raise := by
  unfold get'
  refine Outcome.bind_ne_raise Outcome.okOr_ne_raise fun amount h => ?_
  have hlt := hamount amount (Outcome.okOr_eq_ok.1 h)
  refine Outcome.bind_ne_raise checkCoinbase_ne_raise fun _ _ => ?_
  refine Outcome.bind_ne_raise (getIndividualInfo_ne_raise hlt) fun _ _ => ?_
  exact Outcome.bind_ne_raise (getSecondInfo_ne_raise hlt) fun _ _ => by simp

/-- **A diff has at most two coinbases.** -/
theorem length_coinbases_le {coinbaseAmount : Option Nat}
    (h : get' constants receiver coinbaseAmount diff = .ok info) : info.coinbases.length ≤ 2 := by
  unfold get' at h
  obtain ⟨amount, -, h⟩ := Outcome.bind_eq_ok.1 h
  obtain ⟨_, hcheck, h⟩ := Outcome.bind_eq_ok.1 h
  obtain ⟨p1, h1, h⟩ := Outcome.bind_eq_ok.1 h
  obtain ⟨p2, h2, h⟩ := Outcome.bind_eq_ok.1 h
  obtain rfl := Outcome.ok.inj h
  have hle := checkCoinbase_ok hcheck
  have hfirst := (getIndividualInfo_ok h1).1
  have hsecond := getSecondInfo_ok h2
  dsimp only
  rw [List.length_append]
  omega

section

variable {constants : ConstraintConstants} {receiver : PublicKey} {supercharge : Bool}
  {check : List (WithStatus Command) → Option (Except InvalidCommand Nat)} {diff : Diff}

/-- The check answers for as many commands as it is asked about. -/
def AnswersAll (check : List (WithStatus Command) → Option (Except InvalidCommand Nat)) : Prop :=
  ∀ cs n, check cs = some (.ok n) → n = cs.length

theorem get_ne_raise (hcheck : AnswersAll check) : get constants receiver supercharge check diff ≠ .raise := by
  unfold get
  split
  · simp
  · simp
  · rename_i n h
    rw [hcheck _ n h, decide_eq_true rfl, Outcome.assert_true, Outcome.ok_bind]
    exact get'_ne_raise fun _ => Diff.coinbaseOf_lt

theorem get_ok {info : Info} (h : get constants receiver supercharge check diff = .ok info) :
    get' constants receiver (diff.coinbaseOf constants supercharge) diff = .ok info := by
  unfold get at h
  split at h
  · cases h
  · cases h
  · obtain ⟨_, -, h⟩ := Outcome.bind_eq_ok.1 h
    exact h

end

end PreDiffInfo

/-! ### Completed works -/

section CompletedWorks

variable {config : Config} {scanState : ScanState} {pairs : List (OneOrTwo Job × TransactionSnarkWork)}
  {work : TransactionSnarkWork} {jobs : OneOrTwo Job}

/-- The snark pool has seen the work, or its proofs are as many as the jobs. -/
def WorkFits (config : Config) (jobs : OneOrTwo Job) (work : TransactionSnarkWork) : Prop :=
  workAlreadyVerifiedCheck config jobs work = .ok () ∨ jobs.length = work.proofs.length

/-- The works are not more than the pairs of jobs, and each fits its own pair. -/
def WorksFit (config : Config) (scanState : ScanState) (works : List TransactionSnarkWork) : Prop :=
  works.length ≤ scanState.workPairsForNewDiff.length
    ∧ ∀ p ∈ scanState.workPairsForNewDiff.zip works, WorkFits config p.1 p.2

/-- The jobs of a work that the snark pool has not seen, each with its proof. -/
def unverifiedOf (config : Config) (jobs : OneOrTwo Job) (work : TransactionSnarkWork) :
    List (Job × SokMessage × LedgerProof) :=
  match workAlreadyVerifiedCheck config jobs work with
  | .ok () => []
  | .error _ =>
    (jobs.toList.zip work.proofs.toList).map fun p => (p.1, ⟨work.fee, work.prover⟩, p.2)

/-- What `check_completed_works` leaves to the verifier. -/
def unverified (config : Config) (scanState : ScanState) (works : List TransactionSnarkWork) :
    List (Job × SokMessage × LedgerProof) :=
  (scanState.workPairsForNewDiff.zip works).flatMap fun p => unverifiedOf config p.1 p.2

theorem jobsOfWork_eq (h : WorkFits config jobs work) :
    jobsOfWork config jobs work = .ok (unverifiedOf config jobs work) := by
  unfold jobsOfWork unverifiedOf
  cases hcheck : workAlreadyVerifiedCheck config jobs work with
  | ok _ => rfl
  | error reason =>
    rcases h with hok | hlength
    · rw [hcheck] at hok
      cases hok
    · cases jobs with
      | one job =>
        cases hproofs : work.proofs with
        | one proof => rfl
        | two proof proof' =>
          rw [hproofs] at hlength
          cases hlength
      | two job job' =>
        cases hproofs : work.proofs with
        | one proof =>
          rw [hproofs] at hlength
          cases hlength
        | two proof proof' => rfl

theorem jobsOfWork_raise (h : ¬ WorkFits config jobs work) : jobsOfWork config jobs work = .raise := by
  unfold jobsOfWork
  cases hcheck : workAlreadyVerifiedCheck config jobs work with
  | ok _ => exact absurd (.inl hcheck) h
  | error reason =>
    cases hzip : OneOrTwo.zip jobs work.proofs with
    | none => rfl
    | some zipped =>
      have hsome : (OneOrTwo.zip jobs work.proofs).isSome = true := by rw [hzip, Option.isSome_some]
      exact absurd (.inr (OneOrTwo.zip_isSome_iff.1 hsome)) h

theorem jobsToVerify_eq (h : ∀ p ∈ pairs, WorkFits config p.1 p.2) :
    jobsToVerify config pairs = .ok (pairs.flatMap fun p => unverifiedOf config p.1 p.2) := by
  induction pairs with
  | nil => rfl
  | cons p pairs ih =>
    obtain ⟨jobs, work⟩ := p
    rw [jobsToVerify, jobsOfWork_eq (h (jobs, work) (List.mem_cons_self ..)), Outcome.ok_bind,
      ih fun p hp => h p (List.mem_cons_of_mem _ hp), Outcome.ok_bind, List.flatMap_cons]
    rfl

theorem jobsToVerify_raise (h : ¬ ∀ p ∈ pairs, WorkFits config p.1 p.2) : jobsToVerify config pairs = .raise := by
  induction pairs with
  | nil => exact absurd (fun p hp => absurd hp (List.not_mem_nil)) h
  | cons p pairs ih =>
    obtain ⟨jobs, work⟩ := p
    rw [jobsToVerify]
    by_cases hfits : WorkFits config jobs work
    · rw [jobsOfWork_eq hfits, Outcome.ok_bind, ih, Outcome.raise_bind]
      intro hrest
      refine h fun p hp => ?_
      rcases List.mem_cons.1 hp with rfl | hp
      · exact hfits
      · exact hrest p hp
    · rw [jobsOfWork_raise hfits, Outcome.raise_bind]

theorem take_zip_length {α β : Type} (l : List α) (l' : List β) : (l.take l'.length).zip l' = l.zip l' := by
  induction l' generalizing l with
  | nil => rw [List.zip_nil_right, List.zip_nil_right]
  | cons b l' ih =>
    cases l with
    | nil => rfl
    | cons a l => rw [List.length_cons, List.take_succ_cons, List.zip_cons_cons, ih, List.zip_cons_cons]

theorem verifyProofs_ne_raise {proofs : List (LedgerProof × Statement × SokMessage)} :
    verifyProofs config proofs ≠ .raise := by
  unfold verifyProofs
  split
  · simp
  · split <;> simp

theorem verify_ne_raise {jmps : List (Job × SokMessage × LedgerProof)} : verify config jmps ≠ .raise := by
  unfold verify
  split
  · simp
  · exact verifyProofs_ne_raise

/-- **What `check_completed_works` does**: it raises when the works do not fit, and hands what
the snark pool has not seen to the verifier. -/
theorem checkCompletedWorks_of_fit (h : WorksFit config scanState works) : checkCompletedWorks config scanState works
      = if (unverified config scanState works).isEmpty then .ok ()
        else verify config (unverified config scanState works) := by
  unfold checkCompletedWorks ScanState.kWorkPairsForNewDiff
  dsimp only
  rw [List.length_take, Nat.min_eq_left h.1, decide_eq_true rfl, Outcome.assert_true, Outcome.ok_bind,
    take_zip_length, jobsToVerify_eq h.2, Outcome.ok_bind]
  rfl

theorem checkCompletedWorks_of_not_fit (h : ¬ WorksFit config scanState works) :
    checkCompletedWorks config scanState works = .raise := by
  unfold checkCompletedWorks ScanState.kWorkPairsForNewDiff
  dsimp only
  by_cases hlength : works.length ≤ scanState.workPairsForNewDiff.length
  · rw [List.length_take, Nat.min_eq_left hlength, decide_eq_true rfl, Outcome.assert_true, Outcome.ok_bind,
      take_zip_length, jobsToVerify_raise fun hfits => h ⟨hlength, hfits⟩, Outcome.raise_bind]
  · rw [List.length_take, Nat.min_eq_right (by omega), decide_eq_false (by omega), Outcome.assert_false,
      Outcome.raise_bind]

/-- The completed works are turned down: they fit, and the verifier does not accept them all. -/
def BadWorks (config : Config) (scanState : ScanState) (works : List TransactionSnarkWork) : Prop :=
  unverified config scanState works ≠ [] ∧ ∃ e, verify config (unverified config scanState works) = .error e

theorem checkCompletedWorks_raise_iff :
    checkCompletedWorks config scanState works = .raise ↔ ¬ WorksFit config scanState works := by
  constructor
  · intro hraise hfit
    rw [checkCompletedWorks_of_fit hfit] at hraise
    split at hraise
    · cases hraise
    · exact verify_ne_raise hraise
  · exact checkCompletedWorks_of_not_fit

theorem checkCompletedWorks_error_iff (hfit : WorksFit config scanState works) :
    (∃ e, checkCompletedWorks config scanState works = .error e) ↔ BadWorks config scanState works := by
  rw [checkCompletedWorks_of_fit hfit]
  unfold BadWorks
  cases hempty : unverified config scanState works with
  | nil => simp
  | cons jmp jmps => simp

end CompletedWorks

/-! ### The diff -/

section Application

variable {config : Config} {block : Block} {skip : Option SkipVerification} {t : StagedLedger}
  {info : PreDiffInfo.Info} {d : CoinbaseStackData}

theorem length_of_mapM_id {E A : Type} {xs : List (Except E A)} {ys : List A} (h : xs.mapM id = .ok ys) :
    ys.length = xs.length := by
  induction xs generalizing ys with
  | nil =>
    rw [List.mapM_nil] at h
    cases h
    rfl
  | cons x xs ih =>
    rw [List.mapM_cons] at h
    cases x with
    | error e => cases h
    | ok y =>
      cases hrest : xs.mapM id with
      | error e =>
        rw [hrest] at h
        cases h
      | ok zs =>
        rw [hrest] at h
        cases h
        rw [List.length_cons, List.length_cons, ih hrest]

theorem answersAll_checkCommands (config : Config) (ledger : TransactionLogic.Ledger) :
    PreDiffInfo.AnswersAll (checkCommands config ledger) := by
  intro cs n h
  unfold checkCommands at h
  obtain ⟨xs, hxs, h⟩ := Option.map_eq_some_iff.1 h
  cases hall : xs.mapM id with
  | error e =>
    rw [hall] at h
    cases h
  | ok ys =>
    rw [hall] at h
    cases h
    rw [← config.verifier.length_verifyCommands hxs]
    exact length_of_mapM_id hall

theorem getPreDiffInfo_ne_raise : getPreDiffInfo config block t diff ≠ .raise :=
  Outcome.mapError_ne_raise.2 (PreDiffInfo.get_ne_raise (answersAll_checkCommands config t.ledger.accounts))

theorem length_coinbases_of_getPreDiffInfo
    (h : getPreDiffInfo config block t diff = .ok info) : info.coinbases.length ≤ 2 :=
  PreDiffInfo.length_coinbases_le (PreDiffInfo.get_ok (Outcome.mapError_eq_ok.1 h))

/-- Unless the check is skipped, the works of the diff fit the jobs of the scan state. -/
def DiffWorksFit (config : Config) (skip : Option SkipVerification) (t : StagedLedger) (diff : Diff) : Prop :=
  skip = none → WorksFit config t.scanState diff.completedWorks

/-- The diff is turned down for itself: for its works, or for its commands, fees and coinbases. -/
def TurnedDown (config : Config) (block : Block) (skip : Option SkipVerification) (t : StagedLedger)
    (diff : Diff) : Prop :=
  (skip = none ∧ BadWorks config t.scanState diff.completedWorks)
    ∨ ∃ e, getPreDiffInfo config block t diff = .error e

theorem checkWorks_raise_iff :
    checkWorks config skip t diff.completedWorks = .raise ↔ ¬ DiffWorksFit config skip t diff := by
  unfold DiffWorksFit
  cases skip with
  | none => simpa [checkWorks] using checkCompletedWorks_raise_iff
  | some _ => simp [checkWorks]

theorem checkWorks_error_iff (hfit : DiffWorksFit config skip t diff) :
    (∃ e, checkWorks config skip t diff.completedWorks = .error e) ↔
      skip = none ∧ BadWorks config t.scanState diff.completedWorks := by
  cases skip with
  | none => simpa [checkWorks] using checkCompletedWorks_error_iff (hfit rfl)
  | some _ => simp [checkWorks]

theorem checkDiff_cases (config : Config) (block : Block) (skip : Option SkipVerification) (t : StagedLedger)
    (diff : Diff) : (checkDiff config block skip t diff = .raise ∧ ¬ DiffWorksFit config skip t diff)
      ∨ (∃ e, checkDiff config block skip t diff = .error e ∧ DiffWorksFit config skip t diff
        ∧ TurnedDown config block skip t diff)
      ∨ ∃ info, checkDiff config block skip t diff = .ok info ∧ DiffWorksFit config skip t diff
        ∧ ¬ TurnedDown config block skip t diff ∧ getPreDiffInfo config block t diff = .ok info := by
  unfold checkDiff
  cases hworks : checkWorks config skip t diff.completedWorks with
  | raise => exact .inl ⟨rfl, checkWorks_raise_iff.1 hworks⟩
  | error e =>
    have hfit : DiffWorksFit config skip t diff := by
      by_contra hfit
      rw [checkWorks_raise_iff.2 hfit] at hworks
      cases hworks
    exact .inr (.inl ⟨e, rfl, hfit, .inl ((checkWorks_error_iff hfit).1 ⟨e, hworks⟩)⟩)
  | ok u =>
    have hfit : DiffWorksFit config skip t diff := by
      by_contra hfit
      rw [checkWorks_raise_iff.2 hfit] at hworks
      cases hworks
    rw [Outcome.ok_bind]
    cases hget : getPreDiffInfo config block t diff with
    | raise => exact absurd hget getPreDiffInfo_ne_raise
    | error e => exact .inr (.inl ⟨e, rfl, hfit, .inr ⟨e, hget⟩⟩)
    | ok info =>
      refine .inr (.inr ⟨info, rfl, hfit, ?_, rfl⟩)
      intro hdown
      rcases hdown with hbad | ⟨e, he⟩
      · obtain ⟨e, he⟩ := (checkWorks_error_iff hfit).2 hbad
        rw [hworks] at he
        cases he
      · rw [hget] at he
        cases he

/-! ### The checks on the new mask -/

/-- **The transactions pass their checks**: the zkApp commands do not exceed the hard cap, all
transactions apply with the statuses that the diff has for them, there is enough work for the
slots they take, and they leave no fee excess. -/
structure TransactionsPass (config : Config) (block : Block) (t : StagedLedger) (info : PreDiffInfo.Info)
    (d : CoinbaseStackData) : Prop where
  zkapps : info.transactions.countP (fun t => t.data.isZkapp) ≤ block.zkappCmdLimitHardcap
  applied : updateCoinbaseStackAndGetData config block t.scanState t.ledger t.pendingCoinbaseCollection
    info.transactions = .ok d
  enoughWork : ∃ required, t.scanState.workStatementsForNewDiff config.statementDigests = some required
    ∧ (required.length ≤ info.work.length
      ∨ (d.data.length : Int) ≤ t.scanState.freeSpace - required.length + info.work.length)
  zeroFeeExcess : checkZeroFeeExcess t.scanState d.data = .ok ()

/-- **The scan state takes the works and the transactions**: the works fill jobs, the transactions
have a place, the stack of an emitted proof is the oldest one, and the statements of the new scan
state connect, unless that is not verified. -/
def ScanStateTakes (config : Config) (skipVerification : Bool) (t : StagedLedger) (info : PreDiffInfo.Info)
    (d : CoinbaseStackData) : Prop :=
  ∃ resOpt scanState' collection stack,
    t.scanState.fillWorkAndEnqueueTransactions config.statementDigests d.data info.work
        = .ok (resOpt, scanState')
      ∧ updatePendingCoinbaseCollection config t.constraintConstants.pendingCoinbaseDepth
        t.pendingCoinbaseCollection d.stackUpdate d.isNewStack (resOpt.map Prod.fst) = .ok collection
      ∧ workingStack collection false = .ok stack
      ∧ verifyScanStateAfterApply config skipVerification d stack scanState' = .ok ()

theorem applyTransactions_eq_ok :
    applyTransactions config block t info = .ok d ↔ TransactionsPass config block t info d := by
  unfold applyTransactions checkZkappLimit checkSufficientWork
  simp only [Outcome.bind_eq_ok, Outcome.okIfTrue_eq_ok, Outcome.ofOption_eq_ok, Outcome.pure_eq,
    Outcome.ok.injEq, decide_eq_true_eq]
  constructor
  · intro h
    obtain ⟨_, hzkapps, d', happlied, required, hrequired, _, hwork, _, hexcess, rfl⟩ := h
    refine ⟨hzkapps, happlied, ⟨required, hrequired, ?_⟩, hexcess⟩
    simp only [Bool.not_eq_true', Bool.and_eq_false_iff, decide_eq_false_iff_not] at hwork
    omega
  · intro h
    obtain ⟨required, hrequired, hwork⟩ := h.enoughWork
    refine ⟨(), h.zkapps, d, h.applied, required, hrequired, (), ?_, (), h.zeroFeeExcess, rfl⟩
    simp only [Bool.not_eq_true', Bool.and_eq_false_iff, decide_eq_false_iff_not]
    omega

theorem coinbaseForBlockchainSnark_ok {coinbases : List Nat} (h : coinbases.length ≤ 2) :
    ∃ amount, coinbaseForBlockchainSnark coinbases = .ok amount := by
  cases coinbases with
  | nil => exact ⟨0, rfl⟩
  | cons amount rest =>
    cases rest with
    | nil => exact ⟨amount, rfl⟩
    | cons amount' rest =>
      cases rest with
      | nil => exact ⟨amount, rfl⟩
      | cons _ _ =>
        simp only [List.length_cons] at h
        omega

theorem enqueueTransactions_ok_iff {skipVerification : Bool} (hcoinbases : info.coinbases.length ≤ 2) :
    (∃ a, enqueueTransactions config skipVerification t info d = .ok a) ↔
      ScanStateTakes config skipVerification t info d := by
  unfold enqueueTransactions ScanStateTakes
  simp only [Outcome.bind_ok_iff, Outcome.mapError_eq_ok]
  constructor
  · intro h
    obtain ⟨_, ⟨resOpt, scanState'⟩, hfill, collection, hcollection, _, -, stack, hstack, _, hverify, -⟩ := h
    exact ⟨resOpt, scanState', collection, stack, hfill, hcollection, hstack, hverify⟩
  · intro h
    obtain ⟨resOpt, scanState', collection, stack, hfill, hcollection, hstack, hverify⟩ := h
    obtain ⟨amount, hamount⟩ := coinbaseForBlockchainSnark_ok hcoinbases
    exact ⟨_, (resOpt, scanState'), hfill, collection, hcollection, amount, hamount, stack, hstack, (), hverify, rfl⟩

/-- The diff passes all checks that are made once the new mask is registered. -/
def PassesOnMask (config : Config) (block : Block) (skip : Option SkipVerification) (t : StagedLedger)
    (info : PreDiffInfo.Info) : Prop :=
  ∃ d, TransactionsPass config block t info d ∧ ScanStateTakes config (skip = some .all) t info d

theorem applyDiffOnMask_ok_iff (hcoinbases : info.coinbases.length ≤ 2) :
    (∃ a, applyDiffOnMask config block (skip = some .all) t info = .ok a) ↔
      PassesOnMask config block skip t info := by
  unfold applyDiffOnMask PassesOnMask
  simp only [Outcome.bind_ok_iff, applyTransactions_eq_ok]
  constructor
  · intro h
    obtain ⟨a, d, hpass, henqueue⟩ := h
    exact ⟨d, hpass, (enqueueTransactions_ok_iff hcoinbases).1 ⟨a, henqueue⟩⟩
  · intro h
    obtain ⟨d, hpass, htakes⟩ := h
    obtain ⟨a, henqueue⟩ := (enqueueTransactions_ok_iff hcoinbases).2 htakes
    exact ⟨a, d, hpass, henqueue⟩

/-! ### The application -/

/-- **A block has done no harm**: the application has returned a new staged ledger, or an error with
the old staged ledger as it was. -/
def Clean (t : StagedLedger) (r : StagedLedger × Outcome Error Applied) : Prop :=
  (∃ a, r.2 = .ok a) ∨ (∃ e, r.2 = .error e ∧ r.1 = t)

theorem registerMask_ne (t : StagedLedger) (mask : Nat) : registerMask t mask ≠ t := by
  intro h
  have hmasks : mask :: t.ledger.registeredMasks = t.ledger.registeredMasks :=
    congrArg (fun t => t.ledger.registeredMasks) h
  exact absurd (congrArg List.length hmasks) (by simp)

theorem clean_registerMask_iff {mask : Nat} {r : Outcome Error Applied} :
    Clean t (registerMask t mask, r) ↔ ∃ a, r = .ok a := by
  constructor
  · intro h
    rcases h with hok | ⟨e, -, hsame⟩
    · exact hok
    · exact absurd hsame (registerMask_ne t mask)
  · exact .inl

/-- The condition under which a diff does no harm. -/
structure Harmless (config : Config) (block : Block) (skip : Option SkipVerification) (t : StagedLedger)
    (diff : Diff) : Prop where
  worksFit : DiffWorksFit config skip t diff
  settled : TurnedDown config block skip t diff ∨ ∃ info, getPreDiffInfo config block t diff = .ok info
    ∧ (t.scanState.allWorkStatementsExn config.statementDigests).isSome = true
    ∧ PassesOnMask config block skip t info

theorem clean_applyDiff_iff (hcoinbases : info.coinbases.length ≤ 2) :
    Clean t (applyDiff config block (skip = some .all) t info) ↔
      (t.scanState.allWorkStatementsExn config.statementDigests).isSome = true
        ∧ PassesOnMask config block skip t info := by
  unfold applyDiff
  cases hstatements : t.scanState.allWorkStatementsExn config.statementDigests with
  | none => simp [Clean]
  | some _ =>
    rw [clean_registerMask_iff, applyDiffOnMask_ok_iff hcoinbases]
    simp

end Application

/-! ### Blocks that do harm -/

theorem not_clean_of_not_fit {config : Config} {block : Block} {skip : Option SkipVerification}
    {diff : Diff} (hfit : ¬ DiffWorksFit config skip t diff) : ¬ Clean t (apply config block skip t diff) := by
  unfold apply checkDiff
  rw [checkWorks_raise_iff.2 hfit, Outcome.raise_bind]
  simp [Clean]

theorem not_clean_of_registered {r : StagedLedger × Outcome Error Applied}
    (hok : r.2.isOk = false) (hmasks : r.1.ledger.registeredMasks ≠ t.ledger.registeredMasks) : ¬ Clean t r := by
  intro h
  rcases h with ⟨a, ha⟩ | ⟨e, -, hsame⟩
  · rw [ha] at hok
    cases hok
  · exact hmasks (by rw [hsame])

theorem sampleAmount_lt : 720000000000 < 2 ^ 64 := by decide

/-- Trees with two transactions each. -/
def sampleConstants : ConstraintConstants where
  transactionCapacityLog2 := 1
  workDelay := 1
  pendingCoinbaseDepth := 2
  coinbaseAmount := 720000000000
  coinbaseAmount_lt := sampleAmount_lt
  superchargedCoinbaseFactor := 1
  accountCreationFee := 1000000000
  accountCreationFee_pos := TransactionLogic.sampleFee_pos

def sampleStatementDigests : StatementDigests where
  emptyCoinbaseStack := 0
  pushCoinbase cb data := cb.1.x + cb.2 + data
  dummyStackHash := 0
  pushState curr stateBodyHash globalSlot := curr + stateBodyHash + globalSlot.toNat
  emptyLedgerHash := 0
  emptyStackFrame := 0
  emptyCallStack := 0

/-- A verifier that accepts everything. -/
def sampleVerifier : Verifier where
  verifyCommands _ cs := some (cs.map fun _ => .ok ())
  length_verifyCommands h := by
    obtain rfl := Option.some.inj h
    exact List.length_map ..
  verifyTransactionSnarks _ := some true

def sampleConfig : Config where
  constraintConstants := sampleConstants
  digests := TransactionLogic.sampleDigests
  statementDigests := sampleStatementDigests
  merkleRoot ledger := ledger.size
  decompresses _ := true
  verifier := sampleVerifier
  getCompletedWork _ := none

def sampleBlock : Block where
  globalSlot := 1
  currentStateView := TransactionLogic.sampleView
  stateAndBodyHash := (1, 2)
  coinbaseReceiver := ⟨1, false⟩
  superchargeCoinbase := false
  zkappCmdLimitHardcap := 128
  newMask := 7

/-- The staged ledger of the genesis block. -/
def sampleGenesis : StagedLedger := createExn sampleStatementDigests sampleConstants ⟨10, ∅, []⟩

def sampleRegisters : Registers := ⟨0, 0, Stack.empty sampleStatementDigests.toStackDigests,
  LocalState.empty sampleStatementDigests⟩

/-- Work for which there is no job. -/
def sampleWork : TransactionSnarkWork where
  fee := 0
  proofs := .one ⟨⟨sampleRegisters, sampleRegisters, 0, 0, FeeExcess.zero, Signed.zero⟩, 0, 0⟩
  prover := ⟨2, false⟩

/-- A diff with that work and nothing else. -/
def workDiff : Diff := ⟨⟨[sampleWork], [], .zero, []⟩, none⟩

/-- A diff with a coinbase, of which it says that it has failed. -/
def failedCoinbaseDiff : Diff := ⟨⟨[], [], .one none, [.failed []]⟩, none⟩

end MinaProtocol.StagedLedger
