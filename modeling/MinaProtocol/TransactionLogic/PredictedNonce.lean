import MinaProtocol.TransactionLogic.Replay

/-!
# TransactionLogic.PredictedNonce

What a zkApp command says about nonces before it is applied, and what becomes of them. The ledger has a nonce for each
account, with its token; the prediction counts the account updates that increment one by their public keys alone. The
two agree for a command that is applied exactly if it only increments the nonces of accounts of the default token.
-/

namespace MinaProtocol

/-! ### The prediction -/

open Std

namespace ZkappCommand

variable (t : ZkappCommand)

/-- `applicable_at_nonce`. -/
def applicableAtNonce : AccountNonce := t.feePayer.nonce

/-- `target_nonce_on_success`. -/
def targetNonceOnSuccess : AccountNonce :=
  let baseNonce := t.applicableAtNonce.succ
  let feePayerPubkey := t.feePayer.publicKey
  let feePayerAccountUpdateIncrements :=
    t.accountUpdates.toList.countP fun p => p.publicKey = feePayerPubkey && p.incrementNonce
  baseNonce + UInt32.ofNat feePayerAccountUpdateIncrements

/-- One more increment of a key. -/
def countIncrement (increments : ExtTreeMap PublicKey Nat) (accountUpdate : AccountUpdate) : ExtTreeMap PublicKey Nat :=
  if accountUpdate.incrementNonce then
    increments.insert accountUpdate.publicKey (increments[accountUpdate.publicKey]?.elim 1 fun n => 1 + n)
  else increments

/-- `nonce_increments`. -/
def nonceIncrements : ExtTreeMap PublicKey Nat :=
  t.accountUpdates.toList.foldl countIncrement ((∅ : ExtTreeMap PublicKey Nat).insert t.feePayer.publicKey 1)

/-- How often the account updates of a list increment the nonce of an account of the public key. -/
def keyIncrements (us : List AccountUpdate) (pk : PublicKey) : Nat := us.countP fun u => u.publicKey = pk && u.incrementNonce

theorem countIncrement_getD (increments : ExtTreeMap PublicKey Nat) (u : AccountUpdate) (pk : PublicKey) :
    (countIncrement increments u)[pk]?.getD 0 = increments[pk]?.getD 0 + keyIncrements [u] pk := by
  rw [countIncrement, keyIncrements, List.countP_singleton]
  by_cases hinc : u.incrementNonce = true
  · rw [if_pos hinc, ExtTreeMap.getElem?_insert]
    by_cases hpk : u.publicKey = pk
    · rw [if_pos (LawfulEqOrd.compare_eq_iff_eq.mpr hpk), hpk]
      cases increments[pk]? with
      | none => simp [hinc]
      | some n => simp [hinc, Nat.add_comm]
    · rw [if_neg fun h => hpk (LawfulEqOrd.compare_eq_iff_eq.mp h)]
      simp [hpk]
  · rw [if_neg hinc]
    simp [hinc]

theorem nonceIncrements_getD (pk : PublicKey) :
    t.nonceIncrements[pk]?.getD 0 = (if t.feePayer.publicKey = pk then 1 else 0) + keyIncrements t.accountUpdates.toList pk := by
  have hfold : ∀ (us : List AccountUpdate) (increments : ExtTreeMap PublicKey Nat),
      (us.foldl countIncrement increments)[pk]?.getD 0 = increments[pk]?.getD 0 + keyIncrements us pk := by
    intro us
    induction us with
    | nil => intro increments; rfl
    | cons u us ih =>
      intro increments
      have hcons : keyIncrements (u :: us) pk = keyIncrements [u] pk + keyIncrements us pk := by
        rw [keyIncrements, keyIncrements, keyIncrements, ← List.countP_append]
        rfl
      rw [List.foldl_cons, ih, countIncrement_getD, hcons, Nat.add_assoc]
  rw [nonceIncrements, hfold, ExtTreeMap.getElem?_insert]
  by_cases hpk : t.feePayer.publicKey = pk
  · rw [if_pos (LawfulEqOrd.compare_eq_iff_eq.mpr hpk), if_pos hpk]
    rfl
  · rw [if_neg fun h => hpk (LawfulEqOrd.compare_eq_iff_eq.mp h), if_neg hpk]
    rfl

end ZkappCommand

namespace TransactionLogic

open ZkappCommand

/-- An account update that increments a nonce of the public key does so for the default token. -/
def IncrementsDefault (us : List AccountUpdate) (pk : PublicKey) : Prop :=
  ∀ u ∈ us, u.publicKey = pk → u.incrementNonce = true → u.tokenId = TokenId.default

theorem keyIncrements_eq_iff (us : List AccountUpdate) (pk : PublicKey) :
    updateIncrements us ⟨pk, TokenId.default⟩ ≤ keyIncrements us pk ∧
      (updateIncrements us ⟨pk, TokenId.default⟩ = keyIncrements us pk ↔ IncrementsDefault us pk) := by
  induction us with
  | nil => exact ⟨Nat.le_refl _, fun _ u hu => (List.not_mem_nil hu).elim, fun _ => rfl⟩
  | cons u us ih =>
    obtain ⟨hle, hiff⟩ := ih
    have hcons : IncrementsDefault (u :: us) pk ↔
        (u.publicKey = pk → u.incrementNonce = true → u.tokenId = TokenId.default) ∧ IncrementsDefault us pk := List.forall_mem_cons
    rw [hcons, updateIncrements, keyIncrements, List.countP_cons, List.countP_cons, ← updateIncrements, ← keyIncrements]
    by_cases hcounted : u.publicKey = pk ∧ u.incrementNonce = true
    · by_cases htoken : u.tokenId = TokenId.default
      · have haccount : u.accountId = ⟨pk, TokenId.default⟩ := by rw [AccountUpdate.accountId, hcounted.1, htoken]
        have hiff' := (Nat.add_left_inj (n := 1)).trans hiff
        simp only [haccount, hcounted.2, decide_true, Bool.and_self, if_true, hcounted.1]
        exact ⟨Nat.add_le_add_right hle 1, fun h => ⟨fun _ _ => htoken, hiff'.mp h⟩, fun h => hiff'.mpr h.2⟩
      · have haccount : u.accountId ≠ ⟨pk, TokenId.default⟩ := fun h => htoken (congrArg AccountId.tokenId h)
        simp only [haccount, hcounted.1, hcounted.2, htoken, decide_true, decide_false, Bool.and_self, Bool.false_and, if_true,
          Bool.false_eq_true, if_false]
        constructor
        · omega
        · exact ⟨fun h => by omega, fun h => (h.1 trivial trivial).elim⟩
    · have haccount : (decide (u.accountId = ⟨pk, TokenId.default⟩) && u.incrementNonce) = false := by
        by_cases hpk : u.publicKey = pk
        · have hinc : u.incrementNonce = false := by simpa [hpk] using hcounted
          rw [hinc, Bool.and_false]
        · have hne : u.accountId ≠ ⟨pk, TokenId.default⟩ := fun h => hpk (congrArg AccountId.publicKey h)
          rw [decide_eq_false hne, Bool.false_and]
      have hkey : (decide (u.publicKey = pk) && u.incrementNonce) = false := by
        by_cases hpk : u.publicKey = pk
        · have hinc : u.incrementNonce = false := by simpa [hpk] using hcounted
          rw [hinc, Bool.and_false]
        · rw [decide_eq_false hpk, Bool.false_and]
      rw [haccount, hkey, if_neg Bool.false_ne_true, Nat.add_zero, Nat.add_zero, hiff]
      exact ⟨hle, fun h => ⟨fun hpk hinc => absurd ⟨hpk, hinc⟩ hcounted, h⟩, fun h => h.2⟩

section Applied

variable {config : Config} {globalSlot : GlobalSlot} {stateView : ProtocolStateView} {feeExcess supplyIncrease : Signed}
  {ledger ledger₁ ledger₂ : Ledger} {command : ZkappCommand} {c : ZkappCommandPartiallyApplied} {applied : ZkappCommandApplied}

variable (h₁ : applyZkappCommandFirstPass config globalSlot stateView feeExcess supplyIncrease ledger command = .ok (ledger₁, c))

include h₁

variable (h₂ : applyZkappCommandSecondPass config ledger₁ c = .ok (ledger₂, applied))

include h₂

variable (happlied : applied.status = .applied)

include happlied

theorem nonceOf_applied (accountId : AccountId) :
    nonceOf ledger command.feePayerId = command.applicableAtNonce ∧
      nonceOf ledger₂ accountId = nonceOf ledger accountId +
        UInt32.ofNat ((if command.feePayerId = accountId then 1 else 0) + updateIncrements command.accountUpdates.toList accountId) := by
  have hfirst := applyZkappCommandFirstPass_ok h₁
  obtain ⟨hnonce, hfeePayer⟩ := (TransactionFirstPassed.zkappCommand hfirst :
    TransactionFirstPassed config globalSlot stateView ledger (.zkappCommand command) ledger₁ (.zkappCommand c)).nonceOf
  obtain ⟨_, w, heffects, -, rfl⟩ := (applyZkappCommandSecondPass_ok hfirst h₂).1 happlied
  refine ⟨hfeePayer _ _ rfl, ?_⟩
  rw [heffects.nonceOf, visits_map_accountUpdate, hnonce, UInt32.ofNat_add, UInt32.add_assoc]
  rfl

theorem increments_predicted_iff {pk : PublicKey}
    (hwrap : (nonceOf ledger ⟨pk, TokenId.default⟩).toNat + command.nonceIncrements[pk]?.getD 0 < 2 ^ 32) :
    (nonceOf ledger₂ ⟨pk, TokenId.default⟩).toNat = (nonceOf ledger ⟨pk, TokenId.default⟩).toNat + command.nonceIncrements[pk]?.getD 0 ↔
      IncrementsDefault command.accountUpdates.toList pk := by
  obtain ⟨hle, hiff⟩ := keyIncrements_eq_iff command.accountUpdates.toList pk
  have hfeePayer : (command.feePayerId = (⟨pk, TokenId.default⟩ : AccountId)) ↔ command.feePayer.publicKey = pk :=
    ⟨fun h => congrArg AccountId.publicKey h, fun h => by rw [feePayerId, h]⟩
  rw [nonceIncrements_getD] at hwrap ⊢
  rw [(nonceOf_applied h₁ h₂ happlied _).2, toNat_add_ofNat, ← hiff]
  · simp only [hfeePayer]
    omega
  · simp only [hfeePayer]
    omega

theorem target_predicted_iff
    (hwrap : (nonceOf ledger command.feePayerId).toNat + command.nonceIncrements[command.feePayer.publicKey]?.getD 0 < 2 ^ 32) :
    nonceOf ledger₂ command.feePayerId = command.targetNonceOnSuccess ↔
      IncrementsDefault command.accountUpdates.toList command.feePayer.publicKey := by
  have hincrements : (nonceOf ledger₂ command.feePayerId).toNat = (nonceOf ledger command.feePayerId).toNat +
      command.nonceIncrements[command.feePayer.publicKey]?.getD 0 ↔ IncrementsDefault command.accountUpdates.toList command.feePayer.publicKey :=
    increments_predicted_iff h₁ h₂ happlied hwrap
  have hnonce := (nonceOf_applied h₁ h₂ happlied command.feePayerId).1
  have htarget : command.targetNonceOnSuccess =
      nonceOf ledger command.feePayerId + UInt32.ofNat (command.nonceIncrements[command.feePayer.publicKey]?.getD 0) := by
    rw [nonceIncrements_getD, if_pos rfl, UInt32.ofNat_add, ← UInt32.add_assoc, hnonce]
    rfl
  rw [← hincrements, htarget, ← UInt32.toNat_inj, toNat_add_ofNat hwrap]

omit happlied

omit h₂

omit h₁

/-- **What a command says about nonces comes true when it is applied, exactly if it increments nonces for the default token only**:
the nonce of its fee payer, and the increments of all accounts for the default token. -/
theorem nonces_predicted_iff (config : Config) (globalSlot : GlobalSlot) (stateView : ProtocolStateView) (feeExcess supplyIncrease : Signed)
    (ledger ledger₁ ledger₂ : Ledger) (command : ZkappCommand) (c : ZkappCommandPartiallyApplied) (applied : ZkappCommandApplied)
    (h₁ : applyZkappCommandFirstPass config globalSlot stateView feeExcess supplyIncrease ledger command = .ok (ledger₁, c))
    (h₂ : applyZkappCommandSecondPass config ledger₁ c = .ok (ledger₂, applied)) (happlied : applied.status = .applied)
    (hwrap : ∀ pk, (nonceOf ledger ⟨pk, TokenId.default⟩).toNat + command.nonceIncrements[pk]?.getD 0 < 2 ^ 32) :
    (nonceOf ledger₂ command.feePayerId = command.targetNonceOnSuccess ∧
        ∀ pk, (nonceOf ledger₂ ⟨pk, TokenId.default⟩).toNat =
          (nonceOf ledger ⟨pk, TokenId.default⟩).toNat + command.nonceIncrements[pk]?.getD 0) ↔
      ∀ u ∈ command.accountUpdates.toList, u.incrementNonce = true → u.tokenId = TokenId.default := by
  rw [target_predicted_iff h₁ h₂ happlied (hwrap command.feePayer.publicKey)]
  constructor
  · intro h u hu hinc
    exact (increments_predicted_iff h₁ h₂ happlied (hwrap u.publicKey)).mp (h.2 u.publicKey) u hu rfl hinc
  · intro h
    refine ⟨fun u hu _ hinc => h u hu hinc, fun pk => ?_⟩
    exact (increments_predicted_iff h₁ h₂ happlied (hwrap pk)).mpr fun u hu _ hinc => h u hu hinc

end Applied

/-! ### A key with two tokens -/

theorem nonceIncrements_le (t : ZkappCommand) (pk : PublicKey) : t.nonceIncrements[pk]?.getD 0 ≤ 1 + t.accountUpdates.toList.length := by
  rw [nonceIncrements_getD]
  refine Nat.add_le_add ?_ List.countP_le_length
  split_ifs
  · exact Nat.le_refl 1
  · exact Nat.zero_le 1

/-- The transfer makes no nonce grow but that of its fee payer, as it says. -/
theorem nonces_predicted_iff_transfer : ∃ ledger₁ c ledger₂ applied,
      applyZkappCommandFirstPass sampleConfig 0 sampleView Signed.zero Signed.zero sampleLedger sampleCommand = .ok (ledger₁, c)
        ∧ applyZkappCommandSecondPass sampleConfig ledger₁ c = .ok (ledger₂, applied)
        ∧ nonceOf ledger₂ sampleCommand.feePayerId = sampleCommand.targetNonceOnSuccess ∧ sampleCommand.targetNonceOnSuccess = 1 := by
  obtain ⟨⟨ledger₁, c⟩, h₁, hrest⟩ := Outcome.bind_eq_ok.1 sampleCommand_applied
  obtain ⟨⟨ledger₂, applied⟩, h₂, happlied⟩ := Outcome.bind_eq_ok.1 hrest
  refine ⟨ledger₁, c, ledger₂, applied, h₁, h₂, ?_, by decide⟩
  have hwrap : ∀ pk, (nonceOf sampleLedger ⟨pk, TokenId.default⟩).toNat + sampleCommand.nonceIncrements[pk]?.getD 0 < 2 ^ 32 := by
    intro pk
    rw [nonceOf_sampleLedger]
    have hle := nonceIncrements_le sampleCommand pk
    have hlength : sampleCommand.accountUpdates.toList.length = 2 := by decide
    have hzero : (0 : AccountNonce).toNat = 0 := rfl
    omega
  exact ((nonces_predicted_iff sampleConfig 0 sampleView Signed.zero Signed.zero sampleLedger ledger₁ ledger₂ sampleCommand c applied
    h₁ h₂ (of_decide_eq_true (Outcome.assert_eq_ok.1 happlied)) hwrap).mpr (by decide)).1

/-- The token of the second account. -/
def sampleToken : Nat := sampleDigests.deriveTokenId (sampleId 2)

/-- The ledger with an account of the first key for that token. -/
def tokenLedger : Ledger :=
  sampleLedger.insert ⟨⟨1, false⟩, sampleToken⟩ (Account.create sampleDigests ⟨⟨1, false⟩, sampleToken⟩ 100)

/-- The second account calls the one for its token, which increments its nonce. -/
def tokenCommand : ZkappCommand where
  feePayer := ⟨⟨1, false⟩, 5, none, 0⟩
  accountUpdates :=
    .cons (sampleUpdate 2 ⟨0, .pos⟩ .noneGiven)
      (.cons { sampleUpdate 1 ⟨0, .pos⟩ .signature with
        tokenId := sampleToken, mayUseToken := .parentsOwnToken, incrementNonce := true } .nil .nil) .nil
  memo := ""

theorem tokenCommand_applied : (do
      let (ledger, c) ← applyZkappCommandFirstPass sampleConfig 0 sampleView Signed.zero Signed.zero tokenLedger tokenCommand
      let (ledger, applied) ← applyZkappCommandSecondPass sampleConfig ledger c
      Outcome.assert (applied.status = .applied ∧ nonceOf ledger tokenCommand.feePayerId = 1)) = Outcome.ok () := by
  decide +kernel

/-- It is applied, and the nonce of its fee payer is not the one that it predicts. -/
theorem nonce_not_predicted : ∃ ledger₁ c ledger₂ applied,
      applyZkappCommandFirstPass sampleConfig 0 sampleView Signed.zero Signed.zero tokenLedger tokenCommand = .ok (ledger₁, c)
        ∧ applyZkappCommandSecondPass sampleConfig ledger₁ c = .ok (ledger₂, applied)
        ∧ applied.status = .applied
        ∧ nonceOf ledger₂ tokenCommand.feePayerId = 1 ∧ tokenCommand.targetNonceOnSuccess = 2 := by
  obtain ⟨⟨ledger₁, c⟩, h₁, hrest⟩ := Outcome.bind_eq_ok.1 tokenCommand_applied
  obtain ⟨⟨ledger₂, applied⟩, h₂, happlied⟩ := Outcome.bind_eq_ok.1 hrest
  obtain ⟨hstatus, hnonce⟩ := of_decide_eq_true (Outcome.assert_eq_ok.1 happlied)
  exact ⟨ledger₁, c, ledger₂, applied, h₁, h₂, hstatus, hnonce, by decide⟩

end TransactionLogic

end MinaProtocol
