import MinaProtocol.Base.Currency

/-!
# Base.Account

Account ids with their order, permissions, vesting schedules and accounts, with
the parts of `account.ml` that say what an account may spend.
-/

namespace MinaProtocol

/-- `Public_key.Compressed.t`. -/
structure PublicKey where
  x : Nat
  isOdd : Bool
deriving DecidableEq, Repr

/-- `Public_key.Compressed.empty`. -/
def PublicKey.empty : PublicKey := ⟨0, false⟩

namespace PublicKey

/-- What `Public_key.Compressed.compare` compares, in its order. -/
def key (pk : PublicKey) : ℕ ×ₗ Bool := toLex (pk.x, pk.isOdd)

theorem key_injective : Function.Injective key := by
  intro pk pk' h
  obtain ⟨x, isOdd⟩ := pk
  obtain ⟨x', isOdd'⟩ := pk'
  unfold key at h
  rw [toLex_inj, Prod.mk.injEq] at h
  obtain ⟨rfl, rfl⟩ := h
  rfl

instance instLinearOrder : LinearOrder PublicKey := LinearOrder.lift' key key_injective

instance instLawfulEqOrd : Std.LawfulEqOrd PublicKey := ⟨compare_eq_iff_eq.1⟩

instance instTransOrd : Std.TransOrd PublicKey := inferInstance

end PublicKey

/-- `Token_id.default`. -/
def TokenId.default : Nat := 1

/-- `Account_id.t`. -/
structure AccountId where
  publicKey : PublicKey
  tokenId : Nat
deriving DecidableEq, Repr

namespace AccountId

/-- What `Account_id.compare` compares, in its order. -/
def key (a : AccountId) : ℕ ×ₗ Bool ×ₗ ℕ :=
  toLex (a.publicKey.x, toLex (a.publicKey.isOdd, a.tokenId))

theorem key_injective : Function.Injective key := by
  rintro ⟨⟨x, o⟩, t⟩ ⟨⟨x', o'⟩, t'⟩ h
  unfold key at h
  rw [toLex_inj, Prod.mk.injEq, toLex_inj, Prod.mk.injEq] at h
  obtain ⟨rfl, rfl, rfl⟩ := h
  rfl

instance : LinearOrder AccountId := LinearOrder.lift' key key_injective

instance : Std.LawfulEqOrd AccountId := ⟨compare_eq_iff_eq.1⟩

-- a constant of its own, so that the definitions over maps do not depend on how it is found
instance : Std.TransOrd AccountId := inferInstance

end AccountId

/-- `Control.Tag.t`. -/
inductive ControlTag where
  | proof
  | signature
  | noneGiven
deriving DecidableEq, Repr

/-- `Permissions.Auth_required.t`. -/
inductive AuthRequired where
  | none
  | either
  | proof
  | signature
  | impossible
deriving DecidableEq, Repr

/-- `Permissions.Auth_required.check`. -/
def AuthRequired.check : AuthRequired → ControlTag → Bool
  | .impossible, _ => false
  | .none, _ => true
  | .proof, .proof => true
  | .signature, .signature => true
  | .either, .proof => true
  | .either, .signature => true
  | .signature, .proof => false
  | .proof, .signature => false
  | .proof, .noneGiven => false
  | .signature, .noneGiven => false
  | .either, .noneGiven => false

/-- `Auth_required.verification_key_perm_fallback_to_signature_with_older_version`. -/
def AuthRequired.verificationKeyPermFallbackToSignatureWithOlderVersion : AuthRequired → AuthRequired
  | .impossible => .signature
  | .proof => .signature
  | t => t

/-- `Permissions.t`. -/
structure Permissions where
  editState : AuthRequired
  access : AuthRequired
  send : AuthRequired
  receive : AuthRequired
  setDelegate : AuthRequired
  setPermissions : AuthRequired
  setVerificationKey : AuthRequired × UInt32
  setZkappUri : AuthRequired
  editActionState : AuthRequired
  setTokenSymbol : AuthRequired
  incrementNonce : AuthRequired
  setVotingFor : AuthRequired
  setTiming : AuthRequired
deriving DecidableEq, Repr

/-- `Txn_version.current`. -/
def TxnVersion.current : UInt32 := 2

/-- `Txn_version.older_than_current`. -/
def TxnVersion.olderThanCurrent (t : UInt32) : Bool := t < TxnVersion.current

/-- `Permissions.user_default`. -/
def Permissions.userDefault : Permissions where
  editState := .signature
  send := .signature
  receive := .none
  setDelegate := .signature
  setPermissions := .signature
  setVerificationKey := (.signature, TxnVersion.current)
  setZkappUri := .signature
  editActionState := .signature
  setTokenSymbol := .signature
  incrementNonce := .signature
  setVotingFor := .signature
  setTiming := .signature
  access := .none

/-- The schedule of a timed account. -/
structure TimingInfo where
  initialMinimumBalance : Nat
  cliffTime : GlobalSlot
  cliffAmount : Nat
  vestingPeriod : GlobalSlot
  vestingIncrement : Nat
deriving DecidableEq, Repr

/-- `Account_timing.t`. -/
inductive AccountTiming where
  | untimed
  | timed (t : TimingInfo)
deriving DecidableEq, Repr

/-- `Verification_key_wire.t`: a key with its hash, which stands for it here. -/
abbrev VerificationKey := Nat

/-- `Zkapp_account.t`. -/
structure ZkappAccount where
  appState : Vector Nat 8
  verificationKey : Option VerificationKey
  zkappVersion : UInt32
  actionState : Vector Nat 5
  lastActionSlot : GlobalSlot
  provedState : Bool
  zkappUri : String
deriving DecidableEq, Repr

/-- `Account.t`. -/
structure Account where
  publicKey : PublicKey
  tokenId : Nat
  tokenSymbol : String
  balance : Nat
  nonce : AccountNonce
  receiptChainHash : Nat
  delegate : Option PublicKey
  votingFor : Nat
  timing : AccountTiming
  permissions : Permissions
  zkapp : Option ZkappAccount
deriving DecidableEq, Repr

namespace Account

variable (account : Account)

/-- `Account.identifier`. -/
def identifier : AccountId := ⟨account.publicKey, account.tokenId⟩

/-- `Account.min_balance_at_slot`. -/
def minBalanceAtSlot (globalSlot : GlobalSlot) (t : TimingInfo) : Nat :=
  if globalSlot < t.cliffTime then t.initialMinimumBalance
  -- if the vesting period is zero then everything vests immediately at the cliff
  else if t.vestingPeriod = 0 then 0
  else
    match Amount.sub t.initialMinimumBalance t.cliffAmount with
    | none => 0
    | some minBalancePastCliff =>
      let numPeriods := ((globalSlot - t.cliffTime) / t.vestingPeriod).toNat
      -- the decrement is capped where it would overflow
      let vestingDecrement :=
        if numPeriods ≠ 0 ∧ (2 ^ 64 - 1) / numPeriods < t.vestingIncrement then 2 ^ 64 - 1
        else numPeriods * t.vestingIncrement
      match Amount.sub minBalancePastCliff vestingDecrement with
      | none => 0
      | some amt => amt

/-- `Account.liquid_balance_at_slot`: `none` where it raises, because the account
holds less than its minimum balance. -/
def liquidBalanceAtSlot (globalSlot : GlobalSlot) (account : Account) : Option Nat :=
  match account.timing with
  | .untimed => some account.balance
  | .timed t => Amount.sub account.balance (minBalanceAtSlot globalSlot t)

/-- `Account.has_permission_to_send`. -/
def hasPermissionToSend : Bool :=
  account.permissions.access.check .signature && account.permissions.send.check .signature

/-- `Account.has_permission_to_receive`. -/
def hasPermissionToReceive : Bool :=
  account.permissions.access.check .noneGiven && account.permissions.receive.check .noneGiven

/-- `Account.has_permission_to_set_delegate`. -/
def hasPermissionToSetDelegate : Bool :=
  account.permissions.access.check .signature && account.permissions.setDelegate.check .signature

/-- `Account.has_permission_to_increment_nonce`. -/
def hasPermissionToIncrementNonce : Bool :=
  account.permissions.access.check .signature && account.permissions.incrementNonce.check .signature

end Account

end MinaProtocol
