import MinaProtocol.Base.Precondition
import MinaProtocol.Base.Signed

/-!
# Base.UserCommand

Signed commands, zkApp commands and what the rest of the node reads from them.
Signatures and proofs are left out: they are checked before a command gets here,
and the hash of a command does not depend on them.
-/

namespace MinaProtocol

/-- `Zkapp_command.Call_forest.t`: the first account update, its calls and the rest. -/
inductive CallForest (A : Type) where
  | nil
  | cons (accountUpdate : A) (calls rest : CallForest A)
deriving DecidableEq, Repr

namespace CallForest

variable {A B : Type}

/-- `Call_forest.is_empty`. -/
def isEmpty : CallForest A → Bool
  | .nil => true
  | .cons _ _ _ => false

@[simp] theorem isEmpty_iff {t : CallForest A} : t.isEmpty = true ↔ t = .nil := by
  cases t <;> simp [isEmpty]

/-- `Call_forest.fold`. -/
def fold (f : B → A → B) : B → CallForest A → B
  | init, .nil => init
  | init, .cons u calls rest => fold f (fold f (f init u) calls) rest

/-- `Call_forest.to_list`: the account updates in pre-order. -/
def toList : CallForest A → List A
  | .nil => []
  | .cons u calls rest => u :: (toList calls ++ toList rest)

theorem fold_eq_foldl (f : B → A → B) (init : B) (t : CallForest A) : fold f init t = t.toList.foldl f init := by
  induction t generalizing init with
  | nil => rfl
  | cons u calls rest ihc ihr =>
    rw [fold, ihr, ihc]
    simp [toList, List.foldl_append]

end CallForest

/-- `Zkapp_basic.Set_or_keep.t`. -/
inductive SetOrKeep (A : Type) where
  | set (a : A)
  | keep
deriving DecidableEq, Repr

namespace SetOrKeep

variable {A B : Type}

/-- `Set_or_keep.map`. -/
def map (f : A → B) : SetOrKeep A → SetOrKeep B
  | .keep => .keep
  | .set a => .set (f a)

/-- `Set_or_keep.set_or_keep`. -/
def setOrKeep : SetOrKeep A → A → A
  | .keep, x => x
  | .set y, _ => y

/-- `Set_or_keep.is_set`. -/
def isSet : SetOrKeep A → Bool
  | .set _ => true
  | .keep => false

/-- `Set_or_keep.is_keep`. -/
def isKeep : SetOrKeep A → Bool
  | .keep => true
  | .set _ => false

end SetOrKeep

/-- `Account_update.Authorization_kind.t`. -/
inductive AuthorizationKind where
  | signature
  | proof (verificationKeyHash : Nat)
  | noneGiven
deriving DecidableEq, Repr

/-- `Authorization_kind.to_control_tag`. -/
def AuthorizationKind.toControlTag : AuthorizationKind → ControlTag
  | .noneGiven => .noneGiven
  | .signature => .signature
  | .proof _ => .proof

/-- `Account_update.May_use_token.t`. -/
inductive MayUseToken where
  | no
  | parentsOwnToken
  | inheritFromParent
deriving DecidableEq, Repr

/-- `Account_update.t`: the update, its preconditions and its authorization, of which the
tag stands for the signature or the proof. -/
structure AccountUpdate where
  publicKey : PublicKey
  tokenId : Nat
  appState : Vector (SetOrKeep Nat) 8
  delegate : SetOrKeep PublicKey
  verificationKey : SetOrKeep VerificationKey
  permissions : SetOrKeep Permissions
  zkappUri : SetOrKeep String
  tokenSymbol : SetOrKeep String
  timing : SetOrKeep TimingInfo
  votingFor : SetOrKeep Nat
  balanceChange : Signed
  incrementNonce : Bool
  events : List (List Nat)
  actions : List (List Nat)
  callData : Nat
  networkPrecondition : ProtocolStatePrecondition
  accountPrecondition : AccountPrecondition
  validWhile : Numeric GlobalSlot
  useFullCommitment : Bool
  implicitAccountCreationFee : Bool
  mayUseToken : MayUseToken
  authorizationKind : AuthorizationKind
  authorization : ControlTag
deriving DecidableEq, Repr

namespace AccountUpdate

variable (u : AccountUpdate)

/-- `Account_update.account_id`. -/
def accountId : AccountId := ⟨u.publicKey, u.tokenId⟩

/-- `Account_update.is_proved`. -/
def isProved : Bool :=
  match u.authorizationKind with
  | .proof _ => true
  | .signature => false
  | .noneGiven => false

/-- `Account_update.is_signed`. -/
def isSigned : Bool :=
  match u.authorizationKind with
  | .signature => true
  | .proof _ => false
  | .noneGiven => false

/-- `Account_update.verification_key_hash`. -/
def verificationKeyHash : Option Nat :=
  match u.authorizationKind with
  | .proof vkHash => some vkHash
  | _ => none

end AccountUpdate

/-- `Account_update.Fee_payer.t`. -/
structure FeePayer where
  publicKey : PublicKey
  fee : Nat
  validUntil : Option GlobalSlot
  nonce : AccountNonce
deriving DecidableEq, Repr

/-- `Account_update.of_fee_payer`. -/
def AccountUpdate.ofFeePayer (t : FeePayer) : AccountUpdate where
  publicKey := t.publicKey
  tokenId := TokenId.default
  appState := Vector.replicate 8 .keep
  delegate := .keep
  verificationKey := .keep
  permissions := .keep
  zkappUri := .keep
  tokenSymbol := .keep
  timing := .keep
  votingFor := .keep
  balanceChange := ⟨t.fee, .neg⟩
  incrementNonce := true
  events := []
  actions := []
  callData := 0
  networkPrecondition :=
    { ProtocolStatePrecondition.accept with
      globalSlotSinceGenesis := OrIgnore.check ⟨0, t.validUntil.getD maxValue⟩ }
  accountPrecondition := .ofNonce t.nonce
  validWhile := .ignore
  useFullCommitment := true
  implicitAccountCreationFee := true
  mayUseToken := .no
  authorizationKind := .signature
  authorization := .signature

/-- `Zkapp_command.t`. -/
structure ZkappCommand where
  feePayer : FeePayer
  accountUpdates : CallForest AccountUpdate
  memo : String
deriving DecidableEq, Repr

namespace ZkappCommand

variable (t : ZkappCommand)

/-- `Zkapp_command.fee_payer`. -/
def feePayerId : AccountId := ⟨t.feePayer.publicKey, TokenId.default⟩

/-- `Zkapp_command.all_account_updates`. -/
def allAccountUpdates : CallForest AccountUpdate :=
  .cons (.ofFeePayer t.feePayer) .nil t.accountUpdates

/-- `Zkapp_command.accounts_referenced`. -/
def accountsReferenced : List AccountId :=
  (t.feePayerId :: t.accountUpdates.toList.map AccountUpdate.accountId).eraseDups

/-- `Zkapp_command.weight`. -/
def weight : Nat := 1 + t.accountUpdates.fold (fun acc _ => acc + 1) 0

/-- The key that an account update sets, with the account, added to `acc`. -/
def consVk (acc : List (AccountId × VerificationKey)) (p : AccountUpdate) : List (AccountId × VerificationKey) :=
  match p.verificationKey with
  | .set vk => (p.accountId, vk) :: acc
  | .keep => acc

/-- `Zkapp_command.extract_vks`. -/
def extractVks : List (AccountId × VerificationKey) :=
  t.accountUpdates.fold consVk []

end ZkappCommand

/-- `Signed_command_payload.Body.t`. -/
inductive SignedCommandBody where
  | payment (receiverPk : PublicKey) (amount : Nat)
  | stakeDelegation (newDelegate : PublicKey)
deriving DecidableEq, Repr

/-- `Signed_command_payload.t`. -/
structure SignedCommand where
  fee : Nat
  feePayerPk : PublicKey
  nonce : AccountNonce
  validUntil : GlobalSlot
  body : SignedCommandBody
deriving DecidableEq, Repr

/-- `User_command.t`. -/
inductive UserCommand where
  | signedCommand (c : SignedCommand)
  | zkappCommand (p : ZkappCommand)
deriving DecidableEq, Repr

namespace UserCommand

/-- `User_command.fee`. -/
def fee : UserCommand → Nat
  | .signedCommand c => c.fee
  | .zkappCommand p => p.feePayer.fee

/-- `User_command.fee_token`. -/
def feeToken : UserCommand → Nat
  | .signedCommand _ => TokenId.default
  | .zkappCommand _ => TokenId.default

/-- `User_command.fee_payer`. -/
def feePayer : UserCommand → AccountId
  | .signedCommand c => ⟨c.feePayerPk, TokenId.default⟩
  | .zkappCommand p => ⟨p.feePayer.publicKey, TokenId.default⟩

/-- `User_command.applicable_at_nonce`. -/
def applicableAtNonce : UserCommand → AccountNonce
  | .signedCommand c => c.nonce
  | .zkappCommand p => p.feePayer.nonce

/-- `User_command.expected_target_nonce`. -/
def expectedTargetNonce (t : UserCommand) : AccountNonce := AccountNonce.succ t.applicableAtNonce

/-- `User_command.valid_until`. -/
def validUntil : UserCommand → GlobalSlot
  | .signedCommand c => c.validUntil
  | .zkappCommand p => p.feePayer.validUntil.getD maxValue

/-- `User_command.weight`. -/
def weight : UserCommand → Nat
  | .signedCommand _ => 1
  | .zkappCommand p => p.weight

/-- `User_command.fee_per_wu`. -/
def feePerWu (t : UserCommand) : ℚ := (t.fee : ℚ) / t.weight

/-- `User_command.extract_vks`. -/
def extractVks : UserCommand → List (AccountId × VerificationKey)
  | .signedCommand _ => []
  | .zkappCommand p => p.extractVks

end UserCommand

end MinaProtocol
