import MinaProtocol.MerkleLedger.Batch

/-!
# MerkleLedger.MerkleArray

**The key-value ledger is a Merkle array of accounts**, in every state that it gets into from an empty store. An
index is an integer of 63 bits, so this is so for depths up to 61; `create` allows depths up to 253, but in a
ledger of depth 62 there is no index at all that `of_int_exn` takes.
-/

namespace MinaProtocol.MerkleLedger

open AddressTree Std

variable {Key TokenId Account Hash : Type} {depth : Nat}

/-! ### Runs -/

section Runs

variable [Ord Key] [TransOrd Key] [DecidableEq TokenId]

/-- **The states of a ledger**, with the list that it stands for: after `get_or_create_account`, `set` of an account
at its location, and `set_batch`, from an empty store on. -/
inductive Reachable (inputs : Inputs Key TokenId Account Hash) (depth : Nat) : Database → Entries Key TokenId Account → Prop
  | create {db : Database} (h : Database.create depth = some db) : Reachable inputs depth db []
  | added {db db' : Database} {es : Entries Key TokenId Account} {aid : AccountId Key TokenId} {account : Account}
      {location : Location} (hr : Reachable inputs depth db es)
      (h : db.getOrCreateAccount inputs aid account = some (db', .ok (.added, location))) :
      Reachable inputs depth db' (es ++ [(aid, account)])
  | existed {db db' : Database} {es : Entries Key TokenId Account} {aid : AccountId Key TokenId} {account : Account}
      {location : Location} (hr : Reachable inputs depth db es)
      (h : db.getOrCreateAccount inputs aid account = some (db', .ok (.existed, location))) : Reachable inputs depth db' es
  | failed {db db' : Database} {es : Entries Key TokenId Account} {aid : AccountId Key TokenId} {account : Account}
      {e : DbError} (hr : Reachable inputs depth db es)
      (h : db.getOrCreateAccount inputs aid account = some (db', .error e)) : Reachable inputs depth db' es
  | set {db db' : Database} {es : Entries Key TokenId Account} {i : Nat} {e : AccountId Key TokenId × Account}
      {location : Location} {account : Account} (hr : Reachable inputs depth db es) (hi : es[i]? = some e)
      (hlocation : db.locationOfAccount inputs e.1 = some (some location))
      (h : db.set inputs location account = some db') : Reachable inputs depth db' (es.set i (e.1, account))
  | setBatch {db db' : Database} {es es' : Entries Key TokenId Account} {batch : List (Nat × Account)}
      (hr : Reachable inputs depth db es) (hx : Extends inputs depth es batch es')
      (h : db.setBatch inputs (batchLocations depth batch) = some db') : Reachable inputs depth db' es'

end Runs

/-- **The ledger agrees with a list**, in everything that is read from it, and takes what it should. -/
structure MerkleArray [Ord Key] [TransOrd Key] [DecidableEq TokenId] (inputs : Inputs Key TokenId Account Hash) (depth : Nat)
    (db : Database) (es : Entries Key TokenId Account) : Prop where
  fits : es.length ≤ 2 ^ depth
  nodup : es.ids.Nodup
  numAccounts : db.numAccounts inputs = some (es.length : Int)
  lastFilled : db.lastFilled = some (if es.length = 0 then none else some (locationAt depth (es.length - 1)))
  location_found : ∀ i e, es[i]? = some e → db.locationOfAccount inputs e.1 = some (some (locationAt depth i))
  location_missing : ∀ aid, aid ∉ es.ids → db.locationOfAccount inputs aid = some none
  index_found : ∀ (i : Nat) e, es[i]? = some e → db.indexOfAccountExn inputs e.1 = some (i : Int)
  index_missing : ∀ aid, aid ∉ es.ids → db.indexOfAccountExn inputs aid = none
  get : ∀ i < 2 ^ depth, db.get inputs (locationAt depth i) = some ((es[i]?).map Prod.snd)
  getAtIndex : ∀ i : Nat, db.getAtIndexExn inputs (i : Int) = (es[i]?).map Prod.snd
  tokens : ∀ pk, ∃ tids, db.tokens inputs pk = some tids ∧ ∀ tid, tid ∈ tids ↔ ⟨pk, tid⟩ ∈ es.ids
  owner : ∀ tid, ∃ owner, db.tokenOwner inputs tid = some owner ∧ es.IsOwner inputs tid owner
  hash : ∀ a : Addr, a.length ≤ depth →
    db.getHash inputs a = some (hashAt inputs.merge (es.leaf inputs) (depth - a.length) a)
  root : db.merkleRoot inputs = some (hashAt inputs.merge (es.leaf inputs) depth [])
  path : ∀ i : Nat, i < 2 ^ depth → ∃ path, db.merklePathAtIndexExn inputs (i : Int) = some path ∧
    climb inputs.merge ((es[i]?).elim inputs.emptyAccount fun e => inputs.hashAccount e.2) 0 path =
      hashAt inputs.merge (es.leaf inputs) depth []
  existed : ∀ i e account, es[i]? = some e →
    db.getOrCreateAccount inputs e.1 account = some (db, .ok (.existed, locationAt depth i))
  added : ∀ aid account, aid ∉ es.ids → es.length < 2 ^ depth →
    ∃ db', db.getOrCreateAccount inputs aid account = some (db', .ok (.added, locationAt depth es.length))
  full : ∀ aid account, aid ∉ es.ids → es.length = 2 ^ depth →
    db.getOrCreateAccount inputs aid account = some (db, .error .outOfLeaves)
  set : ∀ i e account, es[i]? = some e → (db.set inputs (locationAt depth i) account).isSome
  setBatch : ∀ batch es', Extends inputs depth es batch es' → (db.setBatch inputs (batchLocations depth batch)).isSome

namespace Represents

variable {inputs : Inputs Key TokenId Account Hash} {depth : Nat} {db db' : Database} {es : Entries Key TokenId Account}
  {aid : AccountId Key TokenId} {account : Account}

/-- An empty store stands for the empty list. -/
theorem create (h : Database.create depth = some db) : Represents inputs depth db [] := by
  unfold Database.create at h
  split at h
  case isFalse => exact absurd h (Option.some_ne_none _).symm
  case isTrue hdepth =>
    rw [← Option.some.inj h]
    refine ⟨rfl, hdepth, Nat.zero_le _, List.nodup_nil, fun i _ => rfl, by simp, fun aid _ => rfl, rfl, ?_, ?_, ?_⟩
    · exact fun pk => ⟨∅, rfl, by simp [Entries.ids]⟩
    · exact fun tid => ⟨none, rfl, by simp [Entries.IsOwner, Entries.ids]⟩
    · intro a ha
      rw [Database.getHash_of_stored_none ha rfl]
      congr 1
      exact (hashAt_of_empty fun p _ => rfl).symm

/-- **The outcomes of `get_or_create_account`.** -/
theorem getOrCreateAccount_cases [DecidableEq TokenId] (hr : Represents inputs depth db es) (aid : AccountId Key TokenId)
    (account : Account) : (∃ i e, es[i]? = some e ∧ e.1 = aid ∧
        db.getOrCreateAccount inputs aid account = some (db, .ok (.existed, locationAt depth i))) ∨
      (aid ∉ es.ids ∧ es.length = 2 ^ depth ∧ db.getOrCreateAccount inputs aid account = some (db, .error .outOfLeaves)) ∨
      ∃ db', aid ∉ es.ids ∧ es.length < 2 ^ depth ∧
        db.getOrCreateAccount inputs aid account = some (db', .ok (.added, locationAt depth es.length)) ∧
        Represents inputs depth db' (es ++ [(aid, account)]) := by
  by_cases hmem : aid ∈ es.ids
  · obtain ⟨e, he, rfl⟩ := List.mem_map.1 hmem
    obtain ⟨i, hi⟩ := List.mem_iff_getElem?.1 he
    exact .inl ⟨i, e, hi, rfl, hr.getOrCreateAccount_existed hi account⟩
  · rcases Nat.lt_or_eq_of_le hr.fits with hroom | hfull
    · obtain ⟨db', hadded, hr'⟩ := hr.getOrCreateAccount_added hmem hroom account
      exact .inr (.inr ⟨db', hmem, hroom, hadded, hr'⟩)
    · exact .inr (.inl ⟨hmem, hfull, hr.getOrCreateAccount_full hmem hfull account⟩)

variable [Ord Key] [TransOrd Key] [DecidableEq TokenId]

/-- **The store of a list** is read as the list. -/
theorem merkleArray [LawfulEqOrd Key] (hdepth : depth ≤ 61) (hr : Represents inputs depth db es) :
    MerkleArray inputs depth db es where
  fits := hr.fits
  nodup := hr.nodup
  numAccounts := hr.numAccounts_eq hdepth
  lastFilled := hr.lastFilled_eq
  location_found := fun _ _ hi => hr.locationOfAccount_found hi
  location_missing := fun _ hnot => hr.locationOfAccount_missing hnot
  index_found := fun _ _ hi => hr.indexOfAccountExn_found hdepth hi
  index_missing := fun _ hnot => hr.indexOfAccountExn_missing hnot
  get := fun _ hi => hr.get_eq hi
  getAtIndex := fun i => hr.getAtIndexExn_eq hdepth i
  tokens := hr.tokens
  owner := hr.owner
  hash := fun _ ha => hr.getHash_eq ha
  root := hr.merkleRoot_eq
  path := fun _ hi => (hr.merklePathAtIndexExn_eq hdepth hi).imp fun _ h => ⟨h.1, h.2.2⟩
  existed := fun _ _ account hi => hr.getOrCreateAccount_existed hi account
  added := fun _ account hnot hroom => (hr.getOrCreateAccount_added hnot hroom account).imp fun _ h => h.1
  full := fun _ account hnot hfull => hr.getOrCreateAccount_full hnot hfull account
  set := by
    intro i e account hi
    obtain ⟨db', hset, -⟩ := hr.set hi account
    exact Option.isSome_iff_exists.2 ⟨db', hset⟩
  setBatch := by
    intro batch es' hx
    obtain ⟨db', hset, -⟩ := hr.setBatch hdepth hx
    exact Option.isSome_iff_exists.2 ⟨db', hset⟩

end Represents

/-- **A step leads from a store of a list to one of the next.** -/
theorem Reachable.represents [Ord Key] [TransOrd Key] [LawfulEqOrd Key] [DecidableEq TokenId]
    {inputs : Inputs Key TokenId Account Hash} {db : Database} {es : Entries Key TokenId Account}
    (hdepth : depth ≤ 61) (hr : Reachable inputs depth db es) : Represents inputs depth db es := by
  induction hr with
  | create h => exact .create h
  | @added db db' es aid account location _ h ih =>
    obtain ⟨i, e, -, -, heq⟩ | ⟨-, -, heq⟩ | ⟨db'', -, -, heq, hr'⟩ := ih.getOrCreateAccount_cases aid account
    · rw [heq] at h
      cases h
    · rw [heq] at h
      cases h
    · rw [heq] at h
      cases h
      exact hr'
  | @existed db db' es aid account location _ h ih =>
    obtain ⟨i, e, -, -, heq⟩ | ⟨-, -, heq⟩ | ⟨db'', -, -, heq, -⟩ := ih.getOrCreateAccount_cases aid account
    · rw [heq] at h
      cases h
      exact ih
    · rw [heq] at h
      cases h
    · rw [heq] at h
      cases h
  | @failed db db' es aid account e _ h ih =>
    obtain ⟨i, e', -, -, heq⟩ | ⟨-, -, heq⟩ | ⟨db'', -, -, heq, -⟩ := ih.getOrCreateAccount_cases aid account
    · rw [heq] at h
      cases h
    · rw [heq] at h
      cases h
      exact ih
    · rw [heq] at h
      cases h
  | @set db db' es i e location account _ hi hlocation h ih =>
    rw [ih.locationOfAccount_found hi] at hlocation
    obtain rfl := Option.some.inj (Option.some.inj hlocation)
    obtain ⟨db'', hset, hr'⟩ := ih.set hi account
    rw [hset] at h
    exact Option.some.inj h ▸ hr'
  | setBatch _ hx h ih =>
    obtain ⟨db'', hset, hr'⟩ := ih.setBatch hdepth hx
    rw [hset] at h
    exact Option.some.inj h ▸ hr'

/-- **The key-value ledger is a Merkle array of accounts**, at every depth whose indexes are integers. -/
theorem reachable_merkleArray [Ord Key] [TransOrd Key] [LawfulEqOrd Key] [DecidableEq TokenId]
    {inputs : Inputs Key TokenId Account Hash} {depth : Nat} {db : Database} {es : Entries Key TokenId Account}
    (hdepth : depth ≤ 61) (hr : Reachable inputs depth db es) : MerkleArray inputs depth db es :=
  (hr.represents hdepth).merkleArray hdepth

/-! ### A ledger of flags -/

/-- A flag as a byte. -/
def flagByte (b : Bool) : UInt8 := if b then 1 else 0

theorem flagByte_eq_one (b : Bool) : decide (flagByte b = 1) = b := by
  cases b <;> rfl

theorem flagByte_inj (b b' : Bool) (h : [flagByte b] = [flagByte b']) : b = b' := by
  rw [← flagByte_eq_one b, ← flagByte_eq_one b', (List.cons.inj h).1]

/-- An account of flags: its id and one more. -/
abbrev FlagAccount := AccountId Bool Bool × Bool

def writeFlagAccount (account : FlagAccount) : Bytes :=
  [flagByte account.1.publicKey, flagByte account.1.tokenId, flagByte account.2]

def readFlagAccount : Bytes → Option FlagAccount
  | [pk, tid, flag] => some (⟨pk = 1, tid = 1⟩, flag = 1)
  | _ => none

theorem readFlagAccount_write (account : FlagAccount) : readFlagAccount (writeFlagAccount account) = some account := by
  simp [readFlagAccount, writeFlagAccount, flagByte_eq_one]

def writeFlagSet (tids : Finset Bool) : Bytes := [flagByte (true ∈ tids), flagByte (false ∈ tids)]

def readFlagSet : Bytes → Option (Finset Bool)
  | [t, f] => some (Finset.univ.filter fun b => if b then t = 1 else f = 1)
  | _ => none

theorem readFlagSet_write (tids : Finset Bool) : readFlagSet (writeFlagSet tids) = some tids := by
  revert tids
  decide

def readFlagId : Bytes → Option (AccountId Bool Bool)
  | [pk, tid] => some ⟨pk = 1, tid = 1⟩
  | _ => none

theorem readFlagId_write (aid : AccountId Bool Bool) :
    readFlagId [flagByte aid.publicKey, flagByte aid.tokenId] = some aid := by
  simp [readFlagId, flagByte_eq_one]

theorem flagByte_plain (b : Bool) : 33 ∉ [flagByte b] := by
  cases b <;> decide

theorem flagByte_ne_word (b : Bool) {c d : UInt8} {word : Bytes} : [flagByte b] ≠ c :: d :: word := by
  simp

/-- A ledger whose keys, token ids and accounts are flags. -/
def flagInputs : Inputs Bool Bool FlagAccount Bytes where
  identifier := Prod.fst
  deriveTokenId := fun aid => aid.publicKey
  hashAccount := writeFlagAccount
  emptyAccount := []
  merge := fun height l r => UInt8.ofNat height :: (l ++ r)
  binAccount := ⟨writeFlagAccount, readFlagAccount, readFlagAccount_write⟩
  binHash := ⟨id, some, fun _ => rfl⟩
  binTokenSet := ⟨writeFlagSet, readFlagSet, readFlagSet_write⟩
  binAccountId := ⟨fun aid => [flagByte aid.publicKey, flagByte aid.tokenId], readFlagId, readFlagId_write⟩
  sexpOfKey := fun pk => [flagByte pk]
  sexpOfTokenId := fun tid => [flagByte tid]
  sexpOfKey_inj := flagByte_inj
  sexpOfTokenId_inj := flagByte_inj
  sexpOfKey_plain := flagByte_plain
  sexpOfKey_ne_tid := fun pk => flagByte_ne_word pk
  sexpOfKey_ne_tids := fun pk => flagByte_ne_word pk
  lslBeyond := fun n _ => n

/-- An account, made in an empty ledger. -/
def flagAccount : FlagAccount := (⟨true, true⟩, false)

theorem exists_reachable (inputs : Inputs Bool Bool FlagAccount Hash) (hdepth : depth < 254) :
    ∃ db, Reachable inputs depth db [(flagAccount.1, flagAccount)] ∧
      Represents inputs depth db [(flagAccount.1, flagAccount)] := by
  have hcreate : Database.create depth = some ⟨fun _ => none, depth⟩ := if_pos hdepth
  have hempty : Represents inputs depth ⟨fun _ => none, depth⟩ [] := .create hcreate
  have hnot : flagAccount.1 ∉ Entries.ids ([] : Entries Bool Bool FlagAccount) := by simp [Entries.ids]
  obtain ⟨db, hadded, hr⟩ := hempty.getOrCreateAccount_added hnot (Nat.two_pow_pos depth) flagAccount
  exact ⟨db, (Reachable.create hcreate).added hadded, hr⟩

theorem reachable_flagAccount (hdepth : depth < 254) :
    ∃ db, Reachable flagInputs depth db [(flagAccount.1, flagAccount)] ∧
      Represents flagInputs depth db [(flagAccount.1, flagAccount)] :=
  exists_reachable flagInputs hdepth

/-- A ledger of two leaves with an account. -/
theorem reachable_merkleArray_flagAccount : ∃ db, Reachable flagInputs 1 db [(flagAccount.1, flagAccount)] ∧
      MerkleArray flagInputs 1 db [(flagAccount.1, flagAccount)] := by
  obtain ⟨db, hreachable, -⟩ := reachable_flagAccount (show 1 < 254 by decide)
  exact ⟨db, hreachable, reachable_merkleArray (by decide) hreachable⟩

/-- **In a ledger of depth 62** no account is found by its index. -/
theorem merkleArray_fails_62 :
    ∃ db, Reachable flagInputs 62 db [(flagAccount.1, flagAccount)] ∧ db.getAtIndexExn flagInputs 0 = none ∧
      ¬MerkleArray flagInputs 62 db [(flagAccount.1, flagAccount)] := by
  obtain ⟨db, hreachable, hr⟩ := reachable_flagAccount (show 62 < 254 by decide)
  have hnone : db.getAtIndexExn flagInputs 0 = none := by
    rw [Database.getAtIndexExn, hr.depth_eq, Addr.ofIntExn_62 (by norm_num)]
    rfl
  refine ⟨db, hreachable, hnone, fun harray => ?_⟩
  have hget := harray.getAtIndex 0
  rw [Nat.cast_zero, hnone] at hget
  exact absurd hget (by simp)

end MinaProtocol.MerkleLedger
