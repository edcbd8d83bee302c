import Mathlib
import MinaProtocol.MerkleLedger.Location

/-!
# MerkleLedger.Database

The ledger in a key-value store (`database.ml`), with the part that it shares with other ledgers (`util.ml`).
Under different keys the store has the accounts, the hashes of inner nodes, where each account is, which
tokens each public key has accounts of, which account owns each token, and where the last account is. A hash
that is not there is that of a subtree without accounts.

`none` is an exception. Maps are written in the order of their keys.
-/

namespace MinaProtocol.MerkleLedger

open AddressTree Std

/-- How values are written as bytes; what is written is read back. -/
structure Bin (A : Type) where
  write : A → Bytes
  read : Bytes → Option A
  read_write : ∀ a, read (write a) = some a

/-- `Account_id.t`. -/
structure AccountId (Key TokenId : Type) where
  publicKey : Key
  tokenId : TokenId
deriving DecidableEq

/-- What the ledger is made over. The written form of a key, as that of a public key in base 58, has no
exclamation mark and is none of the words that other keys of the store begin with. -/
structure Inputs (Key TokenId Account Hash : Type) where
  identifier : Account → AccountId Key TokenId
  deriveTokenId : AccountId Key TokenId → TokenId
  hashAccount : Account → Hash
  emptyAccount : Hash
  merge : Nat → Hash → Hash → Hash
  binAccount : Bin Account
  binHash : Bin Hash
  binTokenSet : Bin (Finset TokenId)
  binAccountId : Bin (AccountId Key TokenId)
  sexpOfKey : Key → Bytes
  sexpOfTokenId : TokenId → Bytes
  sexpOfKey_inj : ∀ k k', sexpOfKey k = sexpOfKey k' → k = k'
  sexpOfTokenId_inj : ∀ t t', sexpOfTokenId t = sexpOfTokenId t' → t = t'
  sexpOfKey_plain : ∀ k, 33 ∉ sexpOfKey k
  sexpOfKey_ne_tid : ∀ k, sexpOfKey k ≠ [116, 105, 100]
  sexpOfKey_ne_tids : ∀ k, sexpOfKey k ≠ [116, 105, 100, 115]
  /-- a shift by more bits than an integer has -/
  lslBeyond : Int → Nat → Int

/-- `Database.t`, the store being a map on byte strings. -/
structure Database where
  kvdb : Bytes → Option Bytes
  depth : Nat

/-- `Db_error.t`. -/
inductive DbError where
  | accountLocationNotFound
  | outOfLeaves
  | malformedDatabase
deriving DecidableEq

section Database

variable {Key TokenId Account Hash : Type}

namespace Database

/-- `create`, which asserts that the depth fits a byte. -/
def create (depth : Nat) : Option Database := if depth < 0xfe then some ⟨fun _ => none, depth⟩ else none

variable (mdb : Database)

/-- `Kvdb.set`. -/
def kvSet (key data : Bytes) : Database := { mdb with kvdb := Function.update mdb.kvdb key (some data) }

/-- `Kvdb.set_batch`. -/
def kvSetBatch (keyDataPairs : List (Bytes × Bytes)) : Database :=
  keyDataPairs.foldl (fun mdb p => mdb.kvSet p.1 p.2) mdb

/-- `get_raw`. -/
def getRaw (location : Location) : Option (Option Bytes) :=
  (location.serialize mdb.depth).map mdb.kvdb

/-- `set_raw`. -/
def setRaw (location : Location) (bin : Bytes) : Option Database :=
  (location.serialize mdb.depth).map fun key => mdb.kvSet key bin

/-- `serialize_location` in `set_raw_batch`. -/
def serializePair (p : Location × Bytes) : Option (Bytes × Bytes) :=
  (p.1.serialize mdb.depth).map fun key => (key, p.2)

/-- `set_raw_batch`. -/
def setRawBatch (locationsBins : List (Location × Bytes)) : Option Database :=
  (locationsBins.mapM mdb.serializePair).map mdb.kvSetBatch

/-- The value that is read, if there is one. -/
def readBin {A : Type} (bin : Bin A) : Option Bytes → Option (Option A)
  | none => some none
  | some v => (bin.read v).map some

/-- `get_bin`. -/
def getBin {A : Type} (bin : Bin A) (mdb : Database) (location : Location) : Option (Option A) :=
  (mdb.getRaw location).bind (readBin bin)

/-- `set_bin`. -/
def setBin {A : Type} (bin : Bin A) (mdb : Database) (location : Location) (v : A) : Option Database :=
  mdb.setRaw location (bin.write v)

/-- `set_bin_batch`. -/
def setBinBatch {A : Type} (bin : Bin A) (mdb : Database) (locationsVs : List (Location × A)) : Option Database :=
  mdb.setRawBatch (locationsVs.map fun p => (p.1, bin.write p.2))

variable (inputs : Inputs Key TokenId Account Hash)

/-- `get`. -/
def get (mdb : Database) : Location → Option (Option Account)
  | .account path => getBin inputs.binAccount mdb (.account path)
  | _ => none

/-- `get_hash`, of a hash location. -/
def getHash (mdb : Database) (path : Addr) : Option Hash :=
  (getBin inputs.binHash mdb (.hash path)).map fun hash =>
    hash.getD (emptyAt inputs.merge inputs.emptyAccount (Addr.height mdb.depth path))

/-! ### Where accounts are -/

/-- `Account_location.build_location`. -/
def accountIdLocation (accountId : AccountId Key TokenId) : Location :=
  .generic (36 :: inputs.sexpOfKey accountId.publicKey ++ 33 :: inputs.sexpOfTokenId accountId.tokenId)

/-- `last_location_key`: `last_account_location`. -/
def lastLocationKey : Location :=
  .generic [108, 97, 115, 116, 95, 97, 99, 99, 111, 117, 110, 116, 95, 108, 111, 99, 97, 116, 105, 111, 110]

/-- The location that was read, or what is wrong. -/
def parseLocation (missing : DbError) : Option Bytes → Option (Except DbError Location)
  | none => some (.error missing)
  | some locationBin =>
    (Location.parse mdb.depth locationBin).map fun
      | .ok location => .ok location
      | .error _ => .error .malformedDatabase

/-- `Account_location.get`. -/
def getLocation (mdb : Database) (accountId : AccountId Key TokenId) : Option (Except DbError Location) :=
  (mdb.getRaw (accountIdLocation inputs accountId)).bind (mdb.parseLocation .accountLocationNotFound)

/-- `Account_location.set`. -/
def setLocation (mdb : Database) (accountId : AccountId Key TokenId) (location : Location) : Option Database := do
  let bin ← location.serialize mdb.depth
  mdb.setRaw (accountIdLocation inputs accountId) bin

/-- The location after the last one, in `increment_last_account_location`. -/
def nextLocation : Option Bytes → Option (Except DbError Location)
  | none => some (.ok (.account (List.replicate mdb.depth false)))
  | some prevLocation => do
    match ← Location.parse mdb.depth prevLocation with
    | .error _ => some (.error .malformedDatabase)
    | .ok prevAccountLocation =>
      match ← prevAccountLocation.next with
      | none => some (.error .outOfLeaves)
      | some nextAccountLocation => some (.ok nextAccountLocation)

/-- `increment_last_account_location`. -/
def incrementLastAccountLocation : Option (Database × Except DbError Location) := do
  let prevLocation ← mdb.getRaw lastLocationKey
  match ← mdb.nextLocation prevLocation with
  | .error e => some (mdb, .error e)
  | .ok location => do
    let bin ← location.serialize mdb.depth
    let mdb ← mdb.setRaw lastLocationKey bin
    some (mdb, .ok location)

/-- `allocate`. -/
def allocate (mdb : Database) (accountId : AccountId Key TokenId) : Option (Database × Except DbError Location) := do
  match ← mdb.incrementLastAccountLocation with
  | (mdb, .error e) => some (mdb, .error e)
  | (mdb, .ok location) => do
    let mdb ← setLocation inputs mdb accountId location
    some (mdb, .ok location)

/-- `last_location`. -/
def lastLocation : Option (Option Location) := do
  match ← mdb.getRaw lastLocationKey with
  | none => some none
  | some data =>
    match ← Location.parse mdb.depth data with
    | .ok location => some (some location)
    | .error _ => some none

/-- `location_of_account`. -/
def locationOfAccount (mdb : Database) (accountId : AccountId Key TokenId) : Option (Option Location) :=
  (getLocation inputs mdb accountId).map fun
    | .error _ => none
    | .ok location => some location

/-- `last_filled`. -/
def lastFilled : Option (Option Location) := mdb.lastLocation

/-- `num_accounts`. -/
def numAccounts (mdb : Database) : Option Int := do
  match ← mdb.lastLocation with
  | none => some 0
  | some location => do
    let addr ← location.toPath
    some (Addr.wrap63 (Addr.toInt inputs.lslBeyond addr + 1))

/-- `get_at_index_exn`. -/
def getAtIndexExn (mdb : Database) (index : Int) : Option Account := do
  let addr ← Addr.ofIntExn inputs.lslBeyond mdb.depth index
  (← get inputs mdb (.account addr))

/-- `index_of_account_exn`. -/
def indexOfAccountExn (mdb : Database) (accountId : AccountId Key TokenId) : Option Int := do
  let location ← (← locationOfAccount inputs mdb accountId)
  let addr ← location.toPath
  some (Addr.toInt inputs.lslBeyond addr)

/-! ### Tokens -/

/-- `Tokens.Owner.build_location`. -/
def ownerLocation (tokenId : TokenId) : Location :=
  .generic ([36, 116, 105, 100, 33] ++ inputs.sexpOfTokenId tokenId)

/-- `Tokens.build_location`. -/
def tokensLocation (pk : Key) : Location :=
  .generic ([36, 116, 105, 100, 115, 33] ++ inputs.sexpOfKey pk)

/-- `token_owner`. -/
def tokenOwner (mdb : Database) (tokenId : TokenId) : Option (Option (AccountId Key TokenId)) :=
  getBin inputs.binAccountId mdb (ownerLocation inputs tokenId)

/-- `Tokens.Owner.set`. -/
def setOwner (mdb : Database) (tokenId : TokenId) (accountId : AccountId Key TokenId) : Option Database :=
  setBin inputs.binAccountId mdb (ownerLocation inputs tokenId) accountId

/-- `tokens`. -/
def tokens (mdb : Database) (pk : Key) : Option (Finset TokenId) :=
  (getBin inputs.binTokenSet mdb (tokensLocation inputs pk)).map fun tids => tids.getD ∅

/-- `Tokens.add`: the set is not empty, so it is written. -/
def addToken [DecidableEq TokenId] (mdb : Database) (pk : Key) (tid : TokenId) : Option Database := do
  let tids ← tokens inputs mdb pk
  setBin inputs.binTokenSet mdb (tokensLocation inputs pk) (insert tid tids)

/-- `Tokens.add_account`. -/
def addAccount [DecidableEq TokenId] (mdb : Database) (aid : AccountId Key TokenId) : Option Database := do
  let mdb ← addToken inputs mdb aid.publicKey aid.tokenId
  setOwner inputs mdb (inputs.deriveTokenId aid) aid

/-- `Tokens.add_batch_create`. -/
def addBatchCreate [Ord Key] [TransOrd Key] [DecidableEq TokenId] (mdb : Database)
    (pksToTokens : ExtTreeMap Key (Finset TokenId)) : Option (List (Bytes × Bytes)) :=
  pksToTokens.toList.mapM fun p => do
    let tids ← tokens inputs mdb p.1
    mdb.serializePair (tokensLocation inputs p.1, inputs.binTokenSet.write (tids ∪ p.2))

/-! ### Hashes -/

/-- What is known of a node while the hashes of its children are gone through. -/
inductive Known (Hash : Type) where
  | oneSide (path : Addr) (hash : Hash)
  | hash (hash : Hash)

/-- `order_siblings`. -/
def orderSiblings {A : Type} : Addr → A → A → Option (A × A)
  | [], _, _ => none
  | false :: _, base, sibling => some (base, sibling)
  | true :: _, base, sibling => some (sibling, base)

/-- The fold of `parents_to_children`. -/
def addChild (height : Nat) (parents : ExtTreeMap Addr (Known Hash))
    (p : Addr × Hash) : Option (ExtTreeMap Addr (Known Hash)) := do
  let parent ← Addr.parent p.1
  match parents[parent]? with
  | some (.oneSide sibling siblingHash) =>
    if p.1 = sibling then none
    else
      (orderSiblings p.1 p.2 siblingHash).map fun hashes =>
        parents.insert parent (.hash (inputs.merge height hashes.1 hashes.2))
  | some (.hash _) => none
  | none => some (parents.insert parent (.oneSide p.1 p.2))

/-- The hash of a parent, for which the ledger is asked for the sibling where it is not known. -/
def parentHash (t : Database) (height : Nat) : Known Hash → Option Hash
  | .oneSide path hash => do
    let sibling ← Addr.sibling path
    let siblingHash ← getHash inputs t sibling
    (orderSiblings path hash siblingHash).map fun hashes => inputs.merge height hashes.1 hashes.2
  | .hash hash => some hash

/-- `compute_affected_locations_and_hashes`, on hash locations; each call is a level further up. -/
def computeAffectedLocationsAndHashes (inputs : Inputs Key TokenId Account Hash) (t : Database) :
    Nat → List (Addr × Hash) → List (Addr × Hash) → Option (List (Addr × Hash))
  | 0, _, _ => none
  | _ + 1, [], acc => some acc
  | levels + 1, p :: ps, acc =>
    let height := Addr.height t.depth p.1
    if height < t.depth then do
      let parents ← (p :: ps).foldlM (addChild inputs height) ∅
      let hashes ← parents.toList.mapM fun q => (parentHash inputs t height q.2).map fun hash => (q.1, hash)
      computeAffectedLocationsAndHashes inputs t levels hashes.reverse (hashes ++ acc)
    else some acc

/-- `set_hash_batch`. -/
def setHashBatch (t : Database) (locationsAndHashes : List (Addr × Hash)) : Option Database := do
  let affected ← computeAffectedLocationsAndHashes inputs t (t.depth + 1) locationsAndHashes locationsAndHashes
  setBinBatch inputs.binHash t (affected.map fun p => (.hash p.1, p.2))

/-- `merkle_root`. -/
def merkleRoot (mdb : Database) : Option Hash := getHash inputs mdb []

/-- `merkle_path`, of an account or of the hash at its address: the siblings, with the directions to the node. -/
def merklePath (mdb : Database) (path : Addr) : Option (List (Hash × Bool)) :=
  (siblings path).mapM fun s => (getHash inputs mdb s.1).map fun hash => (hash, s.2)

/-- `merkle_path_at_index_exn`. -/
def merklePathAtIndexExn (mdb : Database) (index : Int) : Option (List (Hash × Bool)) := do
  let addr ← Addr.ofIntExn inputs.lslBeyond mdb.depth index
  merklePath inputs mdb addr

/-! ### Writing accounts -/

/-- `set`. -/
def set (inputs : Inputs Key TokenId Account Hash) (mdb : Database) (location : Location) (account : Account) :
    Option Database := do
  let mdb ← setBin inputs.binAccount mdb location account
  let path ← location.toPath
  setHashBatch inputs mdb [(path, inputs.hashAccount account)]

inductive AddedOrExisted where
  | added
  | existed
deriving DecidableEq

/-- `get_or_create_account`. -/
def getOrCreateAccount [DecidableEq TokenId] (mdb : Database) (accountId : AccountId Key TokenId) (account : Account) :
    Option (Database × Except DbError (AddedOrExisted × Location)) := do
  match ← getLocation inputs mdb accountId with
  | .error .accountLocationNotFound =>
    match ← allocate inputs mdb accountId with
    | (mdb, .ok location) => do
      let mdb ← set inputs mdb location account
      let mdb ← addAccount inputs mdb accountId
      some (mdb, .ok (.added, location))
    | (mdb, .error e) => some (mdb, .error e)
  | .error e => some (mdb, .error e)
  | .ok location => some (mdb, .ok (.existed, location))

/-- `account_tokens` in `set_location_batch`. -/
def accountTokens [Ord Key] [TransOrd Key] [DecidableEq TokenId] (aids : List (AccountId Key TokenId)) :
    ExtTreeMap Key (Finset TokenId) :=
  aids.foldl (fun map aid => map.insert aid.publicKey (insert aid.tokenId (map[aid.publicKey]?.getD ∅))) ∅

/-- `set_location_batch`. -/
def setLocationBatch [Ord Key] [TransOrd Key] [DecidableEq TokenId]
    (lastLocation : Location) (mdb : Database) (keyToLocationList : List (AccountId Key TokenId × Location)) :
    Option Database := do
  let lastBin ← lastLocation.serialize mdb.depth
  let last ← mdb.serializePair (lastLocationKey, lastBin)
  let tokenChanges ← addBatchCreate inputs mdb (accountTokens (keyToLocationList.map Prod.fst))
  let locationChanges ← keyToLocationList.mapM fun p => do
    let bin ← p.2.serialize mdb.depth
    mdb.serializePair (accountIdLocation inputs p.1, bin)
  some (mdb.kvSetBatch (last :: (tokenChanges ++ locationChanges)))

/-- `set_raw_account_batch`. -/
def setRawAccountBatch (mdb : Database) (addressesAndAccounts : List (Location × Account)) : Option Database := do
  let mdb ← setBinBatch inputs.binAccount mdb addressesAndAccounts
  let tokenOwnerChanges ← addressesAndAccounts.mapM fun p =>
    let aid := inputs.identifier p.2
    mdb.serializePair (ownerLocation inputs (inputs.deriveTokenId aid), inputs.binAccountId.write aid)
  some (mdb.kvSetBatch tokenOwnerChanges)

/-- The index of a location. -/
def indexOf (location : Location) : Option Int :=
  location.toPath.map (Addr.toInt inputs.lslBeyond)

/-- `compute_last_index`. -/
def computeLastIndex (first : Location) (rest : List Location) : Option Int := do
  let index ← indexOf inputs first
  let indices ← rest.mapM (indexOf inputs)
  some (indices.foldl max index)

/-- `set_raw_addresses`. -/
def setRawAddresses [Ord Key] [TransOrd Key] [DecidableEq TokenId] (t : Database) :
    List (Location × Account) → Option Database
  | [] => some t
  | p :: ps => do
    let keyLocations := (p :: ps).map fun q => (inputs.identifier q.2, q.1)
    let lastFilled ← t.lastFilled
    let currentLastIndex ← lastFilled.mapM (indexOf inputs)
    let foreignLastIndex ← computeLastIndex inputs p.1 (ps.map Prod.fst)
    let maxIndexInAllAccounts := currentLastIndex.elim foreignLastIndex fun maxIndex => max maxIndex foreignLastIndex
    let lastAddr ← Addr.ofIntExn inputs.lslBeyond t.depth maxIndexInAllAccounts
    setLocationBatch inputs (.account lastAddr) t keyLocations

/-- The hash location of an account, with its hash, in `set_batch`. -/
def accountHash (p : Location × Account) : Option (Addr × Hash) :=
  p.1.toPath.map fun path => (path, inputs.hashAccount p.2)

/-- `set_batch`. -/
def setBatch [Ord Key] [TransOrd Key] [DecidableEq TokenId] (t : Database)
    (locationsAndAccounts : List (Location × Account)) : Option Database := do
  let t ← setRawAddresses inputs t locationsAndAccounts
  let t ← setRawAccountBatch inputs t locationsAndAccounts
  let hashes ← locationsAndAccounts.mapM (accountHash inputs)
  setHashBatch inputs t hashes

end Database

end Database

end MinaProtocol.MerkleLedger
