import MinaProtocol.MerkleLedger.Reads

/-!
# MerkleLedger.Mask

A mask in front of a ledger (`masking_merkle_tree.ml`). What is written goes to its maps; what is not there is
read from the parent, or is known to be empty, as it lies beyond the last location. A mask over other masks may
have a cache of what all of them hold since a base ledger, and then reads the cache and the base.

The ledger below is any that answers (`any_ledger.ml`); it is not written here. The caches are rotated by
readers when a mask further down is detached: each reader begins so here, and that a rotation is written back
is left out, as it does not show. Signals are flags.

`none` is an exception.
-/

namespace MinaProtocol.MerkleLedger

open AddressTree Std

/-! ### Orders of locations and addresses -/

namespace Addr

/-- `compare`, of the bits from the root on. -/
def compare (x y : Addr) : Ordering := Ord.compare x.reverse y.reverse

/-- `same_height_ancestors`. -/
def sameHeightAncestors (x y : Addr) : Addr × Addr :=
  if x.length < y.length then (x, y.drop (y.length - x.length)) else (x.drop (x.length - y.length), y)

/-- `is_further_right`. -/
def isFurtherRight (than path : Addr) : Bool :=
  let ancestors := sameHeightAncestors than path
  compare ancestors.1 ancestors.2 = .lt

end Addr

namespace Location

/-- What `compare` compares: the kind, and then the data or the bits from the root on. -/
def orderKey : Location → List Nat
  | .generic data => 0 :: data.map UInt8.toNat
  | .account path => 1 :: path.reverse.map Bool.toNat
  | .hash path => 2 :: path.reverse.map Bool.toNat

instance : Ord Location := ⟨compareOn orderKey⟩

theorem orderKey_inj {l l' : Location} (h : l.orderKey = l'.orderKey) : l = l' := by
  have hbool : Function.Injective Bool.toNat := by decide
  have hbyte : Function.Injective UInt8.toNat := fun _ _ h => UInt8.toNat_inj.1 h
  cases l <;> cases l' <;> simp only [orderKey, List.cons.injEq] at h
  case generic.generic data data' => rw [List.map_injective_iff.2 hbyte h.2]
  case account.account path path' => rw [List.reverse_injective (List.map_injective_iff.2 hbool h.2)]
  case hash.hash path path' => rw [List.reverse_injective (List.map_injective_iff.2 hbool h.2)]
  all_goals exact absurd h.1 (by decide)

instance : TransOrd Location := inferInstanceAs (TransCmp (compareOn orderKey))

instance : LawfulEqOrd Location := ⟨fun h => orderKey_inj (LawfulEqOrd.eq_of_compare h)⟩

end Location

variable {Key TokenId : Type}

namespace AccountId

variable [Ord Key] [Ord TokenId]

instance : Ord (AccountId Key TokenId) := ⟨compareLex (compareOn publicKey) (compareOn tokenId)⟩

instance [TransOrd Key] [TransOrd TokenId] : TransOrd (AccountId Key TokenId) :=
  inferInstanceAs (TransCmp (compareLex (compareOn publicKey) (compareOn tokenId)))

theorem eq_of_compare_eq [LawfulEqOrd Key] [LawfulEqOrd TokenId] {a b : AccountId Key TokenId} (h : compare a b = .eq) : a = b := by
  obtain ⟨hkey, htoken⟩ := compareLex_eq_eq.1 h
  obtain ⟨pk, tid⟩ := a
  obtain ⟨pk', tid'⟩ := b
  obtain rfl : pk = pk' := LawfulEqOrd.eq_of_compare hkey
  obtain rfl : tid = tid' := LawfulEqOrd.eq_of_compare htoken
  rfl

instance [TransOrd Key] [TransOrd TokenId] [LawfulEqOrd Key] [LawfulEqOrd TokenId] : LawfulEqOrd (AccountId Key TokenId) :=
  ⟨eq_of_compare_eq⟩

end AccountId

/-! ### Ledgers -/

/-- `Any_ledger.witness`: a ledger by how it answers. -/
structure AnyLedger (Key TokenId Account Hash : Type) where
  depth : Nat
  get : Location → Option (Option Account)
  getBatch : List Location → Option (List (Location × Option Account))
  lastFilled : Option (Option Location)
  locationOfAccount : AccountId Key TokenId → Option (Option Location)
  locationOfAccountBatch : List (AccountId Key TokenId) → Option (List (AccountId Key TokenId × Option Location))
  getInnerHashAtAddrExn : Addr → Option Hash
  getHashBatchExn : List Location → Option (List Hash)
  merklePathAtAddrExn : Addr → Option (Path Hash)
  merklePathBatch : List Location → Option (List (Path Hash))
  wideMerklePathBatch : List Location → Option (List (WidePath Hash))

section Mask

variable {Account Hash : Type} [Ord Key] [TransOrd Key] [Ord TokenId] [TransOrd TokenId]

/-- A database as a ledger. -/
def Database.any (inputs : Inputs Key TokenId Account Hash) (mdb : Database) : AnyLedger Key TokenId Account Hash where
  depth := mdb.depth
  get := get inputs mdb
  getBatch := getBatch inputs mdb
  lastFilled := lastFilled mdb
  locationOfAccount := locationOfAccount inputs mdb
  locationOfAccountBatch := locationOfAccountBatch inputs mdb
  getInnerHashAtAddrExn := getInnerHashAtAddrExn inputs mdb
  getHashBatchExn := getHashBatchExn inputs mdb
  merklePathAtAddrExn := merklePath inputs mdb
  merklePathBatch := merklePathBatch inputs mdb
  wideMerklePathBatch := wideMerklePathBatch inputs mdb

/-! ### Masks -/

/-- `maps_t`. -/
structure Maps (Key TokenId Account Hash : Type) [Ord Key] [Ord TokenId] where
  accounts : ExtTreeMap Location Account
  tokenOwners : ExtTreeMap TokenId (AccountId Key TokenId)
  hashes : ExtTreeMap Addr Hash
  locations : ExtTreeMap (AccountId Key TokenId) Location

namespace Maps

/-- `empty_maps`. -/
def empty : Maps Key TokenId Account Hash := ⟨∅, ∅, ∅, ∅⟩

/-- `maps_merge`. -/
def merge (base maps : Maps Key TokenId Account Hash) : Maps Key TokenId Account Hash :=
  ⟨base.accounts.mergeWith (fun _ _ v => v) maps.accounts, base.tokenOwners.mergeWith (fun _ _ v => v) maps.tokenOwners,
    base.hashes.mergeWith (fun _ _ v => v) maps.hashes, base.locations.mergeWith (fun _ _ v => v) maps.locations⟩

end Maps

/-- `accumulated_t`. -/
structure Accumulated (Key TokenId Account Hash : Type) [Ord Key] [Ord TokenId] where
  current : Maps Key TokenId Account Hash
  next : Maps Key TokenId Account Hash
  base : AnyLedger Key TokenId Account Hash
  detachedNextSignal : Bool

/-- `t`; the parent is missing in a mask that is not attached. -/
structure Mask (Key TokenId Account Hash : Type) [Ord Key] [Ord TokenId] where
  parent : Option (AnyLedger Key TokenId Account Hash)
  detachedParentSignal : Bool
  currentLocation : Option Location
  depth : Nat
  maps : Maps Key TokenId Account Hash
  accumulated : Option (Accumulated Key TokenId Account Hash)

namespace Mask

/-- `create`. -/
def create (depth : Nat) : Mask Key TokenId Account Hash := ⟨none, false, none, depth, .empty, none⟩

variable (t : Mask Key TokenId Account Hash)

/-- `assert_is_attached`. -/
def assertIsAttached : Option Unit := t.parent.map fun _ => ()

/-- `actualize_accumulated`. -/
def actualizeAccumulated : Mask Key TokenId Account Hash :=
  match t.accumulated with
  | some acc =>
    if acc.detachedNextSignal then { t with accumulated := some ⟨acc.next, t.maps, acc.base, t.detachedParentSignal⟩ } else t
  | none => t

/-- `maps_and_ancestor`. -/
def mapsAndAncestor : Option (Maps Key TokenId Account Hash × AnyLedger Key TokenId Account Hash) :=
  match t.actualizeAccumulated.accumulated with
  | some acc => some (acc.current, acc.base)
  | none => t.parent.map fun parent => (t.maps, parent)

/-- `to_accumulated`. -/
def toAccumulated : Option (Accumulated Key TokenId Account Hash) :=
  match t.actualizeAccumulated.accumulated with
  | some acc => some acc
  | none => t.parent.map fun base => ⟨t.maps, t.maps, base, t.detachedParentSignal⟩

/-- `update_maps`. -/
def updateMaps (f : Maps Key TokenId Account Hash → Maps Key TokenId Account Hash) (t : Mask Key TokenId Account Hash) :
    Mask Key TokenId Account Hash :=
  { t with
    maps := f t.maps
    accumulated := t.accumulated.map fun acc => { acc with current := f acc.current, next := f acc.next } }

/-! ### Writing to the maps -/

/-- `self_set_hash`. -/
def selfSetHash (address : Addr) (hash : Hash) : Mask Key TokenId Account Hash :=
  t.updateMaps fun maps => { maps with hashes := maps.hashes.insert address hash }

/-- A location that was not used before becomes the current one. -/
def laterLocation (location : Location) : Option Location → Location
  | none => location
  | some loc => if compare location loc = .gt then location else loc

/-- `self_set_location`. -/
def selfSetLocation (accountId : AccountId Key TokenId) (location : Location) : Mask Key TokenId Account Hash :=
  { t.updateMaps fun maps => { maps with locations := maps.locations.insert accountId location } with
    currentLocation := some (laterLocation location t.currentLocation) }

variable (inputs : Inputs Key TokenId Account Hash)

/-- `self_set_account`. -/
def selfSetAccount (t : Mask Key TokenId Account Hash) (location : Location)
    (account : Account) : Mask Key TokenId Account Hash :=
  (t.updateMaps fun maps => { maps with accounts := maps.accounts.insert location account }).selfSetLocation
    (inputs.identifier account) location

/-- `self_set_token_owner`. -/
def selfSetTokenOwner (tokenId : TokenId) (accountId : AccountId Key TokenId) : Mask Key TokenId Account Hash :=
  t.updateMaps fun maps => { maps with tokenOwners := maps.tokenOwners.insert tokenId accountId }

/-! ### Reading -/

/-- Whether nothing is at a location, as it lies beyond the current one. -/
def isEmpty (currentLocation : Option Location) (location : Location) : Option Bool :=
  match currentLocation with
  | none => some true
  | some currentLocation => do
    let address ← location.toPath
    let currentAddress ← currentLocation.toPath
    some (Addr.isFurtherRight currentAddress address)

/-- `get`. -/
def get (location : Location) : Option (Option Account) := do
  t.assertIsAttached
  let (maps, ancestor) ← t.mapsAndAncestor
  match maps.accounts[location]? with
  | some account => some (some account)
  | none => if ← isEmpty t.currentLocation location then some none else ancestor.get location

/-- The answer that was found, or the next one of the parent. -/
def handOut {I R : Type} (fromParent : List (I × R)) : I × Option R → Option (List (I × R) × (I × R))
  | (id, some found) => some (fromParent, (id, found))
  | (_, none) =>
    match fromParent with
    | r :: rest => some (rest, r)
    | [] => none

/-- `self_find_or_batch_lookup`. -/
def selfFindOrBatchLookup {I R : Type} (selfFind : Maps Key TokenId Account Hash → I → Option (I × Option R))
    (lookupParent : AnyLedger Key TokenId Account Hash → List I → Option (List (I × R))) (t : Mask Key TokenId Account Hash)
    (ids : List I) : Option (List (I × R)) := do
  t.assertIsAttached
  let (maps, ancestor) ← t.mapsAndAncestor
  let selfFoundOrNone ← ids.mapM (selfFind maps)
  let notFound := selfFoundOrNone.filterMap fun p => if p.2.isNone then some p.1 else none
  let fromParent ← lookupParent ancestor notFound
  let r ← foldMap handOut fromParent selfFoundOrNone
  some r.2

/-- `self_find` in `get_batch`. -/
def selfFindAccount (maps : Maps Key TokenId Account Hash) (id : Location) :
    Option (Location × Option (Option Account)) :=
  match maps.accounts[id]? with
  | some account => some (id, some (some account))
  | none => (isEmpty t.currentLocation id).map fun isEmpty => (id, if isEmpty then some none else none)

/-- `get_batch`. -/
def getBatch : List Location → Option (List (Location × Option Account)) :=
  selfFindOrBatchLookup t.selfFindAccount AnyLedger.getBatch t

/-- `location_of_account`. -/
def locationOfAccount (accountId : AccountId Key TokenId) : Option (Option Location) := do
  t.assertIsAttached
  let (maps, ancestor) ← t.mapsAndAncestor
  match maps.locations[accountId]? with
  | some location => some (some location)
  | none => ancestor.locationOfAccount accountId

/-- `location_of_account_batch`. -/
def locationOfAccountBatch : List (AccountId Key TokenId) → Option (List (AccountId Key TokenId × Option Location)) :=
  selfFindOrBatchLookup (fun maps id => some (id, (maps.locations[id]?).map some)) AnyLedger.locationOfAccountBatch t

/-- `last_filled`. -/
def lastFilled : Option (Option Location) := do
  let parent ← t.parent
  match ← parent.lastFilled, t.currentLocation with
  | none, currentLocation => some currentLocation
  | some parentLoc, none => some (some parentLoc)
  | some (.account parentAddr), some (.account ourAddr) =>
    some (some (if (Addr.compare parentAddr ourAddr).isGE then .account parentAddr else .account ourAddr))
  | some _, some _ => none

/-! ### Hashes -/

/-- `get_hash`. -/
def getHash (addr : Addr) : Option (Option Hash) := do
  t.assertIsAttached
  let (maps, ancestor) ← t.mapsAndAncestor
  match maps.hashes[addr]? with
  | some hash => some (some hash)
  | none => some (ancestor.getInnerHashAtAddrExn addr)

/-- `get_inner_hash_at_addr_exn`. -/
def getInnerHashAtAddrExn (address : Addr) : Option Hash :=
  if address.length ≤ t.depth then (t.getHash address).join else none

/-- `recombine` in `get_hash_batch_exn`. -/
def recombine : List (Option Hash) → List Hash → List Hash → Option (List Hash)
  | [], [], acc => some acc
  | none :: selfHashesRev, hash :: parentHashesRev, acc => recombine selfHashesRev parentHashesRev (hash :: acc)
  | some hash :: selfHashesRev, parentHashesRev, acc => recombine selfHashesRev parentHashesRev (hash :: acc)
  | none :: _, [], _ => none
  | [], _ :: _, _ => none

/-- `get_hash_batch_exn`. -/
def getHashBatchExn (locations : List Location) : Option (List Hash) := do
  t.assertIsAttached
  let (maps, ancestor) ← t.mapsAndAncestor
  let selfHashesRev ← locations.reverse.mapM fun location => location.toPath.map fun path => (location, maps.hashes[path]?)
  let parentLocationsRev := selfHashesRev.filterMap fun p => if p.2.isNone then some p.1 else none
  let parentHashesRev ← (if parentLocationsRev.isEmpty then some [] else ancestor.getHashBatchExn parentLocationsRev)
  recombine (selfHashesRev.map Prod.snd) parentHashesRev []

/-! ### Paths -/

variable (hashes : ExtTreeMap Addr Hash)

/-- `self_path_get_hash`. -/
def selfPathGetHash (currentLocation : Option Location) (height : Nat) (address : Addr) : Option (Option Hash) :=
  match hashes[address]? with
  | some hash => some (some hash)
  | none => (isEmpty currentLocation (.hash address)).map fun isEmpty =>
    if isEmpty then some (emptyAt inputs.merge inputs.emptyAccount height) else none

/-- `self_path_impl`, where the inner `none` is that some element is not known. -/
def selfPathImpl {E : Type} (element : Nat → Bool → Addr → Option (Option E)) (depth : Nat) : Addr → Option (Option (List E))
  | [] => some (some [])
  | dir :: parentAddress =>
    let height := Addr.height depth (dir :: parentAddress)
    if height ≥ depth then some (some [])
    else do
      match ← element height dir parentAddress with
      | none => some none
      | some el => (selfPathImpl element depth parentAddress).map fun rest => rest.map (el :: ·)

/-- `self_merkle_path`. -/
def selfMerklePath (currentLocation : Option Location) : Nat → Addr → Option (Option (Path Hash)) :=
  selfPathImpl fun height dir parentAddress =>
    (selfPathGetHash inputs hashes currentLocation height ((!dir) :: parentAddress)).map fun siblingHash =>
      siblingHash.map (·, dir)

/-- `self_wide_merkle_path`. -/
def selfWideMerklePath (currentLocation : Option Location) : Nat → Addr → Option (Option (WidePath Hash)) :=
  selfPathImpl fun height dir parentAddress => do
    match ← selfPathGetHash inputs hashes currentLocation height ((!dir) :: parentAddress) with
    | none => some none
    | some siblingHash =>
      (selfPathGetHash inputs hashes currentLocation height (dir :: parentAddress)).map fun selfHash =>
        selfHash.map (Database.wideElement dir siblingHash)

/-- `fixup_merkle_path`. -/
def fixupMerklePath (hashes : ExtTreeMap Addr Hash) : Addr → Path Hash → Option (Path Hash)
  | _, [] => some []
  | [], _ :: _ => none
  | b :: parentAddr, (h, dir) :: path =>
    (fixupMerklePath hashes parentAddr path).map (((hashes[(!b) :: parentAddr]?).getD h, dir) :: ·)

/-- An element of a wide path, with the hashes of the mask. -/
def fixupWideElement (siblingMaskHash selfMaskHash : Option Hash) : (Hash × Hash) × Bool → (Hash × Hash) × Bool
  | ((hL, hR), false) => ((selfMaskHash.getD hL, siblingMaskHash.getD hR), false)
  | ((hL, hR), true) => ((siblingMaskHash.getD hL, selfMaskHash.getD hR), true)

/-- `fixup_wide_merkle_path`. -/
def fixupWideMerklePath (hashes : ExtTreeMap Addr Hash) : Addr → WidePath Hash → Option (WidePath Hash)
  | _, [] => some []
  | [], _ :: _ => none
  | b :: parentAddr, e :: path =>
    (fixupWideMerklePath hashes parentAddr path).map
      (fixupWideElement hashes[(!b) :: parentAddr]? hashes[b :: parentAddr]? e :: ·)

/-- `merkle_path_at_addr_exn`. -/
def merklePathAtAddrExn (t : Mask Key TokenId Account Hash) (address : Addr) : Option (Path Hash) := do
  t.assertIsAttached
  let (maps, ancestor) ← t.mapsAndAncestor
  match ← selfMerklePath inputs maps.hashes t.currentLocation t.depth address with
  | some path => some path
  | none => do
    let parentMerklePath ← ancestor.merklePathAtAddrExn address
    fixupMerklePath maps.hashes address parentMerklePath

/-- `merkle_path`. -/
def merklePath (t : Mask Key TokenId Account Hash) (location : Location) : Option (Path Hash) := do
  let address ← location.toPath
  merklePathAtAddrExn inputs t address

/-- The step of the fold in `path_batch_impl`: a path that is known, or the next one of the parent. -/
def takePath {E : Type} (fixupPath : Addr → List E → Option (List E)) (parentPaths : List (List E)) :
    List E ⊕ (Location × Addr) → Option (List (List E) × List E)
  | .inl path => some (parentPaths, path)
  | .inr p =>
    match parentPaths with
    | [] => none
    | parentPath :: rest => (fixupPath p.2 parentPath).map (rest, ·)

/-- The path of a location, if it is known, else what the parent is asked for. -/
def selfPathOr {E : Type} (selfLookup : Addr → Option (Option (List E))) (location : Location) :
    Option (List E ⊕ (Location × Addr)) := do
  let address ← location.toPath
  (selfLookup address).map fun path => path.elim (.inr (location, address)) .inl

/-- `path_batch_impl`. -/
def pathBatchImpl {E : Type} (fixupPath : ExtTreeMap Addr Hash → Addr → List E → Option (List E))
    (selfLookup : ExtTreeMap Addr Hash → Option Location → Nat → Addr → Option (Option (List E)))
    (baseLookup : AnyLedger Key TokenId Account Hash → List Location → Option (List (List E)))
    (t : Mask Key TokenId Account Hash) (locations : List Location) : Option (List (List E)) := do
  t.assertIsAttached
  let (maps, ancestor) ← t.mapsAndAncestor
  let selfPaths ← locations.mapM (selfPathOr (selfLookup maps.hashes t.currentLocation t.depth))
  let locs := selfPaths.filterMap fun p => p.getRight?.map Prod.fst
  let allParentPaths ← (if locs.isEmpty then some [] else baseLookup ancestor locs)
  let r ← foldMap (takePath (fixupPath maps.hashes)) allParentPaths selfPaths
  some r.2

/-- `merkle_path_batch`. -/
def merklePathBatch : Mask Key TokenId Account Hash → List Location → Option (List (Path Hash)) :=
  pathBatchImpl fixupMerklePath (selfMerklePath inputs) AnyLedger.merklePathBatch

/-- `wide_merkle_path_batch`. -/
def wideMerklePathBatch : Mask Key TokenId Account Hash → List Location → Option (List (WidePath Hash)) :=
  pathBatchImpl fixupWideMerklePath (selfWideMerklePath inputs) AnyLedger.wideMerklePathBatch

/-- A mask as a ledger. -/
def any (t : Mask Key TokenId Account Hash) : AnyLedger Key TokenId Account Hash where
  depth := t.depth
  get := t.get
  getBatch := t.getBatch
  lastFilled := t.lastFilled
  locationOfAccount := t.locationOfAccount
  locationOfAccountBatch := t.locationOfAccountBatch
  getInnerHashAtAddrExn := t.getInnerHashAtAddrExn
  getHashBatchExn := t.getHashBatchExn
  merklePathAtAddrExn := merklePathAtAddrExn inputs t
  merklePathBatch := merklePathBatch inputs t
  wideMerklePathBatch := wideMerklePathBatch inputs t

/-! ### Writing accounts -/

/-- The fold of `addresses_and_hashes_from_merkle_path_exn`, from a height on. -/
def addressesAndHashesFrom (inputs : Inputs Key TokenId Account Hash) :
    Nat → List (Addr × Hash) → Path Hash → Option (List (Addr × Hash))
  | _, accum, [] => some accum
  | _, [], _ :: _ => none
  | height, (lastAddress, lastHash) :: accum, (siblingHash, dir) :: path => do
    let nextAddress ← Addr.parent lastAddress
    let nextHash := if dir then inputs.merge height siblingHash lastHash else inputs.merge height lastHash siblingHash
    addressesAndHashesFrom inputs (height + 1) ((nextAddress, nextHash) :: (lastAddress, lastHash) :: accum) path

/-- `addresses_and_hashes_from_merkle_path_exn`. -/
def addressesAndHashesFromMerklePathExn (merklePath : Path Hash) (startingAddress : Addr)
    (startingHash : Hash) : Option (List (Addr × Hash)) :=
  addressesAndHashesFrom inputs 0 [(startingAddress, startingHash)] merklePath

/-- `set_account_unsafe`. -/
def setAccountUnsafe (t : Mask Key TokenId Account Hash) (location : Location)
    (account : Account) : Option (Mask Key TokenId Account Hash) := do
  t.assertIsAttached
  let accountId := inputs.identifier account
  some ((selfSetAccount inputs t location account).selfSetTokenOwner (inputs.deriveTokenId accountId) accountId)

/-- `set`. -/
def set (inputs : Inputs Key TokenId Account Hash) (t : Mask Key TokenId Account Hash) (location : Location) (account : Account) :
    Option (Mask Key TokenId Account Hash) := do
  t.assertIsAttached
  let t ← setAccountUnsafe inputs t location account
  let accountAddress ← location.toPath
  let path ← merklePath inputs t location
  let addressesAndHashes ← addressesAndHashesFromMerklePathExn inputs path accountAddress (inputs.hashAccount account)
  some (addressesAndHashes.foldl (fun t p => t.selfSetHash p.1 p.2) t)

/-- `set_location_batch`. -/
def setLocationBatch (lastLocation : Location) (t : Mask Key TokenId Account Hash)
    (accountToLocationList : List (AccountId Key TokenId × Location)) : Mask Key TokenId Account Hash :=
  accountToLocationList.foldl (fun t p => t.selfSetLocation p.1 p.2) { t with currentLocation := some lastLocation }

/-- `set_raw_account_batch`. -/
def setRawAccountBatch (t : Mask Key TokenId Account Hash)
    (locationsAndAccounts : List (Location × Account)) : Option (Mask Key TokenId Account Hash) := do
  t.assertIsAttached
  some (locationsAndAccounts.foldl (fun t p =>
      let accountId := inputs.identifier p.2
      selfSetAccount inputs (t.selfSetTokenOwner (inputs.deriveTokenId accountId) accountId) p.1 p.2) t)

/-- `set_raw_hash_batch`. -/
def setRawHashBatch (locationsAndHashes : List (Addr × Hash)) : Option (Mask Key TokenId Account Hash) := do
  t.assertIsAttached
  some (locationsAndHashes.foldl (fun t p => t.selfSetHash p.1 p.2) t)

/-- `set_raw_addresses`. -/
def setRawAddresses (t : Mask Key TokenId Account Hash) :
    List (Location × Account) → Option (Mask Key TokenId Account Hash)
  | [] => some t
  | p :: ps => do
    let keyLocations := (p :: ps).map fun q => (inputs.identifier q.2, q.1)
    let lastFilled ← t.lastFilled
    let lastLocation ← Util.newLastLocation inputs t.depth lastFilled p.1 (ps.map Prod.fst)
    some (setLocationBatch lastLocation t keyLocations)

/-- `set_hash_batch`. -/
def setHashBatch (t : Mask Key TokenId Account Hash) (hashes : List (Addr × Hash)) :
    Option (Mask Key TokenId Account Hash) := do
  let affected ← Util.computeAffectedLocationsAndHashes inputs (fun a => (t.getHash a).join) t.depth (t.depth + 1) hashes hashes
  t.setRawHashBatch affected

/-- `set_batch`. -/
def setBatch (t : Mask Key TokenId Account Hash)
    (locationsAndAccounts : List (Location × Account)) : Option (Mask Key TokenId Account Hash) := do
  let t ← setRawAddresses inputs t locationsAndAccounts
  let t ← setRawAccountBatch inputs t locationsAndAccounts
  let hashes ← locationsAndAccounts.mapM (Database.accountHash inputs)
  setHashBatch inputs t hashes

/-- The cache of a mask over one that has been given a parent, if it had none. -/
def accumulatedOver (accumulatedOpt : Option (Accumulated Key TokenId Account Hash)) (t : Mask Key TokenId Account Hash) :
    Option (Accumulated Key TokenId Account Hash) :=
  match accumulatedOpt, t.accumulated with
  | some acc, none => some { acc with current := acc.current.merge t.maps, next := acc.next.merge t.maps }
  | _, accumulated => accumulated

/-- `set_parent`. -/
def setParent (accumulatedOpt : Option (Accumulated Key TokenId Account Hash)) (t : Mask Key TokenId Account Hash)
    (parent : AnyLedger Key TokenId Account Hash) : Option (Mask Key TokenId Account Hash) :=
  if t.parent.isNone && !t.detachedParentSignal && t.depth == parent.depth then do
    let attached := { t with parent := some parent }
    let currentLocation ← attached.lastFilled
    some { attached with currentLocation, accumulated := accumulatedOver accumulatedOpt t }
  else none

end Mask

end Mask

end MinaProtocol.MerkleLedger
