import MinaProtocol.MerkleLedger.BatchAgrees

/-!
# MerkleLedger.Maskable

Masks that are registered on a ledger (`maskable_merkle_tree.ml`). When accounts are written to the ledger each
mask is told, and takes an account out of its maps if it has the same one (`masking_merkle_tree.ml`).

The ledger below a mask is a value here: a write puts the ledger as it is now below the masks. The base of a
cache is further down and is not written. That caches of masks over the masks are dropped is left out.
-/

namespace MinaProtocol.MerkleLedger

open AddressTree Std

variable {Key TokenId Account Hash : Type}

/-! ### The location before -/

/-- `prev`: the last bit that is set is cleared, and those after it are set. -/
def Addr.prev : Addr → Option Addr
  | [] => none
  | true :: a => some (false :: a)
  | false :: a => (prev a).map (true :: ·)

/-- `prev`, where the inner `none` is that there is none. -/
def Location.prev : Location → Option (Option Location)
  | .generic _ => none
  | .account path => some ((Addr.prev path).map .account)
  | .hash path => some ((Addr.prev path).map .hash)

section Masks

variable [Ord Key] [Ord TokenId] [TransOrd Key] [TransOrd TokenId]

/-- The account and its key are removed from tables. -/
def Maps.remove (inputs : Inputs Key TokenId Account Hash) (location : Location) (account : Account)
    (maps : Maps Key TokenId Account Hash) : Maps Key TokenId Account Hash :=
  { maps with
    accounts := maps.accounts.erase location
    tokenOwners := maps.tokenOwners.erase (inputs.deriveTokenId (inputs.identifier account))
    locations := maps.locations.erase (inputs.identifier account) }

namespace Mask

/-! ### Readers -/

variable (t : Mask Key TokenId Account Hash)

/-- `token_owner`, over that of the ledger that the mask reads. -/
def tokenOwner (base : TokenId → Option (Option (AccountId Key TokenId))) (tid : TokenId) :
    Option (Option (AccountId Key TokenId)) := do
  t.assertIsAttached
  let (maps, _) ← t.mapsAndAncestor
  match maps.tokenOwners[tid]? with
  | some id => some (some id)
  | none => base tid

/-- `merkle_root`, that of a ledger being the hash at its root. -/
def merkleRoot : Option Hash := do
  t.assertIsAttached
  let (maps, ancestor) ← t.mapsAndAncestor
  match maps.hashes[([] : Addr)]? with
  | some hash => some hash
  | none => ancestor.getInnerHashAtAddrExn []

variable (inputs : Inputs Key TokenId Account Hash)

/-- `num_accounts`. -/
def numAccounts (t : Mask Key TokenId Account Hash) : Option Int := do
  t.assertIsAttached
  match t.currentLocation with
  | none => some 0
  | some (.account addr) => some (Addr.wrap63 (Addr.toInt inputs.lslBeyond addr + 1))
  | some _ => none

/-! ### Removing what the parent has -/

/-- The location is reused if it is the last one. -/
def reuseLocation (location : Location) : Option Location → Option (Option Location)
  | none => some none
  | some currLoc => if location = currLoc then location.prev else some (some currLoc)

/-- `remove_account_and_update_hashes`. Only the maps of the mask itself lose the account, not its caches. -/
def removeAccountAndUpdateHashes (t : Mask Key TokenId Account Hash) (location : Location) :
    Option (Mask Key TokenId Account Hash) := do
  let account ← t.maps.accounts[location]?
  let currentLocation ← reuseLocation location t.currentLocation
  let t := { t with maps := t.maps.remove inputs location account, currentLocation }
  let accountAddress ← location.toPath
  let path ← merklePath inputs t location
  let addressesAndHashes ← addressesAndHashesFromMerklePathExn inputs path accountAddress inputs.emptyAccount
  some (addressesAndHashes.foldl (fun t p => t.selfSetHash p.1 p.2) t)

/-- `parent_set_notify`. -/
def parentSetNotify [DecidableEq Account] (t : Mask Key TokenId Account Hash) (account : Account) :
    Option (Mask Key TokenId Account Hash) := do
  t.assertIsAttached
  match t.maps.locations[inputs.identifier account]? with
  | none => some t
  | some location =>
    match t.maps.accounts[location]? with
    | none => some t
    | some existingAccount => if account = existingAccount then removeAccountAndUpdateHashes inputs t location else some t

/-- `drop_accumulated`. -/
def dropAccumulated : Mask Key TokenId Account Hash := { t with accumulated := none }

/-- The mask over its parent as it is now. -/
def withParent (parent : AnyLedger Key TokenId Account Hash) : Mask Key TokenId Account Hash :=
  { t with parent := t.parent.map fun _ => parent }

end Mask

/-! ### Ledgers below masks -/

/-- A ledger that masks are over: a database, or a mask, with the owners of tokens in the ledger that it reads. -/
inductive Ledger (Key TokenId Account Hash : Type) [Ord Key] [Ord TokenId] where
  | database (mdb : Database)
  | mask (t : Mask Key TokenId Account Hash) (owners : TokenId → Option (Option (AccountId Key TokenId)))

namespace Ledger

variable (inputs : Inputs Key TokenId Account Hash)

def any : Ledger Key TokenId Account Hash → AnyLedger Key TokenId Account Hash
  | .database mdb => mdb.any inputs
  | .mask t _ => t.any inputs

def tokenOwner : Ledger Key TokenId Account Hash → TokenId → Option (Option (AccountId Key TokenId))
  | .database mdb => mdb.tokenOwner inputs
  | .mask t owners => t.tokenOwner owners

/-- `Base.set`. -/
def set (inputs : Inputs Key TokenId Account Hash) (t : Ledger Key TokenId Account Hash) (location : Location) (account : Account) :
    Option (Ledger Key TokenId Account Hash) :=
  match t with
  | .database mdb => (mdb.set inputs location account).map .database
  | .mask t owners => (t.set inputs location account).map (.mask · owners)

/-- `Base.set_batch`. -/
def setBatch [DecidableEq TokenId] (t : Ledger Key TokenId Account Hash)
    (locationsAndAccounts : List (Location × Account)) : Option (Ledger Key TokenId Account Hash) :=
  match t with
  | .database mdb => (mdb.setBatch inputs locationsAndAccounts).map .database
  | .mask t owners => (t.setBatch inputs locationsAndAccounts).map (.mask · owners)

end Ledger

/-! ### Registered masks -/

/-- A mask in `registered_masks`, with the owners of tokens in the base of its cache. -/
structure Registered (Key TokenId Account Hash : Type) [Ord Key] [Ord TokenId] where
  mask : Mask Key TokenId Account Hash
  isCommitting : Bool
  cacheOwners : TokenId → Option (Option (AccountId Key TokenId))

/-- A ledger with the masks that are registered on it. -/
structure Maskable (Key TokenId Account Hash : Type) [Ord Key] [Ord TokenId] where
  base : Ledger Key TokenId Account Hash
  registeredMasks : List (Registered Key TokenId Account Hash)

/-- `token_owner` of a registered mask. -/
def Registered.tokenOwner (child : Registered Key TokenId Account Hash) (parentOwners : TokenId → Option (Option (AccountId Key TokenId))) :
    TokenId → Option (Option (AccountId Key TokenId)) :=
  child.mask.tokenOwner (if child.mask.accumulated.isSome then child.cacheOwners else parentOwners)

namespace Maskable

variable [DecidableEq Account]

/-- What `set` does to a registered mask. -/
def notify (inputs : Inputs Key TokenId Account Hash) (parent : AnyLedger Key TokenId Account Hash) (account : Account)
    (child : Registered Key TokenId Account Hash) : Option (Registered Key TokenId Account Hash) :=
  let mask := child.mask.withParent parent
  if child.isCommitting then some { child with mask }
  else (mask.parentSetNotify inputs account).map fun mask => { child with mask := mask.dropAccumulated }

/-- `set`. -/
def set (inputs : Inputs Key TokenId Account Hash) (t : Maskable Key TokenId Account Hash) (location : Location) (account : Account) :
    Option (Maskable Key TokenId Account Hash) := do
  let base ← t.base.set inputs location account
  let registeredMasks ← t.registeredMasks.mapM (notify inputs (base.any inputs) account)
  some ⟨base, registeredMasks⟩

/-- What `batch_notify_mask_children` does to a registered mask. -/
def batchNotify (inputs : Inputs Key TokenId Account Hash) (parent : AnyLedger Key TokenId Account Hash) (accounts : List Account)
    (child : Registered Key TokenId Account Hash) : Option (Registered Key TokenId Account Hash) :=
  let mask := child.mask.withParent parent
  if child.isCommitting then some { child with mask }
  else (accounts.foldlM (Mask.parentSetNotify inputs) mask.dropAccumulated).map fun mask => { child with mask }

/-- `set_batch`. -/
def setBatch [DecidableEq TokenId] (inputs : Inputs Key TokenId Account Hash) (t : Maskable Key TokenId Account Hash)
    (locationsAndAccounts : List (Location × Account)) : Option (Maskable Key TokenId Account Hash) := do
  let base ← t.base.setBatch inputs locationsAndAccounts
  let registeredMasks ← t.registeredMasks.mapM (batchNotify inputs (base.any inputs) (locationsAndAccounts.map Prod.snd))
  some ⟨base, registeredMasks⟩

end Maskable

end Masks

end MinaProtocol.MerkleLedger
