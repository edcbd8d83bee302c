import MinaProtocol.Lib.FoldMap
import MinaProtocol.MerkleLedger.Hashes

/-!
# MerkleLedger.Reads

The readers of the database that answer for many accounts or nodes at once (`database.ml`). Each asks the store
for everything in one go, and gives the answers of the single readers, in the order of the questions.
-/

namespace MinaProtocol.MerkleLedger

open AddressTree Std

variable {Key TokenId Account Hash : Type}

namespace Location

def isGeneric : Location → Bool
  | .generic _ => true
  | _ => false

def isAccount : Location → Bool
  | .account _ => true
  | _ => false

def isHash : Location → Bool
  | .hash _ => true
  | _ => false

/-- `sibling`. -/
def sibling : Location → Option Location
  | .generic _ => none
  | .account path => (Addr.sibling path).map .account
  | .hash path => (Addr.sibling path).map .hash

end Location

/-- A Merkle path: hashes, with the directions to the node. -/
abbrev Path (Hash : Type) := List (Hash × Bool)

/-- A wide one: the hashes of both children. -/
abbrev WidePath (Hash : Type) := List ((Hash × Hash) × Bool)

namespace Database

/-- `get_raw_batch`. -/
def getRawBatch (mdb : Database) (locations : List Location) : Option (List (Option Bytes)) :=
  (locations.mapM (Location.serialize mdb.depth)).map fun keys => keys.map mdb.kvdb

/-- `get_bin_batch`. -/
def getBinBatch {A : Type} (bin : Bin A) (mdb : Database) (locations : List Location) : Option (List (Option A)) := do
  let vs ← mdb.getRawBatch locations
  vs.mapM (readBin bin)

variable (inputs : Inputs Key TokenId Account Hash)

/-- `get_batch`. -/
def getBatch (mdb : Database) (locations : List Location) : Option (List (Location × Option Account)) :=
  if locations.all Location.isAccount then (getBinBatch inputs.binAccount mdb locations).map locations.zip else none

/-- The hash that is read at a location, or that of a subtree without accounts. -/
def hashOrEmpty (mdb : Database) (p : Location × Option Hash) : Option Hash :=
  match p.2 with
  | some hash => some hash
  | none => (p.1.height mdb.depth).map (emptyAt inputs.merge inputs.emptyAccount)

/-- `get_hash_batch_exn`. -/
def getHashBatchExn (mdb : Database) (locations : List Location) : Option (List Hash) :=
  if locations.all Location.isHash then do
    let hashes ← getBinBatch inputs.binHash mdb locations
    (locations.zip hashes).mapM (hashOrEmpty inputs mdb)
  else none

/-- `get_generic_batch`. -/
def getGenericBatch (mdb : Database) (locations : List Location) : Option (List (Option Bytes)) :=
  if locations.all Location.isGeneric then mdb.getRawBatch locations else none

/-- `parse_location` of what was read. -/
def parseLocationOpt (mdb : Database) : Option Bytes → Option (Option Location)
  | none => some none
  | some bin =>
    (Location.parse mdb.depth bin).map fun
      | .ok loc => some loc
      | .error _ => none

/-- `location_of_account_batch`. -/
def locationOfAccountBatch (mdb : Database) (keys : List (AccountId Key TokenId)) :
    Option (List (AccountId Key TokenId × Option Location)) := do
  let bins ← mdb.getGenericBatch (keys.map (accountIdLocation inputs))
  (bins.mapM mdb.parseLocationOpt).map keys.zip

/-- `get_inner_hash_at_addr_exn`. -/
def getInnerHashAtAddrExn (mdb : Database) (address : Addr) : Option Hash :=
  if address.length ≤ mdb.depth then getHash inputs mdb address else none

/-- `path_batch_impl`. -/
def pathBatchImpl {E : Type} (expandQuery : List Location → Option (List Location))
    (computePath : List Hash → List (Location × Bool) → Option (List Hash × List E)) (inputs : Inputs Key TokenId Account Hash)
    (mdb : Database) (locations : List Location) : Option (List (List E)) := do
  let paths ← locations.mapM Location.toPath
  let listOfDependencies := paths.map Location.merklePathDependencies
  let queries ← listOfDependencies.mapM fun deps => expandQuery (deps.map Prod.fst)
  let hashes ← getHashBatchExn inputs mdb queries.flatten
  let paths ← foldMap computePath hashes listOfDependencies
  some paths.2

/-- `merkle_path_batch`. -/
def merklePathBatch : Database → List Location → Option (List (Path Hash)) :=
  pathBatchImpl some
    (fun allHashes locAndDirList => do
      let siblingHashes := allHashes.take locAndDirList.length
      let restHashes := allHashes.drop locAndDirList.length
      let res ← map2Exn (fun p siblingHash => (siblingHash, p.2)) locAndDirList siblingHashes
      some (restHashes, res))
    inputs

/-- An element of a wide path. -/
def wideElement (direction : Bool) (siblingHash selfHash : Hash) : (Hash × Hash) × Bool :=
  if direction then ((siblingHash, selfHash), true) else ((selfHash, siblingHash), false)

/-- `wide_merkle_path_batch`. -/
def wideMerklePathBatch : Database → List Location → Option (List (WidePath Hash)) :=
  pathBatchImpl
    (fun sibLocs => (sibLocs.mapM Location.sibling).map (sibLocs ++ ·))
    (fun allHashes locAndDirList => do
      let siblingHashes := allHashes.take locAndDirList.length
      let restHashes := allHashes.drop locAndDirList.length
      let selfHashes := restHashes.take locAndDirList.length
      let hashes ← map2Exn Prod.mk siblingHashes selfHashes
      let res ← map2Exn (fun p hs => wideElement p.2 hs.1 hs.2) locAndDirList hashes
      some (restHashes.drop locAndDirList.length, res))
    inputs

end Database

/-! ### Paths by the hashes of nodes -/

/-- The siblings of the nodes on the way up, as they are read. -/
def pathOf (read : Addr → Option Hash) (a : Addr) : Option (Path Hash) :=
  (siblings a).mapM fun s => (read s.1).map (·, s.2)

/-- **The wide path**: the nodes on the way up beside their siblings. -/
def widePathOf (read : Addr → Option Hash) : Addr → Option (WidePath Hash)
  | [] => some []
  | b :: a => do
    let selfHash ← read (b :: a)
    let siblingHash ← read ((!b) :: a)
    let rest ← widePathOf read a
    some (Database.wideElement b siblingHash selfHash :: rest)

/-- The sibling in an element of a wide path. -/
def siblingOf (e : (Hash × Hash) × Bool) : Hash × Bool := (if e.2 then e.1.1 else e.1.2, e.2)

/-- **The siblings in a wide path** are those of the path. -/
theorem pathOf_of_widePathOf {read : Addr → Option Hash} {a : Addr} {path : WidePath Hash} (h : widePathOf read a = some path) :
    pathOf read a = some (path.map siblingOf) := by
  induction a generalizing path with
  | nil =>
    obtain rfl := Option.some.inj h
    rfl
  | cons b a ih =>
    simp only [widePathOf, Option.bind_eq_bind, Option.bind_eq_some_iff] at h
    obtain ⟨selfHash, -, siblingHash, hsibling, rest, hrest, h⟩ := h
    obtain rfl := Option.some.inj h
    have hpath : pathOf read a = some (rest.map siblingOf) := ih hrest
    simp only [pathOf] at hpath
    simp only [pathOf, siblings, List.mapM_cons, hsibling, hpath, List.map_cons]
    cases b <;> rfl

/-! ### What the batches read -/

namespace Database

variable {inputs : Inputs Key TokenId Account Hash} {mdb : Database}

variable (locations : List Location) {read : Addr → Option Hash}

theorem getRawBatch_eq : mdb.getRawBatch locations = locations.mapM mdb.getRaw := by
  induction locations with
  | nil => rfl
  | cons l locations ih =>
    rw [List.mapM_cons, ← ih, getRawBatch, getRawBatch, List.mapM_cons, getRaw]
    cases l.serialize mdb.depth with
    | none => rfl
    | some key => cases locations.mapM (Location.serialize mdb.depth) <;> rfl

theorem getBinBatch_eq {A : Type} {bin : Bin A} : getBinBatch bin mdb locations = locations.mapM (getBin bin mdb) := by
  rw [getBinBatch, getRawBatch_eq]
  exact mapM_bind_mapM locations

/-- **`get_batch`** gives the results of `get`. -/
theorem getBatch_eq :
    getBatch inputs mdb locations = locations.mapM fun location => (get inputs mdb location).map (location, ·) := by
  rw [getBatch, getBinBatch_eq, mapM_map_zip]
  by_cases hall : locations.all Location.isAccount
  · rw [if_pos hall]
    refine mapM_congr fun l hl => ?_
    cases l with
    | account path => rfl
    | _ => exact absurd (List.all_eq_true.1 hall _ hl) Bool.false_ne_true
  · rw [if_neg hall]
    simp only [List.all_eq_true, not_forall] at hall
    obtain ⟨l, hl, hnot⟩ := hall
    refine (mapM_eq_none hl ?_).symm
    cases l with
    | account path => exact absurd rfl hnot
    | _ => rfl

/-- **`get_hash_batch_exn`** gives the results of `get_hash`. -/
theorem getHashBatchExn_eq (addresses : List Addr) :
    getHashBatchExn inputs mdb (addresses.map .hash) = addresses.mapM (getHash inputs mdb) := by
  have hall : (addresses.map Location.hash).all Location.isHash := by simp [Location.isHash]
  have hzip : ((addresses.map Location.hash).mapM (getBin inputs.binHash mdb)).bind (fun hashes =>
        ((addresses.map Location.hash).zip hashes).mapM (hashOrEmpty inputs mdb)) =
      (((addresses.map Location.hash).mapM (getBin inputs.binHash mdb)).map (addresses.map Location.hash).zip).bind
        fun ps => ps.mapM (hashOrEmpty inputs mdb) := by
    rw [Option.bind_map]
    rfl
  rw [getHashBatchExn, if_pos hall, getBinBatch_eq, Option.bind_eq_bind, hzip, mapM_map_zip, mapM_bind_mapM, List.mapM_map]
  refine mapM_congr fun a _ => ?_
  simp only [Function.comp, getHash]
  cases getBin inputs.binHash mdb (.hash a) with
  | none => rfl
  | some hash => cases hash <;> rfl

/-- **`location_of_account_batch`** gives the results of `location_of_account`. -/
theorem locationOfAccountBatch_eq (keys : List (AccountId Key TokenId)) :
    locationOfAccountBatch inputs mdb keys = keys.mapM fun key => (locationOfAccount inputs mdb key).map (key, ·) := by
  have hgeneric : (keys.map (accountIdLocation inputs)).all Location.isGeneric := by simp [accountIdLocation, Location.isGeneric]
  rw [locationOfAccountBatch, getGenericBatch, if_pos hgeneric, getRawBatch_eq, List.mapM_map, Option.bind_eq_bind]
  refine Option.map_bind.symm.trans ?_
  rw [mapM_bind_mapM, mapM_map_zip]
  refine mapM_congr fun key _ => ?_
  simp only [Function.comp, locationOfAccount, getLocation]
  cases mdb.getRaw (accountIdLocation inputs key) with
  | none => rfl
  | some bin =>
    cases bin with
    | none => rfl
    | some bin =>
      simp only [Option.bind_some, parseLocationOpt, parseLocation]
      cases Location.parse mdb.depth bin with
      | none => rfl
      | some parsed => cases parsed <;> rfl

/-! ### Batches of paths -/

/-- **A batch of paths** gives for each node what is made of the hashes that it asks for. -/
theorem pathBatchImpl_eq {E : Type} {expandQuery : List Location → Option (List Location)}
    {computePath : List Hash → List (Location × Bool) → Option (List Hash × List E)} {asks : Addr → List Addr}
    {g : Addr → List Hash → List E}
    (hexpand : ∀ a, expandQuery ((Location.merklePathDependencies a).map Prod.fst) = some ((asks a).map .hash))
    (hcompute : ∀ a cs rest, (asks a).mapM (getHash inputs mdb) = some cs →
      computePath (cs ++ rest) (Location.merklePathDependencies a) = some (rest, g a cs)) (locations : List Location) :
    pathBatchImpl expandQuery computePath inputs mdb locations =
      locations.mapM fun l => l.toPath.bind fun a => ((asks a).mapM (getHash inputs mdb)).map (g a) := by
  have hinner : ∀ paths : List Addr,
      (((paths.map Location.merklePathDependencies).mapM fun deps => expandQuery (deps.map Prod.fst)).bind fun queries =>
          (getHashBatchExn inputs mdb queries.flatten).bind fun hashes =>
            (foldMap computePath hashes (paths.map Location.merklePathDependencies)).bind fun r => some r.2) =
        paths.mapM fun a => ((asks a).mapM (getHash inputs mdb)).map (g a) := by
    intro paths
    have hqueries : (paths.map Location.merklePathDependencies).mapM (fun deps => expandQuery (deps.map Prod.fst)) =
        some (paths.map fun a => (asks a).map Location.hash) := by
      rw [List.mapM_map]
      exact mapM_eq_some_map fun a _ => hexpand a
    have hflatten : (paths.map fun a => (asks a).map Location.hash).flatten = (paths.map asks).flatten.map Location.hash := by
      rw [List.map_flatten, List.map_map]
      rfl
    have hfold := foldMap_flatten asks (getHash inputs mdb) (f := fun cs a => computePath cs (Location.merklePathDependencies a)) (g := fun a cs => some (g a cs))
      hcompute paths []
    simp only [List.append_nil] at hfold
    rw [hqueries, Option.bind_some, hflatten, getHashBatchExn_eq]
    have hmap : (fun a => ((asks a).mapM (getHash inputs mdb)).map (g a)) = fun a => ((asks a).mapM (getHash inputs mdb)).bind fun cs => some (g a cs) :=
      funext fun a => Option.map_eq_bind
    simp only [foldMap_map]
    rw [← Option.bind_assoc, hfold, hmap]
    cases paths.mapM fun a => ((asks a).mapM (getHash inputs mdb)).bind fun cs => some (g a cs) <;> rfl
  rw [pathBatchImpl, ← mapM_bind_mapM]
  exact congrArg _ (funext hinner)

theorem zipWith_siblings (l : List (Addr × Bool)) :
    ((l.map Prod.fst).mapM read).map (fun cs => List.zipWith (fun s h => (h, s.2)) l cs) =
      l.mapM fun s => (read s.1).map (·, s.2) := by
  induction l with
  | nil => rfl
  | cons s l ih =>
    rw [List.map_cons, List.mapM_cons, List.mapM_cons, ← ih]
    cases read s.1 with
    | none => rfl
    | some h => cases (l.map Prod.fst).mapM read <;> rfl

/-- **`merkle_path_batch`** gives the results of `merkle_path`. -/
theorem merklePathBatch_eq :
    merklePathBatch inputs mdb locations = locations.mapM fun l => l.toPath.bind (merklePath inputs mdb) := by
  have hexpand : ∀ a, some ((Location.merklePathDependencies a).map Prod.fst) = some (((siblings a).map Prod.fst).map Location.hash) := by
    intro a
    simp [Location.merklePathDependencies]
  refine (pathBatchImpl_eq (g := fun a cs => List.zipWith (fun s h => (h, s.2)) (siblings a) cs) hexpand ?_ locations).trans ?_
  · intro a cs rest hcs
    have hlen : (Location.merklePathDependencies a).length = cs.length := by
      rw [length_of_mapM hcs]
      simp [Location.merklePathDependencies]
    simp only [hlen, List.take_left, List.drop_left, map2Exn_eq hlen]
    simp [Location.merklePathDependencies, List.zipWith_map_left]
  · exact mapM_congr fun l _ => congrArg _ (funext fun a => zipWith_siblings (siblings a))

/-- The nodes on the way up. -/
def nodesUp : Addr → List Addr
  | [] => []
  | b :: a => (b :: a) :: nodesUp a

theorem length_nodesUp (a : Addr) : (nodesUp a).length = (siblings a).length := by
  induction a with
  | nil => rfl
  | cons b a ih => simp [nodesUp, siblings, ih]

theorem mapM_sibling (a : Addr) :
    ((siblings a).map fun s => Location.hash s.1).mapM Location.sibling = some ((nodesUp a).map .hash) := by
  induction a with
  | nil => rfl
  | cons b a ih =>
    rw [siblings, List.map_cons, List.mapM_cons, ih]
    simp [Location.sibling, Addr.sibling, nodesUp]

theorem zipWith_wide (a : Addr) :
    (((siblings a).map Prod.fst).mapM read).bind (fun ss => ((nodesUp a).mapM read).map fun hs =>
        List.zipWith (fun s p => wideElement s.2 p.1 p.2) (siblings a) (List.zipWith Prod.mk ss hs)) = widePathOf read a := by
  induction a with
  | nil => rfl
  | cons b a ih =>
    rw [widePathOf, ← ih, siblings, nodesUp, List.map_cons, List.mapM_cons, List.mapM_cons]
    cases read (b :: a) with
    | none =>
      cases read ((!b) :: a) with
      | none => rfl
      | some s => cases ((siblings a).map Prod.fst).mapM read <;> rfl
    | some h =>
      cases read ((!b) :: a) with
      | none => rfl
      | some s =>
        cases ((siblings a).map Prod.fst).mapM read with
        | none => rfl
        | some ss => cases (nodesUp a).mapM read <;> rfl

/-- **`wide_merkle_path_batch`** gives the wide paths. -/
theorem wideMerklePathBatch_eq :
    wideMerklePathBatch inputs mdb locations = locations.mapM fun l => l.toPath.bind (widePathOf (getHash inputs mdb)) := by
  have hexpand : ∀ a, (((Location.merklePathDependencies a).map Prod.fst).mapM Location.sibling).map
        (((Location.merklePathDependencies a).map Prod.fst) ++ ·) =
      some (((siblings a).map Prod.fst ++ nodesUp a).map Location.hash) := by
    intro a
    have hdeps : (Location.merklePathDependencies a).map Prod.fst = (siblings a).map fun s => Location.hash s.1 := by
      simp [Location.merklePathDependencies]
    rw [hdeps, mapM_sibling]
    simp
  refine (pathBatchImpl_eq (g := fun a cs => List.zipWith (fun s p => wideElement s.2 p.1 p.2) (siblings a)
    (List.zipWith Prod.mk (cs.take (siblings a).length) (cs.drop (siblings a).length))) hexpand ?_ locations).trans ?_
  · intro a cs rest hcs
    have hcsLen := length_of_mapM hcs
    rw [List.length_append, List.length_map, length_nodesUp] at hcsLen
    obtain ⟨ss, hs, rfl, hss, hhs⟩ : ∃ ss hs : List Hash, cs = ss ++ hs ∧ ss.length = (siblings a).length ∧ hs.length = (siblings a).length :=
      ⟨cs.take (siblings a).length, cs.drop (siblings a).length, (List.take_append_drop _ _).symm, by simp; omega, by simp; omega⟩
    have hdeps : (Location.merklePathDependencies a).length = (siblings a).length := by simp [Location.merklePathDependencies]
    have hboth : (List.zipWith Prod.mk ss hs).length = (siblings a).length := by simp [hss, hhs]
    have htake : ∀ xs : List Hash, (ss ++ xs).take (siblings a).length = ss := fun xs => hss ▸ List.take_left
    have hdrop : ∀ xs : List Hash, (ss ++ xs).drop (siblings a).length = xs := fun xs => hss ▸ List.drop_left
    have htake' : (hs ++ rest).take (siblings a).length = hs := hhs ▸ List.take_left
    have hdrop' : (hs ++ rest).drop (siblings a).length = rest := hhs ▸ List.drop_left
    simp only [hdeps, List.append_assoc, htake, hdrop, htake', hdrop', map2Exn_eq (hss.trans hhs.symm), Option.bind_eq_bind, Option.bind_some,
      map2Exn_eq (hdeps.trans hboth.symm)]
    simp [Location.merklePathDependencies, List.zipWith_map_left]
  · refine mapM_congr fun l _ => congrArg _ (funext fun a => ?_)
    rw [← zipWith_wide, List.mapM_append]
    cases hss : ((siblings a).map Prod.fst).mapM (getHash inputs mdb) with
    | none => rfl
    | some ss =>
      have hlen := length_of_mapM hss
      rw [List.length_map] at hlen
      cases (nodesUp a).mapM (getHash inputs mdb) with
      | none => rfl
      | some hs => simp [← hlen]

end Database

end MinaProtocol.MerkleLedger
