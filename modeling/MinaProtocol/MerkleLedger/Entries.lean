import MinaProtocol.MerkleLedger.Hashes

/-!
# MerkleLedger.Entries

A ledger as what it is for: a list of accounts with their ids, in order of creation. `Represents` says how the
store stands for such a list, and the functions that read the store give what is in the list.
-/

namespace MinaProtocol.MerkleLedger

open AddressTree Std

variable {Key TokenId Account Hash : Type} {depth i : Nat}

/-- The accounts of a ledger with their ids, in order of creation. -/
abbrev Entries (Key TokenId Account : Type) := List (AccountId Key TokenId × Account)

namespace Entries

/-- The ids of the accounts. -/
def ids (es : Entries Key TokenId Account) : List (AccountId Key TokenId) := es.map Prod.fst

/-- The hash of a leaf, where the list is filled up with empty accounts. -/
def leaf (inputs : Inputs Key TokenId Account Hash) (es : Entries Key TokenId Account) (a : Addr) : Hash :=
  (es[index a]?).elim inputs.emptyAccount fun e => inputs.hashAccount e.2

/-- An owner of a token: an account whose id gives the token; none when no account does. -/
def IsOwner (inputs : Inputs Key TokenId Account Hash) (es : Entries Key TokenId Account) (tid : TokenId) :
    Option (AccountId Key TokenId) → Prop
  | some aid => aid ∈ es.ids ∧ inputs.deriveTokenId aid = tid
  | none => ∀ aid ∈ es.ids, inputs.deriveTokenId aid ≠ tid

end Entries

/-- The location of the account at an index. -/
def locationAt (depth i : Nat) : Location := .account (ofIndex depth i)

theorem parse_locationAt : Location.parse depth ((locationAt depth i).key depth) = some (.ok (locationAt depth i)) :=
  Location.parse_account length_ofIndex

theorem serialize_locationAt : (locationAt depth i).serialize depth = some ((locationAt depth i).key depth) :=
  Location.serialize_of_fits length_ofIndex

/-- The store stands for the list. -/
structure Represents (inputs : Inputs Key TokenId Account Hash) (depth : Nat) (db : Database)
    (es : Entries Key TokenId Account) : Prop where
  depth_eq : db.depth = depth
  depth_lt : depth < 254
  fits : es.length ≤ 2 ^ depth
  nodup : es.ids.Nodup
  account : ∀ i < 2 ^ depth,
    db.stored inputs (.account (ofIndex depth i)) = (es[i]?).map fun e => inputs.binAccount.write e.2
  found : ∀ i e, es[i]? = some e → db.stored inputs (.location e.1) = some ((locationAt depth i).key depth)
  missing : ∀ aid, aid ∉ es.ids → db.stored inputs (.location aid) = none
  last : db.stored inputs .last =
    if es.length = 0 then none else some ((locationAt depth (es.length - 1)).key depth)
  tokens : ∀ pk, ∃ tids, db.tokens inputs pk = some tids ∧ ∀ tid, tid ∈ tids ↔ ⟨pk, tid⟩ ∈ es.ids
  owner : ∀ tid, ∃ owner, db.tokenOwner inputs tid = some owner ∧ es.IsOwner inputs tid owner
  hashes : Database.HashesOf inputs db (es.leaf inputs)

namespace Represents

variable {inputs : Inputs Key TokenId Account Hash} {depth : Nat} {db : Database} {es : Entries Key TokenId Account}
  {i : Nat} {e : AccountId Key TokenId × Account} {aid : AccountId Key TokenId}

variable (hr : Represents inputs depth db es) {a : Addr}

include hr

theorem lt_of_get (hi : es[i]? = some e) : i < 2 ^ depth := by
  have hlt := (List.getElem?_eq_some_iff.1 hi).1
  have hfits := hr.fits
  omega

/-! ### Reading -/

theorem getLocation_found (hi : es[i]? = some e) : db.getLocation inputs e.1 = some (.ok (locationAt depth i)) := by
  have hraw : db.getRaw (Database.accountIdLocation inputs e.1) = some (some ((locationAt depth i).key depth)) := by
    rw [← hr.found i e hi]
    exact Database.getRaw_slot (s := .location e.1) trivial
  rw [Database.getLocation, hraw, Option.bind_some, Database.parseLocation, hr.depth_eq, parse_locationAt]
  rfl

theorem getLocation_missing (hnot : aid ∉ es.ids) :
    db.getLocation inputs aid = some (.error .accountLocationNotFound) := by
  have hraw : db.getRaw (Database.accountIdLocation inputs aid) = some none := by
    rw [← hr.missing aid hnot]
    exact Database.getRaw_slot (s := .location aid) trivial
  rw [Database.getLocation, hraw]
  rfl

/-- **`location_of_account`**, of an account. -/
theorem locationOfAccount_found (hi : es[i]? = some e) :
    db.locationOfAccount inputs e.1 = some (some (locationAt depth i)) := by
  rw [Database.locationOfAccount, hr.getLocation_found hi]
  rfl

theorem locationOfAccount_missing (hnot : aid ∉ es.ids) : db.locationOfAccount inputs aid = some none := by
  rw [Database.locationOfAccount, hr.getLocation_missing hnot]
  rfl

/-- **`get`**, at an index. -/
theorem get_eq (hi : i < 2 ^ depth) : db.get inputs (locationAt depth i) = some ((es[i]?).map Prod.snd) := by
  have hstored : db.stored inputs (.account (ofIndex depth i)) = ((es[i]?).map Prod.snd).map inputs.binAccount.write := by
    rw [Option.map_map]
    exact hr.account i hi
  exact Database.getBin_slot (s := .account (ofIndex depth i)) (by rw [hr.depth_eq]; exact length_ofIndex) hstored

/-- **`last_filled`**. -/
theorem lastFilled_eq :
    db.lastFilled = some (if es.length = 0 then none else some (locationAt depth (es.length - 1))) := by
  have hraw : db.getRaw Database.lastLocationKey = some (db.stored inputs .last) :=
    Database.getRaw_slot (s := .last) trivial
  rw [Database.lastFilled, Database.lastLocation, hraw, hr.last]
  by_cases hempty : es.length = 0
  · rw [if_pos hempty, if_pos hempty]
    rfl
  · rw [if_neg hempty, if_neg hempty]
    simp only [Option.bind_eq_bind, Option.bind_some]
    rw [hr.depth_eq, parse_locationAt]
    rfl

theorem getHash_eq (ha : a.length ≤ depth) :
    db.getHash inputs a = some (hashAt inputs.merge (es.leaf inputs) (depth - a.length) a) := by
  rw [hr.hashes a (by rw [hr.depth_eq]; exact ha), hr.depth_eq]

/-- **`merkle_root`**. -/
theorem merkleRoot_eq : db.merkleRoot inputs = some (hashAt inputs.merge (es.leaf inputs) depth []) :=
  hr.getHash_eq (Nat.zero_le _)

/-- **`merkle_path` implies the root**. -/
theorem merklePath_eq (ha : a.length ≤ depth) : ∃ path, db.merklePath inputs a = some path ∧ path.map Prod.snd = a ∧
      climb inputs.merge (hashAt inputs.merge (es.leaf inputs) (depth - a.length) a) (depth - a.length) path =
        hashAt inputs.merge (es.leaf inputs) depth [] := by
  have hclimb := climb_siblings (a := a) inputs.merge (es.leaf inputs)
    (fun a => hashAt inputs.merge (es.leaf inputs) (depth - a.length) a) depth (fun _ _ => rfl) ha
  refine ⟨_, ?_, (List.map_map.trans (map_snd_siblings a)), hclimb⟩
  refine mapM_eq_some_map fun s hs => ?_
  have hlen := length_le_of_mem_siblings hs
  rw [hr.getHash_eq (hlen.trans ha)]
  rfl

omit hr

/-! ### Reading by indexes -/

section Indexes

/-- **`num_accounts`**. -/
theorem numAccounts_eq (hr : Represents inputs depth db es) (hdepth : depth ≤ 61) :
    db.numAccounts inputs = some (es.length : Int) := by
  have hlast := hr.lastFilled_eq
  rw [Database.lastFilled] at hlast
  rw [Database.numAccounts, hlast]
  have hfits := hr.fits
  by_cases hempty : es.length = 0
  · rw [if_pos hempty, hempty]
    rfl
  · have hpow : 2 ^ depth ≤ 2 ^ 61 := Nat.pow_le_pow_right (by omega) hdepth
    have hindex : Addr.toInt inputs.lslBeyond (ofIndex depth (es.length - 1)) = (index (ofIndex depth (es.length - 1)) : Int) :=
      Addr.toInt_eq inputs.lslBeyond (by simpa using hdepth)
    rw [index_ofIndex (by omega)] at hindex
    rw [if_neg hempty]
    simp only [Option.bind_eq_bind, Option.bind_some, locationAt, Location.toPath]
    have hsucc : ((es.length - 1 : Nat) : Int) + 1 = (es.length : Nat) := by omega
    rw [hindex, hsucc, Addr.wrap63_natCast (by omega)]

/-- **`index_of_account_exn`**, of an account. -/
theorem indexOfAccountExn_found (hr : Represents inputs depth db es) (hdepth : depth ≤ 61) (hi : es[i]? = some e) :
    db.indexOfAccountExn inputs e.1 = some (i : Int) := by
  have hindex : Addr.toInt inputs.lslBeyond (ofIndex depth i) = (index (ofIndex depth i) : Int) :=
    Addr.toInt_eq inputs.lslBeyond (by simpa using hdepth)
  rw [index_ofIndex (hr.lt_of_get hi)] at hindex
  rw [Database.indexOfAccountExn, hr.locationOfAccount_found hi]
  simp only [Option.bind_eq_bind, Option.bind_some, locationAt, Location.toPath, hindex]

theorem indexOfAccountExn_missing (hr : Represents inputs depth db es) (hnot : aid ∉ es.ids) :
    db.indexOfAccountExn inputs aid = none := by
  rw [Database.indexOfAccountExn, hr.locationOfAccount_missing hnot]
  rfl

/-- **`get_at_index_exn`**. -/
theorem getAtIndexExn_eq (hr : Represents inputs depth db es) (hdepth : depth ≤ 61) (i : Nat) :
    db.getAtIndexExn inputs (i : Int) = (es[i]?).map Prod.snd := by
  rw [Database.getAtIndexExn, hr.depth_eq, Addr.ofIntExn_natCast hdepth]
  by_cases hi : i < 2 ^ depth
  · have hget := hr.get_eq hi
    rw [locationAt] at hget
    rw [if_pos hi]
    simp only [Option.bind_eq_bind, Option.bind_some, hget]
  · have hnone : es[i]? = none := by
      have hfits := hr.fits
      exact List.getElem?_eq_none (by omega)
    rw [if_neg hi, hnone]
    rfl

/-- **`merkle_path_at_index_exn` implies the root**. -/
theorem merklePathAtIndexExn_eq (hr : Represents inputs depth db es) (hdepth : depth ≤ 61) (hi : i < 2 ^ depth) :
    ∃ path, db.merklePathAtIndexExn inputs (i : Int) = some path ∧ path.map Prod.snd = ofIndex depth i ∧
      climb inputs.merge ((es[i]?).elim inputs.emptyAccount fun e => inputs.hashAccount e.2) 0 path =
        hashAt inputs.merge (es.leaf inputs) depth [] := by
  obtain ⟨path, hpath, hdirections, hclimb⟩ := hr.merklePath_eq (a := ofIndex depth i) length_ofIndex.le
  rw [length_ofIndex, Nat.sub_self, hashAt, Entries.leaf, index_ofIndex hi] at hclimb
  refine ⟨path, ?_, hdirections, hclimb⟩
  rw [Database.merklePathAtIndexExn, hr.depth_eq, Addr.ofIntExn_natCast hdepth, if_pos hi]
  exact hpath

end Indexes

end Represents

end MinaProtocol.MerkleLedger
