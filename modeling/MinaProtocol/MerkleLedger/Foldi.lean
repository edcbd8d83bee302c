import MinaProtocol.MerkleLedger.BatchAgrees

/-!
# MerkleLedger.Foldi

Folds over the accounts of a ledger. A database goes through the indices up to the last one, without those of
the accounts that are to be ignored; a mask lets the ledger below it ignore the accounts that the mask has, and
then goes through its own.

The database numbers the accounts that are left, and takes the number of an account for its index. So
the address that comes with an account is its own only if no ignored account is before it.
-/

namespace MinaProtocol.MerkleLedger

open AddressTree Std

variable {Key TokenId Account Hash : Type} {db : Database} {depth i : Nat}

/-! ### Folds -/

/-- `last_location_address`. -/
def Database.lastLocationAddress (mdb : Database) : Option (Option Addr) := do
  match ← mdb.lastLocation with
  | none => some none
  | some location => location.toPath.map some

theorem Represents.lastLocationAddress_eq {inputs : Inputs Key TokenId Account Hash}
    {es : Entries Key TokenId Account} (hr : Represents inputs depth db es) :
    db.lastLocationAddress = some (if es.length = 0 then none else some (ofIndex depth (es.length - 1))) := by
  have hlast := hr.lastFilled_eq
  rw [Database.lastFilled] at hlast
  rw [Database.lastLocationAddress, hlast]
  by_cases hempty : es.length = 0
  · simp [hempty]
  · simp [hempty, locationAt, Location.toPath]

theorem Entries.getElem?_ids {Key TokenId Account : Type} {es : Entries Key TokenId Account}
    {e : AccountId Key TokenId × Account} (hi : es[i]? = some e) : es.ids[i]? = some e.1 := by
  rw [Entries.ids, List.getElem?_map, hi, Option.map_some]

theorem Entries.eq_of_ids {Key TokenId Account : Type} {es : Entries Key TokenId Account} {j : Nat} {aid : AccountId Key TokenId}
    (hnodup : es.ids.Nodup) (hi : es.ids[i]? = some aid) (hj : es.ids[j]? = some aid) : i = j :=
  (List.getElem?_inj (List.getElem?_eq_some_iff.1 hi).1 hnodup).1 (hi.trans hj.symm)

theorem Represents.exists_of_indexOfAccountExn {Key TokenId Account Hash : Type} {inputs : Inputs Key TokenId Account Hash}
    {es : Entries Key TokenId Account} (hr : Represents inputs depth db es) (hdepth : depth ≤ 61)
    {aid : AccountId Key TokenId} {n : Int} (h : db.indexOfAccountExn inputs aid = some n) :
    ∃ (i : Nat) (e : AccountId Key TokenId × Account), es[i]? = some e ∧ e.1 = aid ∧ (i : Int) = n := by
  by_cases hmem : aid ∈ es.ids
  · obtain ⟨i, hi⟩ := List.mem_iff_getElem?.1 hmem
    obtain ⟨e, he, rfl⟩ := Option.map_eq_some_iff.1 ((List.getElem?_map ..).symm.trans hi)
    exact ⟨i, e, he, rfl, Option.some.inj ((hr.indexOfAccountExn_found hdepth he).symm.trans h)⟩
  · rw [hr.indexOfAccountExn_missing hmem] at h
    exact absurd h.symm (Option.some_ne_none n)

variable [Ord Key] [Ord TokenId] [TransOrd Key] [TransOrd TokenId]

/-- `Account_id.Set.t`. -/
abbrev AccountIdSet (Key TokenId : Type) [Ord Key] [Ord TokenId] := ExtTreeSet (AccountId Key TokenId)

namespace Database

variable (inputs : Inputs Key TokenId Account Hash)

/-- The index of an account to ignore, or one that no account has. -/
def ignoredIndex (t : Database) (accountId : AccountId Key TokenId) : Int :=
  (indexOfAccountExn inputs t accountId).getD (-1)

/-- The step of the fold, on an account and its number. -/
def foldiStep {B : Type} (t : Database) (f : Addr → B → Account → B) (accum : B) (p : Account × Nat) : Option B :=
  (Addr.ofIntExn inputs.lslBeyond t.depth p.2).map fun addr => f addr accum p.1

/-- `foldi_with_ignored_accounts`. -/
def foldiWithIgnoredAccounts {B : Type} (t : Database)
    (ignoredAccounts : AccountIdSet Key TokenId) (init : B) (f : Addr → B → Account → B) : Option B := do
  match ← t.lastLocationAddress with
  | none => some init
  | some lastAddr => do
    let ignoredIndices := ignoredAccounts.toList.map (ignoredIndex inputs t)
    let last := Addr.toInt inputs.lslBeyond lastAddr
    let indices := (List.range (last + 1).toNat).filter fun (loc : Nat) => !ignoredIndices.contains (loc : Int)
    let accounts ← indices.mapM fun (loc : Nat) => getAtIndexExn inputs t (loc : Int)
    accounts.zipIdx.foldlM (foldiStep inputs t f) init

/-- `foldi`. -/
def foldi {B : Type} (t : Database) (init : B) (f : Addr → B → Account → B) : Option B :=
  foldiWithIgnoredAccounts inputs t ∅ init f

end Database

namespace Mask

variable (inputs : Inputs Key TokenId Account Hash)

/-- The ids of the accounts of a mask. -/
def maskAccounts (maps : Maps Key TokenId Account Hash) : AccountIdSet Key TokenId :=
  maps.accounts.toList.foldl (fun ids p => ids.insert (inputs.identifier p.2)) ∅

/-- The step of the fold over the accounts of a mask. -/
def foldiStep {B : Type} (ignoredAccounts : AccountIdSet Key TokenId)
    (f : Addr → B → Account → B) (accum : B) (p : Location × Account) : Option B :=
  if ignoredAccounts.contains (inputs.identifier p.2) then some accum
  else p.1.toPath.map fun address => f address accum p.2

/-- `foldi_with_ignored_accounts`, over that of the ledger that the mask reads. -/
def foldiWithIgnoredAccounts {B : Type} (t : Mask Key TokenId Account Hash)
    (base : AccountIdSet Key TokenId → B → (Addr → B → Account → B) → Option B) (ignoredAccounts : AccountIdSet Key TokenId)
    (init : B) (f : Addr → B → Account → B) : Option B := do
  t.assertIsAttached
  let (maps, _) ← t.mapsAndAncestor
  let parentResult ← base (ignoredAccounts ∪ maskAccounts inputs maps) init f
  maps.accounts.toList.foldlM (foldiStep inputs ignoredAccounts f) parentResult

/-- `foldi`. -/
def foldi {B : Type} (t : Mask Key TokenId Account Hash)
    (base : AccountIdSet Key TokenId → B → (Addr → B → Account → B) → Option B) (init : B) (f : Addr → B → Account → B) : Option B := do
  t.assertIsAttached
  foldiWithIgnoredAccounts inputs t base ∅ init f

end Mask

/-- A ledger with the ledgers below it that it reads. -/
inductive Chain (Key TokenId Account Hash : Type) [Ord Key] [Ord TokenId] where
  | database (mdb : Database)
  | mask (t : Mask Key TokenId Account Hash) (ancestor : Chain Key TokenId Account Hash)

namespace Chain

def any (inputs : Inputs Key TokenId Account Hash) : Chain Key TokenId Account Hash → AnyLedger Key TokenId Account Hash
  | .database mdb => mdb.any inputs
  | .mask t _ => t.any inputs

def foldiWithIgnoredAccounts {B : Type} (inputs : Inputs Key TokenId Account Hash) :
    Chain Key TokenId Account Hash → AccountIdSet Key TokenId → B → (Addr → B → Account → B) → Option B
  | .database mdb => mdb.foldiWithIgnoredAccounts inputs
  | .mask t ancestor => t.foldiWithIgnoredAccounts inputs (ancestor.foldiWithIgnoredAccounts inputs)

def foldi {B : Type} (inputs : Inputs Key TokenId Account Hash) :
    Chain Key TokenId Account Hash → B → (Addr → B → Account → B) → Option B
  | .database mdb => mdb.foldi inputs
  | .mask t ancestor => t.foldi inputs (ancestor.foldiWithIgnoredAccounts inputs)

/-- The database that the chain ends with. -/
def bottom : Chain Key TokenId Account Hash → Database
  | .database mdb => mdb
  | .mask _ ancestor => ancestor.bottom

/-- An account with this id is in one of the masks. -/
def Masked (inputs : Inputs Key TokenId Account Hash) : Chain Key TokenId Account Hash → AccountId Key TokenId → Prop
  | .database _, _ => False
  | .mask t ancestor, aid =>
    (∃ p, t.mapsAndAncestor = some p ∧ ∃ (l : Location) (account : Account), p.1.accounts[l]? = some account ∧ inputs.identifier account = aid) ∨
      ancestor.Masked inputs aid

end Chain

/-! ### What a chain shows -/

variable (inputs : Inputs Key TokenId Account Hash)

/-- A mask that reads a ledger which shows some accounts, and itself shows these and more: each account that is in
the mask is at the location that it has for its id, and each that is not there is shown below. -/
structure Mask.Overlays (depth : Nat) (t : Mask Key TokenId Account Hash)
    (below : AnyLedger Key TokenId Account Hash) (es es' : Entries Key TokenId Account) (maps : Maps Key TokenId Account Hash) : Prop where
  attached : t.assertIsAttached = some ()
  view : t.mapsAndAncestor = some (maps, below)
  last : t.currentLocation = if es'.length = 0 then none else some (locationAt depth (es'.length - 1))
  fits : es'.length ≤ 2 ^ depth
  nodup : es'.ids.Nodup
  extends_ids : es.ids <+: es'.ids
  account : ∀ (l : Location) (account : Account), maps.accounts[l]? = some account →
    ∃ i : Nat, l = locationAt depth i ∧ es'[i]? = some (inputs.identifier account, account)
  noAccount : ∀ (i : Nat) (e : AccountId Key TokenId × Account), es'[i]? = some e → maps.accounts[locationAt depth i]? = none →
    es[i]? = some e
  location : ∀ (aid : AccountId Key TokenId) (l : Location), maps.locations[aid]? = some l →
    ∃ (i : Nat) (e : AccountId Key TokenId × Account), l = locationAt depth i ∧ es'[i]? = some e ∧ e.1 = aid
  noLocation : ∀ aid ∈ es'.ids, maps.locations[aid]? = none → aid ∈ es.ids

/-- **The accounts that a chain shows**, in the order of their locations. -/
inductive Shows (inputs : Inputs Key TokenId Account Hash) (depth : Nat) :
    Chain Key TokenId Account Hash → Entries Key TokenId Account → Prop
  | database {mdb : Database} {es : Entries Key TokenId Account} (h : Represents inputs depth mdb es)
      (hid : ∀ e ∈ es, inputs.identifier e.2 = e.1) : Shows inputs depth (.database mdb) es
  | mask {t : Mask Key TokenId Account Hash} {ancestor : Chain Key TokenId Account Hash} {es es' : Entries Key TokenId Account}
      {maps : Maps Key TokenId Account Hash} (hbelow : Shows inputs depth ancestor es)
      (h : t.Overlays inputs depth (ancestor.any inputs) es es' maps) : Shows inputs depth (.mask t ancestor) es'

variable (chain : Chain Key TokenId Account Hash) (ignored : AccountIdSet Key TokenId)

/-- `foldi_with_ignored_accounts` has visited these accounts, in this order. -/
def Chain.Visits (visits : List (Addr × Account)) : Prop :=
  ∀ (B : Type) (init : B) (f : Addr → B → Account → B),
    chain.foldiWithIgnoredAccounts inputs ignored init f = some (visits.foldl (fun accum p => f p.1 accum p.2) init)

/-- Each account that is not ignored is visited once, at the address where it is found. -/
def Chain.VisitsEachOnce : Prop :=
  ∃ visits, chain.Visits inputs ignored visits ∧ visits.Nodup ∧ ∀ (a : Addr) (account : Account), (a, account) ∈ visits ↔
    ∃ aid : AccountId Key TokenId, aid ∉ ignored ∧ (chain.any inputs).locationOfAccount aid = some (some (.account a)) ∧
      (chain.any inputs).get (.account a) = some (some account)

/-- In the database, no account that is left is after one that is ignored, or that a mask has. -/
def Chain.LeftFirst : Prop :=
  ∀ (aid aid' : AccountId Key TokenId) (i j : Int), chain.bottom.indexOfAccountExn inputs aid = some i →
    chain.bottom.indexOfAccountExn inputs aid' = some j → i < j → aid ∈ ignored ∨ chain.Masked inputs aid →
      aid' ∈ ignored ∨ chain.Masked inputs aid'

/-! ### A database -/

section Database

variable {inputs : Inputs Key TokenId Account Hash} {depth : Nat} {db : Database} {es : Entries Key TokenId Account}
  {ignored : AccountIdSet Key TokenId}

/-- The accounts of a database that are not ignored. -/
def Entries.left (es : Entries Key TokenId Account) (ignored : AccountIdSet Key TokenId) : Entries Key TokenId Account :=
  es.filter fun e => !ignored.contains e.1

/-- The accounts that are left, with their numbers for addresses. -/
def Entries.numbered (depth : Nat) (es : Entries Key TokenId Account) (ignored : AccountIdSet Key TokenId) : List (Addr × Account) :=
  (es.left ignored).zipIdx.map fun p => (ofIndex depth p.2, p.1.2)

variable [LawfulEqOrd Key] [LawfulEqOrd TokenId]

theorem Represents.mem_ignoredIndices (hr : Represents inputs depth db es) (hdepth : depth ≤ 61) {i : Nat}
    {e : AccountId Key TokenId × Account} (hi : es[i]? = some e) :
    (i : Int) ∈ ignored.toList.map (db.ignoredIndex inputs) ↔ e.1 ∈ ignored := by
  have hindex : db.ignoredIndex inputs e.1 = i := by rw [Database.ignoredIndex, hr.indexOfAccountExn_found hdepth hi, Option.getD_some]
  constructor
  · intro h
    obtain ⟨aid, haid, hindex'⟩ := List.mem_map.1 h
    by_cases hmem : aid ∈ es.ids
    · obtain ⟨e', he', rfl⟩ := List.mem_map.1 hmem
      obtain ⟨j, hj⟩ := List.mem_iff_getElem?.1 he'
      rw [Database.ignoredIndex, hr.indexOfAccountExn_found hdepth hj, Option.getD_some, Nat.cast_inj] at hindex'
      subst hindex'
      obtain rfl := Option.some.inj (hi.symm.trans hj)
      exact ExtTreeSet.mem_toList.1 haid
    · rw [Database.ignoredIndex, hr.indexOfAccountExn_missing hmem, Option.getD_none] at hindex'
      omega
  · intro h
    exact List.mem_map.2 ⟨e.1, ExtTreeSet.mem_toList.2 h, hindex⟩

/-- **A fold over a database** visits the accounts that are left, each with its number for an address. -/
theorem Represents.visits (hr : Represents inputs depth db es) (hdepth : depth ≤ 61) (ignored : AccountIdSet Key TokenId) :
    (Chain.database db).Visits inputs ignored (es.numbered depth ignored) := by
  intro B init f
  change db.foldiWithIgnoredAccounts inputs ignored init f = _
  rw [Database.foldiWithIgnoredAccounts, hr.lastLocationAddress_eq]
  by_cases hempty : es.length = 0
  · obtain rfl := List.length_eq_zero_iff.1 hempty
    rfl
  · have hfits := hr.fits
    have hlast : Addr.toInt inputs.lslBeyond (ofIndex depth (es.length - 1)) = ((es.length - 1 : Nat) : Int) := by
      rw [Addr.toInt_eq inputs.lslBeyond (by simpa using hdepth), index_ofIndex (by omega)]
    have hlen : (((es.length - 1 : Nat) : Int) + 1).toNat = es.length := by omega
    have haccounts := mapM_filter_range (q := fun e => !ignored.contains e.1) (g := Prod.snd)
      (p := fun loc => !(ignored.toList.map (db.ignoredIndex inputs)).contains (loc : Int))
      (f := fun loc => db.getAtIndexExn inputs (loc : Int)) fun i e (hi : es[i]? = some e) => by
        refine ⟨?_, ?_⟩
        · congr 1
          rw [Bool.eq_iff_iff, List.contains_iff_mem, hr.mem_ignoredIndices hdepth hi, ExtTreeSet.mem_iff_contains]
        · rw [hr.getAtIndexExn_eq hdepth, hi, Option.map_some]
    simp only [Option.bind_eq_bind, Option.bind_some, if_neg hempty, hlast, hlen, haccounts]
    rw [foldlM_eq_some_foldl (g := fun accum p => f (ofIndex depth p.2) accum p.1)]
    · rw [Entries.numbered, Entries.left, List.zipIdx_map, List.foldl_map, List.foldl_map]
      rfl
    · intro p hp s
      have hp2 : p.2 < 2 ^ depth := by
        have hlt := List.snd_lt_of_mem_zipIdx hp
        have hle := List.length_filter_le (fun e => !ignored.contains e.1) es
        rw [List.length_map] at hlt
        omega
      rw [Database.foldiStep, hr.depth_eq, Addr.ofIntExn_natCast hdepth, if_pos hp2, Option.map_some]

end Database

/-! ### What a chain shows is read -/

section Shows

variable {inputs : Inputs Key TokenId Account Hash} {depth : Nat} {t : Mask Key TokenId Account Hash}
  {below : AnyLedger Key TokenId Account Hash} {chain : Chain Key TokenId Account Hash} {es es' : Entries Key TokenId Account}
  {maps : Maps Key TokenId Account Hash} {i j : Nat} {e e' : AccountId Key TokenId × Account} {aid : AccountId Key TokenId}
  {ignored all : AccountIdSet Key TokenId} {base : Entries Key TokenId Account} {own : List (Addr × Account)}
  {B : Type}

theorem locationAt_inj (hi : i < 2 ^ depth) (hj : j < 2 ^ depth) (h : locationAt depth i = locationAt depth j) : i = j :=
  ofIndex_inj hi hj (Location.account.inj h)

namespace Mask.Overlays

variable (h : t.Overlays inputs depth below es es' maps)

include h

theorem lt_of_get (hi : es'[i]? = some e) : i < 2 ^ depth :=
  (List.getElem?_eq_some_iff.1 hi).1.trans_le h.fits

theorem ids_of_below (hj : es.ids[j]? = some aid) : es'.ids[j]? = some aid := by
  obtain ⟨rest, hrest⟩ := h.extends_ids
  rw [← hrest, List.getElem?_append_left (List.getElem?_eq_some_iff.1 hj).1, hj]

theorem eq_of_account {account : Account}
    (haccount : maps.accounts[locationAt depth i]? = some account) (hi : i < 2 ^ depth) :
    es'[i]? = some (inputs.identifier account, account) := by
  obtain ⟨j, hl, hj⟩ := h.account _ _ haccount
  rw [locationAt_inj hi (h.lt_of_get hj) hl]
  exact hj

/-- **`get`**, at the location of an account. -/
theorem get_eq (hi : es'[i]? = some e) (hbelow : es[i]? = some e → below.get (locationAt depth i) = some (some e.2)) :
    t.get (locationAt depth i) = some (some e.2) := by
  rw [Mask.get, h.attached, h.view]
  simp only [Option.bind_eq_bind, Option.bind_some]
  cases haccount : maps.accounts[locationAt depth i]? with
  | some account =>
    obtain rfl := Option.some.inj (hi.symm.trans (h.eq_of_account haccount (h.lt_of_get hi)))
    rfl
  | none =>
    have hlt := (List.getElem?_eq_some_iff.1 hi).1
    have hfits := h.fits
    have hempty : isEmpty t.currentLocation (locationAt depth i) = some false := by
      have hright := Addr.isFurtherRight_eq (a := ofIndex depth (es'.length - 1)) (b := ofIndex depth i) (by simp)
      rw [h.last, if_neg (by omega)]
      change some (Addr.isFurtherRight (ofIndex depth (es'.length - 1)) (ofIndex depth i)) = some false
      rw [hright, index_ofIndex (by omega), index_ofIndex (by omega)]
      simp
      omega
    simp [hempty, hbelow (h.noAccount i e hi haccount)]

/-- **`location_of_account`**, of an account. -/
theorem locationOfAccount_found (hi : es'.ids[i]? = some aid)
    (hbelow : ∀ j : Nat, es.ids[j]? = some aid → below.locationOfAccount aid = some (some (locationAt depth j))) :
    t.locationOfAccount aid = some (some (locationAt depth i)) := by
  rw [Mask.locationOfAccount, h.attached, h.view]
  simp only [Option.bind_eq_bind, Option.bind_some]
  cases hlocation : maps.locations[aid]? with
  | some l =>
    obtain ⟨j, e, rfl, hj, rfl⟩ := h.location _ _ hlocation
    rw [Entries.eq_of_ids h.nodup hi (Entries.getElem?_ids hj)]
  | none =>
    obtain ⟨j, hj⟩ := List.mem_iff_getElem?.1 (h.noLocation aid (List.mem_of_getElem? hi) hlocation)
    rw [Entries.eq_of_ids h.nodup hi (h.ids_of_below hj)]
    exact hbelow j hj

theorem locationOfAccount_missing (hnot : aid ∉ es'.ids)
    (hbelow : aid ∉ es.ids → below.locationOfAccount aid = some none) : t.locationOfAccount aid = some none := by
  rw [Mask.locationOfAccount, h.attached, h.view]
  simp only [Option.bind_eq_bind, Option.bind_some]
  cases hlocation : maps.locations[aid]? with
  | some l =>
    obtain ⟨j, e, rfl, hj, rfl⟩ := h.location _ _ hlocation
    exact absurd (List.mem_of_getElem? (Entries.getElem?_ids hj)) hnot
  | none => exact hbelow fun hmem => hnot (h.extends_ids.subset hmem)

omit h

end Mask.Overlays

namespace Shows

variable (h : Shows inputs depth chain es)

include h

theorem nodup : es.ids.Nodup := by
  cases h with
  | database h => exact h.nodup
  | mask _ h => exact h.nodup

theorem fits : es.length ≤ 2 ^ depth := by
  cases h with
  | database h => exact h.fits
  | mask _ h => exact h.fits

/-- **Each account has the id that it is found by.** -/
theorem identifier : ∀ (i : Nat) (e : AccountId Key TokenId × Account), es[i]? = some e → inputs.identifier e.2 = e.1 := by
  induction h with
  | database _ hid => exact fun i e hi => hid e (List.mem_of_getElem? hi)
  | @mask t ancestor es es' maps _ h ih =>
    intro i e hi
    cases haccount : maps.accounts[locationAt depth i]? with
    | some account =>
      obtain rfl := Option.some.inj (hi.symm.trans (h.eq_of_account haccount (h.lt_of_get hi)))
      rfl
    | none => exact ih i e (h.noAccount i e hi haccount)

theorem get_eq : ∀ (i : Nat) (e : AccountId Key TokenId × Account), es[i]? = some e →
    (chain.any inputs).get (locationAt depth i) = some (some e.2) := by
  induction h with
  | database h _ =>
    intro i e hi
    have hget := h.get_eq (h.lt_of_get hi)
    rwa [hi] at hget
  | mask _ h ih => exact fun i e hi => h.get_eq hi (ih i e)

theorem locationOfAccount_found : ∀ (i : Nat) (aid : AccountId Key TokenId), es.ids[i]? = some aid →
    (chain.any inputs).locationOfAccount aid = some (some (locationAt depth i)) := by
  induction h with
  | @database mdb es h _ =>
    intro i aid hi
    obtain ⟨e, he, rfl⟩ := Option.map_eq_some_iff.1 ((List.getElem?_map ..).symm.trans hi)
    exact h.locationOfAccount_found he
  | mask _ h ih => exact fun i aid hi => h.locationOfAccount_found hi fun j hj => ih j aid hj

theorem locationOfAccount_missing : ∀ aid, aid ∉ es.ids → (chain.any inputs).locationOfAccount aid = some none := by
  induction h with
  | database h _ => exact fun aid hnot => h.locationOfAccount_missing hnot
  | mask _ h ih => exact fun aid hnot => h.locationOfAccount_missing hnot (ih aid)

/-- **What is found**: the accounts that are shown. -/
theorem found_iff (aid : AccountId Key TokenId) (a : Addr) (account : Account) :
    (chain.any inputs).locationOfAccount aid = some (some (.account a)) ∧ (chain.any inputs).get (.account a) = some (some account) ↔
      ∃ i : Nat, es[i]? = some (aid, account) ∧ a = ofIndex depth i := by
  constructor
  · rintro ⟨hlocation, hget⟩
    by_cases hmem : aid ∈ es.ids
    · obtain ⟨i, hi⟩ := List.mem_iff_getElem?.1 hmem
      obtain ⟨e, he, rfl⟩ := Option.map_eq_some_iff.1 ((List.getElem?_map ..).symm.trans hi)
      have ha : locationAt depth i = .account a := by
        rw [h.locationOfAccount_found i _ hi] at hlocation
        exact Option.some.inj (Option.some.inj hlocation)
      obtain rfl := Location.account.inj ha
      have haccount : e.2 = account := by
        rw [← ha, h.get_eq i e he] at hget
        exact Option.some.inj (Option.some.inj hget)
      exact ⟨i, by rw [he, ← haccount], rfl⟩
    · rw [h.locationOfAccount_missing aid hmem] at hlocation
      simp at hlocation
  · rintro ⟨i, hi, rfl⟩
    exact ⟨h.locationOfAccount_found i aid (Entries.getElem?_ids hi), h.get_eq i _ hi⟩

omit h

end Shows

/-! ### The accounts of a mask -/

/-- An account of a mask that is visited, with its address. -/
def Mask.visited (inputs : Inputs Key TokenId Account Hash) (ignored : AccountIdSet Key TokenId) (p : Location × Account) :
    Option (Addr × Account) :=
  if ignored.contains (inputs.identifier p.2) then none else p.1.toPath.map (·, p.2)

/-- The accounts of a mask that are visited. -/
def Maps.visits (inputs : Inputs Key TokenId Account Hash) (maps : Maps Key TokenId Account Hash)
    (ignored : AccountIdSet Key TokenId) : List (Addr × Account) :=
  maps.accounts.toList.filterMap (Mask.visited inputs ignored)

theorem Mask.foldlM_foldiStep {f : Addr → B → Account → B}
    {ps : List (Location × Account)} (hps : ∀ p ∈ ps, ∃ a, p.1 = .account a) (init : B) :
    ps.foldlM (foldiStep inputs ignored f) init =
      some ((ps.filterMap (visited inputs ignored)).foldl (fun accum p => f p.1 accum p.2) init) := by
  induction ps generalizing init with
  | nil => rfl
  | cons p ps ih =>
    obtain ⟨a, ha⟩ := hps p List.mem_cons_self
    have hrest := fun init => ih (fun q hq => hps q (List.mem_cons_of_mem _ hq)) init
    rw [List.foldlM_cons, foldiStep]
    cases hignored : ignored.contains (inputs.identifier p.2) with
    | true => simp [visited, hignored, hrest]
    | false => simp [visited, hignored, hrest, ha, Location.toPath]

theorem Mask.Overlays.mem_visits (h : t.Overlays inputs depth below es es' maps) {a : Addr}
    {account : Account} : (a, account) ∈ maps.visits inputs ignored ↔
      ∃ i : Nat, a = ofIndex depth i ∧ maps.accounts[locationAt depth i]? = some account ∧
        es'[i]? = some (inputs.identifier account, account) ∧ inputs.identifier account ∉ ignored := by
  simp only [Maps.visits, List.mem_filterMap, Mask.visited]
  constructor
  · rintro ⟨⟨l, account'⟩, hmem, hvisited⟩
    rw [ExtTreeMap.mem_toList_iff_getElem?_eq_some] at hmem
    obtain ⟨i, rfl, hi⟩ := h.account _ _ hmem
    split at hvisited
    · exact absurd hvisited.symm (Option.some_ne_none _)
    · rename_i hnot
      simp only [locationAt, Location.toPath, Option.map_some, Option.some.injEq, Prod.mk.injEq] at hvisited
      obtain ⟨rfl, rfl⟩ := hvisited
      exact ⟨i, rfl, hmem, hi, hnot⟩
  · rintro ⟨i, rfl, hmem, -, hnot⟩
    refine ⟨(locationAt depth i, account), ExtTreeMap.mem_toList_iff_getElem?_eq_some.2 hmem, ?_⟩
    rw [if_neg (by simpa using hnot)]
    rfl

theorem Mask.Overlays.nodup_visits (h : t.Overlays inputs depth below es es' maps) (ignored : AccountIdSet Key TokenId) :
    (maps.visits inputs ignored).Nodup := by
  have hkeys : maps.accounts.toList.Pairwise fun p q => ∃ i j, p.1 = locationAt depth i ∧ q.1 = locationAt depth j ∧ p.1 ≠ q.1 := by
    refine ExtTreeMap.distinct_keys_toList.imp_of_mem fun {p q} hp hq hne => ?_
    obtain ⟨i, hi, -⟩ := h.account _ _ (ExtTreeMap.mem_toList_iff_getElem?_eq_some.1 hp)
    obtain ⟨j, hj, -⟩ := h.account _ _ (ExtTreeMap.mem_toList_iff_getElem?_eq_some.1 hq)
    exact ⟨i, j, hi, hj, fun heq => hne (by rw [heq]; exact LawfulEqOrd.compare_eq_iff_eq.2 rfl)⟩
  refine hkeys.filterMap _ fun p q hpq x hx y hy hxy => ?_
  obtain ⟨i, j, hi, hj, hne⟩ := hpq
  subst hxy
  simp only [Mask.visited, hi, hj, locationAt, Location.toPath] at hx hy
  split at hx <;> split at hy <;> simp at hx hy
  refine hne ?_
  rw [hi, hj, locationAt, locationAt]
  grind

theorem Mask.Overlays.visits_mask {ancestor : Chain Key TokenId Account Hash}
    (h : t.Overlays inputs depth (ancestor.any inputs) es es' maps) {visits : List (Addr × Account)}
    (hvisits : ancestor.Visits inputs (ignored ∪ maskAccounts inputs maps) visits) :
    (Chain.mask t ancestor).Visits inputs ignored (visits ++ maps.visits inputs ignored) := by
  intro B init f
  have hps : ∀ p ∈ maps.accounts.toList, ∃ a, p.1 = .account a := by
    rintro ⟨l, account⟩ hp
    obtain ⟨i, rfl, -⟩ := h.account l account (ExtTreeMap.mem_toList_iff_getElem?_eq_some.1 hp)
    exact ⟨ofIndex depth i, rfl⟩
  change t.foldiWithIgnoredAccounts inputs (ancestor.foldiWithIgnoredAccounts inputs) ignored init f = _
  rw [foldiWithIgnoredAccounts, h.attached, h.view]
  simp only [Option.bind_eq_bind, Option.bind_some, hvisits B init f, foldlM_foldiStep hps, List.foldl_append, Maps.visits]

/-! ### Visits -/

theorem Chain.Visits.unique {visits visits' : List (Addr × Account)}
    (h : chain.Visits inputs ignored visits) (h' : chain.Visits inputs ignored visits') : visits = visits' := by
  have hcollect : ∀ ps qs : List (Addr × Account), ps.foldl (fun accum p => accum ++ [(p.1, p.2)]) qs = qs ++ ps := by
    intro ps
    induction ps with
    | nil => simp
    | cons p ps ih => simp [ih]
  have heq := (h _ [] fun a accum account => accum ++ [(a, account)]).symm.trans (h' _ [] _)
  simpa [hcollect] using heq

theorem Entries.getElem?_numbered (k : Nat) :
    (es.numbered depth ignored)[k]? = ((es.left ignored)[k]?).map fun e => (ofIndex depth k, e.2) := by
  rw [Entries.numbered, List.getElem?_map, List.getElem?_zipIdx, Option.map_map, Nat.zero_add]
  rfl

theorem Entries.mem_left : e ∈ es.left ignored ↔ e ∈ es ∧ e.1 ∉ ignored := by
  simp [Entries.left, ← Bool.not_eq_true]

theorem Entries.length_left_le (es : Entries Key TokenId Account) (ignored : AccountIdSet Key TokenId) :
    (es.left ignored).length ≤ es.length := List.length_filter_le _ _

/-- What a fold over a chain has visited: accounts of the database with their numbers, and those of the masks. -/
structure FoldParts (inputs : Inputs Key TokenId Account Hash) (depth : Nat) (chain : Chain Key TokenId Account Hash)
    (es base : Entries Key TokenId Account) (ignored : AccountIdSet Key TokenId) (all : AccountIdSet Key TokenId)
    (own : List (Addr × Account)) : Prop where
  bottom : Represents inputs depth chain.bottom base
  visits : chain.Visits inputs ignored (base.numbered depth all ++ own)
  all_iff : ∀ aid, aid ∈ all ↔ aid ∈ ignored ∨ chain.Masked inputs aid
  nodup : own.Nodup
  own_iff : ∀ (a : Addr) (account : Account), (a, account) ∈ own ↔ ∃ (i : Nat) (e : AccountId Key TokenId × Account),
    es[i]? = some e ∧ (a, account) = (ofIndex depth i, e.2) ∧ e.1 ∉ ignored ∧ chain.Masked inputs e.1
  base_iff : ∀ (i : Nat) (e : AccountId Key TokenId × Account), ¬ chain.Masked inputs e.1 → (base[i]? = some e ↔ es[i]? = some e)

/-- The number of each account that is left is its index. -/
def NumbersAreIndices (base : Entries Key TokenId Account) (all : AccountIdSet Key TokenId) : Prop :=
  ∀ (k : Nat) (e : AccountId Key TokenId × Account), (base.left all)[k]? = some e → base[k]? = some e

/-- **What is visited is what is found**, where numbers are indices. -/
theorem FoldParts.mem_visits_iff (hp : FoldParts inputs depth chain es base ignored all own)
    (hnumbers : NumbersAreIndices base all) (a : Addr) (account : Account) :
    (a, account) ∈ base.numbered depth all ++ own ↔
      ∃ (i : Nat) (e : AccountId Key TokenId × Account), es[i]? = some e ∧ (a, account) = (ofIndex depth i, e.2) ∧ e.1 ∉ ignored := by
  rw [List.mem_append, hp.own_iff]
  constructor
  · rintro (hnumbered | ⟨i, e, hi, hpe, hnot, -⟩)
    · obtain ⟨k, hk⟩ := List.mem_iff_getElem?.1 hnumbered
      rw [Entries.getElem?_numbered] at hk
      obtain ⟨e, he, hpe⟩ := Option.map_eq_some_iff.1 hk
      have hnot := (Entries.mem_left.1 (List.mem_of_getElem? he)).2
      rw [hp.all_iff, not_or] at hnot
      exact ⟨k, e, (hp.base_iff k e hnot.2).1 (hnumbers k e he), hpe.symm, hnot.1⟩
    · exact ⟨i, e, hi, hpe, hnot⟩
  · rintro ⟨i, e, hi, hpe, hnot⟩
    by_cases hmasked : chain.Masked inputs e.1
    · exact .inr ⟨i, e, hi, hpe, hnot, hmasked⟩
    · have hbase := (hp.base_iff i e hmasked).2 hi
      have hall : e.1 ∉ all := by
        rw [hp.all_iff, not_or]
        exact ⟨hnot, hmasked⟩
      obtain ⟨k, hk⟩ := List.mem_iff_getElem?.1 (Entries.mem_left.2 ⟨List.mem_of_getElem? hbase, hall⟩)
      obtain rfl := Entries.eq_of_ids hp.bottom.nodup (Entries.getElem?_ids (hnumbers k e hk)) (Entries.getElem?_ids hbase)
      refine .inl (List.mem_of_getElem? (i := k) ?_)
      rw [Entries.getElem?_numbered, hk, Option.map_some, hpe]

/-- **No account is visited twice.** -/
theorem FoldParts.nodup_visits
    (h : Shows inputs depth chain es) (hp : FoldParts inputs depth chain es base ignored all own)
    (hnumbers : NumbersAreIndices base all) : (base.numbered depth all ++ own).Nodup := by
  have hlt : ∀ (k : Nat) (e : AccountId Key TokenId × Account), (base.left all)[k]? = some e → k < 2 ^ depth := fun k e hk =>
    (List.getElem?_eq_some_iff.1 hk).1.trans_le ((Entries.length_left_le base all).trans hp.bottom.fits)
  refine List.nodup_append'.2 ⟨List.nodup_iff_getElem?_ne_getElem?.2 fun k k' hkk hk' heq => ?_, hp.nodup, fun p hnumbered hown => ?_⟩
  · rw [Entries.getElem?_numbered, Entries.getElem?_numbered] at heq
    have hk'' : k' < (base.left all).length := by simpa [Entries.numbered] using hk'
    rw [List.getElem?_eq_getElem (hkk.trans hk''), List.getElem?_eq_getElem hk'', Option.map_some, Option.map_some] at heq
    have hofIndex := (Prod.mk.inj (Option.some.inj heq)).1
    exact absurd (ofIndex_inj (hlt k _ (List.getElem?_eq_getElem (hkk.trans hk''))) (hlt k' _ (List.getElem?_eq_getElem hk'')) hofIndex) hkk.ne
  · obtain ⟨k, hk⟩ := List.mem_iff_getElem?.1 hnumbered
    rw [Entries.getElem?_numbered] at hk
    obtain ⟨e, he, rfl⟩ := Option.map_eq_some_iff.1 hk
    have hnot := (Entries.mem_left.1 (List.mem_of_getElem? he)).2
    rw [hp.all_iff, not_or] at hnot
    obtain ⟨i, e', hi, hpe, -, hmasked⟩ := (hp.own_iff _ _).1 hown
    obtain rfl := ofIndex_inj (hlt k e he) ((List.getElem?_eq_some_iff.1 hi).1.trans_le h.fits) (Prod.mk.inj hpe).1
    obtain rfl := Option.some.inj (((hp.base_iff k e hnot.2).1 (hnumbers k e he)).symm.trans hi)
    exact hnot.2 hmasked

theorem FoldParts.leftFirst_iff (hp : FoldParts inputs depth chain es base ignored all own) (hdepth : depth ≤ 61) :
    chain.LeftFirst inputs ignored ↔ NumbersAreIndices base all := by
  have hnodup := hp.bottom.nodup
  constructor
  · intro h k e hk
    have hprefix : base.left all <+: base := by
      refine filter_prefix fun i j x y hij hi hj hy => ?_
      have hleft := h x.1 y.1 i j (hp.bottom.indexOfAccountExn_found hdepth hi) (hp.bottom.indexOfAccountExn_found hdepth hj)
        (by omega)
      rw [← hp.all_iff, ← hp.all_iff] at hleft
      simp only [Bool.not_eq_eq_eq_not, Bool.not_true, ← Bool.not_eq_true, ← ExtTreeSet.mem_iff_contains] at hy ⊢
      exact fun hx => hy (hleft hx)
    obtain ⟨rest, hrest⟩ := hprefix
    rw [← hrest, List.getElem?_append_left (List.getElem?_eq_some_iff.1 hk).1, hk]
  · intro h aid aid' i j hi hj hij hall
    obtain ⟨i, x, hx, rfl, rfl⟩ := hp.bottom.exists_of_indexOfAccountExn hdepth hi
    obtain ⟨j, y, hy, rfl, rfl⟩ := hp.bottom.exists_of_indexOfAccountExn hdepth hj
    rw [← hp.all_iff] at hall ⊢
    by_contra hleft
    obtain ⟨k, hk⟩ := List.mem_iff_getElem?.1 (Entries.mem_left.2 ⟨List.mem_of_getElem? hy, hleft⟩)
    have hkj := Entries.eq_of_ids hnodup (Entries.getElem?_ids (h k y hk)) (Entries.getElem?_ids hy)
    have hlt : i < (base.left all).length := by
      have hlt := (List.getElem?_eq_some_iff.1 hk).1
      omega
    -- the earlier account would be left as well
    have hleft' : (base.left all)[i]? = some (base.left all)[i] := List.getElem?_eq_getElem hlt
    have heq := Option.some.inj (hx.symm.trans (h i _ hleft'))
    exact (Entries.mem_left.1 (heq ▸ List.mem_of_getElem? hleft')).2 hall

theorem FoldParts.numbersAreIndices
    (h : Shows inputs depth chain es) (hp : FoldParts inputs depth chain es base ignored all own)
    (hfound : ∀ (a : Addr) (account : Account), (a, account) ∈ base.numbered depth all ++ own →
      ∃ (aid : AccountId Key TokenId) (i : Nat), es[i]? = some (aid, account) ∧ a = ofIndex depth i) : NumbersAreIndices base all := by
  intro k e hk
  have hnumbered : (ofIndex depth k, e.2) ∈ base.numbered depth all := by
    refine List.mem_of_getElem? (i := k) ?_
    rw [Entries.getElem?_numbered, hk, Option.map_some]
  obtain ⟨aid, i, hi, hofIndex⟩ := hfound _ _ (List.mem_append_left _ hnumbered)
  have hlt : k < 2 ^ depth := (List.getElem?_eq_some_iff.1 hk).1.trans_le ((Entries.length_left_le base all).trans hp.bottom.fits)
  obtain rfl := ofIndex_inj hlt ((List.getElem?_eq_some_iff.1 hi).1.trans_le h.fits) hofIndex
  -- the ids of both are those of the account
  obtain ⟨hmem, hnot⟩ := Entries.mem_left.1 (List.mem_of_getElem? hk)
  rw [hp.all_iff, not_or] at hnot
  obtain ⟨j, hj⟩ := List.mem_iff_getElem?.1 hmem
  have hshown := (hp.base_iff j e hnot.2).1 hj
  have hid : aid = e.1 := (h.identifier k _ hi).symm.trans (h.identifier j e hshown)
  subst hid
  obtain rfl := Entries.eq_of_ids h.nodup (Entries.getElem?_ids hi) (Entries.getElem?_ids hshown)
  exact hj

/-- `foldi` is the case where nothing is ignored. -/
theorem Chain.foldi_eq (chain : Chain Key TokenId Account Hash) (init : B) (f : Addr → B → Account → B) :
    chain.foldi inputs init f = chain.foldiWithIgnoredAccounts inputs ∅ init f := by
  cases chain with
  | database mdb => rfl
  | mask t ancestor =>
    change t.foldi inputs (ancestor.foldiWithIgnoredAccounts inputs) init f = t.foldiWithIgnoredAccounts inputs _ ∅ init f
    rw [Mask.foldi, Mask.foldiWithIgnoredAccounts]
    cases t.assertIsAttached <;> rfl

section Lawful

variable [LawfulEqOrd Key] [LawfulEqOrd TokenId]

theorem foldl_insert_ids {ps : List (Location × Account)} {ids : AccountIdSet Key TokenId} :
    aid ∈ ps.foldl (fun ids p => ids.insert (inputs.identifier p.2)) ids ↔ aid ∈ ids ∨ ∃ p ∈ ps, inputs.identifier p.2 = aid := by
  induction ps generalizing ids with
  | nil => simp
  | cons p ps ih => simp [ih, or_assoc, or_left_comm]

theorem Mask.mem_maskAccounts : aid ∈ maskAccounts inputs maps ↔
    ∃ (l : Location) (account : Account), maps.accounts[l]? = some account ∧ inputs.identifier account = aid := by
  rw [maskAccounts, foldl_insert_ids]
  simp [ExtTreeMap.mem_toList_iff_getElem?_eq_some]

theorem Mask.Overlays.masked_iff {ancestor : Chain Key TokenId Account Hash}
    (h : t.Overlays inputs depth (ancestor.any inputs) es es' maps) :
    (Chain.mask t ancestor).Masked inputs aid ↔ aid ∈ maskAccounts inputs maps ∨ ancestor.Masked inputs aid := by
  rw [mem_maskAccounts, Chain.Masked, h.view]
  simp

/-- **What is not in a mask** is shown where it is shown below. -/
theorem Mask.Overlays.shown_iff (h : t.Overlays inputs depth below es es' maps) (hnot : e.1 ∉ maskAccounts inputs maps) :
    es[i]? = some e ↔ es'[i]? = some e := by
  have hbelow : ∀ e : AccountId Key TokenId × Account, e.1 ∉ maskAccounts inputs maps → es'[i]? = some e → es[i]? = some e := by
    intro e hnot hi
    cases haccount : maps.accounts[locationAt depth i]? with
    | none => exact h.noAccount i e hi haccount
    | some account =>
      obtain rfl := Option.some.inj (hi.symm.trans (h.eq_of_account haccount (h.lt_of_get hi)))
      exact absurd (mem_maskAccounts.2 ⟨_, _, haccount, rfl⟩) hnot
  refine ⟨fun hi => ?_, hbelow e hnot⟩
  have hids := h.ids_of_below (Entries.getElem?_ids hi)
  obtain ⟨e', he', hid⟩ := Option.map_eq_some_iff.1 ((List.getElem?_map ..).symm.trans hids)
  obtain rfl := Option.some.inj (hi.symm.trans (hbelow e' (by rwa [hid]) he'))
  exact he'

/-- **The account of an id that a mask has** is in the mask. -/
theorem Mask.Overlays.account_of_mem (h : t.Overlays inputs depth below es es' maps) (hmem : e.1 ∈ maskAccounts inputs maps)
    (hi : es'[i]? = some e) : maps.accounts[locationAt depth i]? = some e.2 := by
  obtain ⟨l, account, haccount, hid⟩ := mem_maskAccounts.1 hmem
  obtain ⟨j, rfl, hj⟩ := h.account l account haccount
  obtain rfl := Entries.eq_of_ids h.nodup (Entries.getElem?_ids hi) (hid ▸ Entries.getElem?_ids hj)
  obtain rfl := Option.some.inj (hi.symm.trans hj)
  exact haccount

theorem Shows.exists_foldParts (h : Shows inputs depth chain es) (hdepth : depth ≤ 61) (ignored : AccountIdSet Key TokenId) :
    ∃ base all own, FoldParts inputs depth chain es base ignored all own := by
  induction h generalizing ignored with
  | @database mdb es h _ =>
    refine ⟨es, ignored, [], h, ?_, fun aid => by simp [Chain.Masked], List.nodup_nil, fun a account => by simp [Chain.Masked],
      fun _ _ _ => Iff.rfl⟩
    simpa using h.visits hdepth ignored
  | @mask t ancestor es es' maps hbelow h ih =>
    obtain ⟨base, all, own, hp⟩ := ih (ignored ∪ Mask.maskAccounts inputs maps)
    have hvisits := h.visits_mask hp.visits
    rw [List.append_assoc] at hvisits
    refine ⟨base, all, own ++ maps.visits inputs ignored, hp.bottom, hvisits, fun aid => ?_, ?_, fun a account => ?_, fun i e hnot => ?_⟩
    · rw [hp.all_iff, h.masked_iff, ExtTreeSet.mem_union_iff, or_assoc]
    · refine List.nodup_append'.2 ⟨hp.nodup, h.nodup_visits ignored, fun p hown hmask => ?_⟩
      obtain ⟨i, e, hi, hpe, hnot, -⟩ := (hp.own_iff p.1 p.2).1 hown
      obtain ⟨j, -, haccount, -⟩ := h.mem_visits.1 (show (p.1, p.2) ∈ maps.visits inputs ignored from hmask)
      have hid := hbelow.identifier i e hi
      obtain ⟨-, hp2⟩ := Prod.mk.inj hpe
      refine hnot (ExtTreeSet.mem_union_iff.2 (.inr (Mask.mem_maskAccounts.2 ⟨_, _, haccount, ?_⟩)))
      rw [hp2, hid]
    · rw [List.mem_append, hp.own_iff, h.mem_visits]
      constructor
      · rintro (⟨i, e, hi, hpe, hnot, hmasked⟩ | ⟨i, rfl, haccount, hi, hnot⟩)
        · rw [ExtTreeSet.mem_union_iff, not_or] at hnot
          exact ⟨i, e, (h.shown_iff hnot.2).1 hi, hpe, hnot.1, h.masked_iff.2 (.inr hmasked)⟩
        · exact ⟨i, _, hi, rfl, hnot, h.masked_iff.2 (.inl (Mask.mem_maskAccounts.2 ⟨_, _, haccount, rfl⟩))⟩
      · rintro ⟨i, e, hi, hpe, hnot, hmasked⟩
        by_cases hmem : e.1 ∈ Mask.maskAccounts inputs maps
        · obtain ⟨rfl, rfl⟩ := Prod.mk.inj hpe
          have hid := (Shows.mask hbelow h).identifier i e hi
          exact .inr ⟨i, rfl, h.account_of_mem hmem hi, by rw [hid, hi], by rwa [hid]⟩
        · have hmasked' := (h.masked_iff.1 hmasked).resolve_left hmem
          refine .inl ⟨i, e, (h.shown_iff hmem).2 hi, hpe, ?_, hmasked'⟩
          rw [ExtTreeSet.mem_union_iff, not_or]
          exact ⟨hnot, hmem⟩
    · rw [h.masked_iff, not_or] at hnot
      exact (hp.base_iff i e hnot.2).trans (h.shown_iff hnot.1)

/-! ### Where numbers are indices -/

/-- **Where each account is visited once, at its own address.** -/
theorem Shows.visitsEachOnce (h : Shows inputs depth chain es) (hdepth : depth ≤ 61) (ignored : AccountIdSet Key TokenId) :
    chain.VisitsEachOnce inputs ignored ↔ chain.LeftFirst inputs ignored := by
  obtain ⟨base, all, own, hp⟩ := h.exists_foldParts hdepth ignored
  rw [hp.leftFirst_iff hdepth]
  constructor
  · rintro ⟨visits, hvisits, -, hmem⟩
    obtain rfl := hvisits.unique hp.visits
    refine hp.numbersAreIndices h fun a account hvisit => ?_
    obtain ⟨aid, -, hfound⟩ := (hmem a account).1 hvisit
    obtain ⟨i, hi, ha⟩ := (h.found_iff aid a account).1 hfound
    exact ⟨aid, i, hi, ha⟩
  · intro hnumbers
    refine ⟨_, hp.visits, hp.nodup_visits h hnumbers, fun a account => ?_⟩
    rw [hp.mem_visits_iff hnumbers]
    constructor
    · rintro ⟨i, e, hi, hpe, hnot⟩
      obtain ⟨rfl, rfl⟩ := Prod.mk.inj hpe
      exact ⟨e.1, hnot, (h.found_iff _ _ _).2 ⟨i, hi, rfl⟩⟩
    · rintro ⟨aid, hnot, hfound⟩
      obtain ⟨i, hi, rfl⟩ := (h.found_iff _ _ _).1 hfound
      exact ⟨i, _, hi, rfl, hnot⟩

/-- **A fold over a ledger** visits each account that is not ignored once, at its own address, exactly where in the
database no account that is left is after one that is ignored or in a mask. -/
theorem fold_visits_each_once (h : Shows inputs depth chain es) (hdepth : depth ≤ 61) :
    (∀ ignored, chain.VisitsEachOnce inputs ignored ↔ chain.LeftFirst inputs ignored) ∧
      ∀ (B : Type) (init : B) (f : Addr → B → Account → B),
        chain.foldi inputs init f = chain.foldiWithIgnoredAccounts inputs ∅ init f :=
  ⟨h.visitsEachOnce hdepth, fun _ => chain.foldi_eq⟩

end Lawful

end Shows

/-! ### A database, and a mask over it -/

/-- The account again, with the other flag. -/
def changedFlagAccount : FlagAccount := (flagAccount.1, true)

/-- A mask with the account changed. -/
def changedMask (parent : AnyLedger Bool Bool FlagAccount Bytes) : Mask Bool Bool FlagAccount Bytes where
  parent := some parent
  detachedParentSignal := false
  currentLocation := some (locationAt 1 0)
  depth := 1
  maps := ⟨(∅ : ExtTreeMap Location FlagAccount).insert (locationAt 1 0) changedFlagAccount, ∅, ∅, ∅⟩
  accumulated := none

theorem shows_changedMask (hr : Represents flagInputs 1 db [(flagAccount.1, flagAccount)]) :
    Shows flagInputs 1 (.mask (changedMask (db.any flagInputs)) (.database db)) [(flagAccount.1, changedFlagAccount)] := by
  have haccounts : ∀ l : Location, (changedMask (db.any flagInputs)).maps.accounts[l]? =
      if locationAt 1 0 = l then some changedFlagAccount else none := by
    intro l
    simp [changedMask, ExtTreeMap.getElem?_insert]
  refine .mask (.database hr (by simp [flagInputs])) ⟨rfl, rfl, rfl, by decide, by decide, List.prefix_rfl, ?_, ?_, ?_, ?_⟩
  · intro l account haccount
    rw [haccounts] at haccount
    split at haccount
    · rename_i hl
      exact ⟨0, hl.symm, by rw [← Option.some.inj haccount]; rfl⟩
    · exact absurd haccount.symm (Option.some_ne_none account)
  · intro i e hi hnone
    cases i with
    | zero =>
      rw [haccounts, if_pos rfl] at hnone
      exact absurd hnone (Option.some_ne_none _)
    | succ i => simp at hi
  · intro aid l hl
    simp [changedMask] at hl
  · intro aid haid _
    exact haid

/-- The account in the mask is the only one. -/
theorem fold_visits_each_once_changed : ∃ db : Database,
    (∀ ignored, (Chain.mask (changedMask (db.any flagInputs)) (.database db)).VisitsEachOnce flagInputs ignored ↔
      (Chain.mask (changedMask (db.any flagInputs)) (.database db)).LeftFirst flagInputs ignored) ∧
    ∀ (B : Type) (init : B) (f : Addr → B → FlagAccount → B),
      (Chain.mask (changedMask (db.any flagInputs)) (.database db)).foldi flagInputs init f =
        (Chain.mask (changedMask (db.any flagInputs)) (.database db)).foldiWithIgnoredAccounts flagInputs ∅ init f := by
  obtain ⟨db, -, hr⟩ := reachable_flagAccount (show 1 < 254 by decide)
  exact ⟨db, fold_visits_each_once (shows_changedMask hr) (by decide)⟩

/-- **An account after an ignored one** comes with the address of another: of two accounts the first is ignored. -/
theorem fold_shifts_addresses : ¬ ∀ (depth : Nat) (chain : Chain Bool Bool FlagAccount Bytes) (es : Entries Bool Bool FlagAccount),
    Shows flagInputs depth chain es → ∀ ignored, chain.VisitsEachOnce flagInputs ignored := by
  intro hall
  obtain ⟨db, -, hr⟩ := reachable_flagAccount (show 1 < 254 by decide)
  have hmissing : (⟨true, false⟩ : AccountId Bool Bool) ∉ Entries.ids [(flagAccount.1, flagAccount)] := by decide
  obtain ⟨db', -, hr'⟩ := hr.getOrCreateAccount_added hmissing (by decide) (⟨true, false⟩, true)
  have hshows : Shows flagInputs 1 (.database db') _ := .database hr' (by decide)
  have hleft := (hshows.visitsEachOnce (by decide) _).1 (hall 1 _ _ hshows ((∅ : AccountIdSet Bool Bool).insert flagAccount.1))
  have hlast := hleft flagAccount.1 ⟨true, false⟩ 0 1 (hr'.indexOfAccountExn_found (i := 0) (by decide) rfl)
    (hr'.indexOfAccountExn_found (i := 1) (by decide) rfl) (by decide) (.inl (by simp))
  rcases hlast with hmem | hmasked
  · simp at hmem
    exact absurd hmem (by decide)
  · exact hmasked

end MinaProtocol.MerkleLedger
