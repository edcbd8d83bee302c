import MinaProtocol.MerkleLedger.Accounts

/-!
# MerkleLedger.Batch

`set_batch` of accounts at distinct indexes, those that are filled and the next ones.
-/

namespace MinaProtocol.MerkleLedger

open AddressTree Std

variable {Key TokenId Account Hash : Type}

/-- **A list that extends another by a batch** of accounts at distinct indexes: an account that was there keeps its
id, and no index is left out. -/
structure Extends (inputs : Inputs Key TokenId Account Hash) (depth : Nat) (es : Entries Key TokenId Account)
    (batch : List (Nat × Account)) (es' : Entries Key TokenId Account) : Prop where
  distinct : (batch.map Prod.fst).Nodup
  written : ∀ p ∈ batch, es'[p.1]? = some (inputs.identifier p.2, p.2)
  kept : ∀ i, i ∉ batch.map Prod.fst → es'[i]? = es[i]?
  keeps : es.ids <+: es'.ids
  nodup : es'.ids.Nodup
  fits : es'.length ≤ 2 ^ depth

/-- The locations of a batch. -/
def batchLocations (depth : Nat) (batch : List (Nat × Account)) : List (Location × Account) :=
  batch.map fun p => (locationAt depth p.1, p.2)

variable {depth : Nat} {batch : List (Nat × Account)} {p : Nat × Account}

namespace Extends

variable {inputs : Inputs Key TokenId Account Hash} {es es' : Entries Key TokenId Account} {q : Nat × Account}
  {aid : AccountId Key TokenId} {i : Nat}

variable (hx : Extends inputs depth es batch es')

include hx

theorem lt (hp : p ∈ batch) : p.1 < es'.length :=
  (List.getElem?_eq_some_iff.1 (hx.written p hp)).1

theorem lt_pow (hp : p ∈ batch) : p.1 < 2 ^ depth :=
  (hx.lt hp).trans_le hx.fits

theorem length_le : es.length ≤ es'.length := by
  simpa [Entries.ids] using hx.keeps.length_le

theorem index_eq {j : Nat} {e e' : AccountId Key TokenId × Account}
    (hi : es'[i]? = some e) (hj : es'[j]? = some e') (heq : e.1 = e'.1) : i = j := by
  have hi' : es'.ids[i]? = some e.1 := by rw [Entries.ids, List.getElem?_map, hi]; rfl
  have hj' : es'.ids[j]? = some e'.1 := by rw [Entries.ids, List.getElem?_map, hj]; rfl
  rw [heq, ← hj'] at hi'
  obtain ⟨hlt, -⟩ := List.getElem?_eq_some_iff.1 hj'
  exact ((List.getElem?_inj hlt hx.nodup).1 hi'.symm).symm

/-- **The ids** are those that there were and those of the batch. -/
theorem mem_ids : aid ∈ es'.ids ↔ aid ∈ es.ids ∨ ∃ p ∈ batch, inputs.identifier p.2 = aid := by
  constructor
  · intro h
    obtain ⟨e, he, rfl⟩ := List.mem_map.1 h
    obtain ⟨i, hi⟩ := List.mem_iff_getElem?.1 he
    by_cases hmem : i ∈ batch.map Prod.fst
    · obtain ⟨p, hp, rfl⟩ := List.mem_map.1 hmem
      rw [hx.written p hp] at hi
      exact .inr ⟨p, hp, by rw [← Option.some.inj hi]⟩
    · rw [hx.kept i hmem] at hi
      exact .inl (List.mem_map_of_mem (List.mem_of_getElem? hi))
  · intro h
    rcases h with h | ⟨p, hp, rfl⟩
    · exact hx.keeps.subset h
    · exact List.mem_map.2 ⟨_, List.mem_of_getElem? (hx.written p hp), rfl⟩

theorem last_mem (hpos : 0 < es'.length) : es'.length - 1 ∈ batch.map Prod.fst ∨ es.length = es'.length := by
  by_cases hmem : es'.length - 1 ∈ batch.map Prod.fst
  · exact .inl hmem
  · refine .inr ?_
    have hkept := hx.kept _ hmem
    have hle := hx.length_le
    rw [List.getElem?_eq_getElem (show es'.length - 1 < es'.length by omega)] at hkept
    obtain ⟨hlt, -⟩ := List.getElem?_eq_some_iff.1 hkept.symm
    omega

omit hx

end Extends

/-! ### The last index -/

theorem foldl_max_eq {a m : Int} {l : List Int} (hle : ∀ x ∈ a :: l, x ≤ m) :
    l.foldl max a ≤ m ∧ ∀ x ∈ a :: l, x ≤ l.foldl max a := by
  induction l generalizing a with
  | nil => exact ⟨hle a List.mem_cons_self, fun x hx => (List.mem_singleton.1 hx).le⟩
  | cons b l ih =>
    have hmax : ∀ x ∈ max a b :: l, x ≤ m := by
      intro x hx
      rcases List.mem_cons.1 hx with rfl | hx
      · exact max_le (hle a (by simp)) (hle b (by simp))
      · exact hle x (by simp [hx])
    obtain ⟨hm, hall⟩ := ih hmax
    refine ⟨hm, fun x hx => ?_⟩
    rw [List.foldl_cons]
    have hab := hall (max a b) List.mem_cons_self
    rcases List.mem_cons.1 hx with rfl | hx
    · exact (le_max_left _ _).trans hab
    · rcases List.mem_cons.1 hx with rfl | hx
      · exact (le_max_right _ _).trans hab
      · exact hall x (List.mem_cons_of_mem _ hx)

variable {db : Database}

namespace Database

variable {inputs : Inputs Key TokenId Account Hash}

theorem indexOf_locationAt {depth i : Nat} (hdepth : depth ≤ 61) (hi : i < 2 ^ depth) :
    indexOf inputs (locationAt depth i) = some (i : Int) := by
  have hindex : Addr.toInt inputs.lslBeyond (ofIndex depth i) = (index (ofIndex depth i) : Int) :=
    Addr.toInt_eq inputs.lslBeyond (by simpa using hdepth)
  rw [index_ofIndex hi] at hindex
  simp [indexOf, locationAt, Location.toPath, hindex]

end Database

/-! ### The tokens of a batch -/

section Tokens

variable [Ord Key] [TransOrd Key] [LawfulEqOrd Key] [DecidableEq TokenId]

/-- **The tokens of each key** among ids. -/
theorem accountTokens_eq (aids : List (AccountId Key TokenId)) (pk : Key) :
    ((Database.accountTokens aids)[pk]? = none ∧ ∀ tid, (⟨pk, tid⟩ : AccountId Key TokenId) ∉ aids) ∨
      ∃ tids, (Database.accountTokens aids)[pk]? = some tids ∧ ∀ tid, tid ∈ tids ↔ (⟨pk, tid⟩ : AccountId Key TokenId) ∈ aids := by
  induction aids using List.reverseRecOn generalizing pk with
  | nil => exact .inl ⟨by simp [Database.accountTokens], by simp⟩
  | append_singleton aids aid ih =>
    have hfold : Database.accountTokens (aids ++ [aid]) = (Database.accountTokens aids).insert aid.publicKey
        (insert aid.tokenId ((Database.accountTokens aids)[aid.publicKey]?.getD ∅)) := by
      simp [Database.accountTokens]
    rw [hfold, ExtTreeMap.getElem?_insert]
    by_cases hpk : aid.publicKey = pk
    · subst hpk
      refine .inr ⟨insert aid.tokenId ((Database.accountTokens aids)[aid.publicKey]?.getD ∅), by simp, fun tid => ?_⟩
      have heq : (⟨aid.publicKey, tid⟩ : AccountId Key TokenId) = aid ↔ tid = aid.tokenId :=
        ⟨fun h => by rw [← h], fun h => by rw [h]⟩
      rw [Finset.mem_insert, List.mem_append, List.mem_singleton, heq, or_comm]
      refine or_congr_left ?_
      obtain ⟨hnone, hnot⟩ | ⟨tids, hsome, hmem⟩ := ih aid.publicKey
      · simp [hnone, hnot tid]
      · rw [hsome]
        exact hmem tid
    · have hne : ∀ tid, (⟨pk, tid⟩ : AccountId Key TokenId) ≠ aid := fun tid h => hpk (by rw [← h])
      have hcompare : compare aid.publicKey pk ≠ .eq := fun h => hpk (LawfulEqOrd.eq_of_compare h)
      rw [if_neg (by simpa using hcompare)]
      simpa [hne] using ih pk

end Tokens

/-! ### Writing a batch -/

namespace Database

variable {inputs : Inputs Key TokenId Account Hash}

/-- The ids of a batch, with their locations. -/
def keyLocations (inputs : Inputs Key TokenId Account Hash) (depth : Nat) (batch : List (Nat × Account)) :
    List (AccountId Key TokenId × Location) :=
  batch.map fun p => (inputs.identifier p.2, locationAt depth p.1)

/-- The writes of the locations of a batch. -/
def locationWrites (inputs : Inputs Key TokenId Account Hash) (depth : Nat) (batch : List (Nat × Account)) :
    List (Slot Key TokenId × Bytes) :=
  batch.map fun p => (.location (inputs.identifier p.2), (locationAt depth p.1).key depth)

/-- The writes of the accounts of a batch. -/
def accountWrites (inputs : Inputs Key TokenId Account Hash) (depth : Nat) (batch : List (Nat × Account)) :
    List (Slot Key TokenId × Bytes) :=
  batch.map fun p => (.account (ofIndex depth p.1), inputs.binAccount.write p.2)

/-- The writes of the owners of the tokens of a batch. -/
def ownerWrites (inputs : Inputs Key TokenId Account Hash) (batch : List (Nat × Account)) : List (Slot Key TokenId × Bytes) :=
  batch.map fun p => (.owner (inputs.deriveTokenId (inputs.identifier p.2)), inputs.binAccountId.write (inputs.identifier p.2))

/-- **`set_raw_account_batch`** writes the accounts and the owners of their tokens. -/
theorem setRawAccountBatch_eq (inputs : Inputs Key TokenId Account Hash) (hd : db.depth = depth) :
    setRawAccountBatch inputs db (batchLocations depth batch) =
      some ((db.writes inputs (accountWrites inputs depth batch)).writes inputs (ownerWrites inputs batch)) := by
  have haccounts : setBinBatch inputs.binAccount db (batchLocations depth batch) =
      some (db.writes inputs (accountWrites inputs depth batch)) := by
    have hfits : ∀ p ∈ batch.map fun p => ((Slot.account (ofIndex depth p.1) : Slot Key TokenId), p.2), p.1.Fits db.depth := by
      intro p hp
      obtain ⟨q, -, rfl⟩ := List.mem_map.1 hp
      exact hd.symm ▸ length_ofIndex
    have hbatch := setBinBatch_slots inputs inputs.binAccount hfits
    rw [List.map_map, List.map_map] at hbatch
    exact hbatch
  have howners : ∀ db' : Database, (batchLocations depth batch).mapM (fun p =>
        db'.serializePair (ownerLocation inputs (inputs.deriveTokenId (inputs.identifier p.2)),
          inputs.binAccountId.write (inputs.identifier p.2))) =
      some ((ownerWrites inputs batch).map fun p => ((p.1.loc inputs).key db'.depth, p.2)) := by
    intro db'
    rw [batchLocations, List.mapM_map, ownerWrites, List.map_map]
    exact mapM_eq_some_map fun p _ =>
      serializePair_slot (s := .owner (inputs.deriveTokenId (inputs.identifier p.2))) trivial
  rw [setRawAccountBatch, haccounts]
  simp only [Option.bind_eq_bind, Option.bind_some]
  rw [howners, Option.bind_some, kvSetBatch_slots]

variable {es es' : Entries Key TokenId Account}

theorem computeLastIndex_batch (hdepth : depth ≤ 61) (hx : Extends inputs depth es (p :: batch) es') :
    ∃ m : Int, computeLastIndex inputs (locationAt depth p.1) ((batchLocations depth batch).map Prod.fst) = some m ∧
      m ≤ ((es'.length - 1 : Nat) : Int) ∧ ∀ i ∈ (p :: batch).map Prod.fst, (i : Int) ≤ m := by
  have hle : ∀ x ∈ (p.1 : Int) :: batch.map (fun q => (q.1 : Int)), x ≤ ((es'.length - 1 : Nat) : Int) := by
    intro x hxmem
    have hmem : x ∈ (p :: batch).map fun q => (q.1 : Int) := hxmem
    obtain ⟨q, hq, rfl⟩ := List.mem_map.1 hmem
    have hlt := hx.lt hq
    omega
  obtain ⟨hmax, hall⟩ := foldl_max_eq hle
  refine ⟨(batch.map fun q => (q.1 : Int)).foldl max (p.1 : Int), ?_, hmax, ?_⟩
  · have hindices : ((batchLocations depth batch).map Prod.fst).mapM (indexOf inputs) = some (batch.map fun q => (q.1 : Int)) := by
      rw [batchLocations, List.map_map, List.mapM_map]
      exact mapM_eq_some_map fun q hq => indexOf_locationAt hdepth (hx.lt_pow (List.mem_cons_of_mem _ hq))
    rw [computeLastIndex, indexOf_locationAt hdepth (hx.lt_pow List.mem_cons_self), hindices]
    rfl
  · intro i hi
    obtain ⟨q, hq, rfl⟩ := List.mem_map.1 hi
    have hmem : (q.1 : Int) ∈ (p :: batch).map fun q => (q.1 : Int) := List.mem_map_of_mem (f := fun q : Nat × Account => (q.1 : Int)) hq
    exact hall _ hmem

theorem max_lastIndex {m : Int} (hx : Extends inputs depth es (p :: batch) es')
    (hm : m ≤ ((es'.length - 1 : Nat) : Int)) (hall : ∀ i ∈ (p :: batch).map Prod.fst, (i : Int) ≤ m) :
    (if es.length = 0 then none else some ((es.length - 1 : Nat) : Int)).elim m (fun maxIndex => max maxIndex m) =
      ((es'.length - 1 : Nat) : Int) := by
  have hpos := hx.lt List.mem_cons_self
  have hlength := hx.length_le
  have hcases : ((es'.length - 1 : Nat) : Int) ≤ m ∨ es.length = es'.length := (hx.last_mem (by omega)).imp_left (hall _)
  by_cases hempty : es.length = 0
  · rw [if_pos hempty, Option.elim_none]
    omega
  · rw [if_neg hempty, Option.elim_some]
    omega

section Locations

variable [Ord Key] [TransOrd Key] [DecidableEq TokenId]

/-- The writes of the tokens of a batch. -/
def tokenWrites (inputs : Inputs Key TokenId Account Hash) (db : Database) (batch : List (Nat × Account)) :
    List (Slot Key TokenId × Bytes) :=
  (accountTokens (batch.map fun p => inputs.identifier p.2)).toList.map fun p =>
    (.tokens p.1, inputs.binTokenSet.write ((db.tokens inputs p.1).getD ∅ ∪ p.2))

/-- The writes of the last location, the tokens and the locations. -/
def idWrites (inputs : Inputs Key TokenId Account Hash) (db : Database) (depth m : Nat) (batch : List (Nat × Account)) :
    List (Slot Key TokenId × Bytes) :=
  (.last, (locationAt depth m).key depth) :: (tokenWrites inputs db batch ++ locationWrites inputs depth batch)

/-- **`set_location_batch`** writes the last location, the tokens and the locations. -/
theorem setLocationBatch_eq {m : Nat} (hd : db.depth = depth) (htokens : ∀ pk, (db.tokens inputs pk).isSome) :
    setLocationBatch inputs (locationAt depth m) db (keyLocations inputs depth batch) =
      some (db.writes inputs (idWrites inputs db depth m batch)) := by
  subst hd
  have hlast : db.serializePair (lastLocationKey, (locationAt db.depth m).key db.depth) =
      some (((Slot.last : Slot Key TokenId).loc inputs).key db.depth, (locationAt db.depth m).key db.depth) :=
    serializePair_slot (s := .last) trivial
  have hids : (keyLocations inputs db.depth batch).map Prod.fst = batch.map fun p => inputs.identifier p.2 := by
    simp [keyLocations]
  have hbatchTokens : addBatchCreate inputs db (accountTokens (batch.map fun p => inputs.identifier p.2)) =
      some ((tokenWrites inputs db batch).map fun p => ((p.1.loc inputs).key db.depth, p.2)) := by
    rw [addBatchCreate, tokenWrites, List.map_map]
    refine mapM_eq_some_map fun p _ => ?_
    obtain ⟨tids, htids⟩ := Option.isSome_iff_exists.1 (htokens p.1)
    simp only [htids, Option.bind_eq_bind, Option.bind_some, Function.comp, Option.getD_some]
    exact serializePair_slot (s := .tokens p.1) trivial
  have hlocations : (keyLocations inputs db.depth batch).mapM (fun p => do
        let bin ← p.2.serialize db.depth
        db.serializePair (accountIdLocation inputs p.1, bin)) =
      some ((locationWrites inputs db.depth batch).map fun p => ((p.1.loc inputs).key db.depth, p.2)) := by
    rw [keyLocations, List.mapM_map, locationWrites, List.map_map]
    refine mapM_eq_some_map fun p _ => ?_
    simp only [serialize_locationAt, Option.bind_eq_bind, Option.bind_some, Function.comp]
    exact serializePair_slot (s := .location (inputs.identifier p.2)) trivial
  simp only [Option.bind_eq_bind] at hlocations
  rw [setLocationBatch, serialize_locationAt]
  simp only [Option.bind_eq_bind, Option.bind_some, hlast, hids, hbatchTokens, hlocations]
  rw [← List.map_append, ← kvSetBatch_slots]
  rfl

/-- The places that a batch's locations and tokens are written at. -/
def touchedByIds (inputs : Inputs Key TokenId Account Hash) (batch : List (Nat × Account)) (s : Slot Key TokenId) : Prop :=
  s = .last ∨ (∃ p ∈ batch, s = .location (inputs.identifier p.2)) ∨ ∃ pk, s = .tokens pk

/-- **The last location** that `set_raw_addresses` writes. -/
theorem setRawAddresses_cons {p : Nat × Account} (hdepth : depth ≤ 61) (hr : Represents inputs depth db es)
    (hx : Extends inputs depth es (p :: batch) es') : setRawAddresses inputs db (batchLocations depth (p :: batch)) =
      setLocationBatch inputs (locationAt depth (es'.length - 1)) db (keyLocations inputs depth (p :: batch)) := by
  have hpos := hx.lt List.mem_cons_self
  obtain ⟨m, hcompute, hm, hall⟩ := computeLastIndex_batch hdepth hx
  have hcurrent : (if es.length = 0 then none else some (locationAt depth (es.length - 1))).mapM (indexOf inputs) =
      some (if es.length = 0 then none else some ((es.length - 1 : Nat) : Int)) := by
    have hfits := hr.fits
    by_cases hempty : es.length = 0
    · rw [if_pos hempty, if_pos hempty]
      rfl
    · rw [if_neg hempty, if_neg hempty, Option.mapM_some, indexOf_locationAt hdepth (by omega)]
      rfl
  have hofInt : Addr.ofIntExn inputs.lslBeyond db.depth ((es'.length - 1 : Nat) : Int) = some (ofIndex depth (es'.length - 1)) := by
    have hfits := hx.fits
    rw [hr.depth_eq, Addr.ofIntExn_natCast hdepth, if_pos (by omega)]
  have hlocations : batchLocations depth (p :: batch) = (locationAt depth p.1, p.2) :: batchLocations depth batch := rfl
  rw [hlocations, setRawAddresses]
  simp only [Option.bind_eq_bind, hr.lastFilled_eq, Option.bind_some, hcurrent, hcompute, max_lastIndex hx hm hall, hofInt]
  rw [← hlocations, batchLocations, List.map_map]
  rfl

section Reading

variable [LawfulEqOrd Key] {m : Nat}

theorem mem_idWrites {s : Slot Key TokenId} {bin : Bytes} (h : (s, bin) ∈ idWrites inputs db depth m batch) :
    (s = .last ∧ bin = (locationAt depth m).key depth) ∨
      (∃ pk tids, s = .tokens pk ∧ (accountTokens (batch.map fun p => inputs.identifier p.2))[pk]? = some tids ∧
        bin = inputs.binTokenSet.write ((db.tokens inputs pk).getD ∅ ∪ tids)) ∨
      ∃ p ∈ batch, s = .location (inputs.identifier p.2) ∧ bin = (locationAt depth p.1).key depth := by
  rcases List.mem_cons.1 h with heq | h
  · exact .inl (Prod.mk.inj heq)
  rcases List.mem_append.1 h with h | h
  · obtain ⟨⟨pk, tids⟩, hmem, heq⟩ := List.mem_map.1 h
    rw [ExtTreeMap.mem_toList_iff_getElem?_eq_some] at hmem
    exact .inr (.inl ⟨pk, tids, (Prod.mk.inj heq).1.symm, hmem, (Prod.mk.inj heq).2.symm⟩)
  · obtain ⟨p, hp, heq⟩ := List.mem_map.1 h
    exact .inr (.inr ⟨p, hp, (Prod.mk.inj heq).1.symm, (Prod.mk.inj heq).2.symm⟩)

theorem fits_idWrites (m : Nat) (batch : List (Nat × Account)) : ∀ q ∈ idWrites inputs db depth m batch, q.1.Fits db.depth := by
  intro q hq
  obtain ⟨s, bin⟩ := q
  obtain ⟨rfl, -⟩ | ⟨pk, tids, rfl, -, -⟩ | ⟨r, -, rfl, -⟩ := mem_idWrites hq
  all_goals exact trivial

variable (hdepth : db.depth < 254)

include hdepth

theorem Frame.idWrites :
    Frame inputs db (db.writes inputs (idWrites inputs db depth m batch)) (touchedByIds inputs batch) := by
  refine (Frame.writes hdepth (fits_idWrites m batch)).mono fun s hs => ?_
  obtain ⟨q, hq, rfl⟩ := List.mem_map.1 hs
  obtain ⟨heq, -⟩ | ⟨pk, tids, heq, -, -⟩ | ⟨r, hr, heq, -⟩ := mem_idWrites hq
  · exact .inl heq
  · exact .inr (.inr ⟨pk, heq⟩)
  · exact .inr (.inl ⟨r, hr, heq⟩)

theorem stored_idWrites_last :
    (db.writes inputs (idWrites inputs db depth m batch)).stored inputs .last = some ((locationAt depth m).key depth) := by
  obtain ⟨hnot, -⟩ | ⟨bin, hmem, heq⟩ := stored_writes inputs (s := .last) hdepth (fits_idWrites m batch) trivial
  · exact absurd List.mem_cons_self hnot
  · obtain ⟨-, hbin⟩ | ⟨pk, tids, hslot, -, -⟩ | ⟨r, -, hslot, -⟩ := mem_idWrites hmem
    · rw [heq, hbin]
    · exact absurd hslot (by simp)
    · exact absurd hslot (by simp)

theorem stored_idWrites_location (hx : Extends inputs depth es batch es') {p : Nat × Account}
    (hp : p ∈ batch) :
    (db.writes inputs (idWrites inputs db depth m batch)).stored inputs (.location (inputs.identifier p.2)) =
      some ((locationAt depth p.1).key depth) := by
  obtain ⟨hnot, -⟩ | ⟨bin, hmem, heq⟩ := stored_writes inputs (s := .location (inputs.identifier p.2)) hdepth
    (fits_idWrites m batch) trivial
  · refine absurd ?_ hnot
    have hwrite : (Slot.location (inputs.identifier p.2), (locationAt depth p.1).key depth) ∈ locationWrites inputs depth batch :=
      List.mem_map_of_mem (f := fun q : Nat × Account =>
        ((Slot.location (inputs.identifier q.2) : Slot Key TokenId), (locationAt depth q.1).key depth)) hp
    exact List.mem_map.2 ⟨_, List.mem_cons_of_mem _ (List.mem_append_right _ hwrite), rfl⟩
  · obtain ⟨hslot, -⟩ | ⟨pk, tids, hslot, -, -⟩ | ⟨q, hq, hslot, hbin⟩ := mem_idWrites hmem
    · exact absurd hslot (by simp)
    · exact absurd hslot (by simp)
    · rw [heq, hbin, hx.index_eq (hx.written q hq) (hx.written p hp) (Slot.location.inj hslot).symm]

theorem tokens_idWrites (hx : Extends inputs depth es batch es') {pk : Key} {old : Finset TokenId}
    (hold : db.tokens inputs pk = some old) (hmemOld : ∀ tid, tid ∈ old ↔ ⟨pk, tid⟩ ∈ es.ids) :
    ∃ tids, (db.writes inputs (idWrites inputs db depth m batch)).tokens inputs pk = some tids ∧
      ∀ tid, tid ∈ tids ↔ ⟨pk, tid⟩ ∈ es'.ids := by
  have hbatch : ∀ tid, (⟨pk, tid⟩ : AccountId Key TokenId) ∈ (batch.map fun p => inputs.identifier p.2) ↔
      ∃ p ∈ batch, inputs.identifier p.2 = ⟨pk, tid⟩ := fun tid => List.mem_map
  have hcases := accountTokens_eq (batch.map fun p => inputs.identifier p.2) pk
  have hframe : Frame inputs db (db.writes inputs (idWrites inputs db depth m batch)) _ := Frame.writes hdepth (fits_idWrites m batch)
  obtain ⟨hnot, -⟩ | ⟨bin, hmem, heq⟩ := stored_writes inputs (s := .tokens pk) hdepth (fits_idWrites m batch) trivial
  · refine ⟨old, by rw [hframe.tokens_eq hnot, hold], fun tid => ?_⟩
    obtain ⟨-, hnone⟩ | ⟨tids, htids, -⟩ := hcases
    · rw [hmemOld, hx.mem_ids, ← hbatch, or_iff_left (hnone tid)]
    · refine absurd ?_ hnot
      have hwrite : (Slot.tokens pk, inputs.binTokenSet.write ((db.tokens inputs pk).getD ∅ ∪ tids)) ∈ tokenWrites inputs db batch :=
        List.mem_map.2 ⟨(pk, tids), ExtTreeMap.mem_toList_iff_getElem?_eq_some.2 htids, rfl⟩
      exact List.mem_map.2 ⟨_, List.mem_cons_of_mem _ (List.mem_append_left _ hwrite), rfl⟩
  · obtain ⟨hslot, -⟩ | ⟨pk', tids, hslot, htids, hbin⟩ | ⟨r, -, hslot, -⟩ := mem_idWrites hmem
    · exact absurd hslot (by simp)
    · obtain rfl := Slot.tokens.inj hslot
      rw [hbin] at heq
      refine ⟨_, tokens_of_stored heq, fun tid => ?_⟩
      obtain ⟨hnone, -⟩ | ⟨tids', htids', hmemTids⟩ := hcases
      · exact absurd (hnone.symm.trans htids) (by simp)
      · rw [htids] at htids'
        rw [hold, Option.getD_some, Finset.mem_union, hmemOld, Option.some.inj htids', hmemTids, hbatch, hx.mem_ids]
    · exact absurd hslot (by simp)

omit hdepth

end Reading

/-- **`set_raw_addresses`**: the last location, the tokens of each key, and where the accounts are. -/
theorem setRawAddresses_eq [LawfulEqOrd Key] (hdepth : depth ≤ 61) (hr : Represents inputs depth db es)
    (hx : Extends inputs depth es batch es') :
    ∃ db', setRawAddresses inputs db (batchLocations depth batch) = some db' ∧
      Frame inputs db db' (touchedByIds inputs batch) ∧
      db'.stored inputs .last = (if es'.length = 0 then none else some ((locationAt depth (es'.length - 1)).key depth)) ∧
      (∀ p ∈ batch, db'.stored inputs (.location (inputs.identifier p.2)) = some ((locationAt depth p.1).key depth)) ∧
      ∀ pk, ∃ tids, db'.tokens inputs pk = some tids ∧ ∀ tid, tid ∈ tids ↔ ⟨pk, tid⟩ ∈ es'.ids := by
  cases hbatch : batch with
  | nil =>
    subst hbatch
    have hsame : es' = es := List.ext_getElem? fun i => hx.kept i (by simp)
    subst hsame
    exact ⟨db, rfl, Frame.refl _ _, hr.last, by simp, hr.tokens⟩
  | cons p ps =>
    rw [← hbatch]
    have hd := hr.depth_eq
    have hdepth' : db.depth < 254 := hd ▸ hr.depth_lt
    have hpos : es'.length ≠ 0 := Nat.ne_of_gt ((Nat.zero_le _).trans_lt (hx.lt (p := p) (by simp [hbatch])))
    have htokens : ∀ pk, (db.tokens inputs pk).isSome := by
      intro pk
      obtain ⟨tids, htids, -⟩ := hr.tokens pk
      rw [htids]
      rfl
    refine ⟨db.writes inputs (idWrites inputs db depth (es'.length - 1) batch), ?_, Frame.idWrites hdepth', ?_,
      fun q hq => stored_idWrites_location hdepth' hx hq, ?_⟩
    · rw [← setLocationBatch_eq hd htokens, hbatch]
      exact setRawAddresses_cons hdepth hr (hbatch ▸ hx)
    · rw [if_neg hpos]
      exact stored_idWrites_last hdepth'
    · intro pk
      obtain ⟨old, hold, hmemOld⟩ := hr.tokens pk
      exact tokens_idWrites hdepth' hx hold hmemOld

end Locations

end Database

/-! ### `set_batch` -/

section SetBatch

variable {inputs : Inputs Key TokenId Account Hash} {es es' : Entries Key TokenId Account}

namespace Database

variable {q : Slot Key TokenId × Bytes}

theorem mem_accountWrites (h : q ∈ accountWrites inputs depth batch) :
    ∃ p ∈ batch, q.1 = .account (ofIndex depth p.1) ∧ q.2 = inputs.binAccount.write p.2 := by
  obtain ⟨p, hp, rfl⟩ := List.mem_map.1 h
  exact ⟨p, hp, rfl, rfl⟩

theorem mem_ownerWrites (h : q ∈ ownerWrites inputs batch) :
    ∃ p ∈ batch, q.1 = .owner (inputs.deriveTokenId (inputs.identifier p.2)) ∧
      q.2 = inputs.binAccountId.write (inputs.identifier p.2) := by
  obtain ⟨p, hp, rfl⟩ := List.mem_map.1 h
  exact ⟨p, hp, rfl, rfl⟩

theorem fits_accountWrites (batch : List (Nat × Account)) (hd : db.depth = depth) : ∀ q ∈ accountWrites inputs depth batch, q.1.Fits db.depth := by
  intro q hq
  obtain ⟨p, -, hslot, -⟩ := mem_accountWrites hq
  rw [hslot, hd]
  exact length_ofIndex

theorem fits_ownerWrites (batch : List (Nat × Account)) : ∀ q ∈ ownerWrites inputs batch, q.1.Fits db.depth := by
  intro q hq
  obtain ⟨p, -, hslot, -⟩ := mem_ownerWrites hq
  rw [hslot]
  exact trivial

/-- **The accounts and the owners after `set_raw_account_batch`.** -/
theorem setRawAccountBatch_spec (hd : db.depth = depth) (hdepth : depth < 254) (hx : Extends inputs depth es batch es') :
    ∃ db', setRawAccountBatch inputs db (batchLocations depth batch) = some db' ∧
      Frame inputs db db' (fun s => (∃ p ∈ batch, s = .account (ofIndex depth p.1)) ∨ ∃ tid, s = .owner tid) ∧
      (∀ p ∈ batch, db'.stored inputs (.account (ofIndex depth p.1)) = some (inputs.binAccount.write p.2)) ∧
      ∀ tid owner, db.tokenOwner inputs tid = some owner → es.IsOwner inputs tid owner →
        ∃ owner', db'.tokenOwner inputs tid = some owner' ∧ es'.IsOwner inputs tid owner' := by
  have hdepth' : db.depth < 254 := hd ▸ hdepth
  have hframe : Frame inputs db (db.writes inputs (accountWrites inputs depth batch)) _ := Frame.writes hdepth' (fits_accountWrites batch hd)
  have hdepth'' : (db.writes inputs (accountWrites inputs depth batch)).depth < 254 := hframe.depth ▸ hdepth'
  have hframe' : Frame inputs (db.writes inputs (accountWrites inputs depth batch))
      ((db.writes inputs (accountWrites inputs depth batch)).writes inputs (ownerWrites inputs batch)) _ :=
    Frame.writes hdepth'' (fits_ownerWrites batch)
  refine ⟨_, setRawAccountBatch_eq inputs hd, (hframe.trans hframe').mono ?_, ?_, ?_⟩
  · intro s hs
    rcases hs with hs | hs
    · obtain ⟨q, hq, rfl⟩ := List.mem_map.1 hs
      obtain ⟨p, hp, hslot, -⟩ := mem_accountWrites hq
      exact .inl ⟨p, hp, hslot⟩
    · obtain ⟨q, hq, rfl⟩ := List.mem_map.1 hs
      obtain ⟨p, -, hslot, -⟩ := mem_ownerWrites hq
      exact .inr ⟨_, hslot⟩
  · intro p hp
    have hfits : (Slot.account (ofIndex depth p.1) : Slot Key TokenId).Fits db.depth := hd.symm ▸ length_ofIndex
    have hnot : (Slot.account (ofIndex depth p.1) : Slot Key TokenId) ∉ (ownerWrites inputs batch).map Prod.fst := by
      intro hmem
      obtain ⟨q, hq, hslot⟩ := List.mem_map.1 hmem
      obtain ⟨r, -, hslot', -⟩ := mem_ownerWrites hq
      exact absurd (hslot.symm.trans hslot') (by simp)
    rw [hframe'.stored _ (hframe.depth ▸ hfits) hnot]
    obtain ⟨hnot', -⟩ | ⟨bin, hmem, heq⟩ := stored_writes inputs hdepth' (fits_accountWrites batch hd) hfits
    · refine absurd (List.mem_map.2 ⟨(_, inputs.binAccount.write p.2), ?_, rfl⟩) hnot'
      exact List.mem_map_of_mem (f := fun p : Nat × Account =>
        ((Slot.account (ofIndex depth p.1) : Slot Key TokenId), inputs.binAccount.write p.2)) hp
    · obtain ⟨q, hq, hslot, hbin⟩ := mem_accountWrites hmem
      dsimp only at hslot hbin
      have hindex := ofIndex_inj (hx.lt_pow hp) (hx.lt_pow hq) (Slot.account.inj hslot)
      have hwritten := hx.written q hq
      rw [← hindex, hx.written p hp] at hwritten
      rw [heq, hbin, (Prod.mk.inj (Option.some.inj hwritten)).2]
  · intro tid owner howner hisOwner
    have hold : (db.writes inputs (accountWrites inputs depth batch)).tokenOwner inputs tid = some owner := by
      rw [hframe.tokenOwner_eq, howner]
      intro hmem
      obtain ⟨q, hq, hslot⟩ := List.mem_map.1 hmem
      obtain ⟨r, -, hslot', -⟩ := mem_accountWrites hq
      exact absurd (hslot.symm.trans hslot') (by simp)
    obtain ⟨hnot, -⟩ | ⟨bin, hmem, heq⟩ := stored_writes inputs (s := .owner tid) hdepth'' (fits_ownerWrites batch) trivial
    · refine ⟨owner, by rw [hframe'.tokenOwner_eq hnot, hold], hisOwner.extend (fun aid haid => hx.keeps.subset haid) ?_⟩
      intro aid haid
      refine (hx.mem_ids.1 haid).imp_right fun hp => ?_
      obtain ⟨p, hp, rfl⟩ := hp
      intro hderive
      subst hderive
      exact hnot (List.mem_map.2 ⟨_, List.mem_map_of_mem hp, rfl⟩)
    · obtain ⟨p, hp, hslot, hbin⟩ := mem_ownerWrites hmem
      dsimp only at hslot hbin
      rw [hbin] at heq
      exact ⟨_, tokenOwner_of_stored heq, hx.mem_ids.2 (.inr ⟨p, hp, rfl⟩), (Slot.owner.inj hslot).symm⟩

end Database

/-- **`set_batch`** puts a batch into the list. -/
theorem Represents.setBatch [Ord Key] [TransOrd Key] [LawfulEqOrd Key] [DecidableEq TokenId] (hdepth : depth ≤ 61)
    (hr : Represents inputs depth db es) (hx : Extends inputs depth es batch es') :
    ∃ db', Database.setBatch inputs db (batchLocations depth batch) = some db' ∧ Represents inputs depth db' es' := by
  have hd := hr.depth_eq
  obtain ⟨db1, haddresses, hframe1, hlast1, hlocation1, htokens1⟩ := Database.setRawAddresses_eq hdepth hr hx
  have hd1 : db1.depth = depth := hframe1.depth.trans hd
  obtain ⟨db2, haccounts, hframe2, haccount2, howner2⟩ := Database.setRawAccountBatch_spec hd1 hr.depth_lt hx
  have hd2 : db2.depth = depth := hframe2.depth.trans hd1
  -- the leaves that change are those of the batch
  have hleaves : ∀ a ∈ batch.map (fun p => ofIndex depth p.1), a.length = db2.depth := by
    intro a ha
    obtain ⟨p, -, rfl⟩ := List.mem_map.1 ha
    rw [hd2, length_ofIndex]
  have hnodup : (batch.map fun p => ofIndex depth p.1).Nodup := by
    have hmap : (batch.map fun p => ofIndex depth p.1) = (batch.map Prod.fst).map (ofIndex depth) := by simp
    rw [hmap]
    refine List.Nodup.map_on ?_ hx.distinct
    intro i hi j hj heq
    obtain ⟨p, hp, rfl⟩ := List.mem_map.1 hi
    obtain ⟨q, hq, rfl⟩ := List.mem_map.1 hj
    exact ofIndex_inj (hx.lt_pow hp) (hx.lt_pow hq) heq
  have hunchanged : ∀ a : Addr, a.length = db2.depth → a ∉ batch.map (fun p => ofIndex depth p.1) →
      es'.leaf inputs a = es.leaf inputs a := by
    intro a ha hnot
    refine Entries.leaf_congr ?_
    rw [hx.kept]
    intro hmem
    obtain ⟨p, hp, heq⟩ := List.mem_map.1 hmem
    refine hnot (List.mem_map.2 ⟨p, hp, ?_⟩)
    rw [heq, ← hd2, ← ha, ofIndex_index]
  have hhashes2 := (hr.hashes.frame hframe1 (by simp [Database.touchedByIds])).frame hframe2 (by simp)
  obtain ⟨db3, hbatch, hhashes3, hframe3⟩ := Database.setHashBatch_eq (hd2 ▸ hr.depth_lt) hhashes2 hleaves hnodup hunchanged
  have hhashList : (batchLocations depth batch).mapM (Database.accountHash inputs) =
      some ((batch.map fun p => ofIndex depth p.1).map fun a => (a, es'.leaf inputs a)) := by
    rw [batchLocations, List.mapM_map, List.map_map]
    refine mapM_eq_some_map fun p hp => ?_
    simp only [Database.accountHash, locationAt, Location.toPath, Option.map_some, Function.comp]
    rw [Entries.leaf_of_get (hx.lt_pow hp) (hx.written p hp)]
  refine ⟨db3, ?_, ?_⟩
  · rw [Database.setBatch, haddresses]
    simp only [Option.bind_eq_bind, Option.bind_some, haccounts, hhashList, hbatch]
  · refine ⟨(hframe3.depth.trans hframe2.depth).trans hd1, hr.depth_lt, hx.fits, hx.nodup, ?_, ?_, ?_, ?_, ?_, ?_, hhashes3⟩
    · intro j hj
      have hfits : (Slot.account (ofIndex depth j) : Slot Key TokenId).Fits depth := length_ofIndex
      rw [hframe3.stored _ (hd2.symm ▸ hfits) (by simp)]
      by_cases hmem : j ∈ batch.map Prod.fst
      · obtain ⟨p, hp, rfl⟩ := List.mem_map.1 hmem
        rw [haccount2 p hp, hx.written p hp]
        rfl
      · rw [hframe2.stored _ (hd1.symm ▸ hfits) ?_, hframe1.stored _ (hd.symm ▸ hfits) (by simp [Database.touchedByIds]),
          hr.account j hj, hx.kept j hmem]
        intro htouched
        obtain ⟨p, hp, heq⟩ | ⟨tid, heq⟩ := htouched
        · exact hmem (List.mem_map.2 ⟨p, hp, ofIndex_inj (hx.lt_pow hp) hj (Slot.account.inj heq).symm⟩)
        · exact absurd heq (by simp)
    · intro i e hi
      rw [hframe3.stored (.location e.1) trivial (by simp), hframe2.stored (.location e.1) trivial (by simp)]
      by_cases hmem : i ∈ batch.map Prod.fst
      · obtain ⟨p, hp, rfl⟩ := List.mem_map.1 hmem
        rw [hx.written p hp] at hi
        rw [← Option.some.inj hi, hlocation1 p hp]
      · rw [hframe1.stored (.location e.1) trivial ?_, hr.found i e (hx.kept i hmem ▸ hi)]
        intro htouched
        obtain heq | ⟨p, hp, heq⟩ | ⟨pk, heq⟩ := htouched
        · exact absurd heq (by simp)
        · exact hmem (List.mem_map.2 ⟨p, hp, (hx.index_eq hi (hx.written p hp) (Slot.location.inj heq)).symm⟩)
        · exact absurd heq (by simp)
    · intro aid hnot
      rw [hx.mem_ids, not_or] at hnot
      rw [hframe3.stored (.location aid) trivial (by simp), hframe2.stored (.location aid) trivial (by simp),
        hframe1.stored (.location aid) trivial ?_, hr.missing aid hnot.1]
      intro htouched
      obtain heq | ⟨p, hp, heq⟩ | ⟨pk, heq⟩ := htouched
      · exact absurd heq (by simp)
      · exact hnot.2 ⟨p, hp, (Slot.location.inj heq).symm⟩
      · exact absurd heq (by simp)
    · rw [hframe3.stored .last trivial (by simp), hframe2.stored .last trivial (by simp), hlast1]
    · intro pk
      rw [hframe3.tokens_eq (by simp), hframe2.tokens_eq (by simp)]
      exact htokens1 pk
    · intro tid
      obtain ⟨owner, howner, hisOwner⟩ := hr.owner tid
      rw [← hframe1.tokenOwner_eq (by simp [Database.touchedByIds])] at howner
      obtain ⟨owner', howner', hisOwner'⟩ := howner2 tid owner howner hisOwner
      exact ⟨owner', by rw [hframe3.tokenOwner_eq (by simp), howner'], hisOwner'⟩

end SetBatch

end MinaProtocol.MerkleLedger
