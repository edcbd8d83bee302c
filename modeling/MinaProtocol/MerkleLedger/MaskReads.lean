import MinaProtocol.MerkleLedger.Mask

/-!
# MerkleLedger.MaskReads

Reading through masks. What a mask is asked for at once is split between its maps, what lies beyond its last
location and the ledger below, and put together again in the order of the questions: the answers are those of
the single readers, if they are so below.
-/

namespace MinaProtocol.MerkleLedger

open AddressTree Std

variable {Key TokenId Account Hash : Type}

/-- Readers of many answer as those of one. -/
structure AnyLedger.Batched (l : AnyLedger Key TokenId Account Hash) : Prop where
  getBatch : ∀ locations, l.getBatch locations = locations.mapM fun location => (l.get location).map (location, ·)
  locationOfAccountBatch : ∀ ids, l.locationOfAccountBatch ids = ids.mapM fun id => (l.locationOfAccount id).map (id, ·)
  getHashBatchExn : ∀ addresses : List Addr, (∀ a ∈ addresses, a.length ≤ l.depth) →
    l.getHashBatchExn (addresses.map .hash) = addresses.mapM l.getInnerHashAtAddrExn
  merklePathBatch : ∀ locations, l.merklePathBatch locations = locations.mapM fun location => location.toPath.bind l.merklePathAtAddrExn

/-- **A database** answers many as one. -/
theorem Database.batched (inputs : Inputs Key TokenId Account Hash) (mdb : Database) : (mdb.any inputs).Batched where
  getBatch := getBatch_eq
  locationOfAccountBatch := locationOfAccountBatch_eq
  getHashBatchExn addresses haddresses := by
    refine (getHashBatchExn_eq addresses).trans (mapM_congr fun a ha => ?_)
    exact (if_pos (haddresses a ha)).symm
  merklePathBatch := merklePathBatch_eq

namespace Mask

variable [Ord Key] [Ord TokenId]

variable {t : Mask Key TokenId Account Hash} {maps : Maps Key TokenId Account Hash} {ancestor : AnyLedger Key TokenId Account Hash}
  {own : Addr → Option Hash} {E : Type}

/-- **Looking up many**: what is found, and for the rest what the ledger below answers. -/
theorem selfFindOrBatchLookup_eq {I R : Type} {selfFind : Maps Key TokenId Account Hash → I → Option (I × Option R)}
    {lookupParent : AnyLedger Key TokenId Account Hash → List I → Option (List (I × R))} {single : I → Option R}
    (found : I → Option (Option R)) (hattached : t.assertIsAttached = some ()) (hview : t.mapsAndAncestor = some (maps, ancestor))
    (hself : ∀ id, selfFind maps id = (found id).map (id, ·))
    (hparent : ∀ ids, lookupParent ancestor ids = ids.mapM fun id => (single id).map (id, ·)) (ids : List I) :
    selfFindOrBatchLookup selfFind lookupParent t ids =
      ids.mapM fun id => ((found id).bind fun r => r.elim (single id) some).map (id, ·) := by
  -- of those that were looked up in the mask, the ones that were not found are asked for below
  have hrest : ∀ ps : List (I × Option R),
      ((lookupParent ancestor (ps.filterMap fun p => if p.2.isNone then some p.1 else none)).bind fun fromParent =>
          (foldMap handOut fromParent ps).bind fun r => some r.2) =
        ps.mapM fun p => (p.2.elim (single p.1) some).map (p.1, ·) := by
    intro ps
    have hasks : (ps.filterMap fun p => if p.2.isNone then some p.1 else none) =
        (ps.map fun p => if p.2.isNone then [p.1] else []).flatten := by
      induction ps with
      | nil => rfl
      | cons p ps ih =>
        obtain ⟨id, found⟩ := p
        cases found with
        | none => simpa using ih
        | some r => simpa using ih
    have hfold := foldMap_flatten (fun p : I × Option R => if p.2.isNone then [p.1] else [])
      (fun id => (single id).map (id, ·)) (f := handOut) (g := fun p cs => p.2.elim cs.head? fun r => some (p.1, r)) ?_ ps []
    · simp only [List.append_nil] at hfold
      rw [hasks, hparent, ← Option.bind_assoc, hfold]
      have hsingle : ∀ p : I × Option R, ((if p.2.isNone then [p.1] else []).mapM fun id => (single id).map (id, ·)).bind
          (fun cs => p.2.elim cs.head? fun r => some (p.1, r)) = (p.2.elim (single p.1) some).map (p.1, ·) := by
        rintro ⟨id, found⟩
        cases found with
        | some r => rfl
        | none => cases hr : single id <;> simp [hr]
      rw [mapM_congr fun p _ => hsingle p]
      cases ps.mapM fun p => (p.2.elim (single p.1) some).map (p.1, ·) <;> rfl
    · rintro ⟨id, found⟩ cs rest hcs
      cases found with
      | some r =>
        obtain rfl : [] = cs := Option.some.inj hcs
        rfl
      | none =>
        cases hr : single id with
        | none => simp [hr] at hcs
        | some r =>
          simp [hr] at hcs
          obtain rfl := hcs
          rfl
  rw [selfFindOrBatchLookup, hattached, hview]
  simp only [Option.bind_eq_bind, Option.bind_some]
  simp only [hrest]
  rw [mapM_bind_mapM]
  refine mapM_congr fun id _ => ?_
  rw [hself]
  cases found id <;> rfl

/-- What is asked for below. -/
def askedPath {E : Type} : List E ⊕ (Location × Addr) → List Location
  | .inl _ => []
  | .inr la => [la.1]

/-- What becomes of a path that is known, and of one that is not. -/
def answeredPath {E : Type} (fixup : Addr → List E → Option (List E)) (base : Addr → Option (List E)) :
    List E ⊕ (Location × Addr) → Option (List E)
  | .inl path => some path
  | .inr la => (la.1.toPath.bind base).bind (fixup la.2)

/-- What is made of the answers from below. -/
def fixedPath {E : Type} (fixup : Addr → List E → Option (List E)) : List E ⊕ (Location × Addr) → List (List E) → Option (List E)
  | .inl path, _ => some path
  | .inr la, paths => paths.head?.bind (fixup la.2)

theorem filterMap_getRight (ps : List (List E ⊕ (Location × Addr))) :
    (ps.filterMap fun p => p.getRight?.map Prod.fst) = (ps.map askedPath).flatten := by
  induction ps with
  | nil => rfl
  | cons p ps ih =>
    cases p with
    | inl path => rw [List.filterMap_cons, ih]; rfl
    | inr la => rw [List.filterMap_cons, ih]; rfl

/-- **A batch of paths**: those that are known, and for the rest those of the ledger below, with the hashes of the mask. -/
theorem pathBatchImpl_eq {fixupPath : ExtTreeMap Addr Hash → Addr → List E → Option (List E)}
    {selfLookup : ExtTreeMap Addr Hash → Option Location → Nat → Addr → Option (Option (List E))}
    {baseLookup : AnyLedger Key TokenId Account Hash → List Location → Option (List (List E))} {base : Addr → Option (List E)}
    (hattached : t.assertIsAttached = some ()) (hview : t.mapsAndAncestor = some (maps, ancestor))
    (hbase : ∀ locations, baseLookup ancestor locations = locations.mapM fun l => l.toPath.bind base) (locations : List Location) :
    pathBatchImpl fixupPath selfLookup baseLookup t locations =
      locations.mapM fun l => l.toPath.bind fun a => (selfLookup maps.hashes t.currentLocation t.depth a).bind fun p =>
        p.elim ((base a).bind (fixupPath maps.hashes a)) some := by
  have hread : ∀ locs : List Location, (if locs.isEmpty then some [] else baseLookup ancestor locs) =
      locs.mapM fun l => l.toPath.bind base := by
    intro locs
    cases locs with
    | nil => rfl
    | cons l locs => exact hbase (l :: locs)
  have hstep : ∀ (p : List E ⊕ (Location × Addr)) (paths rest : List (List E)),
      (askedPath p).mapM (fun l : Location => l.toPath.bind base) = some paths →
      takePath (fixupPath maps.hashes) (paths ++ rest) p = (fixedPath (fixupPath maps.hashes) p paths).map (rest, ·) := by
    intro p paths rest hpaths
    cases p with
    | inl path =>
      obtain rfl : [] = paths := Option.some.inj hpaths
      rfl
    | inr la =>
      have hlen := length_of_mapM hpaths
      obtain ⟨path, rfl⟩ := List.length_eq_one_iff.1 hlen
      rfl
  have hanswer : ∀ p : List E ⊕ (Location × Addr),
      ((askedPath p).mapM fun l : Location => l.toPath.bind base).bind (fixedPath (fixupPath maps.hashes) p) =
        answeredPath (fixupPath maps.hashes) base p := by
    intro p
    cases p with
    | inl path => rfl
    | inr la =>
      simp only [askedPath, List.mapM_cons, List.mapM_nil, answeredPath]
      cases la.1.toPath.bind base <;> rfl
  have hrest : ∀ ps : List (List E ⊕ (Location × Addr)),
      ((if (ps.filterMap fun p => p.getRight?.map Prod.fst).isEmpty then some []
          else baseLookup ancestor (ps.filterMap fun p => p.getRight?.map Prod.fst)).bind fun parentPaths =>
        (foldMap (takePath (fixupPath maps.hashes)) parentPaths ps).bind fun r => some r.2) =
        ps.mapM (answeredPath (fixupPath maps.hashes) base) := by
    intro ps
    have hfold := foldMap_flatten askedPath (fun l : Location => l.toPath.bind base) hstep ps []
    simp only [List.append_nil] at hfold
    rw [hread, filterMap_getRight, ← Option.bind_assoc, hfold, mapM_congr fun p _ => hanswer p]
    cases ps.mapM (answeredPath (fixupPath maps.hashes) base) <;> rfl
  rw [pathBatchImpl, hattached, hview]
  simp only [Option.bind_eq_bind, Option.bind_some]
  simp only [hrest]
  rw [mapM_bind_mapM]
  refine mapM_congr fun l _ => ?_
  rw [selfPathOr]
  cases ha : l.toPath with
  | none => rfl
  | some a =>
    simp only [Option.bind_eq_bind, Option.bind_some]
    cases selfLookup maps.hashes t.currentLocation t.depth a with
    | none => rfl
    | some p => cases p <;> simp [answeredPath, ha]

/-- **Hashes put together again**, from the last question to the first. -/
theorem recombine_eq {read : Addr → Option Hash} (addresses : List Addr) (acc : List Hash) :
    ((addresses.filter fun a => (own a).isNone).mapM read).bind (fun hashes => recombine (addresses.map own) hashes acc) =
      (addresses.mapM fun a => (own a).elim (read a) some).map fun hashes => hashes.reverse ++ acc := by
  induction addresses generalizing acc with
  | nil => rfl
  | cons a addresses ih =>
    cases ha : own a with
    | some h =>
      rw [List.filter_cons_of_neg (by simp [ha]), List.map_cons, List.mapM_cons, ha]
      simp only [recombine, ih, Option.elim_some, Option.bind_eq_bind, Option.bind_some]
      cases addresses.mapM fun a => (own a).elim (read a) some <;> simp
    | none =>
      rw [List.filter_cons_of_pos (by simp [ha]), List.map_cons, List.mapM_cons, List.mapM_cons, ha]
      simp only [Option.elim_none]
      cases hr : read a with
      | none => rfl
      | some h =>
        have hstep := ih (h :: acc)
        simp only [Option.bind_eq_bind, Option.bind_some, Option.bind_assoc, Option.pure_def, recombine] at hstep ⊢
        rw [hstep]
        cases addresses.mapM fun a => (own a).elim (read a) some <;> simp

theorem filterMap_own (addresses : List Addr) :
    ((addresses.map fun a => (Location.hash a, own a)).filterMap fun p => if p.2.isNone then some p.1 else none) =
      (addresses.filter fun a => (own a).isNone).map Location.hash := by
  induction addresses with
  | nil => rfl
  | cons a addresses ih =>
    rw [List.map_cons, List.filterMap_cons, ih]
    cases ha : own a <;> simp [ha]

/-- **`get_hash_batch_exn`** gives the hashes at the addresses. -/
theorem getHashBatchExn_eq (hattached : t.assertIsAttached = some ()) (hview : t.mapsAndAncestor = some (maps, ancestor))
    (hdepth : ancestor.depth = t.depth) (hb : ancestor.Batched) {addresses : List Addr} (haddresses : ∀ a ∈ addresses, a.length ≤ t.depth) :
    t.getHashBatchExn (addresses.map .hash) = addresses.mapM t.getInnerHashAtAddrExn := by
  have hself : (addresses.map Location.hash).reverse.mapM (fun location => location.toPath.map fun path => (location, maps.hashes[path]?)) =
      some (addresses.reverse.map fun a => (Location.hash a, maps.hashes[a]?)) := by
    rw [← List.map_reverse, List.mapM_map]
    exact mapM_eq_some_map fun a _ => rfl
  have hbelow : ∀ asked : List Addr, (∀ a ∈ asked, a ∈ addresses) →
      (if (asked.map Location.hash).isEmpty then some [] else ancestor.getHashBatchExn (asked.map .hash)) =
        asked.mapM ancestor.getInnerHashAtAddrExn := by
    intro asked hasked
    cases asked with
    | nil => rfl
    | cons a asked => exact hb.getHashBatchExn _ fun a ha => hdepth ▸ haddresses a (hasked a ha)
  have hsingle : ∀ a ∈ addresses, (maps.hashes[a]?).elim (ancestor.getInnerHashAtAddrExn a) some = t.getInnerHashAtAddrExn a := by
    intro a ha
    simp only [getInnerHashAtAddrExn, getHash, hattached, hview, if_pos (haddresses a ha), Option.bind_eq_bind, Option.bind_some]
    cases maps.hashes[a]? <;> rfl
  rw [getHashBatchExn, hattached, hview]
  simp only [Option.bind_eq_bind, Option.bind_some, hself]
  rw [filterMap_own, hbelow _ fun a ha => List.mem_reverse.1 (List.mem_filter.1 ha).1, List.map_map]
  refine (recombine_eq addresses.reverse []).trans ?_
  rw [mapM_reverse, mapM_congr hsingle, Option.map_map]
  cases addresses.mapM t.getInnerHashAtAddrExn <;> simp

variable [TransOrd Key] [TransOrd TokenId] {parent : AnyLedger Key TokenId Account Hash}

/-- **A mask** over a ledger that answers many as one does so too. -/
theorem batched (inputs : Inputs Key TokenId Account Hash) (hparent : t.parent = some parent)
    (hview : t.mapsAndAncestor = some (maps, ancestor)) (hdepth : ancestor.depth = t.depth) (hb : ancestor.Batched) :
    (t.any inputs).Batched := by
  have hattached : t.assertIsAttached = some () := by rw [assertIsAttached, hparent]; rfl
  refine ⟨fun locations => ?_, fun ids => ?_, fun addresses haddresses => ?_, fun locations => ?_⟩
  · refine (selfFindOrBatchLookup_eq (fun location => (maps.accounts[location]?).elim
      ((isEmpty t.currentLocation location).map fun isEmpty => if isEmpty then some none else none) fun account => some (some (some account)))
      hattached hview (fun location => ?_) hb.getBatch locations).trans (mapM_congr fun location _ => ?_)
    · rw [selfFindAccount]
      cases maps.accounts[location]? with
      | some account => rfl
      | none => cases isEmpty t.currentLocation location <;> rfl
    · simp only [any, get, hattached, hview, Option.bind_eq_bind, Option.bind_some]
      cases maps.accounts[location]? with
      | some account => rfl
      | none =>
        cases isEmpty t.currentLocation location with
        | none => rfl
        | some isEmpty => cases isEmpty <;> rfl
  · change selfFindOrBatchLookup (fun maps id => some (id, (maps.locations[id]?).map some)) AnyLedger.locationOfAccountBatch t ids = _
    refine (selfFindOrBatchLookup_eq (fun id => some ((maps.locations[id]?).map some)) hattached hview (fun id => rfl)
      hb.locationOfAccountBatch ids).trans (mapM_congr fun id _ => ?_)
    simp only [any, locationOfAccount, hattached, hview, Option.bind_eq_bind, Option.bind_some]
    cases maps.locations[id]? <;> rfl
  · exact getHashBatchExn_eq hattached hview hdepth hb haddresses
  · change pathBatchImpl fixupMerklePath (selfMerklePath inputs) AnyLedger.merklePathBatch t locations = _
    rw [pathBatchImpl_eq hattached hview hb.merklePathBatch]
    refine mapM_congr fun l _ => congrArg _ (funext fun a => ?_)
    simp only [any, merklePathAtAddrExn, hattached, hview, Option.bind_eq_bind, Option.bind_some]
    cases selfMerklePath inputs maps.hashes t.currentLocation t.depth a with
    | none => rfl
    | some p => cases p <;> rfl

end Mask

end MinaProtocol.MerkleLedger
