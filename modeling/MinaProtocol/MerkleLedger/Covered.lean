import MinaProtocol.MerkleLedger.MaskReads

/-!
# MerkleLedger.Covered

What lies beyond the last location of a mask is taken to be empty. That is right when the ledger below has
nothing there: then the paths of a mask are those of its hashes, wherever they are read. Masks over masks are
so if each is.
-/

namespace MinaProtocol.MerkleLedger

open AddressTree Std

variable {Key TokenId Account Hash : Type}

/-! ### Orders of addresses as orders of positions -/

variable {a b : Addr}

section Orders

variable {A : Type} {cmp : A → A → Ordering}

theorem index_drop (a : Addr) (k : Nat) : index (a.drop k) = index a / 2 ^ k := by
  induction k generalizing a with
  | zero => simp
  | succ k ih =>
    cases a with
    | nil => simp [index]
    | cons b a =>
      have hhalf : index (b :: a) / 2 = index a := by
        have hb := b.toNat_le
        rw [index]
        omega
      rw [List.drop_succ_cons, ih, pow_succ', ← Nat.div_div_eq_div_mul, hhalf]

theorem compareLex_concat {x y : A} : ∀ {xs ys : List A}, xs.length = ys.length →
    List.compareLex cmp (xs ++ [x]) (ys ++ [y]) = (List.compareLex cmp xs ys).then (cmp x y)
  | [], [], _ => by cases h : cmp x y <;> simp [List.compareLex, h]
  | x' :: xs, y' :: ys, hlen => by
    have hrest : xs.length = ys.length := by simpa using hlen
    rw [List.cons_append, List.cons_append, List.compareLex, List.compareLex, compareLex_concat hrest]
    cases cmp x' y' <;> rfl

theorem compare_half {m n x y : Nat} (hx : x ≤ 1) (hy : y ≤ 1) :
    (compare m n).then (compare x y) = compare (x + 2 * m) (y + 2 * n) := by
  rcases Nat.lt_trichotomy m n with hlt | rfl | hgt
  · have hboth : x + 2 * m < y + 2 * n := by omega
    rw [Nat.compare_eq_lt.2 hlt, Nat.compare_eq_lt.2 hboth, Ordering.lt_then]
  · rw [Nat.compare_eq_eq.2 rfl, Ordering.eq_then]
    rcases Nat.lt_trichotomy x y with hlt | rfl | hgt
    · rw [Nat.compare_eq_lt.2 hlt, Nat.compare_eq_lt.2 (by omega)]
    · rw [Nat.compare_eq_eq.2 rfl, Nat.compare_eq_eq.2 rfl]
    · rw [Nat.compare_eq_gt.2 hgt, Nat.compare_eq_gt.2 (by omega)]
  · have hboth : y + 2 * n < x + 2 * m := by omega
    rw [Nat.compare_eq_gt.2 hgt, Nat.compare_eq_gt.2 hboth, Ordering.gt_then]

/-- **Bits from the root on** are compared as positions, whatever stands for them. -/
theorem compareLex_reverse (bit : Bool → A)
    (hbit : ∀ b b' : Bool, cmp (bit b) (bit b') = compare b.toNat b'.toNat) : ∀ {a b : Addr}, a.length = b.length →
    List.compareLex cmp (a.reverse.map bit) (b.reverse.map bit) = compare (index a) (index b)
  | [], [], _ => rfl
  | d :: a, e :: b, hlen => by
    have hrest : a.length = b.length := by simpa using hlen
    rw [List.reverse_cons, List.reverse_cons, List.map_append, List.map_append, List.map_singleton, List.map_singleton,
      compareLex_concat (by simpa using hrest), compareLex_reverse bit hbit hrest, hbit, compare_half d.toNat_le e.toNat_le]
    rfl

/-- **Addresses of one length** are compared as positions. -/
theorem Addr.compare_eq (hlen : a.length = b.length) : Addr.compare a b = Ord.compare (index a) (index b) := by
  have hbit : ∀ d e : Bool, Ord.compare d e = Ord.compare d.toNat e.toNat := by decide
  have hreverse := compareLex_reverse id hbit hlen
  rw [List.map_id, List.map_id] at hreverse
  exact hreverse

/-- **Locations of accounts** are compared as positions. -/
theorem Location.compare_account (hlen : a.length = b.length) :
    compare (Location.account a) (Location.account b) = compare (index a) (index b) :=
  compareLex_reverse Bool.toNat (fun _ _ => rfl) hlen

/-- **Further right** than a leaf: the ancestors of the leaf, at the depth of the node, are left of it. -/
theorem Addr.isFurtherRight_eq (hle : b.length ≤ a.length) :
    Addr.isFurtherRight a b = decide (index a / 2 ^ (a.length - b.length) < index b) := by
  have hlen : (a.drop (a.length - b.length)).length = b.length := by rw [List.length_drop]; omega
  rw [Addr.isFurtherRight, Addr.sameHeightAncestors, if_neg (by omega), Addr.compare_eq hlen, index_drop]
  exact decide_eq_decide.2 Nat.compare_eq_lt

end Orders

/-! ### Beyond the last location -/

/-- A location of an account of a ledger of this depth. -/
def Location.IsLeaf (depth : Nat) (l : Location) : Prop := ∃ a, l = .account a ∧ a.length = depth

/-- The node lies beyond the last location. -/
def Beyond (last : Option Location) (a : Addr) : Prop := Mask.isEmpty last (.hash a) = some true

/-- How many leaves there are up to the last location. -/
def filled : Option Location → Nat
  | some (.account a) => index a + 1
  | _ => 0

variable {depth : Nat} {last : Option Location}

section Beyond

variable {last' : Option Location}

theorem isEmpty_account : Mask.isEmpty last (.account a) = Mask.isEmpty last (.hash a) := by
  cases last <;> rfl

variable (hlast : ∀ l, last = some l → l.IsLeaf depth)

include hlast

theorem isEmpty_isSome (a : Addr) : (Mask.isEmpty last (.hash a)).isSome := by
  cases last with
  | none => rfl
  | some l =>
    obtain ⟨c, rfl, -⟩ := hlast l rfl
    rfl

/-- **A node lies beyond** as many leaves as are left of it. -/
theorem beyond_iff (hb : b.length ≤ depth) : Beyond last b ↔ filled last ≤ index b * 2 ^ (depth - b.length) := by
  cases last with
  | none => simp [Beyond, Mask.isEmpty, filled]
  | some l =>
    obtain ⟨a, rfl, ha⟩ := hlast l rfl
    have hright := Addr.isFurtherRight_eq (hb.trans_eq ha.symm)
    have hempty : Mask.isEmpty (some (.account a)) (.hash b) = some (Addr.isFurtherRight a b) := rfl
    rw [Beyond, hempty, hright, ha]
    simp [filled, Nat.div_lt_iff_lt_mul]

theorem eq_of_filled (hlast' : ∀ l, last' = some l → l.IsLeaf depth)
    (h : filled last = filled last') : last = last' := by
  cases hl : last with
  | none =>
    cases hl' : last' with
    | none => rfl
    | some l' =>
      obtain ⟨a', rfl, -⟩ := hlast' l' hl'
      simp [hl, hl', filled] at h
  | some l =>
    obtain ⟨a, rfl, ha⟩ := hlast l hl
    cases hl' : last' with
    | none => simp [hl, hl', filled] at h
    | some l' =>
      obtain ⟨a', rfl, ha'⟩ := hlast' l' hl'
      simp only [hl, hl', filled, Nat.add_right_cancel_iff] at h
      rw [index_inj (ha.trans ha'.symm) h]

/-- **The later location** of two. -/
theorem isLeaf_laterLocation (ha : a.length = depth) :
    ∀ l, some (Mask.laterLocation (.account a) last) = some l → l.IsLeaf depth := by
  intro l heq
  obtain rfl := Option.some.inj heq
  cases last with
  | none => exact ⟨a, rfl, ha⟩
  | some l =>
    rw [Mask.laterLocation]
    split
    · exact ⟨a, rfl, ha⟩
    · exact hlast l rfl

theorem filled_laterLocation (ha : a.length = depth) :
    filled (some (Mask.laterLocation (.account a) last)) = max (filled last) (index a + 1) := by
  cases last with
  | none => simp [Mask.laterLocation, filled]
  | some l =>
    obtain ⟨c, rfl, hc⟩ := hlast l rfl
    rw [Mask.laterLocation]
    by_cases hgt : compare (Location.account a) (Location.account c) = .gt
    · rw [if_pos hgt]
      rw [Location.compare_account (ha.trans hc.symm), Nat.compare_eq_gt] at hgt
      simp only [filled]
      omega
    · rw [if_neg hgt]
      rw [Location.compare_account (ha.trans hc.symm), Nat.compare_eq_gt] at hgt
      simp only [filled]
      omega

omit hlast

end Beyond

/-! ### Ledgers below masks -/

/-- The hashes of a ledger can be read, and its paths are made of them. -/
structure AnyLedger.Sound (l : AnyLedger Key TokenId Account Hash) : Prop where
  hash : ∀ a : Addr, a.length ≤ l.depth → (l.getInnerHashAtAddrExn a).isSome
  path : ∀ a : Addr, a.length ≤ l.depth → l.merklePathAtAddrExn a = pathOf l.getInnerHashAtAddrExn a
  wide : ∃ wide : Addr → Option (WidePath Hash),
    (∀ locations, l.wideMerklePathBatch locations = locations.mapM fun location => location.toPath.bind wide) ∧
      ∀ a : Addr, a.length ≤ l.depth → wide a = widePathOf l.getInnerHashAtAddrExn a
  last : ∃ last, l.lastFilled = some last ∧ ∀ location, last = some location → location.IsLeaf l.depth

/-- Nothing is in a ledger beyond a location. -/
structure Covers (inputs : Inputs Key TokenId Account Hash) (last : Option Location) (l : AnyLedger Key TokenId Account Hash) : Prop where
  location : ∀ location, last = some location → location.IsLeaf l.depth
  account : ∀ a : Addr, a.length = l.depth → Beyond last a → l.get (.account a) = some none
  hash : ∀ a : Addr, a.length ≤ l.depth → Beyond last a →
    l.getInnerHashAtAddrExn a = some (emptyAt inputs.merge inputs.emptyAccount (Addr.height l.depth a))

section Laws

variable {inputs : Inputs Key TokenId Account Hash} {l : AnyLedger Key TokenId Account Hash}
  {read : Addr → Option Hash} {old : Addr → Hash}

/-- **A later location covers** what the last one does. -/
theorem Covers.mono {last' : Option Location} (hc : Covers inputs last l) (hlast' : ∀ location, last' = some location → location.IsLeaf l.depth)
    (hle : filled last ≤ filled last') : Covers inputs last' l := by
  have hbeyond : ∀ b : Addr, b.length ≤ l.depth → Beyond last' b → Beyond last b := by
    intro b hb h
    rw [beyond_iff hlast' hb] at h
    exact (beyond_iff hc.location hb).2 (hle.trans h)
  exact ⟨hlast', fun b hb h => hc.account b hb (hbeyond b hb.le h), fun b hb h => hc.hash b hb (hbeyond b hb h)⟩

theorem AnyLedger.Sound.exists_old (inputs : Inputs Key TokenId Account Hash) (hs : l.Sound) :
    ∃ old : Addr → Hash, ∀ a : Addr, a.length ≤ l.depth → l.getInnerHashAtAddrExn a = some (old a) := by
  refine ⟨fun a => (l.getInnerHashAtAddrExn a).getD inputs.emptyAccount, fun a ha => ?_⟩
  obtain ⟨h, heq⟩ := Option.isSome_iff_exists.1 (hs.hash a ha)
  simp [heq]

theorem pathOf_eq (hread : ∀ a : Addr, a.length ≤ depth → read a = some (old a)) (ha : a.length ≤ depth) :
    pathOf read a = some ((siblings a).map fun s => (old s.1, s.2)) := by
  refine mapM_eq_some_map fun s hs => ?_
  rw [hread s.1 ((length_le_of_mem_siblings hs).trans ha)]
  rfl

/-- The wide path, from what the hashes are. -/
def wideSiblings (old : Addr → Hash) : Addr → WidePath Hash
  | [] => []
  | b :: a => Database.wideElement b (old ((!b) :: a)) (old (b :: a)) :: wideSiblings old a

theorem widePathOf_eq (hread : ∀ a : Addr, a.length ≤ depth → read a = some (old a)) (ha : a.length ≤ depth) :
    widePathOf read a = some (wideSiblings old a) := by
  induction a with
  | nil => rfl
  | cons b a ih =>
    rw [widePathOf, hread (b :: a) ha, hread ((!b) :: a) (by simpa using ha), ih ((Nat.le_succ _).trans ha)]
    rfl

end Laws

/-! ### Databases -/

namespace Database

variable {inputs : Inputs Key TokenId Account Hash} {mdb : Database}

/-- What the store of a ledger has to answer for accounts to be written can be read. -/
structure Readable (inputs : Inputs Key TokenId Account Hash) (mdb : Database) : Prop where
  depth_lt : mdb.depth < 254
  hash : ∀ a : Addr, a.length ≤ mdb.depth → (getHash inputs mdb a).isSome
  tokens : ∀ pk, (mdb.tokens inputs pk).isSome
  last : ∃ last, mdb.lastFilled = some last ∧ ∀ location, last = some location → location.IsLeaf mdb.depth

theorem getInnerHashAtAddrExn_eq {a : Addr} (ha : a.length ≤ mdb.depth) :
    getInnerHashAtAddrExn inputs mdb a = getHash inputs mdb a := if_pos ha

theorem Readable.exists_old (hr : mdb.Readable inputs) :
    ∃ old : Addr → Hash, ∀ a : Addr, a.length ≤ mdb.depth → getHash inputs mdb a = some (old a) := by
  refine ⟨fun a => (getHash inputs mdb a).getD inputs.emptyAccount, fun a ha => ?_⟩
  obtain ⟨h, heq⟩ := Option.isSome_iff_exists.1 (hr.hash a ha)
  simp [heq]

/-- **A database** is below masks as it should be. -/
theorem Readable.sound (hr : mdb.Readable inputs) : (mdb.any inputs).Sound where
  hash a ha := by
    change (getInnerHashAtAddrExn inputs mdb a).isSome
    rw [getInnerHashAtAddrExn_eq ha]
    exact hr.hash a ha
  path a ha := by
    refine mapM_congr fun s hs => ?_
    change _ = (getInnerHashAtAddrExn inputs mdb s.1).map (·, s.2)
    rw [getInnerHashAtAddrExn_eq ((length_le_of_mem_siblings hs).trans ha)]
  wide := by
    refine ⟨widePathOf (getHash inputs mdb), wideMerklePathBatch_eq, fun a ha => ?_⟩
    obtain ⟨old, hold⟩ := hr.exists_old
    have hinner : ∀ a : Addr, a.length ≤ mdb.depth → (mdb.any inputs).getInnerHashAtAddrExn a = some (old a) := fun a ha =>
      (getInnerHashAtAddrExn_eq ha).trans (hold a ha)
    rw [widePathOf_eq hold ha, widePathOf_eq hinner ha]
  last := hr.last

end Database

/-! ### The paths of a mask -/

namespace Mask

section Walk

variable {E : Type} {element : Nat → Bool → Addr → Option (Option E)} {depth : Nat} {a : Addr}

/-- **A walk to the root** stops, or finds what is along the way. -/
theorem selfPathImpl_cases (along : Addr → List E) (hnil : along [] = [])
    (hcons : ∀ (b : Bool) (a : Addr), (b :: a).length ≤ depth → element (Addr.height depth (b :: a)) b a = some none ∨
      ∃ e, element (Addr.height depth (b :: a)) b a = some (some e) ∧ along (b :: a) = e :: along a) (ha : a.length ≤ depth) :
    selfPathImpl element depth a = some none ∨ selfPathImpl element depth a = some (some (along a)) := by
  induction a with
  | nil => exact .inr (by rw [hnil]; rfl)
  | cons b a ih =>
    have hheight : ¬ Addr.height depth (b :: a) ≥ depth := by
      rw [List.length_cons] at ha
      rw [Addr.height, List.length_cons]
      omega
    rw [selfPathImpl, if_neg hheight]
    obtain hnone | ⟨e, he, halong⟩ := hcons b a ha
    · exact .inl (by rw [hnone]; rfl)
    · rw [he, halong]
      rcases ih ((Nat.le_succ _).trans ha) with hrest | hrest
      · exact .inl (by simp [hrest])
      · exact .inr (by simp [hrest])

end Walk

variable {inputs : Inputs Key TokenId Account Hash} {base : Addr → Hash}

section Paths

variable {hashes : ExtTreeMap Addr Hash} {last : Option Location} {l : AnyLedger Key TokenId Account Hash}
  {old : Addr → Hash} {a : Addr}

/-- The hash of a mask: its own, or that of the ledger below. -/
def overlaid (hashes : ExtTreeMap Addr Hash) (base : Addr → Hash) (a : Addr) : Hash := hashes[a]?.getD (base a)

/-- **What a mask knows of a node** is its hash. -/
theorem selfPathGetHash_cases (hashes : ExtTreeMap Addr Hash) (hc : Covers inputs last l) (hbase : ∀ a : Addr, a.length ≤ l.depth → l.getInnerHashAtAddrExn a = some (base a))
    (ha : a.length ≤ l.depth) : selfPathGetHash inputs hashes last (Addr.height l.depth a) a = some none ∨
      selfPathGetHash inputs hashes last (Addr.height l.depth a) a = some (some (overlaid hashes base a)) := by
  rw [selfPathGetHash, overlaid]
  cases hashes[a]? with
  | some h => exact .inr rfl
  | none =>
    obtain ⟨empty, hempty⟩ := Option.isSome_iff_exists.1 (isEmpty_isSome hc.location a)
    rw [hempty]
    cases empty with
    | false => exact .inl rfl
    | true =>
      have hhash := hc.hash a ha hempty
      rw [hbase a ha] at hhash
      exact .inr (by simp [Option.some.inj hhash])

theorem selfMerklePath_cases (hashes : ExtTreeMap Addr Hash) (hc : Covers inputs last l)
    (hbase : ∀ a : Addr, a.length ≤ l.depth → l.getInnerHashAtAddrExn a = some (base a)) (ha : a.length ≤ l.depth) :
    selfMerklePath inputs hashes last l.depth a = some none ∨
      selfMerklePath inputs hashes last l.depth a = some (some ((siblings a).map fun s => (overlaid hashes base s.1, s.2))) := by
  refine selfPathImpl_cases (fun a => (siblings a).map fun s => (overlaid hashes base s.1, s.2)) rfl (fun b a hlen => ?_) ha
  have hheight : Addr.height l.depth (b :: a) = Addr.height l.depth ((!b) :: a) := rfl
  rw [hheight]
  obtain hnone | hsome := selfPathGetHash_cases hashes hc hbase (a := (!b) :: a) (by simpa using hlen)
  · exact .inl (by rw [hnone]; rfl)
  · exact .inr ⟨_, by rw [hsome]; rfl, rfl⟩

theorem selfWideMerklePath_cases (hashes : ExtTreeMap Addr Hash) (hc : Covers inputs last l)
    (hbase : ∀ a : Addr, a.length ≤ l.depth → l.getInnerHashAtAddrExn a = some (base a)) (ha : a.length ≤ l.depth) :
    selfWideMerklePath inputs hashes last l.depth a = some none ∨
      selfWideMerklePath inputs hashes last l.depth a = some (some (wideSiblings (overlaid hashes base) a)) := by
  refine selfPathImpl_cases (wideSiblings (overlaid hashes base)) rfl (fun b a hlen => ?_) ha
  have hheight : Addr.height l.depth ((!b) :: a) = Addr.height l.depth (b :: a) := rfl
  obtain hnone | hsome := selfPathGetHash_cases hashes hc hbase (a := (!b) :: a) (by simpa using hlen)
  · rw [hheight] at hnone
    exact .inl (by rw [hnone]; rfl)
  · rw [hheight] at hsome
    obtain hnone | hself := selfPathGetHash_cases hashes hc hbase hlen
    · exact .inl (by rw [hsome, Option.bind_eq_bind, Option.bind_some]; dsimp only; rw [hnone]; rfl)
    · exact .inr ⟨_, by rw [hsome, Option.bind_eq_bind, Option.bind_some]; dsimp only; rw [hself]; rfl, rfl⟩

/-- **A path from below** with the hashes of the mask. -/
theorem fixupMerklePath_eq :
    fixupMerklePath hashes a ((siblings a).map fun s => (base s.1, s.2)) = some ((siblings a).map fun s => (overlaid hashes base s.1, s.2)) := by
  induction a with
  | nil => rfl
  | cons b a ih =>
    rw [siblings, List.map_cons, fixupMerklePath, ih]
    rfl

theorem fixupWideMerklePath_eq :
    fixupWideMerklePath hashes a (wideSiblings base a) = some (wideSiblings (overlaid hashes base) a) := by
  induction a with
  | nil => rfl
  | cons b a ih =>
    rw [wideSiblings, fixupWideMerklePath, ih]
    cases b <;> rfl

end Paths

variable [Ord Key] [Ord TokenId]

/-- **A mask over a ledger**: it is attached, and reads what it has not from this one, which nothing is in beyond the last location. -/
structure Reads (inputs : Inputs Key TokenId Account Hash) (t : Mask Key TokenId Account Hash) (parent : AnyLedger Key TokenId Account Hash)
    (maps : Maps Key TokenId Account Hash) (ancestor : AnyLedger Key TokenId Account Hash) : Prop where
  attached : t.parent = some parent
  view : t.mapsAndAncestor = some (maps, ancestor)
  depth : ancestor.depth = t.depth
  parentDepth : parent.depth = t.depth
  parentSound : parent.Sound
  sound : ancestor.Sound
  covers : Covers inputs t.currentLocation ancestor

namespace Reads

variable {t : Mask Key TokenId Account Hash} {parent ancestor : AnyLedger Key TokenId Account Hash}
  {maps : Maps Key TokenId Account Hash} {a : Addr}

variable (hr : Reads inputs t parent maps ancestor)

include hr

theorem isAttached : t.assertIsAttached = some () := by
  rw [assertIsAttached, hr.attached]
  rfl

theorem exists_base : ∃ base : Addr → Hash, ∀ a : Addr, a.length ≤ t.depth → ancestor.getInnerHashAtAddrExn a = some (base a) :=
  hr.depth ▸ hr.sound.exists_old inputs

variable (hbase : ∀ a : Addr, a.length ≤ t.depth → ancestor.getInnerHashAtAddrExn a = some (base a))

include hbase

/-- **The hash at an address.** -/
theorem getHash_eq (ha : a.length ≤ t.depth) : t.getHash a = some (some (overlaid maps.hashes base a)) := by
  rw [getHash, hr.isAttached, hr.view]
  simp only [Option.bind_eq_bind, Option.bind_some]
  rw [overlaid]
  cases maps.hashes[a]? with
  | some h => rfl
  | none => simp [hbase a ha]

theorem getInnerHashAtAddrExn_eq (ha : a.length ≤ t.depth) :
    t.getInnerHashAtAddrExn a = some (overlaid maps.hashes base a) := by
  rw [getInnerHashAtAddrExn, if_pos ha, hr.getHash_eq hbase ha]
  rfl

omit hbase

/-- **An account** is in the maps, or in the ledger below. -/
theorem get_eq (ha : a.length = t.depth) :
    t.get (.account a) = (maps.accounts[Location.account a]?).elim (ancestor.get (.account a)) fun account => some (some account) := by
  rw [get, hr.isAttached, hr.view]
  simp only [Option.bind_eq_bind, Option.bind_some]
  cases maps.accounts[Location.account a]? with
  | some account => rfl
  | none =>
    obtain ⟨empty, hempty⟩ := Option.isSome_iff_exists.1 (isEmpty_isSome hr.covers.location a)
    rw [isEmpty_account, hempty]
    cases empty with
    | false => rfl
    | true => exact (hr.covers.account a (ha.trans hr.depth.symm) hempty).symm

include hbase in
/-- **`merkle_path`** gives the siblings. -/
theorem merklePathAtAddrExn_eq (ha : a.length ≤ t.depth) :
    merklePathAtAddrExn inputs t a = some ((siblings a).map fun s => (overlaid maps.hashes base s.1, s.2)) := by
  rw [← hr.depth] at hbase ha
  rw [merklePathAtAddrExn, hr.isAttached, hr.view]
  simp only [Option.bind_eq_bind, Option.bind_some]
  rw [← hr.depth]
  rcases selfMerklePath_cases maps.hashes hr.covers hbase ha with hnone | hsome
  · rw [hnone, Option.bind_some]
    dsimp only
    rw [hr.sound.path a ha, pathOf_eq hbase ha, Option.bind_some, fixupMerklePath_eq]
  · rw [hsome]
    rfl

/-- **The last filled location** is the later one of the parent's and of the mask's. -/
theorem exists_lastFilled : ∃ parentLast last, parent.lastFilled = some parentLast ∧ t.lastFilled = some last ∧
      (∀ location, last = some location → location.IsLeaf t.depth) ∧ filled last = max (filled parentLast) (filled t.currentLocation) := by
  obtain ⟨parentLast, hparentLast, hleaf⟩ := hr.parentSound.last
  rw [hr.parentDepth] at hleaf
  have hours := hr.covers.location
  rw [hr.depth] at hours
  refine ⟨parentLast, ?_⟩
  rw [lastFilled, hr.attached]
  simp only [Option.bind_eq_bind, Option.bind_some, hparentLast]
  cases hp : parentLast with
  | none => exact ⟨t.currentLocation, trivial, rfl, hours, by simp [filled]⟩
  | some p =>
    obtain ⟨pa, rfl, hpa⟩ := hleaf p hp
    cases hc : t.currentLocation with
    | none => exact ⟨_, trivial, rfl, fun location heq => Option.some.inj heq ▸ ⟨pa, rfl, hpa⟩, by simp [filled]⟩
    | some c =>
      obtain ⟨ca, rfl, hca⟩ := hours c hc
      have hge : (Addr.compare pa ca).isGE = true ↔ index ca ≤ index pa := by
        rw [Addr.compare_eq (hpa.trans hca.symm), Nat.isGE_compare]
      refine ⟨_, trivial, rfl, fun location heq => ?_, ?_⟩
      · split at heq
        · exact Option.some.inj heq ▸ ⟨pa, rfl, hpa⟩
        · exact Option.some.inj heq ▸ ⟨ca, rfl, hca⟩
      · by_cases hle : index ca ≤ index pa
        · rw [if_pos (hge.2 hle)]
          simp [filled, hle]
        · rw [if_neg fun h => hle (hge.1 h)]
          simp [filled, (Nat.lt_of_not_le hle).le]

/-- **A mask** is again a ledger whose paths are made of its hashes. -/
theorem any_sound [TransOrd Key] [TransOrd TokenId] : (t.any inputs).Sound := by
  obtain ⟨base, hbelow⟩ := hr.exists_base
  have hinner : ∀ a : Addr, a.length ≤ t.depth → (t.any inputs).getInnerHashAtAddrExn a = some (overlaid maps.hashes base a) :=
    fun a ha => hr.getInnerHashAtAddrExn_eq hbelow ha
  obtain ⟨-, last, -, hlast, hleaf, -⟩ := hr.exists_lastFilled
  refine ⟨fun a ha => ?_, fun a ha => ?_, ?_, last, hlast, hleaf⟩
  · rw [hinner a ha]
    rfl
  · rw [pathOf_eq hinner ha]
    exact hr.merklePathAtAddrExn_eq hbelow ha
  · obtain ⟨wide, hwide, hwideOf⟩ := hr.sound.wide
    refine ⟨_, pathBatchImpl_eq hr.isAttached hr.view hwide, fun a ha => ?_⟩
    rw [← hr.depth]
    have ha' : a.length ≤ ancestor.depth := ha.trans_eq hr.depth.symm
    have hbase : ∀ a : Addr, a.length ≤ ancestor.depth → ancestor.getInnerHashAtAddrExn a = some (base a) :=
      fun a ha => hbelow a (ha.trans_eq hr.depth)
    rw [widePathOf_eq hinner ha, hwideOf a ha', widePathOf_eq hbase ha']
    rcases selfWideMerklePath_cases maps.hashes hr.covers hbase ha' with hnone | hsome
    · rw [hnone]
      exact fixupWideMerklePath_eq
    · rw [hsome]
      rfl

omit hr

end Reads

/-! ### Masks over masks -/

/-- Nothing is in the ledger that a mask reads beyond the last location. -/
def Covered (inputs : Inputs Key TokenId Account Hash) (t : Mask Key TokenId Account Hash) : Prop :=
  ∀ maps ancestor, t.mapsAndAncestor = some (maps, ancestor) → Covers inputs t.currentLocation ancestor

/-- **A mask over a ledger**, with a cache over another one, if it has any. -/
structure Over (P : AnyLedger Key TokenId Account Hash → Prop) (t : Mask Key TokenId Account Hash) : Prop where
  parent : ∃ parent, t.parent = some parent ∧ P parent ∧ parent.depth = t.depth
  base : ∀ acc, t.accumulated = some acc → P acc.base ∧ acc.base.depth = t.depth

end Mask

/-- **Masks over masks over a database**, that may have caches. -/
inductive Stack [Ord Key] [TransOrd Key] [Ord TokenId] [TransOrd TokenId] (inputs : Inputs Key TokenId Account Hash)
    (store : Database → Prop) (ok : Mask Key TokenId Account Hash → Prop) : AnyLedger Key TokenId Account Hash → Prop
  | database {mdb : Database} (h : store mdb) : Stack inputs store ok (mdb.any inputs)
  | mask {t : Mask Key TokenId Account Hash} {parent : AnyLedger Key TokenId Account Hash} (hparent : t.parent = some parent)
      (hbelow : Stack inputs store ok parent) (hdepth : parent.depth = t.depth)
      (hbase : ∀ acc, t.accumulated = some acc → Stack inputs store ok acc.base)
      (hbaseDepth : ∀ acc, t.accumulated = some acc → acc.base.depth = t.depth) (h : ok t) : Stack inputs store ok (t.any inputs)

namespace Mask

variable [Ord Key] [Ord TokenId]

variable {inputs : Inputs Key TokenId Account Hash} {P : AnyLedger Key TokenId Account Hash → Prop} {t : Mask Key TokenId Account Hash}

/-- **What an attached mask reads**: the ledger below it, or that below its cache. -/
theorem Over.exists_view (ho : t.Over P) :
    ∃ parent maps ancestor, t.parent = some parent ∧ P parent ∧ parent.depth = t.depth ∧
      t.mapsAndAncestor = some (maps, ancestor) ∧ P ancestor ∧ ancestor.depth = t.depth := by
  obtain ⟨parent, hparent, hP, hdepth⟩ := ho.parent
  refine ⟨parent, ?_⟩
  cases hacc : t.accumulated with
  | none =>
    refine ⟨t.maps, parent, hparent, hP, hdepth, ?_, hP, hdepth⟩
    simp [mapsAndAncestor, actualizeAccumulated, hacc, hparent]
  | some acc =>
    obtain ⟨hbase, hbaseDepth⟩ := ho.base acc hacc
    by_cases hdetached : acc.detachedNextSignal
    · refine ⟨acc.next, acc.base, hparent, hP, hdepth, ?_, hbase, hbaseDepth⟩
      simp [mapsAndAncestor, actualizeAccumulated, hacc, hdetached]
    · refine ⟨acc.current, acc.base, hparent, hP, hdepth, ?_, hbase, hbaseDepth⟩
      simp [mapsAndAncestor, actualizeAccumulated, hacc, hdetached]

theorem Reads.isCovered {parent ancestor : AnyLedger Key TokenId Account Hash} {maps : Maps Key TokenId Account Hash}
    (hr : Reads inputs t parent maps ancestor) : t.Covered inputs := by
  intro maps' ancestor' hview
  rw [hr.view] at hview
  exact (Prod.mk.inj (Option.some.inj hview)).2 ▸ hr.covers

theorem Over.exists_reads (ho : t.Over P) (hsound : ∀ l, P l → l.Sound) (hc : t.Covered inputs) :
    ∃ parent maps ancestor, Reads inputs t parent maps ancestor := by
  obtain ⟨parent, maps, ancestor, hparent, hP, hdepth, hview, hancestor, hancestorDepth⟩ := ho.exists_view
  exact ⟨parent, maps, ancestor, hparent, hview, hancestorDepth, hdepth, hsound _ hP, hsound _ hancestor, hc _ _ hview⟩

end Mask

namespace Stack

variable [Ord Key] [Ord TokenId] [TransOrd Key] [TransOrd TokenId]

variable {inputs : Inputs Key TokenId Account Hash} {store : Database → Prop} {ok : Mask Key TokenId Account Hash → Prop}
  {l : AnyLedger Key TokenId Account Hash}

/-- **Ledgers of every kind** answer many as one. -/
theorem batched (hl : Stack inputs store ok l) : l.Batched := by
  induction hl with
  | database => exact Database.batched inputs _
  | @mask t parent hparent hbelow hdepth hbase hbaseDepth _ ihBelow ihBase =>
    have ho : t.Over AnyLedger.Batched :=
      ⟨⟨parent, hparent, ihBelow, hdepth⟩, fun acc hacc => ⟨ihBase acc hacc, hbaseDepth acc hacc⟩⟩
    obtain ⟨_, maps, ancestor, hattached, -, -, hview, hb, hancestorDepth⟩ := ho.exists_view
    exact Mask.batched inputs hattached hview hancestorDepth hb

/-- **Where masks are covered**, all the paths are made of the hashes. -/
theorem sound (hl : Stack inputs (Database.Readable inputs) (Mask.Covered inputs) l) : l.Sound := by
  induction hl with
  | database h => exact h.sound
  | @mask t parent hparent hbelow hdepth hbase hbaseDepth h ihBelow ihBase =>
    have ho : t.Over AnyLedger.Sound :=
      ⟨⟨parent, hparent, ihBelow, hdepth⟩, fun acc hacc => ⟨ihBase acc hacc, hbaseDepth acc hacc⟩⟩
    obtain ⟨_, maps, ancestor, hr⟩ := ho.exists_reads (fun _ h => h) h
    exact hr.any_sound

theorem of_over {t : Mask Key TokenId Account Hash} (ho : t.Over (Stack inputs store ok)) (h : ok t) : Stack inputs store ok (t.any inputs) := by
  obtain ⟨parent, hparent, hbelow, hdepth⟩ := ho.parent
  exact .mask hparent hbelow hdepth (fun acc hacc => (ho.base acc hacc).1) (fun acc hacc => (ho.base acc hacc).2) h

end Stack

end MinaProtocol.MerkleLedger
