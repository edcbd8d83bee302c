import MinaProtocol.MerkleLedger.LedgerWrites

/-!
# MerkleLedger.Pruning

What a mask does when it is told of accounts that it has itself. It takes them out of its maps, lets its last
location go back if the last account is one of them, and makes the hashes above them anew as if nothing were there.
-/

namespace MinaProtocol.MerkleLedger

open AddressTree Std

variable {Key TokenId Account Hash : Type}

/-! ### The location before -/

/-- **The position before**, if there is one. -/
theorem Addr.prev_cases (a : Addr) :
    (Addr.prev a = none ∧ index a = 0) ∨ ∃ b, Addr.prev a = some b ∧ b.length = a.length ∧ index b + 1 = index a := by
  induction a with
  | nil => exact .inl ⟨rfl, rfl⟩
  | cons b a ih =>
    cases b with
    | true => exact .inr ⟨false :: a, rfl, rfl, by simp [index, Nat.add_comm]⟩
    | false =>
      rcases ih with ⟨hprev, hindex⟩ | ⟨c, hprev, hlen, hindex⟩
      · exact .inl ⟨by simp [prev, hprev], by simp [index, hindex]⟩
      · refine .inr ⟨true :: c, by simp [prev, hprev], by simp [hlen], ?_⟩
        simp only [index, Bool.toNat_true, Bool.toNat_false]
        omega

section Reuse

variable {depth : Nat} {current : Option Location} {a : Addr}

/-- **The last location goes back** if its account is removed, and else stays where it is. -/
theorem reuseLocation_spec (hcurrent : ∀ l, current = some l → l.IsLeaf depth) (ha : a.length = depth) :
    ∃ last, Mask.reuseLocation (.account a) current = some last ∧ (∀ l, last = some l → l.IsLeaf depth) ∧
      filled last ≤ filled current ∧ (filled current ≤ index a + 1 → filled last ≤ index a) ∧ (index a + 1 < filled current → last = current) := by
  cases hc : current with
  | none => exact ⟨none, rfl, by simp, le_rfl, fun _ => Nat.zero_le _, fun _ => rfl⟩
  | some l =>
    obtain ⟨c, rfl, hclen⟩ := hcurrent l hc
    by_cases hac : a = c
    · subst hac
      have hreuse : Mask.reuseLocation (.account a) (some (.account a)) = some ((Addr.prev a).map .account) := if_pos rfl
      rcases Addr.prev_cases a with ⟨hprev, hindex⟩ | ⟨b, hprev, hlen, hindex⟩
      · rw [hreuse, hprev]
        exact ⟨none, rfl, by simp, Nat.zero_le _, fun _ => Nat.zero_le _, fun h => absurd h (by simp [filled])⟩
      · rw [hreuse, hprev]
        refine ⟨some (.account b), rfl, fun l hl => ⟨b, (Option.some.inj hl).symm, hlen.trans ha⟩, ?_, ?_, fun h => absurd h (by simp [filled])⟩
        · simp only [filled]
          omega
        · intro _
          simp only [filled]
          omega
    · have hreuse : Mask.reuseLocation (.account a) (some (.account c)) = some (some (.account c)) :=
        if_neg fun h => hac (Location.account.inj h)
      refine ⟨some (.account c), hreuse, fun l hl => ⟨c, (Option.some.inj hl).symm, hclen⟩, le_rfl, fun h => ?_, fun _ => rfl⟩
      have hne : index a ≠ index c := fun h => hac (index_inj (ha.trans hclen.symm) h)
      simp only [filled] at h ⊢
      omega

/-- **A leaf** is taken to be empty if it lies beyond as many as are filled. -/
theorem isEmpty_leaf (hcurrent : ∀ l, current = some l → l.IsLeaf depth) (ha : a.length = depth) :
    Mask.isEmpty current (.account a) = some (decide (filled current ≤ index a)) := by
  obtain ⟨empty, hempty⟩ := Option.isSome_iff_exists.1 (isEmpty_isSome hcurrent a)
  have hbeyond := beyond_iff hcurrent (Nat.le_of_eq ha)
  rw [ha, Nat.sub_self, pow_zero, Nat.mul_one, Beyond, hempty, Option.some.injEq] at hbeyond
  rw [isEmpty_account, hempty]
  cases empty <;> simpa using hbeyond

end Reuse

/-! ### Paths are always there -/

theorem length_siblings (a : Addr) : (siblings a).length = a.length := by
  induction a with
  | nil => rfl
  | cons b a ih => rw [siblings, List.length_cons, List.length_cons, ih]

namespace Mask

theorem exists_selfMerklePath (inputs : Inputs Key TokenId Account Hash) (hashes : ExtTreeMap Addr Hash) {depth : Nat} {last : Option Location}
    (hlast : ∀ l, last = some l → l.IsLeaf depth) (a : Addr) :
    ∃ r, selfMerklePath inputs hashes last depth a = some r ∧ ∀ path, r = some path → path.length ≤ a.length := by
  induction a with
  | nil => exact ⟨some [], rfl, fun path h => Option.some.inj h ▸ le_rfl⟩
  | cons b a ih =>
    obtain ⟨r, hr, hlen⟩ := ih
    rw [selfMerklePath] at hr ⊢
    rw [selfPathImpl]
    by_cases hheight : Addr.height depth (b :: a) ≥ depth
    · exact ⟨some [], by rw [if_pos hheight], fun path h => Option.some.inj h ▸ Nat.zero_le _⟩
    · obtain ⟨empty, hempty⟩ := Option.isSome_iff_exists.1 (isEmpty_isSome hlast ((!b) :: a))
      obtain ⟨sibling, hsibling⟩ : ∃ sibling, selfPathGetHash inputs hashes last (Addr.height depth (b :: a)) ((!b) :: a) = some sibling := by
        rw [selfPathGetHash, hempty]
        cases hashes[(!b) :: a]? <;> exact ⟨_, rfl⟩
      rw [if_neg hheight, hsibling]
      cases sibling with
      | none => exact ⟨none, rfl, fun path h => absurd h (by simp)⟩
      | some h =>
        refine ⟨r.map ((h, b) :: ·), by simp [hr], fun path hpath => ?_⟩
        obtain ⟨rest, hrest, rfl⟩ := Option.map_eq_some_iff.1 hpath
        exact Nat.succ_le_succ (hlen rest hrest)

theorem exists_addressesAndHashesFrom (inputs : Inputs Key TokenId Account Hash) (height : Nat) (a : Addr) (h : Hash) (accum : List (Addr × Hash))
    {path : Path Hash} (hlen : path.length ≤ a.length) : ∃ nodes, addressesAndHashesFrom inputs height ((a, h) :: accum) path = some nodes := by
  induction path generalizing a height h accum with
  | nil => exact ⟨_, rfl⟩
  | cons e path ih =>
    cases a with
    | nil => exact absurd hlen (by simp)
    | cons b a =>
      obtain ⟨nodes, hnodes⟩ := ih (height + 1) a
        (if e.2 then inputs.merge height e.1 h else inputs.merge height h e.1) ((b :: a, h) :: accum) (Nat.le_of_succ_le_succ hlen)
      exact ⟨nodes, by simpa [addressesAndHashesFrom, Addr.parent] using hnodes⟩

end Mask

section Masks

variable [Ord Key] [Ord TokenId] [TransOrd Key] [TransOrd TokenId]

/-! ### Taking one account out -/

/-- The account is in the maps as a write leaves it: with its location, the owner of its token and the hashes above it. -/
structure Maps.Holds (inputs : Inputs Key TokenId Account Hash) (maps : Maps Key TokenId Account Hash) (a : Addr) (account : Account) : Prop where
  entry : maps.accounts[Location.account a]? = some account
  location : maps.locations[inputs.identifier account]? = some (.account a)
  owner : maps.tokenOwners[inputs.deriveTokenId (inputs.identifier account)]? = some (inputs.identifier account)
  hashes : ∀ b : Addr, b <:+ a → (maps.hashes[b]?).isSome

namespace Mask

variable {inputs : Inputs Key TokenId Account Hash} {t : Mask Key TokenId Account Hash} {parent ancestor : AnyLedger Key TokenId Account Hash}
  {maps : Maps Key TokenId Account Hash} {base : Addr → Hash} {last : Option Location} {a : Addr} {account : Account} {path : Path Hash}
  {nodes : List (Addr × Hash)}

omit [TransOrd Key] [TransOrd TokenId] in
theorem view_of_none (haccumulated : t.accumulated = none) (hparent : t.parent = some parent) : t.mapsAndAncestor = some (t.maps, parent) := by
  simp [mapsAndAncestor, actualizeAccumulated, haccumulated, hparent]

omit [TransOrd Key] [TransOrd TokenId] in
theorem isAttached_of_parent (hparent : t.parent = some parent) : t.assertIsAttached = some () := by
  rw [assertIsAttached, hparent]
  rfl

/-- The mask without an account in its own maps. -/
def without (inputs : Inputs Key TokenId Account Hash) (a : Addr) (account : Account) (last : Option Location) (t : Mask Key TokenId Account Hash) :
    Mask Key TokenId Account Hash :=
  { t with maps := t.maps.remove inputs (.account a) account, currentLocation := last }

theorem view_without (inputs : Inputs Key TokenId Account Hash) (last : Option Location) (a : Addr) (account : Account)
    (hview : t.mapsAndAncestor = some (maps, ancestor)) :
    ∃ maps' : Maps Key TokenId Account Hash, (t.without inputs a account last).mapsAndAncestor = some (maps', ancestor) ∧ maps'.hashes = maps.hashes := by
  cases hacc : t.accumulated with
  | none =>
    simp only [mapsAndAncestor, actualizeAccumulated, hacc, Option.map_eq_some_iff, Prod.mk.injEq] at hview
    obtain ⟨parent, hparent, rfl, rfl⟩ := hview
    exact ⟨t.maps.remove inputs (.account a) account, by simp [mapsAndAncestor, actualizeAccumulated, without, hacc, hparent], rfl⟩
  | some acc =>
    refine ⟨maps, ?_, rfl⟩
    by_cases hdetached : acc.detachedNextSignal
    · simp only [mapsAndAncestor, actualizeAccumulated, hacc, hdetached, if_true] at hview
      simpa [mapsAndAncestor, actualizeAccumulated, without, hacc, hdetached] using hview
    · simp only [mapsAndAncestor, actualizeAccumulated, hacc, if_neg hdetached] at hview
      simpa [mapsAndAncestor, actualizeAccumulated, without, hacc, hdetached] using hview

/-- **What a mask does** to an account that it has. -/
theorem removeAccountAndUpdateHashes_eq (hentry : t.maps.accounts[Location.account a]? = some account)
    (hreuse : reuseLocation (.account a) t.currentLocation = some last)
    (hpath : merklePathAtAddrExn inputs (t.without inputs a account last) a = some path)
    (hnodes : addressesAndHashesFromMerklePathExn inputs path a inputs.emptyAccount = some nodes) :
    removeAccountAndUpdateHashes inputs t (.account a) = some ((t.without inputs a account last).write (setHashes nodes) last) := by
  simp only [removeAccountAndUpdateHashes, hentry, hreuse, Location.toPath, Option.bind_eq_bind, Option.bind_some, merklePath]
  change (merklePathAtAddrExn inputs (t.without inputs a account last) a).bind _ = _
  rw [hpath, Option.bind_some, hnodes, Option.bind_some, foldl_selfSetHash]
  rfl

theorem parentSetNotify_of_holds [DecidableEq Account] (hattached : t.assertIsAttached = some ()) (hholds : t.maps.Holds inputs a account) :
    parentSetNotify inputs t account = removeAccountAndUpdateHashes inputs t (.account a) := by
  simp [parentSetNotify, hattached, hholds.location, hholds.entry]

omit [TransOrd Key] [TransOrd TokenId] in
/-- **A path** is read in every mask over a ledger that can be read. -/
theorem exists_merklePath (inputs : Inputs Key TokenId Account Hash) (hattached : t.assertIsAttached = some ())
    (hview : t.mapsAndAncestor = some (maps, ancestor)) (hs : ancestor.Sound) (hdepth : ancestor.depth = t.depth)
    (hlast : ∀ l, t.currentLocation = some l → l.IsLeaf t.depth) (ha : a.length ≤ t.depth) :
    ∃ path, merklePathAtAddrExn inputs t a = some path ∧ path.length ≤ a.length := by
  obtain ⟨r, hr, hlen⟩ := exists_selfMerklePath inputs maps.hashes hlast a
  rw [merklePathAtAddrExn, hattached, hview]
  simp only [Option.bind_eq_bind, Option.bind_some, hr]
  cases r with
  | some path => exact ⟨path, rfl, hlen path rfl⟩
  | none =>
    obtain ⟨base, hbase⟩ := hs.exists_old inputs
    have ha' : a.length ≤ ancestor.depth := ha.trans_eq hdepth.symm
    dsimp only
    rw [hs.path a ha', pathOf_eq hbase ha', Option.bind_some, fixupMerklePath_eq]
    exact ⟨_, rfl, by simp [length_siblings]⟩

/-! ### Taking many accounts out -/

/-- A mask without a cache, that has lost accounts, with hashes made anew. -/
def pruned (inputs : Inputs Key TokenId Account Hash) (qs : List (Addr × Account)) (nodes : List (Addr × Hash)) (last : Option Location)
    (t : Mask Key TokenId Account Hash) : Mask Key TokenId Account Hash :=
  { t with
    maps :=
      { accounts := eraseAll t.maps.accounts (qs.map fun q => .account q.1)
        tokenOwners := eraseAll t.maps.tokenOwners (qs.map fun q => inputs.deriveTokenId (inputs.identifier q.2))
        hashes := insertAll t.maps.hashes nodes
        locations := eraseAll t.maps.locations (qs.map fun q => inputs.identifier q.2) }
    currentLocation := last
    accumulated := none }

/-- **Other accounts stay.** -/
theorem holds_without [LawfulEqOrd Key] [LawfulEqOrd TokenId] {b : Addr} {account' : Account}
    (hholds : maps.Holds inputs a account) (hother : maps.Holds inputs b account') (hne : b ≠ a) :
    (setHashes nodes (maps.remove inputs (.account a) account)).Holds inputs b account' where
  entry := by
    change (maps.accounts.erase _)[_]? = _
    rw [ExtTreeMap.getElem?_erase, if_neg, hother.entry]
    exact fun h => hne (Location.account.inj (LawfulEqOrd.eq_of_compare h)).symm
  location := by
    change (maps.locations.erase _)[_]? = _
    rw [ExtTreeMap.getElem?_erase, if_neg, hother.location]
    intro h
    have hid := hholds.location
    rw [LawfulEqOrd.eq_of_compare h, hother.location] at hid
    exact hne (Location.account.inj (Option.some.inj hid))
  owner := by
    change (maps.tokenOwners.erase _)[_]? = _
    rw [ExtTreeMap.getElem?_erase, if_neg, hother.owner]
    intro h
    have hid := hholds.owner
    rw [LawfulEqOrd.eq_of_compare h, hother.owner] at hid
    have hlocation := hholds.location
    rw [← Option.some.inj hid, hother.location] at hlocation
    exact hne (Location.account.inj (Option.some.inj hlocation))
  hashes c hc := by
    change ((insertAll maps.hashes nodes)[c]?).isSome
    obtain ⟨-, heq⟩ | ⟨v, -, heq⟩ := insertAll_cases nodes c
    · rw [heq]
      exact hother.hashes c hc
    · rw [heq]
      rfl

section Notify

variable [DecidableEq Account]

/-- **A mask that has the account** drops it, and makes hashes anew. Where it is not the last account, and nothing is beyond the last one,
they are those of the tree with the leaf emptied. -/
theorem exists_parentSetNotify (hattached : t.parent = some parent) (hparent : parent.Sound) (hparentDepth : parent.depth = t.depth)
    (hview : t.mapsAndAncestor = some (maps, ancestor)) (hs : ancestor.Sound) (hdepth : ancestor.depth = t.depth)
    (hcurrent : ∀ l, t.currentLocation = some l → l.IsLeaf t.depth)
    (hbase : ∀ a : Addr, a.length ≤ t.depth → ancestor.getInnerHashAtAddrExn a = some (base a)) (ha : a.length = t.depth)
    (hholds : t.maps.Holds inputs a account) : ∃ nodes last, reuseLocation (.account a) t.currentLocation = some last ∧
      parentSetNotify inputs t account = some ((t.without inputs a account last).write (setHashes nodes) last) ∧
      (index a + 1 < filled t.currentLocation → Covers inputs t.currentLocation ancestor → ∃ xs : List Addr, (∀ x, x ∈ xs ↔ x <:+ a) ∧
        nodes = xs.map fun x => (x, rehash inputs.merge (overlaid maps.hashes base) (fun _ => inputs.emptyAccount) [a] (t.depth - x.length) x)) := by
  have hasserted : t.assertIsAttached = some () := isAttached_of_parent hattached
  obtain ⟨last, hreuse, hlast, -, -, hstays⟩ := reuseLocation_spec hcurrent ha
  obtain ⟨maps', hview', hhashes⟩ := view_without inputs last a account hview
  by_cases hright : index a + 1 < filled t.currentLocation ∧ Covers inputs t.currentLocation ancestor
  · obtain ⟨hlt, hc⟩ := hright
    obtain rfl := hstays hlt
    have hr : Reads inputs (t.without inputs a account t.currentLocation) parent maps' ancestor :=
      ⟨hattached, hview', hdepth, hparentDepth, hparent, hs, hc⟩
    have hpath := hr.merklePathAtAddrExn_eq hbase (Nat.le_of_eq ha)
    obtain ⟨xs, hxs, hmem⟩ := addressesAndHashesFrom_eq inputs (overlaid maps.hashes base) (fun _ => inputs.emptyAccount) ha (List.suffix_refl a) []
    have hstart : rehash inputs.merge (overlaid maps.hashes base) (fun _ => inputs.emptyAccount) [a] 0 a = inputs.emptyAccount := if_pos List.mem_cons_self
    have hzero : t.depth - a.length = 0 := by omega
    rw [hzero, hstart, List.append_nil] at hxs
    rw [hhashes] at hpath
    exact ⟨_, _, hreuse, (parentSetNotify_of_holds hasserted hholds).trans (removeAccountAndUpdateHashes_eq hholds.entry hreuse hpath hxs),
      fun _ _ => ⟨xs, hmem, rfl⟩⟩
  · obtain ⟨path, hpath, hlen⟩ := exists_merklePath inputs (t := t.without inputs a account last) hasserted hview' hs hdepth hlast (Nat.le_of_eq ha)
    obtain ⟨nodes, hnodes⟩ := exists_addressesAndHashesFrom inputs 0 a inputs.emptyAccount [] hlen
    exact ⟨nodes, last, hreuse, (parentSetNotify_of_holds hasserted hholds).trans (removeAccountAndUpdateHashes_eq hholds.entry hreuse hpath hnodes),
      fun hlt hc => absurd ⟨hlt, hc⟩ hright⟩

/-- A mask that can be told of any account. -/
structure Ready (t : Mask Key TokenId Account Hash) (ancestor : AnyLedger Key TokenId Account Hash) : Prop where
  attached : t.assertIsAttached = some ()
  view : ∃ maps, t.mapsAndAncestor = some (maps, ancestor)
  depth : ancestor.depth = t.depth
  current : ∀ l, t.currentLocation = some l → l.IsLeaf t.depth
  leaf : ∀ (aid : AccountId Key TokenId) (l : Location), t.maps.locations[aid]? = some l → l.IsLeaf t.depth

/-- **Any account**: it is told, and can be told of others. -/
theorem Ready.parentSetNotify [LawfulEqOrd Key] [LawfulEqOrd TokenId] (inputs : Inputs Key TokenId Account Hash) (hs : ancestor.Sound)
    (h : t.Ready ancestor) (account : Account) :
    ∃ t', Mask.parentSetNotify inputs t account = some t' ∧ t'.Ready ancestor := by
  rw [Mask.parentSetNotify, h.attached]
  simp only [Option.bind_eq_bind, Option.bind_some]
  cases hlocation : t.maps.locations[inputs.identifier account]? with
  | none => exact ⟨t, rfl, h⟩
  | some l =>
    obtain ⟨a, rfl, ha⟩ := h.leaf _ l hlocation
    dsimp only
    cases hentry : t.maps.accounts[Location.account a]? with
    | none => exact ⟨t, rfl, h⟩
    | some existing =>
      dsimp only
      by_cases hsame : account = existing
      · obtain ⟨maps, hview⟩ := h.view
        obtain ⟨last, hreuse, hlast, -⟩ := reuseLocation_spec h.current ha
        obtain ⟨maps', hview', -⟩ := view_without inputs last a existing hview
        obtain ⟨path, hpath, hlen⟩ := exists_merklePath inputs (t := t.without inputs a existing last) h.attached hview' hs h.depth hlast (Nat.le_of_eq ha)
        obtain ⟨nodes, hnodes⟩ := exists_addressesAndHashesFrom inputs 0 a inputs.emptyAccount [] hlen
        refine ⟨(t.without inputs a existing last).write (setHashes nodes) last,
          (if_pos hsame).trans (removeAccountAndUpdateHashes_eq hentry hreuse hpath hnodes), h.attached, ⟨_, view_write hview'⟩, h.depth, hlast,
          fun aid l hl => h.leaf aid l ?_⟩
        change (t.maps.locations.erase _)[aid]? = some l at hl
        rw [ExtTreeMap.getElem?_erase] at hl
        exact (Option.ite_none_left_eq_some.1 hl).2
      · exact ⟨t, if_neg hsame, h⟩

theorem Ready.foldlM [LawfulEqOrd Key] [LawfulEqOrd TokenId] (inputs : Inputs Key TokenId Account Hash) (hs : ancestor.Sound)
    (h : t.Ready ancestor) (accounts : List Account) : ∃ t', accounts.foldlM (Mask.parentSetNotify inputs) t = some t' ∧ t'.Ready ancestor := by
  induction accounts generalizing t with
  | nil => exact ⟨t, rfl, h⟩
  | cons account accounts ih =>
    obtain ⟨t₁, hnotify, h₁⟩ := h.parentSetNotify inputs hs account
    obtain ⟨t₂, hfold, h₂⟩ := ih h₁
    exact ⟨t₂, by rw [List.foldlM_cons, hnotify]; exact hfold, h₂⟩

variable [LawfulEqOrd Key] [LawfulEqOrd TokenId]

/-- **A mask without a cache** that is told of many accounts that it has. -/
theorem foldlM_parentSetNotify {qs : List (Addr × Account)} (hattached : t.parent = some parent) (haccumulated : t.accumulated = none)
    (hparent : parent.Sound) (hdepth : parent.depth = t.depth) (hcurrent : ∀ l, t.currentLocation = some l → l.IsLeaf t.depth)
    (hbase : ∀ a : Addr, a.length ≤ t.depth → parent.getInnerHashAtAddrExn a = some (base a)) (hlen : ∀ q ∈ qs, q.1.length = t.depth)
    (hnodup : (qs.map Prod.fst).Nodup) (hholds : ∀ q ∈ qs, t.maps.Holds inputs q.1 q.2) :
    ∃ nodes last, (qs.map Prod.snd).foldlM (parentSetNotify inputs) t = some (t.pruned inputs qs nodes last) ∧
      (∀ l, last = some l → l.IsLeaf t.depth) ∧ filled last ≤ filled t.currentLocation ∧
      (∀ q ∈ qs, filled t.currentLocation ≤ index q.1 + 1 → filled last ≤ index q.1) ∧
      ((∀ q ∈ qs, index q.1 + 1 < filled t.currentLocation) → Covers inputs t.currentLocation parent → last = t.currentLocation ∧
        ∀ b : Addr, b.length ≤ t.depth → overlaid (insertAll t.maps.hashes nodes) base b =
          rehash inputs.merge (overlaid t.maps.hashes base) (fun _ => inputs.emptyAccount) (qs.map Prod.fst) (t.depth - b.length) b) := by
  induction qs generalizing t with
  | nil =>
    refine ⟨[], t.currentLocation, ?_, hcurrent, le_rfl, by simp, fun _ _ => ⟨rfl, fun b _ => rehash_nil.symm⟩⟩
    obtain ⟨_, _, _, _, _, _⟩ := t
    obtain rfl : _ = none := haccumulated
    rfl
  | cons q qs ih =>
    obtain ⟨hnot, hnodup'⟩ := List.nodup_cons.1 hnodup
    have hfirst := hholds q List.mem_cons_self
    obtain ⟨nodes, last, hreuse, hnotify, hright⟩ := exists_parentSetNotify hattached hparent hdepth (view_of_none haccumulated hattached) hparent hdepth
      hcurrent hbase (hlen q List.mem_cons_self) hfirst
    obtain ⟨last', hreuse', hleaf, hle, hback, hstays⟩ := reuseLocation_spec hcurrent (hlen q List.mem_cons_self)
    obtain rfl := Option.some.inj (hreuse'.symm.trans hreuse)
    have hnone : ((t.without inputs q.1 q.2 last').write (setHashes nodes) last').accumulated = none := by
      change t.accumulated.map _ = none
      rw [haccumulated, Option.map_none]
    obtain ⟨nodes', last'', hfold, hleaf', hle', hback', hall⟩ := ih (t := (t.without inputs q.1 q.2 last').write (setHashes nodes) last') hattached hnone
      hdepth hleaf hbase (fun q' hq' => hlen q' (List.mem_cons_of_mem _ hq')) hnodup' fun q' hq' =>
        holds_without hfirst (hholds q' (List.mem_cons_of_mem _ hq')) fun h => hnot (h ▸ List.mem_map_of_mem hq')
    refine ⟨nodes ++ nodes', last'', ?_, hleaf', hle'.trans hle, fun q' hq' hfilled => ?_, fun hlt hc => ?_⟩
    · rw [List.map_cons, List.foldlM_cons, hnotify]
      refine hfold.trans (congrArg some ?_)
      simp only [pruned, write, updateMaps, without, Maps.remove, setHashes, List.map_cons, eraseAll_cons, insertAll_append]
    · rcases List.mem_cons.1 hq' with rfl | hq'
      · exact hle'.trans (hback hfilled)
      · exact hback' q' hq' (hle.trans hfilled)
    · have hltFirst := hlt q List.mem_cons_self
      obtain rfl := hstays hltFirst
      obtain ⟨xs, hxs, rfl⟩ := hright hltFirst hc
      have habove : ∀ x, x ∈ xs ↔ Above [q.1] x := fun x => by rw [hxs]; simp [Above]
      obtain ⟨hlast, hhashes⟩ := hall (fun q' hq' => hlt q' (List.mem_cons_of_mem _ hq')) hc
      refine ⟨hlast, fun b hb => ?_⟩
      have hstep : overlaid (insertAll t.maps.hashes
          (xs.map fun x => (x, rehash inputs.merge (overlaid t.maps.hashes base) (fun _ => inputs.emptyAccount) [q.1] (t.depth - x.length) x))) base =
          fun b => rehash inputs.merge (overlaid t.maps.hashes base) (fun _ => inputs.emptyAccount) [q.1] (t.depth - b.length) b :=
        funext fun b => overlaid_insertAll habove b
      have hrest := hhashes b hb
      change overlaid (insertAll (insertAll t.maps.hashes _) nodes') base b = rehash inputs.merge (overlaid (insertAll t.maps.hashes _) base) _ _ _ b at hrest
      rw [insertAll_append, hrest, hstep]
      exact rehash_append (Nat.add_sub_cancel' hb)

end Notify

end Mask

end Masks

end MinaProtocol.MerkleLedger
