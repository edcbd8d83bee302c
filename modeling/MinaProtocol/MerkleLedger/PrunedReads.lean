import MinaProtocol.MerkleLedger.Foldi
import MinaProtocol.MerkleLedger.Pruning

/-!
# MerkleLedger.PrunedReads

What a registered mask shows after accounts that it has itself were written to the ledger below. They are not in
the mask any more, and its root is that of the tree without them. What else is read is the same exactly when the
ledger below gives it, and the mask asks for it: a mask that loses its last account takes what lies beyond the
one before to be empty.
-/

namespace MinaProtocol.MerkleLedger

open AddressTree Std

variable {Key TokenId Account Hash : Type}

section Masks

variable [Ord Key] [Ord TokenId] [TransOrd Key] [TransOrd TokenId]

/-! ### What a mask shows -/

/-- The mask has the account, and shows its own. -/
structure Mask.Holds (inputs : Inputs Key TokenId Account Hash) (t : Mask Key TokenId Account Hash) (a : Addr) (account : Account) : Prop where
  leaf : a.length = t.depth
  own : t.maps.Holds inputs a account
  shown : ∀ maps ancestor, t.mapsAndAncestor = some (maps, ancestor) → maps.Holds inputs a account

/-- The root of a mask with leaves emptied. -/
def Mask.emptiedRoot (inputs : Inputs Key TokenId Account Hash) (t : Mask Key TokenId Account Hash) (leaves : List Addr) : Hash :=
  rehash inputs.merge (fun a => (t.getInnerHashAtAddrExn a).getD inputs.emptyAccount) (fun _ => inputs.emptyAccount) leaves t.depth []

omit [TransOrd Key] [TransOrd TokenId] in
theorem Mask.emptiedRoot_eq {inputs : Inputs Key TokenId Account Hash} {t : Mask Key TokenId Account Hash} {hash : Addr → Hash} {leaves : List Addr}
    (hhash : ∀ a : Addr, a.length ≤ t.depth → t.getInnerHashAtAddrExn a = some (hash a)) :
    t.emptiedRoot inputs leaves = rehash inputs.merge hash (fun _ => inputs.emptyAccount) leaves t.depth [] := by
  refine rehash_congr_old fun a ha => ?_
  rw [List.append_nil, hhash a ha, Option.getD_some]

namespace Registered

variable (inputs : Inputs Key TokenId Account Hash)
  {child : Registered Key TokenId Account Hash} {base : Ledger Key TokenId Account Hash}

/-- A mask over the ledger that it is registered on, with nothing beyond its last location below it. -/
structure Fine (base : Ledger Key TokenId Account Hash) (child : Registered Key TokenId Account Hash) :
    Prop where
  parent : child.mask.parent = some (base.any inputs)
  ledgers : child.mask.Over (Stack inputs (Database.Readable inputs) (Mask.Covered inputs))
  covered : child.mask.Covered inputs
  covers : Covers inputs child.mask.currentLocation (base.any inputs)
  leaf : ∀ (aid : AccountId Key TokenId) (l : Location), child.mask.maps.locations[aid]? = some l → l.IsLeaf child.mask.depth

theorem Fine.depth {inputs : Inputs Key TokenId Account Hash}
    (hfine : child.Fine inputs base) : (base.any inputs).depth = child.mask.depth := by
  obtain ⟨parent, hsome, -, hdepth⟩ := hfine.ledgers.parent
  obtain rfl := Option.some.inj (hfine.parent.symm.trans hsome)
  exact hdepth

/-- **Without its cache** the mask is as good. -/
theorem Fine.dropAccumulated {inputs : Inputs Key TokenId Account Hash} (hfine : child.Fine inputs base) :
    ({ child with mask := child.mask.dropAccumulated } : Registered Key TokenId Account Hash).Fine inputs base where
  parent := hfine.parent
  ledgers := ⟨hfine.ledgers.parent, fun acc hacc => absurd hacc (by simp [Mask.dropAccumulated])⟩
  covered maps ancestor hview := by
    have hown := Mask.view_of_none (t := child.mask.dropAccumulated) rfl hfine.parent
    obtain ⟨-, rfl⟩ := Prod.mk.inj (Option.some.inj (hview.symm.trans hown))
    exact hfine.covers
  covers := hfine.covers
  leaf := hfine.leaf

/-- The readers give the same, over the ledger as it was and as it is. -/
structure SameReads (base base' : Ledger Key TokenId Account Hash)
    (child child' : Registered Key TokenId Account Hash) : Prop where
  get : ∀ a : Addr, a.length = child.mask.depth → child'.mask.get (.account a) = child.mask.get (.account a)
  locationOfAccount : ∀ aid, child'.mask.locationOfAccount aid = child.mask.locationOfAccount aid
  numAccounts : child'.mask.numAccounts inputs = child.mask.numAccounts inputs
  tokenOwner : ∀ tid, child'.tokenOwner (base'.tokenOwner inputs) tid = child.tokenOwner (base.tokenOwner inputs) tid

/-- What the mask loses is found below: none of the accounts is the last one, a database that is not told where they are knows it already,
and the mask shows without its cache what it shows with it. -/
structure Restored (base : Ledger Key TokenId Account Hash) (silent : Bool) (qs : List (Addr × Account))
    (child : Registered Key TokenId Account Hash) : Prop where
  before : ∀ q ∈ qs, index q.1 + 1 < filled child.mask.currentLocation
  found : silent = true → ∀ q ∈ qs, (base.any inputs).locationOfAccount (inputs.identifier q.2) = some (some (.account q.1)) ∧
    base.tokenOwner inputs (inputs.deriveTokenId (inputs.identifier q.2)) = some (some (inputs.identifier q.2))
  cache : child.SameReads inputs base base { child with mask := child.mask.dropAccumulated }

end Registered

section Reads

variable {inputs : Inputs Key TokenId Account Hash} {t : Mask Key TokenId Account Hash} {parent ancestor : AnyLedger Key TokenId Account Hash}
  {maps : Maps Key TokenId Account Hash} {a : Addr} {account : Account} {aid : AccountId Key TokenId}

namespace Mask

variable (hparent : t.parent = some parent) (hview : t.mapsAndAncestor = some (maps, ancestor))

include hparent hview

variable (hholds : maps.Holds inputs a account)

include hholds

/-- **An account that is in the maps.** -/
theorem get_of_holds : t.get (.account a) = some (some account) := by
  simp [get, isAttached_of_parent hparent, hview, hholds.entry]

theorem locationOfAccount_of_holds :
    t.locationOfAccount (inputs.identifier account) = some (some (.account a)) := by
  simp [locationOfAccount, isAttached_of_parent hparent, hview, hholds.location]

theorem tokenOwner_of_holds {owners : TokenId → Option (Option (AccountId Key TokenId))} :
    t.tokenOwner owners (inputs.deriveTokenId (inputs.identifier account)) = some (some (inputs.identifier account)) := by
  simp [tokenOwner, isAttached_of_parent hparent, hview, hholds.owner]

omit hholds

omit [TransOrd Key] [TransOrd TokenId] in
/-- **An account that is not in the maps** is looked for below, unless it is beyond the last location. -/
theorem get_of_none (hnone : maps.accounts[Location.account a]? = none) :
    t.get (.account a) = (isEmpty t.currentLocation (.account a)).bind fun empty => if empty then some none else ancestor.get (.account a) := by
  simp [get, isAttached_of_parent hparent, hview, hnone]

theorem locationOfAccount_of_none (hnone : maps.locations[aid]? = none) : t.locationOfAccount aid = ancestor.locationOfAccount aid := by
  simp [locationOfAccount, isAttached_of_parent hparent, hview, hnone]

omit [TransOrd Key] in
theorem tokenOwner_of_none {owners : TokenId → Option (Option (AccountId Key TokenId))} {tid : TokenId}
    (hnone : maps.tokenOwners[tid]? = none) : t.tokenOwner owners tid = owners tid := by
  simp [tokenOwner, isAttached_of_parent hparent, hview, hnone]

end Mask

end Reads

variable {old leaf : Addr → Hash}

section SameReads

variable {inputs : Inputs Key TokenId Account Hash} {base base' : Ledger Key TokenId Account Hash}
  {child : Registered Key TokenId Account Hash} {silent : Bool} {qs : List (Addr × Account)} {nodes : List (Addr × Hash)}
  {last : Option Location}

/-- **Nothing is beyond the last location** after accounts were written before it. -/
theorem Ledger.Wrote.covers {last : Option Location} (hw : base.Wrote inputs old leaf silent qs base') (hc : Covers inputs last (base.any inputs))
    (hold : ∀ a : Addr, a.length ≤ (base.any inputs).depth → (base.any inputs).getInnerHashAtAddrExn a = some (old a))
    (hbefore : ∀ q ∈ qs, index q.1 < filled last) (hlen : ∀ q ∈ qs, q.1.length = (base.any inputs).depth) : Covers inputs last (base'.any inputs) where
  location l hl := hw.depth ▸ hc.location l hl
  account a ha hbeyond := by
    rw [hw.depth] at ha
    rcases hw.account a ha with ⟨-, heq⟩ | ⟨account, hmem, -⟩
    · rw [heq, hc.account a ha hbeyond]
    · have hlt := hbefore _ hmem
      rw [beyond_iff hc.location (Nat.le_of_eq ha), ha, Nat.sub_self, pow_zero, Nat.mul_one] at hbeyond
      exact absurd hlt (Nat.not_lt.2 hbeyond)
  hash a ha hbeyond := by
    rw [hw.depth] at ha ⊢
    have hnot : ¬ Above (qs.map Prod.fst) a := by
      rintro ⟨p, hp, u, rfl⟩
      obtain ⟨q, hq, hqp⟩ := List.mem_map.1 hp
      have hlt := hbefore q hq
      have hlenq := hlen q hq
      rw [hqp, index_append] at hlt
      rw [hqp, List.length_append] at hlenq
      have hu : (base.any inputs).depth - a.length = u.length := by omega
      rw [beyond_iff hc.location ha, hu, Nat.mul_comm] at hbeyond
      omega
    rw [hw.hash a ha, rehash_of_not hnot, ← hold a ha, hc.hash a ha hbeyond]

/-- **The hashes of a mask that has the accounts** are as they were. -/
theorem overlaid_wrote {maps : Maps Key TokenId Account Hash} (hholds : ∀ q ∈ qs, maps.Holds inputs q.1 q.2) {h : Addr → Nat} (a : Addr) :
    Mask.overlaid maps.hashes (fun a => rehash inputs.merge old leaf (qs.map Prod.fst) (h a) a) a = Mask.overlaid maps.hashes old a := by
  by_cases habove : Above (qs.map Prod.fst) a
  · obtain ⟨p, hp, hsuffix⟩ := habove
    obtain ⟨q, hq, rfl⟩ := List.mem_map.1 hp
    obtain ⟨hash, hhash⟩ := Option.isSome_iff_exists.1 ((hholds q hq).hashes a hsuffix)
    rw [Mask.overlaid, Mask.overlaid, hhash, Option.getD_some, Option.getD_some]
  · rw [Mask.overlaid, Mask.overlaid, rehash_of_not habove]

/-- **What a mask reads over the ledger as it is**: what it has not lost, with the hashes that it showed before. -/
theorem exists_view_withParent (hfine : child.Fine inputs base) (hw : base.Wrote inputs old leaf silent qs base')
    (hold : ∀ a : Addr, a.length ≤ (base.any inputs).depth → (base.any inputs).getInnerHashAtAddrExn a = some (old a))
    (hlen : ∀ q ∈ qs, q.1.length = child.mask.depth) (hholds : ∀ q ∈ qs, child.mask.Holds inputs q.1 q.2) :
    ∃ (maps : Maps Key TokenId Account Hash) (ancestor : AnyLedger Key TokenId Account Hash) (below hash : Addr → Hash),
      (child.mask.withParent (base'.any inputs)).mapsAndAncestor = some (maps, ancestor) ∧ ancestor.Sound ∧ ancestor.depth = child.mask.depth ∧
      (∀ a : Addr, a.length ≤ child.mask.depth → ancestor.getInnerHashAtAddrExn a = some (below a)) ∧
      (∀ a : Addr, a.length ≤ child.mask.depth → child.mask.getInnerHashAtAddrExn a = some (hash a)) ∧
      (∀ a : Addr, Mask.overlaid maps.hashes below a = hash a) ∧
      ((∀ q ∈ qs, index q.1 < filled child.mask.currentLocation) → Covers inputs child.mask.currentLocation ancestor) ∧
      (child.mask.accumulated = none → maps = child.mask.maps ∧ ancestor = base'.any inputs) := by
  obtain ⟨parent, maps, ancestor, hr⟩ := hfine.ledgers.exists_reads (fun _ h => h.sound) hfine.covered
  have hdepth := hfine.depth
  cases hacc : child.mask.accumulated with
  | none =>
    obtain ⟨rfl, rfl⟩ := Prod.mk.inj (Option.some.inj (hr.view.symm.trans (Mask.view_of_none hacc hfine.parent)))
    have hparent' : (child.mask.withParent (base'.any inputs)).parent = some (base'.any inputs) := congrArg (Option.map _) hfine.parent
    refine ⟨child.mask.maps, base'.any inputs, _, Mask.overlaid child.mask.maps.hashes old, Mask.view_of_none hacc hparent', hw.fine.stack.sound,
      hw.depth.trans hdepth, fun a ha => hw.hash a (ha.trans_eq hdepth.symm), fun a ha => hr.getInnerHashAtAddrExn_eq (hdepth ▸ hold) ha,
      fun a => overlaid_wrote (fun q hq => (hholds q hq).own) a, fun hbefore => hw.covers hfine.covers hold hbefore (hdepth ▸ hlen), fun _ => ⟨rfl, rfl⟩⟩
  | some acc =>
    obtain ⟨below, hbelow⟩ := hr.exists_base
    refine ⟨maps, ancestor, below, Mask.overlaid maps.hashes below, ?_, hr.sound, hr.depth, hbelow, fun a ha => hr.getInnerHashAtAddrExn_eq hbelow ha,
      fun _ => rfl, fun _ => hr.covers, fun hnone => absurd hnone (by simp)⟩
    have hview := hr.view
    by_cases hdetached : acc.detachedNextSignal
    · simp only [Mask.mapsAndAncestor, Mask.actualizeAccumulated, hacc, hdetached, if_true] at hview
      simpa [Mask.mapsAndAncestor, Mask.actualizeAccumulated, Mask.withParent, hacc, hdetached] using hview
    · simp only [Mask.mapsAndAncestor, Mask.actualizeAccumulated, hacc, if_neg hdetached] at hview
      simpa [Mask.mapsAndAncestor, Mask.actualizeAccumulated, Mask.withParent, hacc, hdetached] using hview

variable [LawfulEqOrd Key] [LawfulEqOrd TokenId]

/-- A mask over the ledger as it is, after it has lost accounts. -/
def Registered.pruned (inputs : Inputs Key TokenId Account Hash) (base' : Ledger Key TokenId Account Hash) (qs : List (Addr × Account))
    (nodes : List (Addr × Hash)) (last : Option Location) (child : Registered Key TokenId Account Hash) : Registered Key TokenId Account Hash :=
  { child with mask := (child.mask.withParent (base'.any inputs)).pruned inputs qs nodes last }

/-- **What was not lost** is read as without the cache before. -/
theorem reads_of_notMem (nodes : List (Addr × Hash)) (hfine : child.Fine inputs base) (hw : base.Wrote inputs old leaf silent qs base') (hlast : last = child.mask.currentLocation) :
    (∀ a : Addr, a.length = child.mask.depth → a ∉ qs.map Prod.fst →
        (child.pruned inputs base' qs nodes last).mask.get (.account a) = child.mask.dropAccumulated.get (.account a)) ∧
      (∀ aid, aid ∉ (qs.map fun q => inputs.identifier q.2) →
        (child.pruned inputs base' qs nodes last).mask.locationOfAccount aid = child.mask.dropAccumulated.locationOfAccount aid) ∧
      ∀ tid, tid ∉ (qs.map fun q => inputs.deriveTokenId (inputs.identifier q.2)) →
        (child.pruned inputs base' qs nodes last).tokenOwner (base'.tokenOwner inputs) tid =
          child.mask.dropAccumulated.tokenOwner (base.tokenOwner inputs) tid := by
  have hparent : child.mask.dropAccumulated.parent = some (base.any inputs) := hfine.parent
  have hparent' : (child.pruned inputs base' qs nodes last).mask.parent = some (base'.any inputs) := congrArg (Option.map _) hfine.parent
  have hview := Mask.view_of_none (t := child.mask.dropAccumulated) rfl hparent
  have hview' := Mask.view_of_none (t := (child.pruned inputs base' qs nodes last).mask) rfl hparent'
  refine ⟨fun a ha hnot => ?_, fun aid hnot => ?_, fun tid hnot => ?_⟩
  · have hsame : (child.pruned inputs base' qs nodes last).mask.maps.accounts[Location.account a]? =
        child.mask.dropAccumulated.maps.accounts[Location.account a]? := by
      refine eraseAll_of_notMem fun hmem => hnot ?_
      obtain ⟨q, hq, heq⟩ := List.mem_map.1 hmem
      exact Location.account.inj heq ▸ List.mem_map_of_mem hq
    have hbelow : (base'.any inputs).get (.account a) = (base.any inputs).get (.account a) := by
      rcases hw.account a (ha.trans (hfine.depth).symm) with ⟨-, heq⟩ | ⟨account, hmem, -⟩
      · exact heq
      · exact absurd (List.mem_map_of_mem hmem) hnot
    rw [Mask.get, Mask.get, Mask.isAttached_of_parent hparent, Mask.isAttached_of_parent hparent', hview, hview']
    simp only [Option.bind_eq_bind, Option.bind_some, hsame, hbelow]
    subst hlast
    rfl
  · have hsame : (child.pruned inputs base' qs nodes last).mask.maps.locations[aid]? = child.mask.dropAccumulated.maps.locations[aid]? :=
      eraseAll_of_notMem hnot
    have hbelow : (base'.any inputs).locationOfAccount aid = (base.any inputs).locationOfAccount aid := by
      rcases hw.location aid with ⟨-, heq⟩ | ⟨-, q, hq, rfl, -⟩
      · exact heq
      · exact absurd (List.mem_map_of_mem hq) hnot
    rw [Mask.locationOfAccount, Mask.locationOfAccount, Mask.isAttached_of_parent hparent, Mask.isAttached_of_parent hparent', hview, hview']
    simp only [Option.bind_eq_bind, Option.bind_some, hsame, hbelow]
  · have hsame : (child.pruned inputs base' qs nodes last).mask.maps.tokenOwners[tid]? = child.mask.dropAccumulated.maps.tokenOwners[tid]? :=
      eraseAll_of_notMem hnot
    have hbelow : base'.tokenOwner inputs tid = base.tokenOwner inputs tid := by
      rcases hw.owner tid with ⟨-, heq⟩ | ⟨-, q, hq, rfl, -⟩
      · exact heq
      · exact absurd (List.mem_map_of_mem hq) hnot
    have howners : (child.pruned inputs base' qs nodes last).tokenOwner (base'.tokenOwner inputs) tid =
        (child.pruned inputs base' qs nodes last).mask.tokenOwner (base'.tokenOwner inputs) tid := rfl
    rw [howners, Mask.tokenOwner, Mask.tokenOwner, Mask.isAttached_of_parent hparent, Mask.isAttached_of_parent hparent', hview, hview']
    simp only [Option.bind_eq_bind, Option.bind_some, hsame, hbelow]

/-- **The same is read** after accounts were taken out exactly when what was lost is found below. -/
theorem sameReads_pruned_iff (hfine : child.Fine inputs base) (hw : base.Wrote inputs old leaf silent qs base') (hnodup : (qs.map Prod.fst).Nodup)
    (hholds : ∀ q ∈ qs, child.mask.Holds inputs q.1 q.2) (hleaf : ∀ l, last = some l → l.IsLeaf child.mask.depth)
    (hback : ∀ q ∈ qs, filled child.mask.currentLocation ≤ index q.1 + 1 → filled last ≤ index q.1)
    (hstays : (∀ q ∈ qs, index q.1 + 1 < filled child.mask.currentLocation) → last = child.mask.currentLocation) :
    child.SameReads inputs base base' (child.pruned inputs base' qs nodes last) ↔ child.Restored inputs base silent qs := by
  have hparent' : (child.pruned inputs base' qs nodes last).mask.parent = some (base'.any inputs) := congrArg (Option.map _) hfine.parent
  have hview' := Mask.view_of_none (t := (child.pruned inputs base' qs nodes last).mask) rfl hparent'
  obtain ⟨-, maps, ancestor, -, -, -, hview, -, -⟩ := hfine.ledgers.exists_view
  have hdropped := Mask.view_of_none (t := child.mask.dropAccumulated) rfl hfine.parent
  have hget : ∀ q ∈ qs, (child.pruned inputs base' qs nodes last).mask.get (.account q.1) =
      if filled last ≤ index q.1 then some none else (base'.any inputs).get (.account q.1) := by
    intro q hq
    rw [Mask.get_of_none hparent' hview' (eraseAll_of_mem (List.mem_map_of_mem (f := fun q : Addr × Account => Location.account q.1) hq))]
    change (Mask.isEmpty last (.account q.1)).bind _ = _
    rw [isEmpty_leaf hleaf (hholds q hq).leaf, Option.bind_some]
    by_cases hle : filled last ≤ index q.1 <;> simp [hle]
  have hlocation : ∀ q ∈ qs, (child.pruned inputs base' qs nodes last).mask.locationOfAccount (inputs.identifier q.2) =
      (base'.any inputs).locationOfAccount (inputs.identifier q.2) := fun q hq =>
    Mask.locationOfAccount_of_none hparent' hview' (eraseAll_of_mem (List.mem_map_of_mem (f := fun q : Addr × Account => inputs.identifier q.2) hq))
  have howner : ∀ q ∈ qs, (child.pruned inputs base' qs nodes last).tokenOwner (base'.tokenOwner inputs) (inputs.deriveTokenId (inputs.identifier q.2)) =
      base'.tokenOwner inputs (inputs.deriveTokenId (inputs.identifier q.2)) := fun q hq =>
    Mask.tokenOwner_of_none hparent' hview'
      (eraseAll_of_mem (List.mem_map_of_mem (f := fun q : Addr × Account => inputs.deriveTokenId (inputs.identifier q.2)) hq))
  -- what the mask has shows with the cache and without it
  have hshown : ∀ q ∈ qs, child.mask.get (.account q.1) = some (some q.2) ∧
      child.mask.locationOfAccount (inputs.identifier q.2) = some (some (.account q.1)) ∧
      child.tokenOwner (base.tokenOwner inputs) (inputs.deriveTokenId (inputs.identifier q.2)) = some (some (inputs.identifier q.2)) := fun q hq =>
    have hq := (hholds q hq).shown maps ancestor hview
    ⟨Mask.get_of_holds hfine.parent hview hq, Mask.locationOfAccount_of_holds hfine.parent hview hq, Mask.tokenOwner_of_holds hfine.parent hview hq⟩
  have hkept : ∀ q ∈ qs, child.mask.dropAccumulated.get (.account q.1) = some (some q.2) ∧
      child.mask.dropAccumulated.locationOfAccount (inputs.identifier q.2) = some (some (.account q.1)) ∧
      child.mask.dropAccumulated.tokenOwner (base.tokenOwner inputs) (inputs.deriveTokenId (inputs.identifier q.2)) =
        some (some (inputs.identifier q.2)) := fun q hq =>
    have hq := (hholds q hq).own
    ⟨Mask.get_of_holds (t := child.mask.dropAccumulated) hfine.parent hdropped hq,
      Mask.locationOfAccount_of_holds (t := child.mask.dropAccumulated) hfine.parent hdropped hq,
      Mask.tokenOwner_of_holds (t := child.mask.dropAccumulated) hfine.parent hdropped hq⟩
  constructor
  · intro h
    have hbefore : ∀ q ∈ qs, index q.1 + 1 < filled child.mask.currentLocation := by
      intro q hq
      by_contra hle
      have hsame := h.get q.1 (hholds q hq).leaf
      rw [hget q hq, if_pos (hback q hq (Nat.le_of_not_lt hle)), (hshown q hq).1] at hsame
      exact absurd hsame (by simp)
    obtain ⟨hother, hotherIds, hotherTokens⟩ := reads_of_notMem nodes hfine hw (hstays hbefore)
    refine ⟨hbefore, fun hsilent q hq => ⟨?_, ?_⟩, fun a ha => ?_, fun aid => ?_, rfl, fun tid => ?_⟩
    · have hsame := h.locationOfAccount (inputs.identifier q.2)
      rw [hlocation q hq, (hshown q hq).2.1] at hsame
      rcases hw.location (inputs.identifier q.2) with ⟨-, heq⟩ | ⟨hloud, -⟩
      · rw [← heq, hsame]
      · exact absurd (hsilent.symm.trans hloud) (by decide)
    · have hsame := h.tokenOwner (inputs.deriveTokenId (inputs.identifier q.2))
      rw [howner q hq, (hshown q hq).2.2] at hsame
      rcases hw.owner (inputs.deriveTokenId (inputs.identifier q.2)) with ⟨-, heq⟩ | ⟨hloud, -⟩
      · rw [← heq, hsame]
      · exact absurd (hsilent.symm.trans hloud) (by decide)
    · by_cases hmem : a ∈ qs.map Prod.fst
      · obtain ⟨q, hq, rfl⟩ := List.mem_map.1 hmem
        rw [(hshown q hq).1]
        exact (hkept q hq).1
      · exact (hother a ha hmem).symm.trans (h.get a ha)
    · by_cases hmem : aid ∈ qs.map fun q => inputs.identifier q.2
      · obtain ⟨q, hq, rfl⟩ := List.mem_map.1 hmem
        rw [(hshown q hq).2.1]
        exact (hkept q hq).2.1
      · exact (hotherIds aid hmem).symm.trans (h.locationOfAccount aid)
    · by_cases hmem : tid ∈ qs.map fun q => inputs.deriveTokenId (inputs.identifier q.2)
      · obtain ⟨q, hq, rfl⟩ := List.mem_map.1 hmem
        rw [(hshown q hq).2.2]
        exact (hkept q hq).2.2
      · exact (hotherTokens tid hmem).symm.trans (h.tokenOwner tid)
  · rintro ⟨hbefore, hfound, hcache⟩
    obtain rfl := hstays hbefore
    obtain ⟨hother, hotherIds, hotherTokens⟩ := reads_of_notMem nodes hfine hw rfl
    refine ⟨fun a ha => ?_, fun aid => ?_, ?_, fun tid => ?_⟩
    · by_cases hmem : a ∈ qs.map Prod.fst
      · obtain ⟨q, hq, rfl⟩ := List.mem_map.1 hmem
        have hnot : ¬ filled child.mask.currentLocation ≤ index q.1 := by
          have hlt := hbefore q hq
          omega
        rw [hget q hq, if_neg hnot, (hshown q hq).1]
        rcases hw.account q.1 (ha.trans (hfine.depth).symm) with ⟨hout, -⟩ | ⟨account, haccount, heq⟩
        · exact absurd hmem hout
        · rw [heq, (Prod.mk.inj (List.inj_on_of_nodup_map hnodup haccount hq rfl)).2]
      · exact (hother a ha hmem).trans (hcache.get a ha)
    · by_cases hmem : aid ∈ qs.map fun q => inputs.identifier q.2
      · obtain ⟨q, hq, rfl⟩ := List.mem_map.1 hmem
        rw [hlocation q hq, (hshown q hq).2.1]
        rcases hw.location (inputs.identifier q.2) with ⟨hsilent | hnot, heq⟩ | ⟨-, q', hq', hid, heq⟩
        · rw [heq, (hfound hsilent q hq).1]
        · exact absurd hmem hnot
        · have hsame := (hholds q' hq').own.location
          rw [hid, (hholds q hq).own.location] at hsame
          rw [heq, Option.some.inj hsame]
      · exact (hotherIds aid hmem).trans (hcache.locationOfAccount aid)
    · have hattached := Mask.isAttached_of_parent hparent'
      rw [Mask.numAccounts, Mask.numAccounts, Mask.isAttached_of_parent hfine.parent, hattached]
      rfl
    · by_cases hmem : tid ∈ qs.map fun q => inputs.deriveTokenId (inputs.identifier q.2)
      · obtain ⟨q, hq, rfl⟩ := List.mem_map.1 hmem
        rw [howner q hq, (hshown q hq).2.2]
        rcases hw.owner (inputs.deriveTokenId (inputs.identifier q.2)) with ⟨hsilent | hnot, heq⟩ | ⟨-, q', hq', htid, heq⟩
        · rw [heq, (hfound hsilent q hq).2]
        · exact absurd hmem hnot
        · have hsame := (hholds q' hq').own.owner
          rw [htid, (hholds q hq).own.owner] at hsame
          rw [heq, Option.some.inj hsame]
      · exact (hotherTokens tid hmem).trans (hcache.tokenOwner tid)

/-! ### The ledger as it is -/

end SameReads

/-! ### Writing to the ledger -/

/-- What is written to a ledger that masks are registered on. -/
inductive Write (Account : Type) where
  | set (a : Addr) (account : Account)
  | setBatch (qs : List (Addr × Account))

namespace Write

def accounts : Write Account → List (Addr × Account)
  | .set a account => [(a, account)]
  | .setBatch qs => qs

/-- Accounts are at leaves, and a batch has each leaf once, and leaves whose positions are integers. -/
def Fits (depth : Nat) : Write Account → Prop
  | .set a _ => a.length = depth
  | .setBatch qs => depth ≤ 61 ∧ (∀ q ∈ qs, q.1.length = depth) ∧ (qs.map Prod.fst).Nodup

/-- The ledger does not record where the accounts are. -/
def silent (base : Ledger Key TokenId Account Hash) : Write Account → Bool
  | .set _ _ => base.silent
  | .setBatch _ => false

/-- The mask as it is when hashes are made anew: the cache is dropped before a batch, and after a single account. -/
def reading : Write Account → Mask Key TokenId Account Hash → Mask Key TokenId Account Hash
  | .set _ _, t => t
  | .setBatch _, t => t.dropAccumulated

end Write

namespace Maskable

variable [DecidableEq Account] [DecidableEq TokenId]

def write (inputs : Inputs Key TokenId Account Hash) (t : Maskable Key TokenId Account Hash) : Write Account → Option (Maskable Key TokenId Account Hash)
  | .set a account => t.set inputs (.account a) account
  | .setBatch qs => t.setBatch inputs (accountsAt qs)

/-- A ledger, and masks over it. -/
structure Fine (inputs : Inputs Key TokenId Account Hash) (t : Maskable Key TokenId Account Hash) : Prop where
  base : t.base.Fine inputs
  masks : ∀ child ∈ t.registeredMasks, child.Fine inputs t.base

end Maskable

section Told

variable {inputs : Inputs Key TokenId Account Hash} {base base' : Ledger Key TokenId Account Hash}
  {child : Registered Key TokenId Account Hash} {silent : Bool} {qs : List (Addr × Account)} {a : Addr} {account : Account}

/-- What becomes of a mask that is told of accounts that it has. -/
structure Registered.Told (inputs : Inputs Key TokenId Account Hash) (base' : Ledger Key TokenId Account Hash) (qs : List (Addr × Account))
    (root : Hash) (nodes : List (Addr × Hash)) (last : Option Location) (child : Registered Key TokenId Account Hash) : Prop where
  leaf : ∀ l, last = some l → l.IsLeaf child.mask.depth
  back : ∀ q ∈ qs, filled child.mask.currentLocation ≤ index q.1 + 1 → filled last ≤ index q.1
  stays : (∀ q ∈ qs, index q.1 + 1 < filled child.mask.currentLocation) → last = child.mask.currentLocation
  root : (∀ q ∈ qs, index q.1 + 1 < filled child.mask.currentLocation) → (child.pruned inputs base' qs nodes last).mask.merkleRoot = some root

variable (hfine : child.Fine inputs base)

include hfine

theorem Registered.Fine.current : ∀ l, child.mask.currentLocation = some l → l.IsLeaf child.mask.depth :=
  hfine.depth ▸ hfine.covers.location

/-- **Any registered mask** can be told of any accounts. -/
theorem Registered.Fine.ready (hw : base.Wrote inputs old leaf silent qs base') :
    ∃ ancestor : AnyLedger Key TokenId Account Hash, ancestor.Sound ∧ (child.mask.withParent (base'.any inputs)).Ready ancestor := by
  have hparent' : (child.mask.withParent (base'.any inputs)).parent = some (base'.any inputs) := congrArg (Option.map _) hfine.parent
  have ho : (child.mask.withParent (base'.any inputs)).Over (Stack inputs (Database.Readable inputs) (Mask.Covered inputs)) :=
    ⟨⟨_, hparent', hw.fine.stack, hw.depth.trans hfine.depth⟩, hfine.ledgers.base⟩
  obtain ⟨-, maps, ancestor, -, -, -, hview, hancestor, hdepth⟩ := ho.exists_view
  exact ⟨ancestor, hancestor.sound, Mask.isAttached_of_parent hparent', ⟨maps, hview⟩, hdepth, hfine.current, hfine.leaf⟩

/-- **The root** is that of the mask's own hashes, or of the ledger below. -/
theorem merkleRoot_pruned (nodes : List (Addr × Hash)) (last : Option Location) :
    (child.pruned inputs base' qs nodes last).mask.merkleRoot =
      ((insertAll child.mask.maps.hashes nodes)[([] : Addr)]?).elim ((base'.any inputs).getInnerHashAtAddrExn []) some := by
  have hparent' : (child.pruned inputs base' qs nodes last).mask.parent = some (base'.any inputs) := congrArg (Option.map _) hfine.parent
  rw [Mask.merkleRoot, Mask.isAttached_of_parent hparent', Mask.view_of_none rfl hparent']
  have hhashes : (child.pruned inputs base' qs nodes last).mask.maps.hashes = insertAll child.mask.maps.hashes nodes := rfl
  simp only [Option.bind_eq_bind, Option.bind_some, hhashes]
  cases (insertAll child.mask.maps.hashes nodes)[([] : Addr)]? <;> rfl

omit hfine

variable [DecidableEq Account]

include hfine in
/-- **A single account.** -/
theorem exists_notify (hw : base.Wrote inputs old leaf silent [(a, account)] base')
    (hold : ∀ a : Addr, a.length ≤ (base.any inputs).depth → (base.any inputs).getInnerHashAtAddrExn a = some (old a))
    (hcommitting : child.isCommitting = false) (hholds : child.mask.Holds inputs a account) :
    ∃ nodes last, Maskable.notify inputs (base'.any inputs) account child = some (child.pruned inputs base' [(a, account)] nodes last) ∧
      child.Told inputs base' [(a, account)] (child.mask.emptiedRoot inputs [a]) nodes last := by
  have hparent' : (child.mask.withParent (base'.any inputs)).parent = some (base'.any inputs) := congrArg (Option.map _) hfine.parent
  obtain ⟨maps, ancestor, below, hash, hview, hs, hdepth, hbelow, hhash, hoverlaid, hcovers, -⟩ := exists_view_withParent hfine hw hold
    (by simpa using hholds.leaf) (by simpa using hholds)
  obtain ⟨nodes, last, hreuse, hnotify, hright⟩ := Mask.exists_parentSetNotify (t := child.mask.withParent (base'.any inputs)) hparent' hw.fine.stack.sound
    (hw.depth.trans hfine.depth) hview hs hdepth hfine.current hbelow hholds.leaf hholds.own
  obtain ⟨last', hreuse', hleaf, -, hback, hstays⟩ := reuseLocation_spec hfine.current hholds.leaf
  obtain rfl := Option.some.inj (hreuse'.symm.trans hreuse)
  refine ⟨nodes, last', ?_, hleaf, by simpa using hback, by simpa using hstays, fun hbefore => ?_⟩
  · rw [Maskable.notify]
    rw [if_neg (ne_true_of_eq_false hcommitting), hnotify]
    rfl
  · have hlt := hbefore (a, account) List.mem_cons_self
    obtain ⟨xs, hxs, rfl⟩ := hright hlt (hcovers (by simpa using (Nat.le_succ _).trans_lt hlt))
    rw [merkleRoot_pruned hfine, Mask.emptiedRoot_eq hhash, ← funext hoverlaid]
    obtain ⟨hnot, -⟩ | ⟨root, hroot, heq⟩ := insertAll_cases (xs.map fun x => (x, rehash inputs.merge (Mask.overlaid maps.hashes below)
      (fun _ => inputs.emptyAccount) [a] (child.mask.depth - x.length) x)) []
    · exact absurd ((hxs []).2 List.nil_suffix) (by simpa using hnot)
    · obtain ⟨x, -, hx⟩ := List.mem_map.1 hroot
      obtain ⟨rfl, rfl⟩ := Prod.mk.inj hx
      exact (congrArg (fun hash => Option.elim hash _ some) (heq _)).trans rfl

variable [LawfulEqOrd Key] [LawfulEqOrd TokenId]

include hfine in
/-- **A batch.** -/
theorem exists_batchNotify (hw : base.Wrote inputs old leaf silent qs base')
    (hold : ∀ a : Addr, a.length ≤ (base.any inputs).depth → (base.any inputs).getInnerHashAtAddrExn a = some (old a))
    (hnodup : (qs.map Prod.fst).Nodup) (hcommitting : child.isCommitting = false) (hholds : ∀ q ∈ qs, child.mask.Holds inputs q.1 q.2) :
    ∃ nodes last, Maskable.batchNotify inputs (base'.any inputs) (qs.map Prod.snd) child = some (child.pruned inputs base' qs nodes last) ∧
      child.Told inputs base' qs (child.mask.dropAccumulated.emptiedRoot inputs (qs.map Prod.fst)) nodes last := by
  have hparent' : (child.mask.withParent (base'.any inputs)).parent = some (base'.any inputs) := congrArg (Option.map _) hfine.parent
  have hdropped : ∀ q ∈ qs, child.mask.dropAccumulated.Holds inputs q.1 q.2 := by
    intro q hq
    refine ⟨(hholds q hq).leaf, (hholds q hq).own, fun maps ancestor hview => ?_⟩
    obtain ⟨rfl, -⟩ := Prod.mk.inj (Option.some.inj (hview.symm.trans (Mask.view_of_none (t := child.mask.dropAccumulated) rfl hfine.parent)))
    exact (hholds q hq).own
  have hlen : ∀ q ∈ qs, q.1.length = child.mask.depth := fun q hq => (hholds q hq).leaf
  obtain ⟨maps, ancestor, below, hash, hview, hs, hdepth, hbelow, hhash, hoverlaid, hcovers, hown⟩ :=
    exists_view_withParent hfine.dropAccumulated hw hold hlen hdropped
  obtain ⟨rfl, rfl⟩ := hown rfl
  obtain ⟨nodes, last, hfold, hleaf, hle, hback, hall⟩ := Mask.foldlM_parentSetNotify (t := (child.mask.withParent (base'.any inputs)).dropAccumulated)
    hparent' rfl hs hdepth hfine.current hbelow hlen hnodup fun q hq => (hholds q hq).own
  have hcovered : (∀ q ∈ qs, index q.1 + 1 < filled child.mask.currentLocation) → Covers inputs child.mask.currentLocation (base'.any inputs) :=
    fun hbefore => hcovers fun q hq => (Nat.le_succ _).trans_lt (hbefore q hq)
  refine ⟨nodes, last, ?_, hleaf, hback, fun hbefore => (hall hbefore (hcovered hbefore)).1, fun hbefore => ?_⟩
  · rw [Maskable.batchNotify]
    rw [if_neg (ne_true_of_eq_false hcommitting), hfold]
    rfl
  · have hroot := (hall hbefore (hcovered hbefore)).2 [] (Nat.zero_le _)
    rw [merkleRoot_pruned hfine, Mask.emptiedRoot_eq hhash, ← funext hoverlaid]
    refine Eq.trans ?_ (congrArg some hroot)
    rw [Mask.overlaid]
    change ((insertAll child.mask.maps.hashes nodes)[([] : Addr)]?).elim _ some = some (((insertAll child.mask.maps.hashes nodes)[([] : Addr)]?).getD _)
    cases (insertAll child.mask.maps.hashes nodes)[([] : Addr)]? with
    | none => exact hbelow [] (Nat.zero_le _)
    | some root => rfl

/-- **Accounts that masks have themselves.** When they are written to the ledger below, the mask has them no more. Its root is that of the tree
without them, and what else is read is the same exactly when what was lost is found below. -/
theorem reads_after_write [DecidableEq TokenId] {t : Maskable Key TokenId Account Hash} {w : Write Account} (ht : t.Fine inputs)
    (hw : w.Fits (t.base.any inputs).depth) :
    ∃ t', t.write inputs w = some t' ∧ ∀ (i : Nat) (child : Registered Key TokenId Account Hash), t.registeredMasks[i]? = some child →
      child.isCommitting = false → (∀ q ∈ w.accounts, child.mask.Holds inputs q.1 q.2) →
      ∃ child', t'.registeredMasks[i]? = some child' ∧ (∀ q ∈ w.accounts, child'.mask.maps.accounts[Location.account q.1]? = none) ∧
        (child.SameReads inputs t.base t'.base child' ↔ child.Restored inputs t.base (w.silent t.base) w.accounts) ∧
        ((∀ q ∈ w.accounts, index q.1 + 1 < filled child.mask.currentLocation) →
          child'.mask.merkleRoot = some ((w.reading child.mask).emptiedRoot inputs (w.accounts.map Prod.fst))) := by
  obtain ⟨old, hold⟩ := ht.base.stack.sound.exists_old inputs
  -- what is written to the ledger, and what each mask is told
  obtain ⟨leaf, base', tell, hwrite, hw', hnodup, htotal, htold⟩ : ∃ (leaf : Addr → Hash) (base' : Ledger Key TokenId Account Hash)
      (tell : Registered Key TokenId Account Hash → Option (Registered Key TokenId Account Hash)),
      t.write inputs w = (t.registeredMasks.mapM tell).map (⟨base', ·⟩) ∧ t.base.Wrote inputs old leaf (w.silent t.base) w.accounts base' ∧
      (w.accounts.map Prod.fst).Nodup ∧ (∀ child : Registered Key TokenId Account Hash, child.Fine inputs t.base → ∃ child', tell child = some child') ∧
      ∀ child : Registered Key TokenId Account Hash, child.Fine inputs t.base → child.isCommitting = false →
        (∀ q ∈ w.accounts, child.mask.Holds inputs q.1 q.2) → ∃ nodes last, tell child = some (child.pruned inputs base' w.accounts nodes last) ∧
          child.Told inputs base' w.accounts ((w.reading child.mask).emptiedRoot inputs (w.accounts.map Prod.fst)) nodes last := by
    cases w with
    | set a account =>
      obtain ⟨base', hset, hw'⟩ := Ledger.set_wrote ht.base hold (fun _ => inputs.hashAccount account) hw rfl
      refine ⟨_, base', Maskable.notify inputs (base'.any inputs) account, ?_, hw', List.nodup_singleton _, fun child hfine => ?_,
        fun child hfine hcommitting hholds => exists_notify hfine hw' hold hcommitting (hholds _ List.mem_cons_self)⟩
      · rw [Maskable.write, Maskable.set, hset, Option.bind_eq_bind, Option.bind_some, Option.map_eq_bind]
        rfl
      · obtain ⟨ancestor, hs, hready⟩ := hfine.ready hw'
        obtain ⟨mask, hnotify, -⟩ := hready.parentSetNotify inputs hs account
        rw [Maskable.notify, hnotify]
        split <;> exact ⟨_, rfl⟩
    | setBatch qs =>
      obtain ⟨hdepth, hlen, hnodup⟩ := hw
      obtain ⟨leaf, hleaf⟩ := exists_leaf inputs qs hnodup
      obtain ⟨base', hset, hw'⟩ := Ledger.setBatch_wrote ht.base hold hdepth hlen hnodup hleaf
      have hsnd : (accountsAt qs).map Prod.snd = qs.map Prod.snd := by simp [accountsAt]
      refine ⟨leaf, base', Maskable.batchNotify inputs (base'.any inputs) (qs.map Prod.snd), ?_, hw', hnodup, fun child hfine => ?_,
        fun child hfine hcommitting hholds => exists_batchNotify hfine hw' hold hnodup hcommitting hholds⟩
      · rw [Maskable.write, Maskable.setBatch, hset, Option.bind_eq_bind, Option.bind_some, hsnd, Option.map_eq_bind]
        rfl
      · obtain ⟨ancestor, hs, hready⟩ := hfine.dropAccumulated.ready hw'
        obtain ⟨mask, hfold, -⟩ := hready.foldlM inputs hs (qs.map Prod.snd)
        have hfold' : (qs.map Prod.snd).foldlM (Mask.parentSetNotify inputs) (child.mask.withParent (base'.any inputs)).dropAccumulated = some mask := hfold
        rw [Maskable.batchNotify, hfold']
        split <;> exact ⟨_, rfl⟩
  have hall : ∀ child ∈ t.registeredMasks, ∃ child', tell child = some child' ∧ tell child = some child' := fun child hchild =>
    (htotal child (ht.masks child hchild)).imp fun _ h => ⟨h, h⟩
  obtain ⟨masks, hmasks, hforall⟩ := exists_mapM hall
  refine ⟨⟨base', masks⟩, by rw [hwrite, hmasks]; rfl, fun i child hi hcommitting hholds => ?_⟩
  have hfine := ht.masks child (List.mem_of_getElem? hi)
  obtain ⟨nodes, last, htell, told⟩ := htold child hfine hcommitting hholds
  refine ⟨child.pruned inputs base' w.accounts nodes last, ?_, fun q hq => ?_,
    sameReads_pruned_iff hfine hw' hnodup hholds told.leaf told.back told.stays, told.root⟩
  · obtain ⟨child', hi', heq⟩ := getElem?_of_forall₂ hforall hi
    rw [htell] at heq
    exact hi'.trans heq.symm
  · exact eraseAll_of_mem (List.mem_map_of_mem (f := fun q : Addr × Account => Location.account q.1) hq)

end Told

end Masks

/-! ### A ledger of flags -/

/-- An account with another id. -/
def otherFlagAccount : FlagAccount := (⟨false, true⟩, false)

/-- The maps of a mask where an account was set. -/
def heldMaps : Maps Bool Bool FlagAccount Bytes :=
  Mask.setHashes [([false], writeFlagAccount changedFlagAccount), ([], [])] (Mask.setAccounts flagInputs [(.account [false], changedFlagAccount)] .empty)

theorem holds_heldMaps : heldMaps.Holds flagInputs [false] changedFlagAccount := by
  refine ⟨by decide, by decide, by decide, fun b hb => ?_⟩
  rcases List.suffix_cons_iff.1 hb with rfl | hb
  · decide
  · obtain rfl := List.suffix_nil.1 hb
    decide

/-- A mask over a ledger with two accounts, that has the first one changed. -/
def heldFlags (mdb : Database) : Registered Bool Bool FlagAccount Bytes where
  mask :=
    { parent := some (mdb.any flagInputs)
      detachedParentSignal := false
      currentLocation := some (locationAt 1 1)
      depth := 1
      maps := heldMaps
      accumulated := none }
  isCommitting := false
  cacheOwners := fun _ => some none

theorem holds_heldFlags (mdb : Database) : (heldFlags mdb).mask.Holds flagInputs [false] changedFlagAccount := by
  refine ⟨rfl, holds_heldMaps, fun maps ancestor hview => ?_⟩
  obtain ⟨rfl, -⟩ := Prod.mk.inj (Option.some.inj (hview.symm.trans (Mask.view_of_none (t := (heldFlags mdb).mask) rfl rfl)))
  exact holds_heldMaps

theorem fine_heldFlags {mdb : Database}
    (hr : Represents flagInputs 1 mdb [(flagAccount.1, flagAccount), (otherFlagAccount.1, otherFlagAccount)]) :
    (heldFlags mdb).Fine flagInputs (.database mdb) := by
  obtain ⟨last, hlast, hcovers⟩ := hr.covers
  obtain rfl := Option.some.inj (hlast.symm.trans hr.lastFilled_eq)
  refine ⟨rfl, ⟨⟨_, rfl, .database hr.readable, hr.depth_eq⟩, fun acc hacc => absurd hacc (by simp [heldFlags])⟩, fun maps ancestor hview => ?_, hcovers,
    fun aid l hl => ?_⟩
  · obtain ⟨-, rfl⟩ := Prod.mk.inj (Option.some.inj (hview.symm.trans (Mask.view_of_none (t := (heldFlags mdb).mask) rfl rfl)))
    exact hcovers
  · change (insertAll ∅ [(changedFlagAccount.1, Location.account [false])])[aid]? = some l at hl
    rcases insertAll_cases [(changedFlagAccount.1, Location.account [false])] aid with ⟨-, heq⟩ | ⟨l', hl', heq⟩
    · rw [heq] at hl
      exact absurd hl (by simp)
    · rw [heq] at hl
      obtain rfl := Option.some.inj hl
      obtain ⟨-, rfl⟩ := Prod.mk.inj (List.mem_singleton.1 hl')
      exact ⟨[false], rfl, rfl⟩

/-- The changed account is written to the ledger. -/
theorem reads_after_write_changed : ∃ (mdb : Database) (t' : Maskable Bool Bool FlagAccount Bytes) (child' : Registered Bool Bool FlagAccount Bytes),
    (Maskable.mk (.database mdb) [heldFlags mdb]).write flagInputs (.set [false] changedFlagAccount) = some t' ∧
      t'.registeredMasks[0]? = some child' ∧ child'.mask.maps.accounts[Location.account [false]]? = none ∧
      ((heldFlags mdb).SameReads flagInputs (.database mdb) t'.base child' ↔
        (heldFlags mdb).Restored flagInputs (.database mdb) true [([false], changedFlagAccount)]) ∧
      child'.mask.merkleRoot = some ((heldFlags mdb).mask.emptiedRoot flagInputs [[false]]) := by
  obtain ⟨db, -, hr⟩ := reachable_flagAccount (show 1 < 254 by decide)
  have hmissing : otherFlagAccount.1 ∉ Entries.ids [(flagAccount.1, flagAccount)] := by decide
  obtain ⟨db', -, hr'⟩ := hr.getOrCreateAccount_added hmissing (by decide) otherFlagAccount
  have hfine : (Maskable.mk (.database db') [heldFlags db']).Fine flagInputs :=
    ⟨hr'.readable, fun child hchild => List.mem_singleton.1 hchild ▸ fine_heldFlags hr'⟩
  obtain ⟨t', hwrite, hall⟩ := reads_after_write (w := .set [false] changedFlagAccount) hfine hr'.depth_eq.symm
  have hholds : ∀ q ∈ [(([false] : Addr), changedFlagAccount)], (heldFlags db').mask.Holds flagInputs q.1 q.2 := fun q hq =>
    List.mem_singleton.1 hq ▸ holds_heldFlags db'
  obtain ⟨child', hchild, hgone, hreads, hroot⟩ := hall 0 (heldFlags db') rfl rfl hholds
  refine ⟨db', t', child', hwrite, hchild, hgone _ List.mem_cons_self, hreads, hroot fun q hq => ?_⟩
  obtain rfl := List.mem_singleton.1 hq
  exact (by decide : index [false] + 1 < filled (some (locationAt 1 1)))

/-- A ledger, with a mask over it where accounts were set. -/
def maskedFlags (base : Option Database) (own : List (Location × FlagAccount)) : Option (Maskable Bool Bool FlagAccount Bytes) := do
  let mdb ← base
  let mask ← Mask.setParent none (Mask.create 1) (mdb.any flagInputs)
  let mask ← Mask.setEach flagInputs mask own
  some ⟨.database mdb, [⟨mask, false, fun _ => some none⟩]⟩

/-- The mask that was registered first. -/
def firstMask (t : Maskable Bool Bool FlagAccount Bytes) : Option (Mask Bool Bool FlagAccount Bytes) := t.registeredMasks.head?.map Registered.mask

/-- The mask after one of its accounts was set in the ledger. -/
def toldMask (t : Maskable Bool Bool FlagAccount Bytes) (a : Addr) (account : FlagAccount) : Option (Mask Bool Bool FlagAccount Bytes) :=
  (t.set flagInputs (.account a) account).bind firstMask

/-- A ledger with two accounts. -/
def twoFlags : Option Database := Database.setBatch flagInputs (emptyFlags 1) [(.account [false], flagAccount), (.account [true], otherFlagAccount)]

/-- **The mask does not show what it showed**: its root is another one; when it loses its last account there is one less, and the account is not
read; and an account that the database was never told of by its id is not found. -/
theorem mask_shows_less :
    ((maskedFlags twoFlags [(.account [false], changedFlagAccount)]).bind fun t => (toldMask t [false] changedFlagAccount).bind Mask.merkleRoot) ≠
        ((maskedFlags twoFlags [(.account [false], changedFlagAccount)]).bind firstMask).bind Mask.merkleRoot ∧
      ((maskedFlags twoFlags [(.account [true], otherFlagAccount)]).bind firstMask).bind (Mask.numAccounts flagInputs) = some 2 ∧
      ((maskedFlags twoFlags [(.account [true], otherFlagAccount)]).bind fun t => toldMask t [true] otherFlagAccount).bind
        (Mask.numAccounts flagInputs) = some 1 ∧
      ((maskedFlags twoFlags [(.account [true], otherFlagAccount)]).bind fun t => toldMask t [true] otherFlagAccount).bind
        (Mask.get · (.account [true])) = some none ∧
      ((maskedFlags (some (emptyFlags 1)) [(.account [false], flagAccount), (.account [true], otherFlagAccount)]).bind firstMask).bind
        (Mask.locationOfAccount · flagAccount.1) = some (some (.account [false])) ∧
      ((maskedFlags (some (emptyFlags 1)) [(.account [false], flagAccount), (.account [true], otherFlagAccount)]).bind fun t =>
        toldMask t [false] flagAccount).bind (Mask.locationOfAccount · flagAccount.1) = some none := by
  decide

end MinaProtocol.MerkleLedger
