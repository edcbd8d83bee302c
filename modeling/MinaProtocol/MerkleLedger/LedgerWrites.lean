import MinaProtocol.MerkleLedger.Maskable

/-!
# MerkleLedger.LedgerWrites

What is written to a ledger that masks are over, be it a database or a mask: the accounts, the hashes above them,
and where the accounts and the owners of their tokens are found. Only a database that is set a single account does
not record the latter.
-/

namespace MinaProtocol.MerkleLedger

open AddressTree Std

variable {Key TokenId Account Hash : Type}

/-! ### Databases -/

/-- **A store** can be read as long as no more than accounts and hashes have changed in it. -/
theorem Database.Readable.of_frame {inputs : Inputs Key TokenId Account Hash} {db db' : Database} {touched : Slot Key TokenId → Prop}
    (hr : db.Readable inputs) (hframe : Frame inputs db db' touched) (hlast : ¬ touched .last) (htokens : ∀ pk, ¬ touched (.tokens pk))
    (hhash : ∀ a : Addr, a.length ≤ db.depth → (getHash inputs db' a).isSome) : db'.Readable inputs where
  depth_lt := hframe.depth ▸ hr.depth_lt
  hash a ha := hhash a (ha.trans_eq hframe.depth)
  tokens pk := by
    rw [hframe.tokens_eq (htokens pk)]
    exact hr.tokens pk
  last := by
    rw [lastFilled_congr inputs hframe.depth (hframe.stored .last trivial hlast), hframe.depth]
    exact hr.last

section Ledgers

variable [Ord Key] [Ord TokenId] [TransOrd Key] [TransOrd TokenId]

/-! ### Masks -/

variable {a : Addr} {account : Account}

namespace Mask

variable {inputs : Inputs Key TokenId Account Hash} {t t' : Mask Key TokenId Account Hash}
  {ancestor : AnyLedger Key TokenId Account Hash} {maps : Maps Key TokenId Account Hash}
  {ps : List (Location × Account)} {f : Maps Key TokenId Account Hash → Maps Key TokenId Account Hash}

/-- **`set`** is a write of the account and of hashes. -/
theorem eq_write_of_set (h : set inputs t (.account a) account = some t') : ∃ path nodes,
      merklePathAtAddrExn inputs (t.write (setAccounts inputs [(.account a, account)]) (some (laterLocation (.account a) t.currentLocation))) a = some path ∧
      addressesAndHashesFromMerklePathExn inputs path a (inputs.hashAccount account) = some nodes ∧
      t' = t.write (fun maps => setHashes nodes (setAccounts inputs [(.account a, account)] maps))
        (some (laterLocation (.account a) t.currentLocation)) := by
  rw [set] at h
  cases hattached : t.assertIsAttached with
  | none => simp [hattached] at h
  | some u =>
    rw [setAccountUnsafe_eq inputs hattached, hattached] at h
    simp only [Option.bind_eq_bind, Option.bind_some, Location.toPath, Option.bind_eq_some_iff] at h
    obtain ⟨path, hpath, nodes, hnodes, h⟩ := h
    rw [foldl_selfSetHash, currentLocation_write, write_write] at h
    exact ⟨path, nodes, hpath, hnodes, (Option.some.inj h).symm⟩

/-- **`set_batch`** is a write of the accounts and of hashes. -/
theorem eq_write_of_setBatch (h : setBatch inputs t ps = some t') :
    ∃ nodes last, t' = t.write (fun maps => setHashes nodes (setAccounts inputs ps (setLocations (idLocations inputs ps) maps))) last := by
  simp only [setBatch, Option.bind_eq_bind, Option.bind_eq_some_iff] at h
  obtain ⟨t₁, haddresses, t₂, haccounts, hashes, -, h⟩ := h
  obtain ⟨last, rfl⟩ : ∃ last, t₁ = t.write (setLocations (idLocations inputs ps)) last := by
    cases ps with
    | nil => exact ⟨t.currentLocation, (Option.some.inj haddresses).symm.trans (write_self fun _ => rfl).symm⟩
    | cons p ps =>
      simp only [setRawAddresses, Option.bind_eq_bind, Option.bind_eq_some_iff] at haddresses
      obtain ⟨lastFilled, -, lastLocation, -, heq⟩ := haddresses
      rw [setLocationBatch_eq] at heq
      exact ⟨_, (Option.some.inj heq).symm⟩
  cases hattached : (t.write (setLocations (idLocations inputs ps)) last).assertIsAttached with
  | none => simp [setRawAccountBatch, hattached] at haccounts
  | some u =>
    rw [setRawAccountBatch_eq inputs hattached] at haccounts
    obtain rfl := Option.some.inj haccounts
    simp only [setHashBatch, setRawHashBatch, Option.bind_eq_bind, Option.bind_eq_some_iff] at h
    obtain ⟨affected, -, u, -, h⟩ := h
    rw [foldl_selfSetHash, write_write, write_write] at h
    exact ⟨_, _, (Option.some.inj h).symm⟩

/-- The owners of tokens that come with accounts. -/
def ownersOf (inputs : Inputs Key TokenId Account Hash) (ps : List (Location × Account)) : List (TokenId × AccountId Key TokenId) :=
  ps.map fun p => (inputs.deriveTokenId (inputs.identifier p.2), inputs.identifier p.2)

/-- **Locations after a write** of accounts. -/
theorem locationOfAccount_write (last : Option Location)
    {ls : List (AccountId Key TokenId × Location)} {aid : AccountId Key TokenId} [LawfulEqOrd Key] [LawfulEqOrd TokenId]
    (hattached : t.assertIsAttached = some ()) (hview : t.mapsAndAncestor = some (maps, ancestor))
    (hf : (f maps).locations[aid]? = (insertAll maps.locations ls)[aid]?) :
    (aid ∉ ls.map Prod.fst ∧ (t.write f last).locationOfAccount aid = t.locationOfAccount aid) ∨
      ∃ l, (aid, l) ∈ ls ∧ (t.write f last).locationOfAccount aid = some (some l) := by
  have hattached' : (t.write f last).assertIsAttached = some () := hattached
  rw [locationOfAccount, locationOfAccount, hattached, hattached', hview, view_write hview]
  simp only [Option.bind_eq_bind, Option.bind_some, hf]
  obtain ⟨hnot, heq⟩ | ⟨l, hl, heq⟩ := insertAll_cases ls aid
  · exact .inl ⟨hnot, by rw [heq]⟩
  · exact .inr ⟨l, hl, by rw [heq]⟩

omit [TransOrd Key] in
/-- **Owners of tokens after a write** of accounts. -/
theorem tokenOwner_write (last : Option Location)
    {os : List (TokenId × AccountId Key TokenId)} {tid : TokenId} (owners : TokenId → Option (Option (AccountId Key TokenId))) [LawfulEqOrd TokenId]
    (hattached : t.assertIsAttached = some ()) (hview : t.mapsAndAncestor = some (maps, ancestor))
    (hf : (f maps).tokenOwners[tid]? = (insertAll maps.tokenOwners os)[tid]?) :
    (tid ∉ os.map Prod.fst ∧ (t.write f last).tokenOwner owners tid = t.tokenOwner owners tid) ∨
      ∃ aid, (tid, aid) ∈ os ∧ (t.write f last).tokenOwner owners tid = some (some aid) := by
  have hattached' : (t.write f last).assertIsAttached = some () := hattached
  rw [tokenOwner, tokenOwner, hattached, hattached', hview, view_write hview]
  simp only [Option.bind_eq_bind, Option.bind_some, hf]
  obtain ⟨hnot, heq⟩ | ⟨aid, haid, heq⟩ := insertAll_cases os tid
  · exact .inl ⟨hnot, by rw [heq]⟩
  · exact .inr ⟨aid, haid, by rw [heq]⟩

/-- **Accounts and hashes after a write**, as they are read. -/
theorem Written.reads {parent : AnyLedger Key TokenId Account Hash} {maps' : Maps Key TokenId Account Hash} {base leaf old : Addr → Hash}
    {qs : List (Addr × Account)} (hr : Reads inputs t parent maps ancestor) (hr' : Reads inputs t' parent maps' ancestor)
    (hw : Written inputs base leaf parent qs t t' maps maps')
    (hbase : ∀ a : Addr, a.length ≤ t.depth → ancestor.getInnerHashAtAddrExn a = some (base a))
    (hold : ∀ a : Addr, a.length ≤ t.depth → t.getInnerHashAtAddrExn a = some (old a)) :
    (∀ a : Addr, a.length = t.depth → (a ∉ qs.map Prod.fst ∧ t'.get (.account a) = t.get (.account a)) ∨
        ∃ account, (a, account) ∈ qs ∧ t'.get (.account a) = some (some account)) ∧
      ∀ a : Addr, a.length ≤ t.depth →
        t'.getInnerHashAtAddrExn a = some (rehash inputs.merge old leaf (qs.map Prod.fst) (t.depth - a.length) a) := by
  refine ⟨fun a ha => ?_, fun a ha => ?_⟩
  · rw [hr'.get_eq (ha.trans hw.depth.symm), hr.get_eq ha, hw.accounts]
    obtain ⟨hnot, heq⟩ | ⟨account, hmem, heq⟩ := insertAll_cases (accountsAt qs) (Location.account a)
    · refine .inl ⟨fun hmem => hnot ?_, by rw [heq]⟩
      obtain ⟨q, hq, rfl⟩ := List.mem_map.1 hmem
      exact List.mem_map.2 ⟨(.account q.1, q.2), List.mem_map_of_mem (f := fun q : Addr × Account => (Location.account q.1, q.2)) hq, rfl⟩
    · obtain ⟨q, hq, heq'⟩ := List.mem_map.1 hmem
      obtain ⟨hl, rfl⟩ := Prod.mk.inj heq'
      obtain rfl := Location.account.inj hl
      exact .inr ⟨q.2, hq, by rw [heq]; rfl⟩
  · rw [hr'.getInnerHashAtAddrExn_eq (by rwa [hw.depth]) (ha.trans_eq hw.depth.symm), hw.hashes]
    refine congrArg some (rehash_congr_old fun a' ha' => ?_)
    have hlen : (a' ++ a).length ≤ t.depth := by
      rw [List.length_append]
      omega
    exact Option.some.inj ((hr.getInnerHashAtAddrExn_eq hbase hlen).symm.trans (hold _ hlen))

end Mask

/-! ### Any of them -/

namespace Ledger

/-- A database that can be read, or a mask over such ledgers with nothing beyond its last location below it. -/
def Fine (inputs : Inputs Key TokenId Account Hash) : Ledger Key TokenId Account Hash → Prop
  | .database mdb => mdb.Readable inputs
  | .mask t _ => t.Over (Stack inputs (Database.Readable inputs) (Mask.Covered inputs)) ∧ t.Covered inputs

variable {inputs : Inputs Key TokenId Account Hash} {l l' : Ledger Key TokenId Account Hash} {old leaf : Addr → Hash}
  {qs : List (Addr × Account)}

theorem Fine.stack (h : l.Fine inputs) : Stack inputs (Database.Readable inputs) (Mask.Covered inputs) (l.any inputs) := by
  cases l with
  | database mdb => exact .database h
  | mask t owners => exact .of_over h.1 h.2

/-- A single account is written to a database, and not where it is. -/
def silent : Ledger Key TokenId Account Hash → Bool
  | .database _ => true
  | .mask _ _ => false

/-- **Accounts were written**: they are read, the hashes are made anew above them, and unless the write is silent they and the
owners of their tokens are found. -/
structure Wrote (inputs : Inputs Key TokenId Account Hash) (old leaf : Addr → Hash) (silent : Bool) (qs : List (Addr × Account))
    (l l' : Ledger Key TokenId Account Hash) : Prop where
  depth : (l'.any inputs).depth = (l.any inputs).depth
  fine : l'.Fine inputs
  account : ∀ a : Addr, a.length = (l.any inputs).depth → (a ∉ qs.map Prod.fst ∧ (l'.any inputs).get (.account a) = (l.any inputs).get (.account a)) ∨
    ∃ account, (a, account) ∈ qs ∧ (l'.any inputs).get (.account a) = some (some account)
  hash : ∀ a : Addr, a.length ≤ (l.any inputs).depth →
    (l'.any inputs).getInnerHashAtAddrExn a = some (rehash inputs.merge old leaf (qs.map Prod.fst) ((l.any inputs).depth - a.length) a)
  location : ∀ aid, ((silent = true ∨ aid ∉ qs.map fun q => inputs.identifier q.2) ∧
      (l'.any inputs).locationOfAccount aid = (l.any inputs).locationOfAccount aid) ∨
    silent = false ∧ ∃ q ∈ qs, inputs.identifier q.2 = aid ∧ (l'.any inputs).locationOfAccount aid = some (some (.account q.1))
  owner : ∀ tid, ((silent = true ∨ tid ∉ qs.map fun q => inputs.deriveTokenId (inputs.identifier q.2)) ∧
      l'.tokenOwner inputs tid = l.tokenOwner inputs tid) ∨
    silent = false ∧ ∃ q ∈ qs, inputs.deriveTokenId (inputs.identifier q.2) = tid ∧ l'.tokenOwner inputs tid = some (some (inputs.identifier q.2))

variable [LawfulEqOrd Key] [LawfulEqOrd TokenId]

theorem wrote_mask {t t' : Mask Key TokenId Account Hash} {owners : TokenId → Option (Option (AccountId Key TokenId))}
    {parent ancestor : AnyLedger Key TokenId Account Hash} {maps maps' : Maps Key TokenId Account Hash} {base : Addr → Hash}
    {f : Maps Key TokenId Account Hash → Maps Key TokenId Account Hash} {last : Option Location}
    (ho : t.Over (Stack inputs (Database.Readable inputs) (Mask.Covered inputs))) (hr : Mask.Reads inputs t parent maps ancestor)
    (hr' : Mask.Reads inputs t' parent maps' ancestor) (hw : Mask.Written inputs base leaf parent qs t t' maps maps')
    (hbase : ∀ a : Addr, a.length ≤ t.depth → ancestor.getInnerHashAtAddrExn a = some (base a))
    (hold : ∀ a : Addr, a.length ≤ t.depth → t.getInnerHashAtAddrExn a = some (old a)) (heq : t' = t.write f last)
    (hlocations : ∀ aid : AccountId Key TokenId, (f maps).locations[aid]? = (insertAll maps.locations (Mask.idLocations inputs (accountsAt qs)))[aid]?)
    (howners : (f maps).tokenOwners = insertAll maps.tokenOwners (Mask.ownersOf inputs (accountsAt qs))) :
    Wrote inputs old leaf false qs (.mask t owners) (.mask t' owners) := by
  obtain ⟨haccounts, hhashes⟩ := hw.reads hr hr' hbase hold
  have hids : (Mask.idLocations inputs (accountsAt qs)).map Prod.fst = qs.map fun q => inputs.identifier q.2 := by simp [Mask.idLocations, accountsAt]
  have htids : (Mask.ownersOf inputs (accountsAt qs)).map Prod.fst = qs.map fun q => inputs.deriveTokenId (inputs.identifier q.2) := by
    simp [Mask.ownersOf, accountsAt]
  refine ⟨hw.depth, ⟨hw.stays _ ho, hr'.isCovered⟩, haccounts, hhashes, fun aid => ?_, fun tid => ?_⟩
  · change (_ ∧ t'.locationOfAccount aid = t.locationOfAccount aid) ∨ _ ∧ ∃ q ∈ qs, _ ∧ t'.locationOfAccount aid = _
    rw [heq, ← hids]
    obtain ⟨hnot, hsame⟩ | ⟨l, hl, hfound⟩ := Mask.locationOfAccount_write last hr.isAttached hr.view (hlocations aid)
    · exact .inl ⟨.inr hnot, hsame⟩
    · obtain ⟨p, hp, hpair⟩ := List.mem_map.1 hl
      obtain ⟨q, hq, rfl⟩ := List.mem_map.1 hp
      obtain ⟨rfl, rfl⟩ := Prod.mk.inj hpair
      exact .inr ⟨rfl, q, hq, rfl, hfound⟩
  · change (_ ∧ t'.tokenOwner owners tid = t.tokenOwner owners tid) ∨ _ ∧ ∃ q ∈ qs, _ ∧ t'.tokenOwner owners tid = _
    rw [heq, ← htids]
    obtain ⟨hnot, hsame⟩ | ⟨aid, haid, hfound⟩ := Mask.tokenOwner_write last owners hr.isAttached hr.view (congrArg (·[tid]?) howners)
    · exact .inl ⟨.inr hnot, hsame⟩
    · obtain ⟨p, hp, hpair⟩ := List.mem_map.1 haid
      obtain ⟨q, hq, rfl⟩ := List.mem_map.1 hp
      obtain ⟨rfl, rfl⟩ := Prod.mk.inj hpair
      exact .inr ⟨rfl, q, hq, rfl, hfound⟩

variable (hfine : l.Fine inputs)
  (hold : ∀ a : Addr, a.length ≤ (l.any inputs).depth → (l.any inputs).getInnerHashAtAddrExn a = some (old a))

include hfine hold

/-- **`set`** of any ledger. -/
theorem set_wrote (leaf : Addr → Hash) (ha : a.length = (l.any inputs).depth) (hleaf : leaf a = inputs.hashAccount account) :
    ∃ l', l.set inputs (.account a) account = some l' ∧ Wrote inputs old leaf l.silent [(a, account)] l l' := by
  cases l with
  | database db =>
    have hr : db.Readable inputs := hfine
    have hread : ∀ a : Addr, a.length ≤ db.depth → Database.getHash inputs db a = some (old a) := fun a ha =>
      (Database.getInnerHashAtAddrExn_eq ha).symm.trans (hold a ha)
    obtain ⟨db', hset, hw, hframe⟩ := Database.set_written hr.depth_lt hread ha hleaf
    have hreadable : db'.Readable inputs := hr.of_frame hframe (by simp) (by simp) fun a ha => by
      rw [hw.hashes a ha]
      rfl
    refine ⟨.database db', by rw [Ledger.set, hset]; rfl, hframe.depth, hreadable, fun b hb => ?_, fun b hb => ?_, fun aid => ?_, fun tid => ?_⟩
    · by_cases hmem : b ∈ [(a, account)].map Prod.fst
      · obtain ⟨q, hq, rfl⟩ := List.mem_map.1 hmem
        exact .inr ⟨q.2, hq, hw.get_of_mem (List.nodup_singleton _) hb hq⟩
      · exact .inl ⟨hmem, hw.get_of_notMem hb hmem⟩
    · exact (Database.getInnerHashAtAddrExn_eq (hb.trans_eq hframe.depth.symm)).trans (hw.hashes b hb)
    · exact .inl ⟨.inl rfl, Database.locationOfAccount_congr hframe.depth (hframe.stored (.location aid) trivial (by simp))⟩
    · exact .inl ⟨.inl rfl, hframe.tokenOwner_eq (by simp)⟩
  | mask t owners =>
    obtain ⟨ho, hc⟩ := hfine
    obtain ⟨parent, maps, ancestor, hr⟩ := ho.exists_reads (fun _ h => h.sound) hc
    obtain ⟨base, hbase⟩ := hr.exists_base
    obtain ⟨t', maps', hset, hr', hw⟩ := Mask.set_written hr hbase ha hleaf
    obtain ⟨-, nodes, -, -, heq⟩ := Mask.eq_write_of_set hset
    exact ⟨.mask t' owners, by rw [Ledger.set, hset]; rfl, wrote_mask ho hr hr' hw hbase hold heq (fun _ => rfl) rfl⟩

/-- **`set_batch`** of any ledger. -/
theorem setBatch_wrote [DecidableEq TokenId] (hdepth : (l.any inputs).depth ≤ 61)
    (hlen : ∀ q ∈ qs, q.1.length = (l.any inputs).depth) (hnodup : (qs.map Prod.fst).Nodup) (hleaf : ∀ q ∈ qs, leaf q.1 = inputs.hashAccount q.2) :
    ∃ l', l.setBatch inputs (accountsAt qs) = some l' ∧ Wrote inputs old leaf false qs l l' := by
  cases l with
  | database db =>
    have hr : db.Readable inputs := hfine
    have hread : ∀ a : Addr, a.length ≤ db.depth → Database.getHash inputs db a = some (old a) := fun a ha =>
      (Database.getInnerHashAtAddrExn_eq ha).symm.trans (hold a ha)
    obtain ⟨db', last, last', hset, hw, hreadable, -, -, -, hlocations, howners⟩ := Database.setBatch_written hr hread hdepth hlen hnodup hleaf
    refine ⟨.database db', by rw [Ledger.setBatch, hset]; rfl, hw.depth, hreadable, fun b hb => ?_, fun b hb => ?_, fun aid => ?_, fun tid => ?_⟩
    · by_cases hmem : b ∈ qs.map Prod.fst
      · obtain ⟨q, hq, rfl⟩ := List.mem_map.1 hmem
        exact .inr ⟨q.2, hq, hw.get_of_mem hnodup hb hq⟩
      · exact .inl ⟨hmem, hw.get_of_notMem hb hmem⟩
    · exact (Database.getInnerHashAtAddrExn_eq (hb.trans_eq hw.depth.symm)).trans (hw.hashes b hb)
    · exact (hlocations aid).imp (fun h => ⟨.inr h.1, h.2⟩) fun h => ⟨rfl, h⟩
    · exact (howners tid).imp (fun h => ⟨.inr h.1, h.2⟩) fun h => ⟨rfl, h⟩
  | mask t owners =>
    obtain ⟨ho, hc⟩ := hfine
    obtain ⟨parent, maps, ancestor, hr⟩ := ho.exists_reads (fun _ h => h.sound) hc
    obtain ⟨base, hbase⟩ := hr.exists_base
    obtain ⟨t', maps', hset, hr', hw⟩ := Mask.setBatch_written hr hbase hdepth hlen hnodup hleaf
    obtain ⟨nodes, last, heq⟩ := Mask.eq_write_of_setBatch hset
    exact ⟨.mask t' owners, by rw [Ledger.setBatch, hset]; rfl,
      wrote_mask ho hr hr' hw hbase hold heq (fun _ => insertAll_insertAll) rfl⟩

end Ledger

end Ledgers

end MinaProtocol.MerkleLedger
