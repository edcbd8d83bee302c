import MinaProtocol.MerkleLedger.Batch
import MinaProtocol.MerkleLedger.MaskWrites

/-!
# MerkleLedger.DatabaseWrites

Writing accounts to a database whose store can be read, at any addresses of its leaves. `set` writes the account and
the hashes above it, and nothing else; `set_batch` also writes where accounts are, the owners of their tokens and the
last location.
-/

namespace MinaProtocol.MerkleLedger

open AddressTree Std

variable {Key TokenId Account Hash : Type}

namespace Database

variable {inputs : Inputs Key TokenId Account Hash} {db db' db'' : Database} {old leaf : Addr → Hash} {qs qs' : List (Addr × Account)}
  {a : Addr} {account : Account}

/-- **Accounts were written**: they are in the store, and the hashes are made anew above them. -/
structure Written (inputs : Inputs Key TokenId Account Hash) (old leaf : Addr → Hash) (qs : List (Addr × Account)) (db db' : Database) : Prop where
  depth : db'.depth = db.depth
  accounts : ∀ a : Addr, a.length = db.depth →
    (a ∉ qs.map Prod.fst ∧ db'.stored inputs (.account a) = db.stored inputs (.account a)) ∨
      ∃ account, (a, account) ∈ qs ∧ db'.stored inputs (.account a) = some (inputs.binAccount.write account)
  hashes : ∀ a : Addr, a.length ≤ db.depth →
    getHash inputs db' a = some (rehash inputs.merge old leaf (qs.map Prod.fst) (db.depth - a.length) a)

theorem Written.refl (hread : ∀ a : Addr, a.length ≤ db.depth → getHash inputs db a = some (old a)) :
    Written inputs old leaf ([] : List (Addr × Account)) db db where
  depth := rfl
  accounts _ _ := .inl ⟨List.not_mem_nil, rfl⟩
  hashes a ha := by rw [List.map_nil, rehash_nil, hread a ha]

variable (h : Written inputs old leaf qs db db')

include h

/-- **One round after another.** -/
theorem Written.trans
    (h' : Written inputs (fun a => rehash inputs.merge old leaf (qs.map Prod.fst) (db.depth - a.length) a) leaf qs' db' db'') :
    Written inputs old leaf (qs ++ qs') db db'' where
  depth := h'.depth.trans h.depth
  accounts a ha := by
    rcases h'.accounts a (ha.trans h.depth.symm) with ⟨hnot', heq'⟩ | ⟨account, hmem, heq'⟩
    · rcases h.accounts a ha with ⟨hnot, heq⟩ | ⟨account, hmem, heq⟩
      · refine .inl ⟨?_, heq'.trans heq⟩
        rw [List.map_append, List.mem_append]
        exact fun hmem => hmem.elim hnot hnot'
      · exact .inr ⟨account, List.mem_append_left _ hmem, heq'.trans heq⟩
    · exact .inr ⟨account, List.mem_append_right _ hmem, heq'⟩
  hashes a ha := by
    rw [h'.hashes a (ha.trans_eq h.depth.symm), h.depth, rehash_append (by omega), List.map_append]

/-- **The account at a leaf**, when each is written once. -/
theorem Written.get_of_mem (hnodup : (qs.map Prod.fst).Nodup) (ha : a.length = db.depth)
    (hmem : (a, account) ∈ qs) : get inputs db' (.account a) = some (some account) := by
  have hfits : (Slot.account a : Slot Key TokenId).Fits db'.depth := ha.trans h.depth.symm
  rcases h.accounts a ha with ⟨hnot, -⟩ | ⟨account', hmem', heq⟩
  · exact absurd (List.mem_map_of_mem hmem) hnot
  · have hsame := List.inj_on_of_nodup_map hnodup hmem hmem' rfl
    rw [(Prod.mk.inj hsame).2]
    exact getBin_slot (s := .account a) (o := some account') hfits heq

theorem Written.get_of_notMem (ha : a.length = db.depth) (hnot : a ∉ qs.map Prod.fst) :
    get inputs db' (.account a) = get inputs db (.account a) := by
  rcases h.accounts a ha with ⟨-, heq⟩ | ⟨account', hmem, -⟩
  · exact getBin_congr (s := .account a) h.depth ha heq
  · exact absurd (List.mem_map_of_mem hmem) hnot

omit h

/-! ### `set` -/

/-- **`set`** writes an account and the hashes above it. -/
theorem set_written (hdepth : db.depth < 254) (hread : ∀ a : Addr, a.length ≤ db.depth → getHash inputs db a = some (old a))
    (ha : a.length = db.depth) (hleaf : leaf a = inputs.hashAccount account) :
    ∃ db', set inputs db (.account a) account = some db' ∧ Written inputs old leaf [(a, account)] db db' ∧
      Frame inputs db db' fun s => s = .account a ∨ ∃ b, s = .hash b := by
  have hfits : (Slot.account a : Slot Key TokenId).Fits db.depth := ha
  have hframe : Frame inputs db (db.write inputs (.account a) (inputs.binAccount.write account)) (· = .account a) := .write hdepth hfits
  have hread' : ∀ b : Addr, b.length ≤ db.depth →
      getHash inputs (db.write inputs (.account a) (inputs.binAccount.write account)) b = some (old b) := by
    intro b hb
    rw [getHash_congr hframe.depth hb (hframe.stored (.hash b) hb (by simp)), hread b hb]
  have hleaves : ∀ b ∈ [a], b.length = (db.write inputs (.account a) (inputs.binAccount.write account)).depth := by simpa using ha
  have hdepth' : (db.write inputs (.account a) (inputs.binAccount.write account)).depth < 254 := hdepth
  obtain ⟨db', hset, hhashes, hframe'⟩ := setHashBatch_rehash leaf hdepth' hread' hleaves (List.nodup_singleton a)
  have hset' : setHashBatch inputs (db.write inputs (.account a) (inputs.binAccount.write account)) [(a, inputs.hashAccount account)] = some db' := by
    rw [← hleaf]
    exact hset
  have hstored : db'.stored inputs (.account a) = some (inputs.binAccount.write account) :=
    (hframe'.stored (.account a) hfits (by simp)).trans stored_write_self
  refine ⟨db', ?_, ⟨hframe'.depth, fun b hb => ?_, hhashes⟩, hframe.trans hframe'⟩
  · have hbin : setBin inputs.binAccount db (.account a) account = some (db.write inputs (.account a) (inputs.binAccount.write account)) :=
      setBin_slot (s := .account a) hfits
    rw [set, hbin]
    exact hset'
  · by_cases hab : b = a
    · subst hab
      exact .inr ⟨account, List.mem_singleton_self _, hstored⟩
    · refine .inl ⟨by simpa using hab, ?_⟩
      exact (hframe.trans hframe').stored (.account b) hb (by simp [hab])

/-- Accounts are set one after another. -/
def setEach (inputs : Inputs Key TokenId Account Hash) (db : Database) (ps : List (Location × Account)) : Option Database :=
  ps.foldlM (fun db p => set inputs db p.1 p.2) db

/-- **One after another**, the accounts are written, and nothing else but hashes. -/
theorem setEach_written (hdepth : db.depth < 254) (hread : ∀ a : Addr, a.length ≤ db.depth → getHash inputs db a = some (old a))
    (hlen : ∀ q ∈ qs, q.1.length = db.depth) (hleaf : ∀ q ∈ qs, leaf q.1 = inputs.hashAccount q.2) :
    ∃ db', setEach inputs db (accountsAt qs) = some db' ∧ Written inputs old leaf qs db db' ∧
      Frame inputs db db' fun s => (∃ a, s = .account a) ∨ ∃ b, s = .hash b := by
  induction qs generalizing db old with
  | nil => exact ⟨db, rfl, .refl hread, .refl db _⟩
  | cons q qs ih =>
    obtain ⟨db₁, hset, hw, hframe⟩ := set_written hdepth hread (hlen q List.mem_cons_self) (hleaf q List.mem_cons_self)
    have hdepth₁ : db₁.depth < 254 := hw.depth ▸ hdepth
    obtain ⟨db₂, heach, hw', hframe'⟩ := ih hdepth₁ (fun a ha => hw.hashes a (ha.trans_eq hw.depth))
      (fun q' hq' => (hlen q' (List.mem_cons_of_mem _ hq')).trans hw.depth.symm) fun q' hq' => hleaf q' (List.mem_cons_of_mem _ hq')
    refine ⟨db₂, ?_, hw.trans hw', (hframe.trans hframe').mono ?_⟩
    · rw [setEach, accountsAt, List.map_cons, List.foldlM_cons, hset]
      exact heach
    · rintro s ((hs | hs) | hs)
      · exact .inl ⟨_, hs⟩
      · exact .inr hs
      · exact hs

/-! ### `set_batch` -/

section SetBatch

/-- **The last location** that is stored is read back. -/
theorem lastFilled_of_stored {c : Addr} (hc : c.length = db.depth) (h : db.stored inputs .last = some ((Location.account c).key db.depth)) :
    db.lastFilled = some (some (.account c)) := by
  have hraw : db.getRaw lastLocationKey = some (db.stored inputs .last) := getRaw_slot (s := .last) trivial
  rw [lastFilled, lastLocation, hraw, h]
  simp only [Option.bind_eq_bind, Option.bind_some]
  rw [Location.parse_account hc]
  rfl

theorem lastFilled_congr (inputs : Inputs Key TokenId Account Hash) (hdepth : db'.depth = db.depth)
    (h : db'.stored inputs .last = db.stored inputs .last) : db'.lastFilled = db.lastFilled := by
  have hraw : ∀ db : Database, db.getRaw lastLocationKey = some (db.stored inputs .last) := fun db => getRaw_slot (s := .last) trivial
  rw [lastFilled, lastFilled, lastLocation, lastLocation, hraw, hraw, h, hdepth]

variable {aid : AccountId Key TokenId}

/-- **The location of an account** that is stored is read back. -/
theorem locationOfAccount_of_stored {c : Addr} (hc : c.length = db.depth)
    (h : db.stored inputs (.location aid) = some ((Location.account c).key db.depth)) :
    locationOfAccount inputs db aid = some (some (.account c)) := by
  have hraw : db.getRaw (accountIdLocation inputs aid) = some (db.stored inputs (.location aid)) := getRaw_slot (s := .location aid) trivial
  rw [locationOfAccount, getLocation, hraw, h, Option.bind_some, parseLocation, Location.parse_account hc]
  rfl

theorem locationOfAccount_congr (hdepth : db'.depth = db.depth)
    (h : db'.stored inputs (.location aid) = db.stored inputs (.location aid)) :
    locationOfAccount inputs db' aid = locationOfAccount inputs db aid := by
  have hraw : ∀ db : Database, db.getRaw (accountIdLocation inputs aid) = some (db.stored inputs (.location aid)) :=
    fun db => getRaw_slot (s := .location aid) trivial
  have hparse : db'.parseLocation DbError.accountLocationNotFound = db.parseLocation DbError.accountLocationNotFound := by
    funext bin
    cases bin <;> simp [parseLocation, hdepth]
  rw [locationOfAccount, locationOfAccount, getLocation, getLocation, hraw, hraw, h, hparse]

theorem tokens_congr {pk : Key} (hdepth : db'.depth = db.depth) (h : db'.stored inputs (.tokens pk) = db.stored inputs (.tokens pk)) :
    db'.tokens inputs pk = db.tokens inputs pk := by
  have hbin : getBin inputs.binTokenSet db' (tokensLocation inputs pk) = getBin inputs.binTokenSet db (tokensLocation inputs pk) :=
    getBin_congr (s := .tokens pk) hdepth trivial h
  rw [tokens, tokens, hbin]

/-- The batch by indexes. -/
def indexBatch (qs : List (Addr × Account)) : List (Nat × Account) := qs.map fun q => (index q.1, q.2)

theorem batchLocations_indexBatch (hlen : ∀ q ∈ qs, q.1.length = db.depth) : batchLocations db.depth (indexBatch qs) = accountsAt qs := by
  rw [batchLocations, indexBatch, accountsAt, List.map_map]
  refine List.map_congr_left fun q hq => ?_
  simp [locationAt, ← hlen q hq, ofIndex_index]

/-- **What `set_raw_account_batch` writes**: the accounts and the owners of their tokens. -/
theorem setRawAccountBatch_written (inputs : Inputs Key TokenId Account Hash) (hdepth : db.depth < 254) (hlen : ∀ q ∈ qs, q.1.length = db.depth) :
    ∃ db', setRawAccountBatch inputs db (accountsAt qs) = some db' ∧
      Frame inputs db db' (fun s => (∃ a, s = .account a) ∨ ∃ tid, s = .owner tid) ∧
      (∀ a : Addr, a.length = db.depth → (a ∉ qs.map Prod.fst ∧ db'.stored inputs (.account a) = db.stored inputs (.account a)) ∨
        ∃ account, (a, account) ∈ qs ∧ db'.stored inputs (.account a) = some (inputs.binAccount.write account)) ∧
      ∀ tid, (tid ∉ qs.map (fun q => inputs.deriveTokenId (inputs.identifier q.2)) ∧ db'.tokenOwner inputs tid = db.tokenOwner inputs tid) ∨
        ∃ q ∈ qs, inputs.deriveTokenId (inputs.identifier q.2) = tid ∧ db'.tokenOwner inputs tid = some (some (inputs.identifier q.2)) := by
  have haccounts : ∀ w ∈ accountWrites inputs db.depth (indexBatch qs), w.1.Fits db.depth := fits_accountWrites (indexBatch qs) rfl
  have hframe : Frame inputs db (db.writes inputs (accountWrites inputs db.depth (indexBatch qs))) _ := Frame.writes hdepth haccounts
  have hdepth' : (db.writes inputs (accountWrites inputs db.depth (indexBatch qs))).depth < 254 := by rw [depth_writes]; exact hdepth
  have howners : ∀ w ∈ ownerWrites inputs (indexBatch qs), w.1.Fits (db.writes inputs (accountWrites inputs db.depth (indexBatch qs))).depth :=
    fits_ownerWrites (indexBatch qs)
  have hframe' : Frame inputs (db.writes inputs (accountWrites inputs db.depth (indexBatch qs)))
      ((db.writes inputs (accountWrites inputs db.depth (indexBatch qs))).writes inputs (ownerWrites inputs (indexBatch qs))) _ :=
    Frame.writes hdepth' howners
  have hslotAccount : ∀ s, s ∈ (accountWrites inputs db.depth (indexBatch qs)).map Prod.fst → ∃ q ∈ qs, s = Slot.account q.1 := by
    intro s hs
    obtain ⟨w, hw, rfl⟩ := List.mem_map.1 hs
    obtain ⟨p, hp, hslot, -⟩ := mem_accountWrites hw
    obtain ⟨q, hq, rfl⟩ := List.mem_map.1 hp
    exact ⟨q, hq, by rw [hslot, ← hlen q hq, ofIndex_index]⟩
  have hslotOwner : ∀ s, s ∈ (ownerWrites inputs (indexBatch qs)).map Prod.fst →
      ∃ q ∈ qs, s = Slot.owner (inputs.deriveTokenId (inputs.identifier q.2)) := by
    intro s hs
    obtain ⟨w, hw, rfl⟩ := List.mem_map.1 hs
    obtain ⟨p, hp, hslot, -⟩ := mem_ownerWrites hw
    obtain ⟨q, hq, rfl⟩ := List.mem_map.1 hp
    exact ⟨q, hq, hslot⟩
  refine ⟨_, ?_, (hframe.trans hframe').mono ?_, fun a ha => ?_, fun tid => ?_⟩
  · rw [← batchLocations_indexBatch hlen]
    exact setRawAccountBatch_eq inputs rfl
  · rintro s (hs | hs)
    · obtain ⟨q, -, rfl⟩ := hslotAccount s hs
      exact .inl ⟨_, rfl⟩
    · obtain ⟨q, -, rfl⟩ := hslotOwner s hs
      exact .inr ⟨_, rfl⟩
  · have hfits : (Slot.account a : Slot Key TokenId).Fits db.depth := ha
    have hnot : (Slot.account a : Slot Key TokenId) ∉ (ownerWrites inputs (indexBatch qs)).map Prod.fst := by
      intro hmem
      obtain ⟨q, -, hslot⟩ := hslotOwner _ hmem
      exact absurd hslot (by simp)
    rw [hframe'.stored _ (by rw [depth_writes]; exact hfits) hnot]
    obtain ⟨hout, heq⟩ | ⟨bin, hmem, heq⟩ := stored_writes inputs hdepth haccounts hfits
    · refine .inl ⟨fun hmem => hout ?_, heq⟩
      obtain ⟨q, hq, rfl⟩ := List.mem_map.1 hmem
      refine List.mem_map.2 ⟨(.account (ofIndex db.depth (index q.1)), inputs.binAccount.write q.2), ?_, by rw [← ha, ofIndex_index]⟩
      exact List.mem_map.2 ⟨(index q.1, q.2), List.mem_map_of_mem (f := fun q : Addr × Account => (index q.1, q.2)) hq, rfl⟩
    · obtain ⟨p, hp, hslot, hbin⟩ := mem_accountWrites hmem
      obtain ⟨q, hq, rfl⟩ := List.mem_map.1 hp
      dsimp only at hslot hbin
      rw [← hlen q hq, ofIndex_index] at hslot
      exact .inr ⟨q.2, by rw [Slot.account.inj hslot]; exact hq, by rw [heq, hbin]⟩
  · obtain ⟨hout, heq⟩ | ⟨bin, hmem, heq⟩ := stored_writes inputs (s := .owner tid) hdepth' howners trivial
    · refine .inl ⟨fun hmem => hout ?_, ?_⟩
      · obtain ⟨q, hq, rfl⟩ := List.mem_map.1 hmem
        refine List.mem_map.2 ⟨(.owner (inputs.deriveTokenId (inputs.identifier q.2)), inputs.binAccountId.write (inputs.identifier q.2)), ?_, rfl⟩
        exact List.mem_map.2 ⟨(index q.1, q.2), List.mem_map_of_mem (f := fun q : Addr × Account => (index q.1, q.2)) hq, rfl⟩
      · have hnot : (Slot.owner tid : Slot Key TokenId) ∉ (accountWrites inputs db.depth (indexBatch qs)).map Prod.fst := by
          intro hmem
          obtain ⟨q, -, hslot⟩ := hslotAccount _ hmem
          exact absurd hslot (by simp)
        exact getBin_congr (s := .owner tid) (hframe'.depth.trans hframe.depth) trivial (heq.trans (hframe.stored _ trivial hnot))
    · obtain ⟨p, hp, hslot, hbin⟩ := mem_ownerWrites hmem
      obtain ⟨q, hq, rfl⟩ := List.mem_map.1 hp
      dsimp only at hslot hbin
      refine .inr ⟨q, hq, (Slot.owner.inj hslot).symm, tokenOwner_of_stored ?_⟩
      rw [heq, hbin]

variable [Ord Key] [TransOrd Key] [DecidableEq TokenId]

theorem setRawAddresses_of_lastFilled {last : Option Location} {l : Location} {p : Location × Account} {ps : List (Location × Account)}
    (hlast : db.lastFilled = some last) (hl : Util.newLastLocation inputs db.depth last p.1 (ps.map Prod.fst) = some l) :
    setRawAddresses inputs db (p :: ps) = setLocationBatch inputs l db ((p :: ps).map fun q => (inputs.identifier q.2, q.1)) := by
  simp only [Util.newLastLocation, Option.bind_eq_bind, Option.bind_eq_some_iff, Option.map_eq_some_iff] at hl
  obtain ⟨current, hcurrent, foreign, hforeign, a, ha, rfl⟩ := hl
  rw [setRawAddresses]
  simp only [hlast, hcurrent, hforeign, ha, Option.bind_eq_bind, Option.bind_some]

variable [LawfulEqOrd Key]

/-- **What `set_raw_addresses` writes**: where the accounts are, and the furthest location. -/
theorem setRawAddresses_written (hr : db.Readable inputs) (hdepth : db.depth ≤ 61) (hlen : ∀ q ∈ qs, q.1.length = db.depth) :
    ∃ db' last last', setRawAddresses inputs db (accountsAt qs) = some db' ∧ db.lastFilled = some last ∧ db'.lastFilled = some last' ∧
      Frame inputs db db' (touchedByIds inputs (indexBatch qs)) ∧ (∀ l, last' = some l → l.IsLeaf db.depth) ∧
      (∀ n, filled last' ≤ n ↔ filled last ≤ n ∧ ∀ q ∈ qs, index q.1 < n) ∧ (∀ pk, (db'.tokens inputs pk).isSome) ∧
      ∀ aid, (aid ∉ qs.map (fun q => inputs.identifier q.2) ∧ locationOfAccount inputs db' aid = locationOfAccount inputs db aid) ∨
        ∃ q ∈ qs, inputs.identifier q.2 = aid ∧ locationOfAccount inputs db' aid = some (some (.account q.1)) := by
  obtain ⟨last, hlast, hleaf⟩ := hr.last
  cases qs with
  | nil => exact ⟨db, last, last, rfl, hlast, hlast, .refl db _, hleaf, by simp, hr.tokens, by simp⟩
  | cons q qs =>
    obtain ⟨l, hl, ⟨c, rfl, hc⟩, hfilled⟩ := newLastLocation_eq inputs hdepth hleaf (isLeaf_accountsAt hlen)
    have hlocation : Location.account c = locationAt db.depth (index c) := by rw [locationAt, ← hc, ofIndex_index]
    have hlocations := batchLocations_indexBatch hlen
    have hids : keyLocations inputs db.depth (indexBatch (q :: qs)) = (accountsAt (q :: qs)).map fun p => (inputs.identifier p.2, p.1) := by
      rw [← hlocations, keyLocations, batchLocations, List.map_map]
      rfl
    have hdb : setRawAddresses inputs db (accountsAt (q :: qs)) =
        some (db.writes inputs (idWrites inputs db db.depth (index c) (indexBatch (q :: qs)))) := by
      rw [← setLocationBatch_eq rfl hr.tokens, hids, ← hlocation]
      exact setRawAddresses_of_lastFilled hlast hl
    refine ⟨_, last, some (.account c), hdb, hlast, ?_, Frame.idWrites hr.depth_lt, fun l' heq => Option.some.inj heq ▸ ⟨c, rfl, hc⟩, ?_, ?_, ?_⟩
    · have hstored : (db.writes inputs (idWrites inputs db db.depth (index c) (indexBatch (q :: qs)))).stored inputs .last =
          some ((locationAt db.depth (index c)).key db.depth) := stored_idWrites_last hr.depth_lt
      rw [← hlocation] at hstored
      exact lastFilled_of_stored (hc.trans depth_writes.symm) (by rwa [depth_writes])
    · intro n
      have hiff : (∀ l ∈ (accountsAt (q :: qs)).map Prod.fst, filled (some l) ≤ n) ↔ ∀ q' ∈ q :: qs, index q'.1 < n := filled_accountsAt
      rw [hfilled n]
      exact and_congr_right fun _ => hiff
    · intro pk
      obtain ⟨-, heq⟩ | ⟨bin, hmem, heq⟩ := stored_writes inputs (s := .tokens pk) hr.depth_lt (fits_idWrites (index c) (indexBatch (q :: qs))) trivial
      · rw [tokens_congr depth_writes heq]
        exact hr.tokens pk
      · obtain ⟨hslot, -⟩ | ⟨pk', tids, hslot, -, hbin⟩ | ⟨p, -, hslot, -⟩ := mem_idWrites hmem
        · exact absurd hslot (by simp)
        · rw [hbin] at heq
          rw [tokens_of_stored heq]
          rfl
        · exact absurd hslot (by simp)
    · intro aid
      obtain ⟨hnot, heq⟩ | ⟨bin, hmem, heq⟩ := stored_writes inputs (s := .location aid) hr.depth_lt (fits_idWrites (index c) (indexBatch (q :: qs))) trivial
      · refine .inl ⟨fun hmem => hnot ?_, locationOfAccount_congr depth_writes heq⟩
        obtain ⟨q', hq', rfl⟩ := List.mem_map.1 hmem
        refine List.mem_map.2 ⟨(.location (inputs.identifier q'.2), (locationAt db.depth (index q'.1)).key db.depth), ?_, rfl⟩
        refine List.mem_cons_of_mem _ (List.mem_append_right _ ?_)
        exact List.mem_map.2 ⟨(index q'.1, q'.2), List.mem_map_of_mem (f := fun q : Addr × Account => (index q.1, q.2)) hq', rfl⟩
      · obtain ⟨hslot, -⟩ | ⟨pk', tids, hslot, -, -⟩ | ⟨p, hp, hslot, hbin⟩ := mem_idWrites hmem
        · exact absurd hslot (by simp)
        · exact absurd hslot (by simp)
        · obtain ⟨q', hq', rfl⟩ := List.mem_map.1 hp
          refine .inr ⟨q', hq', (Slot.location.inj hslot).symm, ?_⟩
          have hq'Len := hlen q' hq'
          have hat : locationAt db.depth (index q'.1) = .account q'.1 := by rw [locationAt, ← hq'Len, ofIndex_index]
          rw [hbin] at heq
          dsimp only at heq
          rw [hat] at heq
          exact locationOfAccount_of_stored (hq'Len.trans depth_writes.symm) (by rwa [depth_writes])

/-- **`set_batch`** writes the accounts, their locations, the owners of their tokens and the last location. -/
theorem setBatch_written (hr : db.Readable inputs) (hread : ∀ a : Addr, a.length ≤ db.depth → getHash inputs db a = some (old a))
    (hdepth : db.depth ≤ 61) (hlen : ∀ q ∈ qs, q.1.length = db.depth) (hnodup : (qs.map Prod.fst).Nodup)
    (hleaf : ∀ q ∈ qs, leaf q.1 = inputs.hashAccount q.2) :
    ∃ db' last last', setBatch inputs db (accountsAt qs) = some db' ∧ Written inputs old leaf qs db db' ∧ db'.Readable inputs ∧
      db.lastFilled = some last ∧ db'.lastFilled = some last' ∧ (∀ n, filled last' ≤ n ↔ filled last ≤ n ∧ ∀ q ∈ qs, index q.1 < n) ∧
      (∀ aid, (aid ∉ qs.map (fun q => inputs.identifier q.2) ∧ locationOfAccount inputs db' aid = locationOfAccount inputs db aid) ∨
        ∃ q ∈ qs, inputs.identifier q.2 = aid ∧ locationOfAccount inputs db' aid = some (some (.account q.1))) ∧
      ∀ tid, (tid ∉ qs.map (fun q => inputs.deriveTokenId (inputs.identifier q.2)) ∧ db'.tokenOwner inputs tid = db.tokenOwner inputs tid) ∨
        ∃ q ∈ qs, inputs.deriveTokenId (inputs.identifier q.2) = tid ∧ db'.tokenOwner inputs tid = some (some (inputs.identifier q.2)) := by
  obtain ⟨db₁, last, last', hset₁, hlast, hlast', hframe₁, hleaf₁, hfilled, htokens, hlocations⟩ := setRawAddresses_written hr hdepth hlen
  have hd₁ := hframe₁.depth
  obtain ⟨db₂, hset₂, hframe₂, haccounts, howners⟩ := setRawAccountBatch_written inputs (hd₁ ▸ hr.depth_lt)
    (fun q hq => (hlen q hq).trans hd₁.symm)
  have hd₂ := hframe₂.depth.trans hd₁
  have hread₂ : ∀ a : Addr, a.length ≤ db₂.depth → getHash inputs db₂ a = some (old a) := by
    intro a ha
    rw [hd₂] at ha
    rw [getHash_congr hframe₂.depth (hd₁ ▸ ha) (hframe₂.stored _ (hd₁ ▸ ha) (by simp)),
      getHash_congr hd₁ ha (hframe₁.stored _ ha (by simp [touchedByIds])), hread a ha]
  have hleaves : ∀ a ∈ qs.map Prod.fst, a.length = db₂.depth := by
    intro a ha
    obtain ⟨q, hq, rfl⟩ := List.mem_map.1 ha
    exact (hlen q hq).trans hd₂.symm
  obtain ⟨db₃, hset₃, hhashes, hframe₃⟩ := setHashBatch_rehash leaf (hd₂ ▸ hr.depth_lt) hread₂ hleaves hnodup
  have hd₃ := hframe₃.depth.trans hd₂
  -- what each of the three steps leaves to the next
  have hframe₁₂ := hframe₁.trans hframe₂
  have hframe₂₃ := hframe₂.trans hframe₃
  have hframe := hframe₁₂.trans hframe₃
  have htouched : ∀ {pk : Key}, ¬((fun s : Slot Key TokenId => (∃ a, s = .account a) ∨ ∃ tid, s = .owner tid) (.tokens pk) ∨
      ∃ a, (Slot.tokens pk : Slot Key TokenId) = .hash a) := by simp
  refine ⟨db₃, last, last', ?_, ⟨hd₃, fun a ha => ?_, fun a ha => ?_⟩, ⟨hd₃ ▸ hr.depth_lt, fun a ha => ?_, fun pk => ?_, ?_⟩, hlast, ?_, hfilled,
    fun aid => ?_, fun tid => ?_⟩
  · rw [setBatch, hset₁]
    simp only [Option.bind_eq_bind, Option.bind_some, hset₂, mapM_accountHash hleaf]
    exact hset₃
  · have haccount := haccounts a (ha.trans hd₁.symm)
    rw [hframe₁.stored (.account a) ha (by simp [touchedByIds])] at haccount
    rw [hframe₃.stored (.account a) (ha.trans hd₂.symm) (by simp)]
    exact haccount
  · rw [hhashes a (ha.trans_eq hd₂.symm), hd₂]
  · rw [hhashes a (ha.trans_eq hframe₃.depth)]
    rfl
  · rw [hframe₂₃.tokens_eq htouched]
    exact htokens pk
  · refine ⟨last', ?_, fun l hl => by rw [hd₃]; exact hleaf₁ l hl⟩
    rw [lastFilled_congr inputs hframe₂₃.depth (hframe₂₃.stored .last trivial (by simp)), hlast']
  · rw [lastFilled_congr inputs hframe₂₃.depth (hframe₂₃.stored .last trivial (by simp)), hlast']
  · rw [locationOfAccount_congr hframe₂₃.depth (hframe₂₃.stored (.location aid) trivial (by simp))]
    exact hlocations aid
  · rw [hframe₃.tokenOwner_eq (by simp)]
    rcases howners tid with ⟨hnot, heq⟩ | hmem
    · exact .inl ⟨hnot, heq.trans (hframe₁.tokenOwner_eq (by simp [touchedByIds]))⟩
    · exact .inr hmem

end SetBatch

end Database

end MinaProtocol.MerkleLedger
