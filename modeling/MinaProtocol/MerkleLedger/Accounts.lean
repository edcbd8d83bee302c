import MinaProtocol.MerkleLedger.Entries

/-!
# MerkleLedger.Accounts

`get_or_create_account` puts a new account at the end of the list, and `set` changes one of the list. Each of
the steps in them writes its own places.
-/

namespace MinaProtocol.MerkleLedger

open AddressTree Std

variable {Key TokenId Account Hash : Type}

variable {db : Database} {depth : Nat}

namespace Database

variable {inputs : Inputs Key TokenId Account Hash} {touched : Slot Key TokenId → Prop} {tids : Finset TokenId}
  {aid : AccountId Key TokenId} {n : Nat} {db' : Database} {tid : TokenId} {pk : Key}

/-! ### Steps -/

/-- **`set`** writes an account and the hashes. -/
theorem set_eq {leaf leaf' : Addr → Hash} {path : Addr} {account : Account} (hdepth : db.depth < 254)
    (hpath : path.length = db.depth) (hh : HashesOf inputs db leaf) (hnew : leaf' path = inputs.hashAccount account)
    (hleaf : ∀ a : Addr, a.length = db.depth → a ≠ path → leaf' a = leaf a) :
    ∃ db', set inputs db (.account path) account = some db' ∧
      Frame inputs db db' (fun s => s = .account path ∨ ∃ a, s = .hash a) ∧
      db'.stored inputs (.account path) = some (inputs.binAccount.write account) ∧ HashesOf inputs db' leaf' := by
  have hfits : (Slot.account path : Slot Key TokenId).Fits db.depth := hpath
  have hwrite : setBin inputs.binAccount db (.account path) account =
      some (db.write inputs (.account path) (inputs.binAccount.write account)) := setBin_slot hfits
  have hframe : Frame inputs db (db.write inputs (.account path) (inputs.binAccount.write account)) (· = .account path) :=
    Frame.write hdepth hfits
  have hh' := hh.frame hframe fun a => by simp
  have hlen : ∀ a ∈ [path], a.length = db.depth := by simpa using hpath
  obtain ⟨db', hbatch, hhashes, hframe'⟩ := setHashBatch_eq (by exact hdepth) hh' hlen (List.nodup_singleton _)
    (fun a ha hnot => hleaf a ha (by simpa using hnot))
  rw [List.map_singleton, hnew] at hbatch
  refine ⟨db', ?_, hframe.trans hframe', ?_, hhashes⟩
  · rw [set, hwrite]
    exact hbatch
  · rw [hframe'.stored _ hfits (by simp)]
    exact stored_write_self

theorem Frame.tokens_eq (hf : Frame inputs db db' touched)
    (hnot : ¬touched (.tokens pk)) : db'.tokens inputs pk = db.tokens inputs pk := by
  have hbin : getBin inputs.binTokenSet db' (tokensLocation inputs pk) = getBin inputs.binTokenSet db (tokensLocation inputs pk) :=
    getBin_congr (s := .tokens pk) hf.depth trivial (hf.stored _ trivial hnot)
  rw [tokens, tokens, hbin]

theorem Frame.tokenOwner_eq (hf : Frame inputs db db' touched)
    (hnot : ¬touched (.owner tid)) : db'.tokenOwner inputs tid = db.tokenOwner inputs tid :=
  getBin_congr (s := .owner tid) hf.depth trivial (hf.stored _ trivial hnot)

theorem tokens_of_stored
    (h : db.stored inputs (.tokens pk) = some (inputs.binTokenSet.write tids)) : db.tokens inputs pk = some tids := by
  have hbin : getBin inputs.binTokenSet db (tokensLocation inputs pk) = some (some tids) :=
    getBin_slot (s := .tokens pk) (o := some tids) trivial h
  rw [tokens, hbin]
  rfl

theorem tokenOwner_of_stored
    (h : db.stored inputs (.owner tid) = some (inputs.binAccountId.write aid)) : db.tokenOwner inputs tid = some (some aid) :=
  getBin_slot (s := .owner tid) (o := some aid) trivial h

theorem addToken_eq [DecidableEq TokenId] (hdepth : db.depth < 254) (tid : TokenId)
    (htids : tokens inputs db pk = some tids) :
    ∃ db', addToken inputs db pk tid = some db' ∧ Frame inputs db db' (fun s => s = .tokens pk) ∧
      db'.stored inputs (.tokens pk) = some (inputs.binTokenSet.write (insert tid tids)) := by
  refine ⟨db.write inputs (.tokens pk) (inputs.binTokenSet.write (insert tid tids)), ?_, Frame.write hdepth trivial,
    stored_write_self⟩
  rw [addToken, htids]
  exact setBin_slot (s := .tokens pk) trivial

theorem setOwner_eq (hdepth : db.depth < 254) (tid : TokenId) (aid : AccountId Key TokenId) :
    ∃ db', setOwner inputs db tid aid = some db' ∧ Frame inputs db db' (fun s => s = .owner tid) ∧
      db'.stored inputs (.owner tid) = some (inputs.binAccountId.write aid) :=
  ⟨db.write inputs (.owner tid) (inputs.binAccountId.write aid), setBin_slot (s := .owner tid) trivial,
    Frame.write hdepth trivial, stored_write_self⟩

/-- **`Tokens.add_account`** writes the tokens of the key, and the owner of the token. -/
theorem addAccount_eq [DecidableEq TokenId] (hdepth : db.depth < 254)
    (htids : tokens inputs db aid.publicKey = some tids) : ∃ db', addAccount inputs db aid = some db' ∧
      Frame inputs db db' (fun s => s = .tokens aid.publicKey ∨ s = .owner (inputs.deriveTokenId aid)) ∧
      db'.stored inputs (.tokens aid.publicKey) = some (inputs.binTokenSet.write (insert aid.tokenId tids)) ∧
      db'.stored inputs (.owner (inputs.deriveTokenId aid)) = some (inputs.binAccountId.write aid) := by
  obtain ⟨db1, hadd, hframe, hstored⟩ := addToken_eq hdepth aid.tokenId htids
  obtain ⟨db2, hset, hframe', hstored'⟩ := setOwner_eq (by rw [hframe.depth]; exact hdepth) (inputs.deriveTokenId aid) aid
  refine ⟨db2, ?_, hframe.trans hframe', ?_, hstored'⟩
  · rw [addAccount, hadd]
    exact hset
  · rw [hframe'.stored (.tokens aid.publicKey) trivial (by simp), hstored]

/-! ### Allocating -/

/-- `increment_last_account_location`, when there are this many accounts. -/
theorem incrementLastAccountLocation_eq (hd : db.depth = depth) (hdepth : depth < 254) (hn : n < 2 ^ depth)
    (hlast : db.stored inputs .last = if n = 0 then none else some ((locationAt depth (n - 1)).key depth)) :
    ∃ db', incrementLastAccountLocation db = some (db', .ok (locationAt depth n)) ∧
      Frame inputs db db' (fun s => s = .last) ∧ db'.stored inputs .last = some ((locationAt depth n).key depth) := by
  have hraw : db.getRaw lastLocationKey = some (db.stored inputs .last) := getRaw_slot (s := .last) trivial
  have hnext : db.nextLocation (db.stored inputs .last) = some (.ok (locationAt depth n)) := by
    rw [hlast]
    cases n with
    | zero =>
      rw [if_pos rfl, nextLocation, hd, locationAt, ofIndex_zero]
    | succ n =>
      rw [if_neg (Nat.succ_ne_zero n), Nat.add_sub_cancel, nextLocation, hd, parse_locationAt]
      simp only [Option.bind_eq_bind, Option.bind_some, locationAt, Location.next, next_ofIndex (show n < 2 ^ depth by omega), if_pos hn]
      rfl
  have hserialize : (locationAt depth n).serialize db.depth = some ((locationAt depth n).key depth) := by
    rw [hd, serialize_locationAt]
  have hset : db.setRaw lastLocationKey ((locationAt depth n).key depth) =
      some (db.write inputs .last ((locationAt depth n).key depth)) := setRaw_slot (s := .last) trivial
  refine ⟨db.write inputs .last ((locationAt depth n).key depth), ?_, Frame.write (hd ▸ hdepth) trivial, stored_write_self⟩
  rw [incrementLastAccountLocation, hraw]
  simp only [Option.bind_eq_bind, Option.bind_some, hnext, hserialize, hset]

theorem incrementLastAccountLocation_full (hd : db.depth = depth) (hn : n = 2 ^ depth)
    (hlast : db.stored inputs .last = if n = 0 then none else some ((locationAt depth (n - 1)).key depth)) :
    incrementLastAccountLocation db = some (db, .error .outOfLeaves) := by
  have hraw : db.getRaw lastLocationKey = some (db.stored inputs .last) := getRaw_slot (s := .last) trivial
  have hpos : 0 < 2 ^ depth := Nat.two_pow_pos depth
  have hnext : db.nextLocation (db.stored inputs .last) = some (.error .outOfLeaves) := by
    rw [hlast, if_neg (by omega), nextLocation, hd, parse_locationAt]
    simp only [Option.bind_eq_bind, Option.bind_some, locationAt, Location.next, next_ofIndex (show n - 1 < 2 ^ depth by omega)]
    rw [if_neg (by omega)]
    rfl
  rw [incrementLastAccountLocation, hraw]
  simp only [Option.bind_eq_bind, Option.bind_some, hnext]

/-- **`allocate`**, when there is a leaf left. -/
theorem allocate_eq (aid : AccountId Key TokenId) (hd : db.depth = depth) (hdepth : depth < 254) (hn : n < 2 ^ depth)
    (hlast : db.stored inputs .last = if n = 0 then none else some ((locationAt depth (n - 1)).key depth)) :
    ∃ db', allocate inputs db aid = some (db', .ok (locationAt depth n)) ∧
      Frame inputs db db' (fun s => s = .last ∨ s = .location aid) ∧
      db'.stored inputs .last = some ((locationAt depth n).key depth) ∧
      db'.stored inputs (.location aid) = some ((locationAt depth n).key depth) := by
  obtain ⟨db1, hincrement, hframe, hstored⟩ := incrementLastAccountLocation_eq hd hdepth hn hlast
  have hd1 : db1.depth = depth := hframe.depth.trans hd
  have hserialize : (locationAt depth n).serialize db1.depth = some ((locationAt depth n).key depth) := by
    rw [hd1, serialize_locationAt]
  have hframe' : Frame inputs db1 (db1.write inputs (.location aid) ((locationAt depth n).key depth)) (fun s => s = .location aid) :=
    Frame.write (hd1 ▸ hdepth) trivial
  refine ⟨db1.write inputs (.location aid) ((locationAt depth n).key depth), ?_, hframe.trans hframe', ?_, stored_write_self⟩
  · rw [allocate, hincrement]
    have hset : db1.setRaw (accountIdLocation inputs aid) ((locationAt depth n).key depth) =
        some (db1.write inputs (.location aid) ((locationAt depth n).key depth)) := setRaw_slot (s := .location aid) trivial
    simp only [Option.bind_eq_bind, Option.bind_some, setLocation, hserialize, hset]
  · rw [hframe'.stored .last trivial (by simp), hstored]

end Database

/-! ### The list -/

namespace Entries

variable {inputs : Inputs Key TokenId Account Hash} {es es' : Entries Key TokenId Account}

theorem leaf_congr {a : Addr} (h : (es'[index a]?).map Prod.snd = (es[index a]?).map Prod.snd) :
    es'.leaf inputs a = es.leaf inputs a := by
  have hleaf : ∀ o : Option (AccountId Key TokenId × Account), o.elim inputs.emptyAccount (fun e => inputs.hashAccount e.2) =
      (o.map Prod.snd).elim inputs.emptyAccount inputs.hashAccount := by
    intro o
    cases o <;> rfl
  rw [leaf, leaf, hleaf, hleaf, h]

theorem IsOwner.extend {tid : TokenId} {owner : Option (AccountId Key TokenId)} (h : es.IsOwner inputs tid owner)
    (hids : ∀ aid ∈ es.ids, aid ∈ es'.ids) (hnew : ∀ aid ∈ es'.ids, aid ∈ es.ids ∨ inputs.deriveTokenId aid ≠ tid) :
    es'.IsOwner inputs tid owner := by
  cases owner with
  | none =>
    intro aid haid
    rcases hnew aid haid with hold | hne
    · exact h aid hold
    · exact hne
  | some aid => exact ⟨hids aid h.1, h.2⟩

theorem leaf_of_get {depth i : Nat} {e : AccountId Key TokenId × Account} (hi : i < 2 ^ depth) (h : es[i]? = some e) :
    es.leaf inputs (ofIndex depth i) = inputs.hashAccount e.2 := by
  rw [leaf, index_ofIndex hi, h]
  rfl

end Entries

namespace Represents

variable {inputs : Inputs Key TokenId Account Hash} {es : Entries Key TokenId Account} {aid : AccountId Key TokenId}
  {account : Account}

/-! ### `set` -/

/-- **`set` of an account at its location** changes that account. -/
theorem set {i : Nat} {e : AccountId Key TokenId × Account} (hr : Represents inputs depth db es) (hi : es[i]? = some e)
    (account : Account) : ∃ db', Database.set inputs db (locationAt depth i) account = some db' ∧
      Represents inputs depth db' (List.set es i (e.1, account)) := by
  have hlt := (List.getElem?_eq_some_iff.1 hi).1
  have hi' := hr.lt_of_get hi
  have hd := hr.depth_eq
  have hget : (List.set es i (e.1, account))[i]? = some (e.1, account) := by simp [hlt]
  have hget' : ∀ j, j ≠ i → (List.set es i (e.1, account))[j]? = es[j]? := fun j hj => by simp [Ne.symm hj]
  have hids : Entries.ids (List.set es i (e.1, account)) = es.ids := by
    refine List.ext_getElem? fun j => ?_
    rw [Entries.ids, Entries.ids, List.getElem?_map, List.getElem?_map]
    by_cases hj : j = i
    · rw [hj, hget, hi]
      rfl
    · rw [hget' j hj]
  have hleaf : ∀ a : Addr, a.length = db.depth → a ≠ ofIndex depth i →
      Entries.leaf inputs (List.set es i (e.1, account)) a = es.leaf inputs a := by
    intro a ha hne
    refine Entries.leaf_congr ?_
    rw [hget' (index a) fun heq => hne ?_]
    rw [← heq, ← hd, ← ha, ofIndex_index]
  obtain ⟨db', hset, hframe, hstored, hhashes⟩ := Database.set_eq (hd ▸ hr.depth_lt) (by rw [length_ofIndex, hd]) hr.hashes
    (Entries.leaf_of_get hi' hget) hleaf
  refine ⟨db', hset, ?_⟩
  refine ⟨hframe.depth.trans hd, hr.depth_lt, by simpa using hr.fits, hids ▸ hr.nodup, ?_, ?_, ?_, ?_, ?_, ?_, hhashes⟩
  · intro j hj
    by_cases hji : j = i
    · rw [hji, hstored, hget]
      rfl
    · have hne : ofIndex depth j ≠ ofIndex depth i := fun heq => hji (ofIndex_inj hj hi' heq)
      rw [hframe.stored _ (by rw [hd]; exact length_ofIndex) (by simp [hne]), hr.account j hj, hget' j hji]
  · intro j e' he'
    rw [hframe.stored (.location e'.1) trivial (by simp)]
    by_cases hji : j = i
    · rw [hji, hget] at he'
      rw [← Option.some.inj he', hji]
      exact hr.found i e hi
    · exact hr.found j e' (hget' j hji ▸ he')
  · intro aid haid
    rw [hids] at haid
    rw [hframe.stored (.location aid) trivial (by simp), hr.missing aid haid]
  · rw [hframe.stored .last trivial (by simp), hr.last, List.length_set]
  · intro pk
    rw [hframe.tokens_eq (by simp), hids]
    exact hr.tokens pk
  · intro tid
    rw [hframe.tokenOwner_eq (by simp)]
    obtain ⟨owner, howner, hisOwner⟩ := hr.owner tid
    exact ⟨owner, howner, hisOwner.extend (fun x hx => hids.symm ▸ hx) fun x hx => .inl (hids ▸ hx)⟩

/-! ### `get_or_create_account` -/

section GetOrCreate

variable [DecidableEq TokenId]

variable (hr : Represents inputs depth db es)

include hr

/-- **An account that is there** is found. -/
theorem getOrCreateAccount_existed {i : Nat} {e : AccountId Key TokenId × Account}
    (hi : es[i]? = some e) (account : Account) :
    Database.getOrCreateAccount inputs db e.1 account = some (db, .ok (.existed, locationAt depth i)) := by
  rw [Database.getOrCreateAccount, hr.getLocation_found hi]
  rfl

/-- **A full ledger** takes no new account. -/
theorem getOrCreateAccount_full (hnot : aid ∉ es.ids) (hfull : es.length = 2 ^ depth)
    (account : Account) : Database.getOrCreateAccount inputs db aid account = some (db, .error .outOfLeaves) := by
  rw [Database.getOrCreateAccount, hr.getLocation_missing hnot]
  simp only [Option.bind_eq_bind, Option.bind_some]
  rw [Database.allocate, Database.incrementLastAccountLocation_full hr.depth_eq hfull hr.last]
  rfl

/-- **A new account** is put at the end. -/
theorem getOrCreateAccount_added (hnot : aid ∉ es.ids) (hroom : es.length < 2 ^ depth) (account : Account) :
    ∃ db', Database.getOrCreateAccount inputs db aid account = some (db', .ok (.added, locationAt depth es.length)) ∧
      Represents inputs depth db' (es ++ [(aid, account)]) := by
  have hd := hr.depth_eq
  have hget : (es ++ [(aid, account)])[es.length]? = some (aid, account) := by simp
  have hget' : ∀ j, j ≠ es.length → (es ++ [(aid, account)])[j]? = es[j]? := by
    intro j hj
    rcases Nat.lt_or_ge j es.length with hlt | hge
    · rw [List.getElem?_append_left hlt]
    · rw [List.getElem?_eq_none hge, List.getElem?_eq_none (by simp; omega)]
  have hids : Entries.ids (es ++ [(aid, account)]) = es.ids ++ [aid] := by simp [Entries.ids]
  have hleaf : ∀ a : Addr, a.length = db.depth → a ≠ ofIndex depth es.length →
      Entries.leaf inputs (es ++ [(aid, account)]) a = es.leaf inputs a := by
    intro a ha hne
    refine Entries.leaf_congr ?_
    rw [hget' (index a) fun heq => hne ?_]
    rw [← heq, ← hd, ← ha, ofIndex_index]
  obtain ⟨tids, htids, hmemTids⟩ := hr.tokens aid.publicKey
  -- a location, then the account and the hashes, then the tokens
  obtain ⟨db1, hallocate, hframe1, hlast1, hlocation1⟩ := Database.allocate_eq aid hd hr.depth_lt hroom hr.last
  have hd1 : db1.depth = depth := hframe1.depth.trans hd
  obtain ⟨db2, hset, hframe2, haccount2, hhashes2⟩ := Database.set_eq (hd1 ▸ hr.depth_lt) (by rw [length_ofIndex, hd1])
    (hr.hashes.frame hframe1 (by simp)) (Entries.leaf_of_get hroom hget) (by rw [hframe1.depth]; exact hleaf)
  have hd2 : db2.depth = depth := hframe2.depth.trans hd1
  have htids2 : db2.tokens inputs aid.publicKey = some tids := by
    rw [hframe2.tokens_eq (by simp), hframe1.tokens_eq (by simp), htids]
  obtain ⟨db3, hadd, hframe3, htokens3, howner3⟩ := Database.addAccount_eq (hd2 ▸ hr.depth_lt) htids2
  have hframe := (hframe1.trans hframe2).trans hframe3
  refine ⟨db3, ?_, ?_⟩
  · rw [Database.getOrCreateAccount, hr.getLocation_missing hnot]
    simp only [Option.bind_eq_bind, Option.bind_some, hallocate]
    rw [locationAt, hset, Option.bind_some, hadd]
    rfl
  · refine ⟨hframe.depth.trans hd, hr.depth_lt, by simpa using hroom, ?_, ?_, ?_, ?_, ?_, ?_, ?_,
      hhashes2.frame hframe3 (by simp)⟩
    · rw [hids]
      exact List.nodup_append.2 ⟨hr.nodup, List.nodup_singleton _, fun x hx y hy heq =>
        hnot (List.mem_singleton.1 hy ▸ heq ▸ hx)⟩
    · intro j hj
      have hfits : (Slot.account (ofIndex depth j) : Slot Key TokenId).Fits depth := length_ofIndex
      by_cases hji : j = es.length
      · rw [hji, hframe3.stored _ (hd2.symm ▸ length_ofIndex) (by simp), haccount2, hget]
        rfl
      · have hne : ofIndex depth j ≠ ofIndex depth es.length := fun heq => hji (ofIndex_inj hj hroom heq)
        rw [hframe.stored _ (hd.symm ▸ length_ofIndex) (by simp [hne]), hr.account j hj, hget' j hji]
    · intro j e' he'
      by_cases hji : j = es.length
      · rw [hji, hget] at he'
        rw [← Option.some.inj he', hji, hframe3.stored (.location aid) trivial (by simp),
          hframe2.stored (.location aid) trivial (by simp), hlocation1]
      · rw [hget' j hji] at he'
        have hne : e'.1 ≠ aid := fun heq => hnot (heq ▸ List.mem_map_of_mem (List.mem_of_getElem? he'))
        rw [hframe.stored (.location e'.1) trivial (by simp [hne]), hr.found j e' he']
    · intro aid' haid'
      rw [hids, List.mem_append, List.mem_singleton, not_or] at haid'
      rw [hframe.stored (.location aid') trivial (by simp [haid'.2]), hr.missing aid' haid'.1]
    · rw [hframe3.stored .last trivial (by simp), hframe2.stored .last trivial (by simp), hlast1]
      simp
    · intro pk
      by_cases hpk : pk = aid.publicKey
      · subst hpk
        refine ⟨_, Database.tokens_of_stored htokens3, fun tid => ?_⟩
        have heq : (⟨aid.publicKey, tid⟩ : AccountId Key TokenId) = aid ↔ tid = aid.tokenId := by
          constructor
          · intro h
            rw [← h]
          · intro h
            rw [h]
        rw [Finset.mem_insert, hmemTids, hids, List.mem_append, List.mem_singleton, heq, or_comm]
      · obtain ⟨tids', htids', hmem'⟩ := hr.tokens pk
        refine ⟨tids', ?_, fun tid => ?_⟩
        · rw [hframe.tokens_eq (by simp [hpk]), htids']
        · have hne : (⟨pk, tid⟩ : AccountId Key TokenId) ≠ aid := fun heq => hpk (by rw [← heq])
          rw [hmem', hids, List.mem_append, List.mem_singleton, or_iff_left hne]
    · intro tid
      by_cases htid : tid = inputs.deriveTokenId aid
      · subst htid
        exact ⟨some aid, Database.tokenOwner_of_stored howner3, by simp [Entries.IsOwner, hids]⟩
      · obtain ⟨owner, howner, hisOwner⟩ := hr.owner tid
        refine ⟨owner, ?_, hisOwner.extend ?_ ?_⟩
        · rw [hframe.tokenOwner_eq (by simp [htid]), howner]
        · intro x hx
          rw [hids]
          exact List.mem_append_left _ hx
        · intro x hx
          rw [hids, List.mem_append, List.mem_singleton] at hx
          refine hx.imp_right fun heq => ?_
          rw [heq]
          exact Ne.symm htid

omit hr

end GetOrCreate

end Represents

end MinaProtocol.MerkleLedger
