import MinaProtocol.MerkleLedger.Database

/-!
# MerkleLedger.Slots

The places in the store of a ledger. Their keys are different, so the store is a map on the places; each
function that reads or writes is one on places, as long as addresses are within the depth of the ledger.
-/

namespace MinaProtocol.MerkleLedger

open AddressTree Std

/-- Where each step succeeds, so do they all. -/
theorem mapM_eq_some_map {A B : Type} {f : A → Option B} {g : A → B} {l : List A} (h : ∀ x ∈ l, f x = some (g x)) :
    l.mapM f = some (l.map g) := by
  induction l with
  | nil => rfl
  | cons x l ih =>
    rw [List.mapM_cons, h x List.mem_cons_self, ih fun y hy => h y (List.mem_cons_of_mem _ hy)]
    rfl

/-- A place in the store. -/
inductive Slot (Key TokenId : Type) where
  | account (path : Addr)
  | hash (path : Addr)
  | location (accountId : AccountId Key TokenId)
  | tokens (pk : Key)
  | owner (tokenId : TokenId)
  | last
deriving DecidableEq

section Slots

variable {Key TokenId Account Hash : Type}

variable {inputs : Inputs Key TokenId Account Hash} {s s' : Slot Key TokenId}

namespace Slot

/-- The location of a place. -/
def loc (inputs : Inputs Key TokenId Account Hash) : Slot Key TokenId → Location
  | .account path => .account path
  | .hash path => .hash path
  | .location accountId => Database.accountIdLocation inputs accountId
  | .tokens pk => Database.tokensLocation inputs pk
  | .owner tokenId => Database.ownerLocation inputs tokenId
  | .last => Database.lastLocationKey

/-- Its address is within the depth. -/
def Fits (depth : Nat) : Slot Key TokenId → Prop
  | .account path => path.length = depth
  | .hash path => path.length ≤ depth
  | _ => True

variable {depth : Nat}

theorem Fits.loc (h : s.Fits depth) : (s.loc inputs).Fits depth := by
  cases s <;> exact h

/-- A word without exclamation marks ends at the first one. -/
theorem split_at_mark {w w' r r' : Bytes} (h : 33 ∉ w) (h' : 33 ∉ w') (heq : w ++ 33 :: r = w' ++ 33 :: r') :
    w = w' ∧ r = r' := by
  induction w generalizing w' with
  | nil =>
    cases w' with
    | nil => exact ⟨rfl, (List.cons.inj heq).2⟩
    | cons b w' =>
      rw [List.nil_append, List.cons_append] at heq
      exact absurd ((List.cons.inj heq).1 ▸ List.mem_cons_self) h'
  | cons b w ih =>
    cases w' with
    | nil =>
      rw [List.nil_append, List.cons_append] at heq
      exact absurd ((List.cons.inj heq).1 ▸ List.mem_cons_self) h
    | cons b' w' =>
      obtain ⟨rfl, hrest⟩ := List.cons.inj heq
      obtain ⟨rfl, rfl⟩ := ih (fun hm => h (List.mem_cons_of_mem _ hm)) (fun hm => h' (List.mem_cons_of_mem _ hm)) hrest
      exact ⟨rfl, rfl⟩

variable (aid : AccountId Key TokenId)

theorem location_ne_owner (tid : TokenId) :
    Database.accountIdLocation inputs aid ≠ Database.ownerLocation inputs tid := by
  intro h
  have hword : (33 : UInt8) ∉ ([116, 105, 100] : Bytes) := by decide
  have hsplit := split_at_mark (inputs.sexpOfKey_plain aid.publicKey) hword (List.cons.inj (Location.generic.inj h)).2
  exact inputs.sexpOfKey_ne_tid _ hsplit.1

theorem location_ne_tokens (pk : Key) : Database.accountIdLocation inputs aid ≠ Database.tokensLocation inputs pk := by
  intro h
  have hword : (33 : UInt8) ∉ ([116, 105, 100, 115] : Bytes) := by decide
  have hsplit := split_at_mark (inputs.sexpOfKey_plain aid.publicKey) hword (List.cons.inj (Location.generic.inj h)).2
  exact inputs.sexpOfKey_ne_tids _ hsplit.1

theorem owner_ne_tokens (tid : TokenId) (pk : Key) :
    Database.ownerLocation inputs tid ≠ Database.tokensLocation inputs pk := by
  intro h
  have hbytes := Location.generic.inj h
  simp at hbytes

theorem location_ne_last : Database.accountIdLocation inputs aid ≠ Database.lastLocationKey := by
  intro h
  have hbytes := Location.generic.inj h
  simp at hbytes

/-- **Places have different locations.** -/
theorem loc_inj (h : s.loc inputs = s'.loc inputs) : s = s' := by
  cases s <;> cases s'
  case location.location aid aid' =>
    have hsplit := split_at_mark (inputs.sexpOfKey_plain _) (inputs.sexpOfKey_plain _)
      (List.cons.inj (Location.generic.inj h)).2
    obtain ⟨pk, tid⟩ := aid
    obtain ⟨pk', tid'⟩ := aid'
    obtain rfl := inputs.sexpOfKey_inj _ _ hsplit.1
    obtain rfl := inputs.sexpOfTokenId_inj _ _ hsplit.2
    rfl
  case tokens.tokens pk pk' => rw [inputs.sexpOfKey_inj pk pk' (List.append_cancel_left (Location.generic.inj h))]
  case owner.owner tid tid' => rw [inputs.sexpOfTokenId_inj tid tid' (List.append_cancel_left (Location.generic.inj h))]
  case location.owner aid tid => exact absurd h (location_ne_owner aid tid)
  case owner.location tid aid => exact absurd h.symm (location_ne_owner aid tid)
  case location.tokens aid pk => exact absurd h (location_ne_tokens aid pk)
  case tokens.location pk aid => exact absurd h.symm (location_ne_tokens aid pk)
  case owner.tokens tid pk => exact absurd h (owner_ne_tokens tid pk)
  case tokens.owner pk tid => exact absurd h.symm (owner_ne_tokens tid pk)
  case location.last aid => exact absurd h (location_ne_last aid)
  case last.location aid => exact absurd h.symm (location_ne_last aid)
  case owner.last tid =>
    have hbytes := Location.generic.inj h
    simp at hbytes
  case last.owner tid =>
    have hbytes := Location.generic.inj h
    simp at hbytes
  case tokens.last pk =>
    have hbytes := Location.generic.inj h
    simp at hbytes
  case last.tokens pk =>
    have hbytes := Location.generic.inj h
    simp at hbytes
  case account.account path path' => rw [Location.account.inj h]
  case hash.hash path path' => rw [Location.hash.inj h]
  case last.last => rfl
  all_goals exact absurd h Location.noConfusion

end Slot

/-! ### The store as a map on places -/

namespace Database

/-- What is stored at a place. -/
def stored (inputs : Inputs Key TokenId Account Hash) (db : Database) (s : Slot Key TokenId) : Option Bytes :=
  db.kvdb ((s.loc inputs).key db.depth)

/-- The store with a value at a place. -/
def write (inputs : Inputs Key TokenId Account Hash) (db : Database) (s : Slot Key TokenId) (bin : Bytes) : Database :=
  db.kvSet ((s.loc inputs).key db.depth) bin

/-- The store with values at places. -/
def writes (inputs : Inputs Key TokenId Account Hash) (db : Database) (ps : List (Slot Key TokenId × Bytes)) : Database :=
  ps.foldl (fun db p => db.write inputs p.1 p.2) db

variable {db : Database} {bin : Bytes} {ps : List (Slot Key TokenId × Bytes)}
  {touched' touched : Slot Key TokenId → Prop} {db' : Database}

@[simp] theorem depth_write : (db.write inputs s bin).depth = db.depth := rfl

@[simp] theorem depth_writes : (db.writes inputs ps).depth = db.depth := by
  induction ps generalizing db with
  | nil => rfl
  | cons p ps ih => exact ih.trans depth_write

theorem stored_write_self : (db.write inputs s bin).stored inputs s = some bin := by
  simp [stored, write, kvSet]

/-- **A write changes one place.** -/
theorem stored_write_of_ne (hdepth : db.depth < 254) (hs : s.Fits db.depth) (hs' : s'.Fits db.depth) (hne : s' ≠ s) :
    (db.write inputs s bin).stored inputs s' = db.stored inputs s' := by
  have hkey : (s'.loc inputs).key db.depth ≠ (s.loc inputs).key db.depth := fun heq =>
    hne (Slot.loc_inj (Location.key_inj hdepth hs'.loc hs.loc heq))
  simp [stored, write, kvSet, Function.update_of_ne hkey]

/-- **Writes change the places that are written.** -/
theorem stored_writes (inputs : Inputs Key TokenId Account Hash) (hdepth : db.depth < 254) (hps : ∀ p ∈ ps, p.1.Fits db.depth) (hs : s.Fits db.depth) :
    (s ∉ ps.map Prod.fst ∧ (db.writes inputs ps).stored inputs s = db.stored inputs s) ∨
      ∃ bin, (s, bin) ∈ ps ∧ (db.writes inputs ps).stored inputs s = some bin := by
  classical
  induction ps using List.reverseRecOn with
  | nil => exact .inl ⟨by simp, rfl⟩
  | append_singleton ps p ih =>
    obtain ⟨t, bin⟩ := p
    have hfold : db.writes inputs (ps ++ [(t, bin)]) = (db.writes inputs ps).write inputs t bin := by
      simp [writes]
    rw [hfold]
    by_cases ht : s = t
    · subst ht
      exact .inr ⟨bin, by simp, stored_write_self⟩
    · have hfits : t.Fits db.depth := hps (t, bin) (by simp)
      rw [stored_write_of_ne (by simpa using hdepth) (by simpa using hfits) (by simpa using hs) ht]
      obtain ⟨hnot, heq⟩ | ⟨b, hmem, heq⟩ := ih fun p hp => hps p (List.mem_append_left _ hp)
      · refine .inl ⟨?_, heq⟩
        rw [List.map_append, List.mem_append]
        intro h
        rcases h with h | h
        · exact hnot h
        · exact ht (by simpa using h)
      · exact .inr ⟨b, List.mem_append_left _ hmem, heq⟩

theorem stored_writes_of_notMem (hdepth : db.depth < 254) (hps : ∀ p ∈ ps, p.1.Fits db.depth) (hs : s.Fits db.depth)
    (hnot : ∀ bin, (s, bin) ∉ ps) : (db.writes inputs ps).stored inputs s = db.stored inputs s := by
  obtain ⟨-, heq⟩ | ⟨bin, hmem, -⟩ := stored_writes inputs hdepth hps hs
  · exact heq
  · exact absurd hmem (hnot bin)

/-! ### The functions of the store -/

theorem getRaw_slot (hs : s.Fits db.depth) : db.getRaw (s.loc inputs) = some (db.stored inputs s) := by
  rw [getRaw, Location.serialize_of_fits hs.loc]
  rfl

theorem setRaw_slot (hs : s.Fits db.depth) : db.setRaw (s.loc inputs) bin = some (db.write inputs s bin) := by
  rw [setRaw, Location.serialize_of_fits hs.loc]
  rfl

theorem serializePair_slot (hs : s.Fits db.depth) :
    db.serializePair (s.loc inputs, bin) = some ((s.loc inputs).key db.depth, bin) := by
  rw [serializePair, Location.serialize_of_fits hs.loc]
  rfl

theorem kvSetBatch_slots :
    db.kvSetBatch (ps.map fun p => ((p.1.loc inputs).key db.depth, p.2)) = db.writes inputs ps := by
  induction ps generalizing db with
  | nil => rfl
  | cons p ps ih =>
    have hrest : (db.write inputs p.1 p.2).kvSetBatch (ps.map fun q => ((q.1.loc inputs).key db.depth, q.2)) =
        (db.write inputs p.1 p.2).writes inputs ps := ih
    exact hrest

theorem setRawBatch_slots (inputs : Inputs Key TokenId Account Hash) (hps : ∀ p ∈ ps, p.1.Fits db.depth) :
    db.setRawBatch (ps.map fun p => (p.1.loc inputs, p.2)) = some (db.writes inputs ps) := by
  have hpairs : (ps.map fun p => (p.1.loc inputs, p.2)).mapM db.serializePair =
      some (ps.map fun p => ((p.1.loc inputs).key db.depth, p.2)) := by
    rw [List.mapM_map]
    exact mapM_eq_some_map fun p hp => serializePair_slot (hps p hp)
  rw [setRawBatch, hpairs, Option.map_some, kvSetBatch_slots]

section Bins

variable {A : Type} {bins : Bin A} {v : A} {o : Option A}

/-- **A value that was written is read back.** -/
theorem getBin_slot (hs : s.Fits db.depth) (h : db.stored inputs s = o.map bins.write) :
    getBin bins db (s.loc inputs) = some o := by
  rw [getBin, getRaw_slot hs, Option.bind_some, h]
  cases o with
  | none => rfl
  | some v => simp [readBin, bins.read_write]

/-- What is read at a place depends on that place alone. -/
theorem getBin_congr {db' : Database} (hdepth : db'.depth = db.depth) (hs : s.Fits db.depth)
    (hstored : db'.stored inputs s = db.stored inputs s) :
    getBin bins db' (s.loc inputs) = getBin bins db (s.loc inputs) := by
  rw [getBin, getBin, getRaw_slot hs, getRaw_slot (hdepth ▸ hs), hstored]

theorem setBin_slot (hs : s.Fits db.depth) :
    setBin bins db (s.loc inputs) v = some (db.write inputs s (bins.write v)) :=
  setRaw_slot hs

theorem setBinBatch_slots (inputs : Inputs Key TokenId Account Hash) (bins : Bin A) {vs : List (Slot Key TokenId × A)} (hvs : ∀ p ∈ vs, p.1.Fits db.depth) :
    setBinBatch bins db (vs.map fun p => (p.1.loc inputs, p.2)) =
      some (db.writes inputs (vs.map fun p => (p.1, bins.write p.2))) := by
  have hfits : ∀ p ∈ vs.map fun p => (p.1, bins.write p.2), p.1.Fits db.depth := by
    intro p hp
    obtain ⟨q, hq, rfl⟩ := List.mem_map.1 hp
    exact hvs q hq
  have hbatch := setRawBatch_slots inputs hfits
  rw [List.map_map] at hbatch
  rw [setBinBatch, List.map_map]
  exact hbatch

end Bins

/-! ### Frames -/

/-- Only these places were written. -/
structure Frame (inputs : Inputs Key TokenId Account Hash) (db db' : Database) (touched : Slot Key TokenId → Prop) : Prop where
  depth : db'.depth = db.depth
  stored : ∀ s : Slot Key TokenId, s.Fits db.depth → ¬touched s → db'.stored inputs s = db.stored inputs s

theorem Frame.refl (db : Database) (touched : Slot Key TokenId → Prop) : Frame inputs db db touched := ⟨rfl, fun _ _ _ => rfl⟩

theorem Frame.write (hdepth : db.depth < 254) (hs : s.Fits db.depth) :
    Frame inputs db (db.write inputs s bin) (· = s) :=
  ⟨rfl, fun _ ht hne => stored_write_of_ne hdepth hs ht hne⟩

theorem Frame.writes (hdepth : db.depth < 254) (hps : ∀ p ∈ ps, p.1.Fits db.depth) :
    Frame inputs db (db.writes inputs ps) (· ∈ ps.map Prod.fst) :=
  ⟨depth_writes, fun _ ht hnot => stored_writes_of_notMem hdepth hps ht fun _ hmem => hnot (List.mem_map_of_mem hmem)⟩

theorem Frame.trans {db'' : Database} (h : Frame inputs db db' touched)
    (h' : Frame inputs db' db'' touched') : Frame inputs db db'' fun s => touched s ∨ touched' s := by
  refine ⟨h'.depth.trans h.depth, fun s hs hnot => ?_⟩
  rw [h'.stored s (h.depth ▸ hs) fun ht => hnot (.inr ht), h.stored s hs fun ht => hnot (.inl ht)]

theorem Frame.mono (h : Frame inputs db db' touched)
    (hsub : ∀ s, touched s → touched' s) : Frame inputs db db' touched' :=
  ⟨h.depth, fun s hs hnot => h.stored s hs fun ht => hnot (hsub s ht)⟩

end Database

end Slots

end MinaProtocol.MerkleLedger
