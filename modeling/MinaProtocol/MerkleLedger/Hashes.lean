import MinaProtocol.MerkleLedger.Util

/-!
# MerkleLedger.Hashes

`set_hash_batch` makes the hashes above the leaves anew, and keeps hashes right that are right.
-/

namespace MinaProtocol.MerkleLedger

open AddressTree Std

variable {Key TokenId Account Hash : Type}

namespace Database

/-- The hash at every address, stored or not, is that of its subtree. -/
def HashesOf (inputs : Inputs Key TokenId Account Hash) (db : Database) (leaf : Addr → Hash) : Prop :=
  ∀ a : Addr, a.length ≤ db.depth → getHash inputs db a = some (hashAt inputs.merge leaf (db.depth - a.length) a)

variable {inputs : Inputs Key TokenId Account Hash} {leaf leaf' : Addr → Hash}

section Reading

variable {db db' : Database} {a : Addr} {h : Hash}

theorem getHash_of_stored_none (ha : a.length ≤ db.depth) (hs : db.stored inputs (.hash a) = none) :
    getHash inputs db a = some (emptyAt inputs.merge inputs.emptyAccount (db.depth - a.length)) := by
  have hbin : getBin inputs.binHash db (.hash a) = some none :=
    getBin_slot (s := .hash a) (o := none) ha hs
  rw [getHash, hbin]
  rfl

theorem getHash_of_stored (ha : a.length ≤ db.depth) (hs : db.stored inputs (.hash a) = some (inputs.binHash.write h)) :
    getHash inputs db a = some h := by
  have hbin : getBin inputs.binHash db (.hash a) = some (some h) :=
    getBin_slot (s := .hash a) (o := some h) ha hs
  rw [getHash, hbin]
  rfl

theorem getHash_congr (hdepth : db'.depth = db.depth) (ha : a.length ≤ db.depth)
    (hs : db'.stored inputs (.hash a) = db.stored inputs (.hash a)) : getHash inputs db' a = getHash inputs db a := by
  have hbin : getBin inputs.binHash db' (.hash a) = getBin inputs.binHash db (.hash a) :=
    getBin_congr (s := .hash a) hdepth ha hs
  rw [getHash, getHash, hbin, hdepth]

theorem HashesOf.frame {touched : Slot Key TokenId → Prop} (hh : HashesOf inputs db leaf) (hf : Frame inputs db db' touched)
    (hnot : ∀ a, ¬touched (.hash a)) : HashesOf inputs db' leaf := by
  intro a ha
  rw [hf.depth] at ha ⊢
  rw [getHash_congr hf.depth ha (hf.stored _ ha (hnot a)), hh a ha]

end Reading

/-! ### Writing hashes -/

section Writing

variable {t : Database} {old : Addr → Hash} {leaves : List Addr} {value : Addr → Hash} {nodes : List Addr}

/-- The writes of hashes. -/
def hashWrites (inputs : Inputs Key TokenId Account Hash) (nodes : List Addr) (value : Addr → Hash) :
    List (Slot Key TokenId × Bytes) :=
  nodes.map fun a => (.hash a, inputs.binHash.write (value a))

theorem keys_hashWrites :
    (hashWrites inputs nodes value).map Prod.fst = nodes.map (Slot.hash : Addr → Slot Key TokenId) := by
  simp [hashWrites]

theorem fits_hashWrites (hfits : ∀ a ∈ nodes, a.length ≤ t.depth) :
    ∀ p ∈ hashWrites inputs nodes value, p.1.Fits t.depth := by
  intro p hp
  obtain ⟨a, ha, rfl⟩ := List.mem_map.1 hp
  exact hfits a ha

theorem setBinBatch_hashes (hfits : ∀ a ∈ nodes, a.length ≤ t.depth) :
    setBinBatch inputs.binHash t (nodes.map fun a => (.hash a, value a)) =
      some (t.writes inputs (hashWrites inputs nodes value)) := by
  have hslots : ∀ p ∈ nodes.map fun a => ((Slot.hash a : Slot Key TokenId), value a), p.1.Fits t.depth := by
    intro p hp
    obtain ⟨a, ha, rfl⟩ := List.mem_map.1 hp
    exact hfits a ha
  have hbatch := setBinBatch_slots inputs inputs.binHash hslots
  rw [List.map_map, List.map_map] at hbatch
  exact hbatch

/-- **`set_hash_batch`** makes the hashes above the leaves anew, and writes nothing else. -/
theorem setHashBatch_rehash (leaf : Addr → Hash) (hdepth : t.depth < 254) (hread : ∀ a : Addr, a.length ≤ t.depth → getHash inputs t a = some (old a))
    (hlen : ∀ a ∈ leaves, a.length = t.depth) (hnodup : leaves.Nodup) :
    ∃ t', setHashBatch inputs t (leaves.map fun a => (a, leaf a)) = some t' ∧
      (∀ a : Addr, a.length ≤ t.depth →
        getHash inputs t' a = some (rehash inputs.merge old leaf leaves (t.depth - a.length) a)) ∧
      Frame inputs t t' fun s => ∃ a, s = .hash a := by
  obtain ⟨nodes, hcompute, hmem⟩ := Util.computeAffected_eq inputs leaf hread hlen hnodup
  have hfits : ∀ a ∈ nodes, a.length ≤ t.depth := by
    intro a ha
    obtain ⟨p, hp, hsuffix⟩ := (hmem a).1 ha
    exact hsuffix.length_le.trans_eq (hlen p hp)
  have hwritten : ∀ p ∈ hashWrites inputs nodes fun a => rehash inputs.merge old leaf leaves (t.depth - a.length) a,
      p.1.Fits t.depth := fits_hashWrites hfits
  refine ⟨t.writes inputs (hashWrites inputs nodes fun a => rehash inputs.merge old leaf leaves (t.depth - a.length) a), ?_, ?_,
    (Frame.writes hdepth hwritten).mono ?_⟩
  · rw [setHashBatch, computeAffected_eq_util, hcompute, Option.bind_eq_bind, Option.bind_some, List.map_map]
    exact setBinBatch_hashes hfits
  · intro a ha
    obtain ⟨hnot, heq⟩ | ⟨bin, hbin, heq⟩ := stored_writes inputs (s := .hash a) hdepth hwritten ha
    · have hout : ¬ Above leaves a := by
        intro habove
        rw [keys_hashWrites] at hnot
        exact hnot (List.mem_map_of_mem ((hmem a).2 habove))
      rw [getHash_congr depth_writes ha heq, hread a ha, rehash_of_not hout]
    · obtain ⟨a', -, hpair⟩ := List.mem_map.1 hbin
      obtain ⟨hslot, hvalue⟩ := Prod.mk.inj hpair
      obtain rfl := Slot.hash.inj hslot
      rw [← hvalue] at heq
      exact getHash_of_stored (by simpa using ha) heq
  · intro s hs
    rw [keys_hashWrites] at hs
    obtain ⟨a, -, ha⟩ := List.mem_map.1 hs
    exact ⟨a, ha.symm⟩

/-- **`set_hash_batch` keeps the hashes right**, given all the leaves that change, and writes nothing else. -/
theorem setHashBatch_eq (hdepth : t.depth < 254) (hh : HashesOf inputs t leaf)
    (hlen : ∀ a ∈ leaves, a.length = t.depth) (hnodup : leaves.Nodup)
    (hleaf : ∀ a : Addr, a.length = t.depth → a ∉ leaves → leaf' a = leaf a) :
    ∃ t', setHashBatch inputs t (leaves.map fun a => (a, leaf' a)) = some t' ∧ HashesOf inputs t' leaf' ∧
      Frame inputs t t' fun s => ∃ a, s = .hash a := by
  obtain ⟨t', hset, hhashes, hframe⟩ := setHashBatch_rehash leaf' hdepth hh hlen hnodup
  refine ⟨t', hset, fun a ha => ?_, hframe⟩
  rw [hframe.depth] at ha ⊢
  have hsum : a.length + (t.depth - a.length) = t.depth := by omega
  rw [hhashes a ha, rehash_hashAt hsum hleaf]

end Writing

end Database

end MinaProtocol.MerkleLedger
