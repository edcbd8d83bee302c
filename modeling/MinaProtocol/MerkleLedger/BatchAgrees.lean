import MinaProtocol.MerkleLedger.DatabaseWrites
import MinaProtocol.MerkleLedger.MerkleArray

/-!
# MerkleLedger.BatchAgrees

What is done for many accounts at once is what is done one by one. Readers agree on ledgers of every kind. A batch
of writes leaves the accounts and the hashes that single writes leave, in any order; a database records where the
accounts are only in a batch, and a mask has to be over ledgers that have nothing beyond its last location.
-/

namespace MinaProtocol.MerkleLedger

open AddressTree Std

variable {Key TokenId Account Hash : Type} {inputs : Inputs Key TokenId Account Hash}
  {qs rs : List (Addr × Account)} {db : Database}

theorem exists_leaf (inputs : Inputs Key TokenId Account Hash) (qs : List (Addr × Account)) (hnodup : (qs.map Prod.fst).Nodup) :
    ∃ leaf : Addr → Hash, ∀ q ∈ qs, leaf q.1 = inputs.hashAccount q.2 := by
  induction qs with
  | nil => exact ⟨fun _ => inputs.emptyAccount, by simp⟩
  | cons q qs ih =>
    obtain ⟨hnot, hnodup⟩ := List.nodup_cons.1 hnodup
    obtain ⟨leaf, hleaf⟩ := ih hnodup
    refine ⟨Function.update leaf q.1 (inputs.hashAccount q.2), fun r hr => ?_⟩
    rcases List.mem_cons.1 hr with rfl | hr
    · exact Function.update_self ..
    · have hne : r.1 ≠ q.1 := fun h => hnot (h ▸ List.mem_map_of_mem hr)
      rw [Function.update_of_ne hne, hleaf r hr]

/-- **Wide paths** are made of the hashes of the nodes, and of the siblings that the paths have. -/
def AnyLedger.WidePaths (l : AnyLedger Key TokenId Account Hash) : Prop :=
  (∀ locations : List Location, (∀ location ∈ locations, location.Fits l.depth) →
    l.wideMerklePathBatch locations = locations.mapM fun location => location.toPath.bind (widePathOf l.getInnerHashAtAddrExn)) ∧
  ∀ a : Addr, a.length ≤ l.depth → ∃ path, widePathOf l.getInnerHashAtAddrExn a = some path ∧
    l.merklePathAtAddrExn a = some (path.map siblingOf)

theorem AnyLedger.Sound.widePaths (inputs : Inputs Key TokenId Account Hash) {l : AnyLedger Key TokenId Account Hash} (hs : l.Sound) : l.WidePaths := by
  obtain ⟨old, hold⟩ := hs.exists_old inputs
  refine ⟨fun locations hfits => ?_, fun a ha => ?_⟩
  · obtain ⟨wide, hwide, hwideOf⟩ := hs.wide
    refine (hwide locations).trans (mapM_congr fun location hmem => ?_)
    have hfit := hfits location hmem
    cases location with
    | generic data => rfl
    | account path => exact hwideOf path (Nat.le_of_eq hfit)
    | hash path => exact hwideOf path hfit
  · have hpath := widePathOf_eq hold ha
    exact ⟨_, hpath, (hs.path a ha).trans (pathOf_of_widePathOf hpath)⟩

/-! ### Databases -/

/-- **A batch leaves the accounts and hashes** that single writes leave. Where the accounts are, and which is the last
one, is recorded by the batch only. -/
def Database.BatchAgrees [Ord Key] [TransOrd Key] [DecidableEq TokenId] (inputs : Inputs Key TokenId Account Hash) (db : Database)
    (qs rs : List (Addr × Account)) : Prop :=
  ∃ many one, setBatch inputs db (accountsAt qs) = some many ∧ setEach inputs db (accountsAt rs) = some one ∧
    many.Readable inputs ∧ one.Readable inputs ∧
    (∀ a : Addr, a.length = db.depth → get inputs many (.account a) = get inputs one (.account a)) ∧
    (∀ a : Addr, a.length ≤ db.depth → getHash inputs many a = getHash inputs one a) ∧
    one.lastFilled = db.lastFilled ∧ (∀ aid, locationOfAccount inputs one aid = locationOfAccount inputs db aid) ∧
    (∃ last last', db.lastFilled = some last ∧ many.lastFilled = some last' ∧
      ∀ n, filled last' ≤ n ↔ filled last ≤ n ∧ ∀ q ∈ qs, index q.1 < n) ∧
    ∀ aid, (aid ∉ qs.map (fun q => inputs.identifier q.2) ∧ locationOfAccount inputs many aid = locationOfAccount inputs db aid) ∨
      ∃ q ∈ qs, inputs.identifier q.2 = aid ∧ locationOfAccount inputs many aid = some (some (.account q.1))

theorem Database.Readable.batchAgrees [Ord Key] [TransOrd Key] [LawfulEqOrd Key] [DecidableEq TokenId]
    (hr : db.Readable inputs) (hdepth : db.depth ≤ 61) (hlen : ∀ q ∈ qs, q.1.length = db.depth)
    (hnodup : (qs.map Prod.fst).Nodup) (hperm : qs.Perm rs) : db.BatchAgrees inputs qs rs := by
  obtain ⟨leaf, hleaf⟩ := exists_leaf inputs qs hnodup
  obtain ⟨old, hold⟩ := hr.exists_old
  obtain ⟨many, last, last', hmany, hw, hreadable, hlast, hlast', hfilled, hlocations, -⟩ := setBatch_written hr hold hdepth hlen hnodup hleaf
  obtain ⟨one, hone, hw', hframe⟩ := setEach_written hr.depth_lt hold (fun q hq => hlen q (hperm.mem_iff.2 hq))
    fun q hq => hleaf q (hperm.mem_iff.2 hq)
  have hkeys : ∀ a, a ∈ qs.map Prod.fst ↔ a ∈ rs.map Prod.fst := fun a => (hperm.map Prod.fst).mem_iff
  have hlastOne : one.lastFilled = db.lastFilled := lastFilled_congr inputs hframe.depth (hframe.stored .last trivial (by simp))
  refine ⟨many, one, hmany, hone, hreadable, ⟨hframe.depth ▸ hr.depth_lt, fun a ha => ?_, fun pk => ?_, ?_⟩, fun a ha => ?_, fun a ha => ?_,
    hlastOne, fun aid => locationOfAccount_congr hframe.depth (hframe.stored (.location aid) trivial (by simp)), ⟨last, last', hlast, hlast', hfilled⟩,
    hlocations⟩
  · rw [hw'.hashes a (ha.trans_eq hframe.depth)]
    rfl
  · rw [hframe.tokens_eq (by simp)]
    exact hr.tokens pk
  · rw [hlastOne, hframe.depth]
    exact hr.last
  · by_cases hmem : a ∈ qs.map Prod.fst
    · obtain ⟨q, hq, rfl⟩ := List.mem_map.1 hmem
      rw [hw.get_of_mem hnodup ha hq, hw'.get_of_mem ((hperm.map Prod.fst).nodup_iff.1 hnodup) ha (hperm.mem_iff.1 hq)]
    · rw [hw.get_of_notMem ha hmem, hw'.get_of_notMem ha fun h => hmem ((hkeys a).2 h)]
  · rw [hw.hashes a ha, hw'.hashes a ha, rehash_perm (hperm.map Prod.fst)]

/-! ### Masks -/

/-- **A batch leaves what single writes leave**; where two accounts have one id, in the order of the batch. -/
def Mask.BatchAgrees [Ord Key] [TransOrd Key] [Ord TokenId] [TransOrd TokenId] (inputs : Inputs Key TokenId Account Hash)
    (P : AnyLedger Key TokenId Account Hash → Prop) (t : Mask Key TokenId Account Hash) (qs rs : List (Addr × Account)) : Prop :=
  ∃ many one, setBatch inputs t (accountsAt qs) = some many ∧ setEach inputs t (accountsAt rs) = some one ∧
    (many.Over P ∧ many.Covered inputs) ∧ (one.Over P ∧ one.Covered inputs) ∧
    (∀ a : Addr, a.length = t.depth → many.get (.account a) = one.get (.account a)) ∧
    (∀ a : Addr, a.length ≤ t.depth → many.getInnerHashAtAddrExn a = one.getInnerHashAtAddrExn a) ∧
    many.lastFilled = one.lastFilled ∧
    (qs = rs ∨ (qs.map fun q => inputs.identifier q.2).Nodup → ∀ aid, many.locationOfAccount aid = one.locationOfAccount aid)

theorem Mask.Over.batchAgrees [Ord Key] [TransOrd Key] [LawfulEqOrd Key] [Ord TokenId] [TransOrd TokenId] [LawfulEqOrd TokenId]
    {P : AnyLedger Key TokenId Account Hash → Prop} {t : Mask Key TokenId Account Hash}
    (ho : t.Over P) (hsound : ∀ l, P l → l.Sound) (hc : t.Covered inputs) (hdepth : t.depth ≤ 61)
    (hlen : ∀ q ∈ qs, q.1.length = t.depth) (hnodup : (qs.map Prod.fst).Nodup) (hperm : qs.Perm rs) : t.BatchAgrees inputs P qs rs := by
  obtain ⟨leaf, hleaf⟩ := exists_leaf inputs qs hnodup
  obtain ⟨parent, maps, ancestor, hr⟩ := ho.exists_reads hsound hc
  obtain ⟨base, hbase⟩ := hr.exists_base
  obtain ⟨many, maps₁, hmany, hr₁, hw₁⟩ := setBatch_written hr hbase hdepth hlen hnodup hleaf
  obtain ⟨one, maps₂, hone, hr₂, hw₂⟩ := setEach_written hr hbase (fun q hq => hlen q (hperm.mem_iff.2 hq)) fun q hq => hleaf q (hperm.mem_iff.2 hq)
  obtain ⟨hget, hhash, hlast⟩ := hw₁.agree hr₁ hr₂ hw₂ hbase hnodup hperm
  refine ⟨many, one, hmany, hone, ⟨hw₁.stays P ho, hr₁.isCovered⟩, ⟨hw₂.stays P ho, hr₂.isCovered⟩, hget, hhash, hlast, fun hids aid => ?_⟩
  have hlocation : maps₁.locations[aid]? = maps₂.locations[aid]? := by
    rw [hw₁.locations, hw₂.locations]
    rcases hids with rfl | hids
    · rfl
    · refine insertAll_perm ?_ ((hperm.map _).map _)
      have hfst : (idLocations inputs (accountsAt qs)).map Prod.fst = qs.map fun q => inputs.identifier q.2 := by simp [idLocations, accountsAt]
      rwa [hfst]
  rw [locationOfAccount, locationOfAccount, hr₁.isAttached, hr₂.isAttached, hr₁.view, hr₂.view]
  simp only [Option.bind_eq_bind, Option.bind_some, hlocation]

/-- **Batched operations** are those done one by one. -/
theorem batched_operations [Ord Key] [TransOrd Key] [LawfulEqOrd Key] [Ord TokenId] [TransOrd TokenId] [LawfulEqOrd TokenId]
    [DecidableEq TokenId] (inputs : Inputs Key TokenId Account Hash) :
    (∀ l, Stack inputs (fun _ => True) (fun _ => True) l → l.Batched) ∧
      (∀ l, Stack inputs (Database.Readable inputs) (Mask.Covered inputs) l → l.WidePaths) ∧
      (∀ db : Database, db.Readable inputs → db.depth ≤ 61 → ∀ qs rs : List (Addr × Account), (∀ q ∈ qs, q.1.length = db.depth) →
        (qs.map Prod.fst).Nodup → qs.Perm rs → db.BatchAgrees inputs qs rs) ∧
      ∀ t : Mask Key TokenId Account Hash, t.Over (Stack inputs (Database.Readable inputs) (Mask.Covered inputs)) → t.Covered inputs →
        t.depth ≤ 61 → ∀ qs rs : List (Addr × Account), (∀ q ∈ qs, q.1.length = t.depth) → (qs.map Prod.fst).Nodup → qs.Perm rs →
          t.BatchAgrees inputs (Stack inputs (Database.Readable inputs) (Mask.Covered inputs)) qs rs :=
  ⟨fun _ hl => hl.batched, fun _ hl => hl.sound.widePaths inputs,
    fun _ hr hdepth _ _ hlen hnodup hperm => hr.batchAgrees hdepth hlen hnodup hperm,
    fun _ ho hc hdepth _ _ hlen hnodup hperm => ho.batchAgrees (fun _ hl => hl.sound) hc hdepth hlen hnodup hperm⟩

/-! ### Ledgers of lists, and masks over them -/

section Lists

variable {inputs : Inputs Key TokenId Account Hash} {depth : Nat} {db : Database} {es : Entries Key TokenId Account}

theorem index_append (a' a : Addr) : index (a' ++ a) = index a' + 2 ^ a'.length * index a := by
  induction a' with
  | nil => simp [index]
  | cons b a' ih =>
    rw [List.cons_append, index, ih, index, List.length_cons, pow_succ]
    ring

/-- **A store that stands for a list** can be read. -/
theorem Represents.readable (hr : Represents inputs depth db es) : db.Readable inputs where
  depth_lt := hr.depth_eq ▸ hr.depth_lt
  hash a ha := by
    rw [hr.getHash_eq (ha.trans_eq hr.depth_eq)]
    rfl
  tokens pk := by
    obtain ⟨tids, htids, -⟩ := hr.tokens pk
    rw [htids]
    rfl
  last := by
    refine ⟨_, hr.lastFilled_eq, fun l hl => ?_⟩
    by_cases hempty : es.length = 0
    · rw [if_pos hempty] at hl
      exact absurd hl.symm (Option.some_ne_none l)
    · rw [if_neg hempty] at hl
      exact ⟨_, (Option.some.inj hl).symm, hr.depth_eq ▸ length_ofIndex⟩

/-- **Nothing is beyond the accounts of the list.** -/
theorem Represents.covers (hr : Represents inputs depth db es) :
    ∃ last, db.lastFilled = some last ∧ Covers inputs last (db.any inputs) := by
  have hfits := hr.fits
  have hfilled : filled (if es.length = 0 then none else some (locationAt depth (es.length - 1))) = es.length := by
    by_cases hempty : es.length = 0
    · rw [if_pos hempty, hempty]
      rfl
    · rw [if_neg hempty, locationAt, filled, index_ofIndex (by omega)]
      omega
  obtain ⟨last, hlast, hleaf⟩ := hr.readable.last
  obtain rfl := Option.some.inj (hlast.symm.trans hr.lastFilled_eq)
  refine ⟨_, hlast, hleaf, fun a ha hbeyond => ?_, fun a ha hbeyond => ?_⟩
  · have hdepth : a.length = depth := ha.trans hr.depth_eq
    have hlen : a.length = db.depth := ha
    rw [beyond_iff hleaf hlen.le, hfilled, hlen, Nat.sub_self, pow_zero, Nat.mul_one] at hbeyond
    have hget := hr.get_eq (hdepth ▸ index_lt a)
    rw [locationAt, ← hdepth, ofIndex_index, List.getElem?_eq_none hbeyond] at hget
    exact hget
  · have ha' : a.length ≤ depth := ha.trans_eq hr.depth_eq
    have hread : (db.any inputs).getInnerHashAtAddrExn a = some (hashAt inputs.merge (es.leaf inputs) (depth - a.length) a) :=
      (Database.getInnerHashAtAddrExn_eq ha).trans (hr.getHash_eq ha')
    have hdepth : (db.any inputs).depth = depth := hr.depth_eq
    rw [beyond_iff hleaf ha, hfilled, hr.depth_eq] at hbeyond
    rw [hread, hdepth, hashAt_of_empty, Addr.height]
    intro p hp
    have hout : es.length ≤ index (p ++ a) := by
      rw [index_append, hp, Nat.mul_comm (2 ^ (depth - a.length))]
      exact hbeyond.trans (Nat.le_add_left _ _)
    rw [Entries.leaf, List.getElem?_eq_none hout]
    rfl

/-- **A new mask** that is put over a ledger with nothing beyond its last location. -/
theorem Mask.setParent_create [Ord Key] [TransOrd Key] [Ord TokenId] [TransOrd TokenId] {P : AnyLedger Key TokenId Account Hash → Prop}
    {l : AnyLedger Key TokenId Account Hash} {last : Option Location} (hP : P l) (hlast : l.lastFilled = some last) (hc : Covers inputs last l) :
    ∃ t : Mask Key TokenId Account Hash, setParent none (create l.depth) l = some t ∧ t.depth = l.depth ∧ t.Over P ∧ t.Covered inputs := by
  have hfilled : ({ create l.depth with parent := some l } : Mask Key TokenId Account Hash).lastFilled = some last := by
    simp only [lastFilled, create, Option.bind_eq_bind, Option.bind_some, hlast]
    cases last <;> rfl
  refine ⟨{ create l.depth with parent := some l, currentLocation := last }, ?_, rfl, ⟨⟨l, rfl, hP, rfl⟩, fun acc hacc => ?_⟩, fun maps ancestor hview => ?_⟩
  · have hcheck : ((create l.depth : Mask Key TokenId Account Hash).parent.isNone &&
        !(create l.depth : Mask Key TokenId Account Hash).detachedParentSignal &&
        (create l.depth : Mask Key TokenId Account Hash).depth == l.depth) = true := by simp [create]
    rw [setParent, if_pos hcheck]
    simp only [hfilled, Option.bind_eq_bind, Option.bind_some]
    rfl
  · exact absurd hacc (by simp [create])
  · obtain ⟨-, rfl⟩ := Prod.mk.inj (Option.some.inj hview)
    exact hc

end Lists

theorem exists_flagMask : ∃ db : Database, db.Readable flagInputs ∧ db.depth = 1 ∧ ∃ t : Mask Bool Bool FlagAccount Bytes,
    t.Over (Stack flagInputs (Database.Readable flagInputs) (Mask.Covered flagInputs)) ∧ t.Covered flagInputs ∧ t.depth = 1 := by
  obtain ⟨db, -, hr⟩ := reachable_flagAccount (show 1 < 254 by decide)
  obtain ⟨last, hlast, hcovers⟩ := hr.covers
  have hstack : Stack flagInputs (Database.Readable flagInputs) (Mask.Covered flagInputs) (db.any flagInputs) := .database hr.readable
  obtain ⟨t, -, hdepth, ho, hc⟩ := Mask.setParent_create hstack hlast hcovers
  exact ⟨db, hr.readable, hr.depth_eq, t, ho, hc, hdepth.trans hr.depth_eq⟩

/-- Two accounts are written to a ledger and to a mask over it. -/
theorem batched_operations_flags : ∃ (db : Database) (t : Mask Bool Bool FlagAccount Bytes),
    db.BatchAgrees flagInputs [([false], flagAccount), ([true], flagAccount)] [([true], flagAccount), ([false], flagAccount)] ∧
      t.BatchAgrees flagInputs (Stack flagInputs (Database.Readable flagInputs) (Mask.Covered flagInputs))
        [([false], flagAccount), ([true], flagAccount)] [([true], flagAccount), ([false], flagAccount)] := by
  obtain ⟨db, hr, hdb, t, ho, hc, ht⟩ := exists_flagMask
  have hall := batched_operations flagInputs
  have hperm : [([false], flagAccount), ([true], flagAccount)].Perm [([true], flagAccount), ([false], flagAccount)] := .swap _ _ _
  have hnodup : ([([false], flagAccount), ([true], flagAccount)].map Prod.fst).Nodup := by decide
  have hlen : ∀ q ∈ [(([false] : Addr), flagAccount), ([true], flagAccount)], q.1.length = 1 := by decide
  exact ⟨db, t, hall.2.2.1 db hr (by omega) _ _ (by rwa [hdb]) hnodup hperm, hall.2.2.2 t ho hc (by omega) _ _ (by rwa [ht]) hnodup hperm⟩

/-! ### Where they are not -/

theorem wrap63_ge (n : Int) : -2 ^ 62 ≤ Addr.wrap63 n := by
  unfold Addr.wrap63
  omega

theorem toIntFrom_ge (lslBeyond : Int → Nat → Int) {i : Nat} {acc : Int} {a : Addr} (hacc : -2 ^ 62 ≤ acc) :
    -2 ^ 62 ≤ Addr.toIntFrom lslBeyond i acc a := by
  induction a generalizing i acc with
  | nil => exact hacc
  | cons b a ih => exact ih (wrap63_ge _)

theorem le_foldl_max {m : Int} {xs : List Int} : m ≤ xs.foldl max m := by
  by_contra hlt
  exact absurd (foldl_max_lt.1 (Int.not_le.1 hlt) m List.mem_cons_self) (Int.lt_irrefl m)

/-- **No batch is written to a database of depth 62**: its number of leaves is not an integer. -/
theorem Database.setBatch_62 [Ord Key] [TransOrd Key] [DecidableEq TokenId]
    (hdepth : db.depth = 62) (a : Addr) (account : Account) (ps : List (Location × Account)) :
    setBatch inputs db ((.account a, account) :: ps) = none := by
  have hindex : -2 ^ 62 ≤ Addr.toInt inputs.lslBeyond a := toIntFrom_ge _ (by norm_num)
  have haddresses : setRawAddresses inputs db ((.account a, account) :: ps) = none := by
    simp only [setRawAddresses, Option.bind_eq_bind, Option.bind_eq_none_iff]
    intro last _ current _ foreign hforeign
    simp only [computeLastIndex, indexOf, Location.toPath, Option.map_some, Option.bind_eq_bind, Option.bind_some,
      Option.bind_eq_some_iff] at hforeign
    obtain ⟨indices, -, hforeign⟩ := hforeign
    have hle : -2 ^ 62 ≤ foreign := hindex.trans (Option.some.inj hforeign ▸ le_foldl_max)
    have hmax : -2 ^ 62 ≤ current.elim foreign fun maxIndex => max maxIndex foreign := by
      cases current with
      | none => exact hle
      | some maxIndex => exact hle.trans (Int.le_max_right _ _)
    rw [hdepth, Addr.ofIntExn_62 hmax]
    simp
  rw [setBatch, haddresses]
  rfl

/-- A ledger without accounts. -/
def emptyFlags (depth : Nat) : Database := ⟨fun _ => none, depth⟩

/-- A ledger where an account was set beyond its last location, and a mask over it. -/
def staleFlags : Option (Mask Bool Bool FlagAccount Bytes) :=
  (Database.set flagInputs (emptyFlags 1) (.account [true]) flagAccount).bind fun db => Mask.setParent none (Mask.create 1) (db.any flagInputs)

/-- A mask over a ledger without accounts. -/
def freshFlags : Option (Mask Bool Bool FlagAccount Bytes) := Mask.setParent none (Mask.create 1) ((emptyFlags 1).any flagInputs)

/-- **A batch is not always what single writes are**: only it records the last location of a database, and it fails in a
database of depth 62; over a ledger that has an account beyond the last location the root is another one; and of two
accounts with one id the later one is found. -/
theorem batch_ne_each :
    ((Database.setBatch flagInputs (emptyFlags 1) [(.account [false], flagAccount)]).bind Database.lastFilled = some (some (.account [false])) ∧
      (Database.setEach flagInputs (emptyFlags 1) [(.account [false], flagAccount)]).bind Database.lastFilled = some none) ∧
    ((Database.setBatch flagInputs (emptyFlags 62) [(.account (List.replicate 62 false), flagAccount)]).isNone = true ∧
      (Database.setEach flagInputs (emptyFlags 62) [(.account (List.replicate 62 false), flagAccount)]).isSome = true) ∧
    ((staleFlags.bind fun t => t.setBatch flagInputs [(.account [false], flagAccount)]).bind fun t => t.getInnerHashAtAddrExn []) ≠
      ((staleFlags.bind fun t => t.setEach flagInputs [(.account [false], flagAccount)]).bind fun t => t.getInnerHashAtAddrExn []) ∧
    ((freshFlags.bind fun t => t.setBatch flagInputs [(.account [false], flagAccount), (.account [true], flagAccount)]).bind
        fun t => t.locationOfAccount flagAccount.1) ≠
      ((freshFlags.bind fun t => t.setEach flagInputs [(.account [true], flagAccount), (.account [false], flagAccount)]).bind
        fun t => t.locationOfAccount flagAccount.1) := by
  refine ⟨⟨by decide, by decide⟩, ⟨?_, ?_⟩, by decide, by decide⟩
  · rw [Database.setBatch_62 rfl]
    rfl
  · have hr : Represents flagInputs 62 (emptyFlags 62) [] := .create (if_pos (by decide))
    obtain ⟨old, hold⟩ := hr.readable.exists_old
    have hlen : ∀ q ∈ [((List.replicate 62 false : Addr), flagAccount)], q.1.length = (emptyFlags 62).depth := by simp [emptyFlags]
    obtain ⟨leaf, hleaf⟩ := exists_leaf flagInputs [((List.replicate 62 false : Addr), flagAccount)] (List.nodup_singleton _)
    obtain ⟨db, hdb, -, -⟩ := Database.setEach_written (by decide) hold hlen hleaf
    have hset : Database.setEach flagInputs (emptyFlags 62) [(.account (List.replicate 62 false), flagAccount)] = some db := hdb
    rw [hset]
    rfl

end MinaProtocol.MerkleLedger
