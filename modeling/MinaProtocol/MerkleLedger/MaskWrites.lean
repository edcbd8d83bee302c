import MinaProtocol.Lib.InsertAll
import MinaProtocol.MerkleLedger.Covered

/-!
# MerkleLedger.MaskWrites

Writing to masks. Each write is one to the maps and moves the last location on. After accounts are written, one by
one or all at once, the hashes of the mask are those that it had, made anew above the accounts.
-/

namespace MinaProtocol.MerkleLedger

open AddressTree Std

variable {Key TokenId Account Hash : Type}

namespace Mask

section Writes

variable [Ord Key] [Ord TokenId]

variable {t : Mask Key TokenId Account Hash} {maps : Maps Key TokenId Account Hash} {ancestor : AnyLedger Key TokenId Account Hash}

/-! ### Writes as functions on the maps -/

/-- A write to the maps, after which this is the last location. -/
def write (f : Maps Key TokenId Account Hash → Maps Key TokenId Account Hash) (last : Option Location) (t : Mask Key TokenId Account Hash) :
    Mask Key TokenId Account Hash :=
  { t.updateMaps f with currentLocation := last }

variable {f g : Maps Key TokenId Account Hash → Maps Key TokenId Account Hash} {last last' : Option Location}

@[simp] theorem depth_write : (t.write f last).depth = t.depth := rfl

@[simp] theorem currentLocation_write : (t.write f last).currentLocation = last := rfl

theorem write_write : (t.write f last).write g last' = t.write (fun maps => g (f maps)) last' := by
  simp [write, updateMaps, Option.map_map, Function.comp_def]

/-- **What is read after a write**, whichever of the caches it is read from. -/
theorem view_write (hview : t.mapsAndAncestor = some (maps, ancestor)) :
    (t.write f last).mapsAndAncestor = some (f maps, ancestor) := by
  cases hacc : t.accumulated with
  | none =>
    simp only [mapsAndAncestor, actualizeAccumulated, hacc, Option.map_eq_some_iff, Prod.mk.injEq] at hview
    obtain ⟨parent, hparent, rfl, rfl⟩ := hview
    simp [mapsAndAncestor, actualizeAccumulated, write, updateMaps, hacc, hparent]
  | some acc =>
    by_cases hdetached : acc.detachedNextSignal
    · simp only [mapsAndAncestor, actualizeAccumulated, hacc, hdetached, if_true, Option.some.injEq, Prod.mk.injEq] at hview
      obtain ⟨rfl, rfl⟩ := hview
      simp [mapsAndAncestor, actualizeAccumulated, write, updateMaps, hacc, hdetached]
    · simp only [mapsAndAncestor, actualizeAccumulated, hacc, if_neg hdetached, Option.some.injEq, Prod.mk.injEq] at hview
      obtain ⟨rfl, rfl⟩ := hview
      simp [mapsAndAncestor, actualizeAccumulated, write, updateMaps, hacc, hdetached]

theorem Over.write {P : AnyLedger Key TokenId Account Hash → Prop} (ho : t.Over P) : (t.write f last).Over P where
  parent := ho.parent
  base acc hacc := by
    obtain ⟨acc', hacc', rfl⟩ := Option.map_eq_some_iff.1 hacc
    exact ho.base acc' hacc'

theorem Reads.write {inputs : Inputs Key TokenId Account Hash} {parent : AnyLedger Key TokenId Account Hash}
    (hr : Reads inputs t parent maps ancestor) (hc : Covers inputs last ancestor) : Reads inputs (t.write f last) parent (f maps) ancestor :=
  ⟨hr.attached, view_write hr.view, hr.depth, hr.parentDepth, hr.parentSound, hr.sound, hc⟩

theorem write_self (hf : ∀ maps, f maps = maps) : t.write f t.currentLocation = t := by
  obtain rfl : f = id := funext hf
  simp [write, updateMaps]

/-! ### The writers -/

/-- The hashes are put into the maps. -/
def setHashes (nodes : List (Addr × Hash)) (maps : Maps Key TokenId Account Hash) : Maps Key TokenId Account Hash :=
  { maps with hashes := insertAll maps.hashes nodes }

theorem foldl_selfSetHash (nodes : List (Addr × Hash)) :
    nodes.foldl (fun t p => t.selfSetHash p.1 p.2) t = t.write (setHashes nodes) t.currentLocation := by
  induction nodes generalizing t with
  | nil => exact (write_self fun _ => rfl).symm
  | cons p nodes ih =>
    have hstep : t.selfSetHash p.1 p.2 = t.write (setHashes [p]) t.currentLocation := rfl
    rw [List.foldl_cons, ih, hstep, write_write]
    rfl

variable [TransOrd Key] [TransOrd TokenId]

/-- The locations are put into the maps. -/
def setLocations (ls : List (AccountId Key TokenId × Location)) (maps : Maps Key TokenId Account Hash) : Maps Key TokenId Account Hash :=
  { maps with locations := insertAll maps.locations ls }

variable (inputs : Inputs Key TokenId Account Hash) {ls : List Location} {depth : Nat}

/-- The locations of accounts by their ids. -/
def idLocations (ps : List (Location × Account)) : List (AccountId Key TokenId × Location) :=
  ps.map fun p => (inputs.identifier p.2, p.1)

/-- The accounts are put into the maps, with the owners of their tokens and their locations. -/
def setAccounts (ps : List (Location × Account)) (maps : Maps Key TokenId Account Hash) :
    Maps Key TokenId Account Hash :=
  { maps with
    accounts := insertAll maps.accounts ps
    tokenOwners := insertAll maps.tokenOwners (ps.map fun p => (inputs.deriveTokenId (inputs.identifier p.2), inputs.identifier p.2))
    locations := insertAll maps.locations (idLocations inputs ps) }

/-- The last of a location and of others. -/
def furthest (last : Option Location) (ls : List Location) : Option Location :=
  ls.foldl (fun last l => some (laterLocation l last)) last

theorem foldl_selfSetLocation (ls : List (AccountId Key TokenId × Location)) :
    ls.foldl (fun t p => t.selfSetLocation p.1 p.2) t = t.write (setLocations ls) (furthest t.currentLocation (ls.map Prod.snd)) := by
  induction ls generalizing t with
  | nil => exact (write_self fun _ => rfl).symm
  | cons p ls ih =>
    have hstep : t.selfSetLocation p.1 p.2 = t.write (setLocations [p]) (some (laterLocation p.2 t.currentLocation)) := rfl
    rw [List.foldl_cons, ih, hstep, write_write]
    rfl

/-- **`set_location_batch`** begins with the last location. -/
theorem setLocationBatch_eq (l : Location) (ls : List (AccountId Key TokenId × Location)) :
    setLocationBatch l t ls = t.write (setLocations ls) (furthest (some l) (ls.map Prod.snd)) := by
  have hbegin : ({ t with currentLocation := some l } : Mask Key TokenId Account Hash) = t.write id (some l) := by
    simp [write, updateMaps]
  rw [setLocationBatch, hbegin, foldl_selfSetLocation, write_write]
  rfl

theorem setAccount_eq (p : Location × Account) :
    selfSetAccount inputs (t.selfSetTokenOwner (inputs.deriveTokenId (inputs.identifier p.2)) (inputs.identifier p.2)) p.1 p.2 =
      t.write (setAccounts inputs [p]) (some (laterLocation p.1 t.currentLocation)) := by
  simp [selfSetAccount, selfSetTokenOwner, selfSetLocation, write, updateMaps, Option.map_map, Function.comp_def, setAccounts,
    idLocations]

/-- **`set_raw_account_batch`**. -/
theorem setRawAccountBatch_eq (hattached : t.assertIsAttached = some ()) (ps : List (Location × Account)) :
    setRawAccountBatch inputs t ps = some (t.write (setAccounts inputs ps) (furthest t.currentLocation (ps.map Prod.fst))) := by
  have hfold : ∀ t : Mask Key TokenId Account Hash, ps.foldl (fun t p => selfSetAccount inputs
      (t.selfSetTokenOwner (inputs.deriveTokenId (inputs.identifier p.2)) (inputs.identifier p.2)) p.1 p.2) t =
      t.write (setAccounts inputs ps) (furthest t.currentLocation (ps.map Prod.fst)) := by
    induction ps with
    | nil => exact fun t => (write_self fun _ => rfl).symm
    | cons p ps ih =>
      intro t
      rw [List.foldl_cons, ih, setAccount_eq, write_write]
      rfl
  rw [setRawAccountBatch, hattached, Option.bind_eq_bind, Option.bind_some]
  exact congrArg some (hfold t)

/-- **`set_account_unsafe`**. -/
theorem setAccountUnsafe_eq (hattached : t.assertIsAttached = some ()) (l : Location) (account : Account) :
    setAccountUnsafe inputs t l account = some (t.write (setAccounts inputs [(l, account)]) (some (laterLocation l t.currentLocation))) := by
  rw [setAccountUnsafe, hattached, Option.bind_eq_bind, Option.bind_some]
  simp [selfSetAccount, selfSetTokenOwner, selfSetLocation, write, updateMaps, Option.map_map, Function.comp_def, setAccounts,
    idLocations]

/-! ### Where the last location goes -/

variable (hls : ∀ l ∈ ls, l.IsLeaf depth)

include hls

theorem isLeaf_furthest (hlast : ∀ l, last = some l → l.IsLeaf depth) :
    ∀ l, furthest last ls = some l → l.IsLeaf depth := by
  induction ls generalizing last with
  | nil => exact hlast
  | cons l ls ih =>
    obtain ⟨a, rfl, ha⟩ := hls l List.mem_cons_self
    exact ih (fun l hl => hls l (List.mem_cons_of_mem _ hl)) (isLeaf_laterLocation hlast ha)

/-- **As many leaves are filled** as up to the furthest of the locations. -/
theorem filled_furthest {n : Nat} (hlast : ∀ l, last = some l → l.IsLeaf depth) :
    filled (furthest last ls) ≤ n ↔ filled last ≤ n ∧ ∀ l ∈ ls, filled (some l) ≤ n := by
  induction ls generalizing last with
  | nil => simp [furthest]
  | cons l ls ih =>
    obtain ⟨a, rfl, ha⟩ := hls l List.mem_cons_self
    have hstep : furthest last (.account a :: ls) = furthest (some (laterLocation (.account a) last)) ls := rfl
    rw [hstep, ih (fun l hl => hls l (List.mem_cons_of_mem _ hl)) (isLeaf_laterLocation hlast ha), filled_laterLocation hlast ha,
      Nat.max_le, List.forall_mem_cons, and_assoc]
    rfl

theorem le_filled_furthest (hlast : ∀ l, last = some l → l.IsLeaf depth) :
    filled last ≤ filled (furthest last ls) := ((filled_furthest hls hlast).1 le_rfl).1

omit hls

end Writes

/-! ### The hashes on a path -/

section Path

variable {depth : Nat} {p a : Addr}

/-- **The nodes on the way up** get the hashes that they have after the leaf is written. -/
theorem addressesAndHashesFrom_eq (inputs : Inputs Key TokenId Account Hash) (old leaf : Addr → Hash) (hp : p.length = depth) (hsuffix : a <:+ p) (acc : List (Addr × Hash)) :
    ∃ nodes : List Addr,
      addressesAndHashesFrom inputs (depth - a.length) ((a, rehash inputs.merge old leaf [p] (depth - a.length) a) :: acc)
          ((siblings a).map fun s => (old s.1, s.2)) =
        some (nodes.map (fun x => (x, rehash inputs.merge old leaf [p] (depth - x.length) x)) ++ acc) ∧
      ∀ x, x ∈ nodes ↔ x <:+ a := by
  induction a generalizing acc with
  | nil => exact ⟨[[]], rfl, by simp⟩
  | cons b a ih =>
    have hlen := hsuffix.length_le
    rw [List.length_cons, hp] at hlen
    have hheight : depth - a.length = depth - (a.length + 1) + 1 := by omega
    have hparent : (if b then inputs.merge (depth - (a.length + 1)) (old ((!b) :: a)) (rehash inputs.merge old leaf [p] (depth - (a.length + 1)) (b :: a))
        else inputs.merge (depth - (a.length + 1)) (rehash inputs.merge old leaf [p] (depth - (a.length + 1)) (b :: a)) (old ((!b) :: a))) =
        rehash inputs.merge old leaf [p] (depth - a.length) a := by
      rw [hheight, rehash_singleton_succ hsuffix]
      cases b <;> rfl
    obtain ⟨nodes, hnodes, hmem⟩ := ih ((List.suffix_cons b a).trans hsuffix) ((b :: a, rehash inputs.merge old leaf [p] (depth - (b :: a).length) (b :: a)) :: acc)
    refine ⟨nodes ++ [b :: a], ?_, fun x => ?_⟩
    · rw [siblings, List.map_cons, addressesAndHashesFrom]
      simp only [Addr.parent, Option.bind_eq_bind, Option.bind_some, List.length_cons]
      rw [hparent, ← hheight]
      rw [List.length_cons] at hnodes
      rw [hnodes]
      simp
    · rw [List.mem_append, hmem, List.mem_singleton, List.suffix_cons_iff, or_comm]

end Path

end Mask

/-! ### The last location of a batch -/

section LastLocation

variable {inputs : Inputs Key TokenId Account Hash} {depth : Nat} {last : Option Location} {first : Location} {rest : List Location}

theorem foldl_max_lt {m n : Int} {xs : List Int} : xs.foldl max m < n ↔ ∀ x ∈ m :: xs, x < n := by
  induction xs generalizing m with
  | nil => simp
  | cons x xs ih =>
    rw [List.foldl_cons, ih]
    simp [and_assoc]

theorem indexOf_leaf (hdepth : depth ≤ 61) {l : Location} (hl : l.IsLeaf depth) :
    Database.indexOf inputs l = some ((filled (some l) : Int) - 1) := by
  obtain ⟨a, rfl, ha⟩ := hl
  simp [Database.indexOf, Location.toPath, filled, Addr.toInt_eq inputs.lslBeyond (ha.trans_le hdepth)]

/-- **`new_last_location`** is the furthest of the locations. -/
theorem newLastLocation_eq (inputs : Inputs Key TokenId Account Hash) (hdepth : depth ≤ 61) (hlast : ∀ l, last = some l → l.IsLeaf depth)
    (hls : ∀ l ∈ first :: rest, l.IsLeaf depth) :
    ∃ l, Util.newLastLocation inputs depth last first rest = some l ∧ l.IsLeaf depth ∧
      ∀ n, filled (some l) ≤ n ↔ filled last ≤ n ∧ ∀ l ∈ first :: rest, filled (some l) ≤ n := by
  have hlt : ∀ {l : Location}, l.IsLeaf depth → filled (some l) ≤ 2 ^ depth := by
    rintro l ⟨a, rfl, ha⟩
    exact ha ▸ index_lt a
  have hrest : rest.mapM (Database.indexOf inputs) = some (rest.map fun l => (filled (some l) : Int) - 1) :=
    mapM_eq_some_map fun l hl => indexOf_leaf hdepth (hls l (List.mem_cons_of_mem _ hl))
  have hcurrent : last.mapM (Database.indexOf inputs) = some (last.map fun l => (filled (some l) : Int) - 1) := by
    cases last with
    | none => rfl
    | some l => rw [Option.mapM_some, indexOf_leaf hdepth (hlast l rfl)]; rfl
  obtain ⟨m, hm⟩ : ∃ m : Int, (last.map fun l => (filled (some l) : Int) - 1).elim
      ((rest.map fun l => (filled (some l) : Int) - 1).foldl max ((filled (some first) : Int) - 1))
      (fun maxIndex => max maxIndex ((rest.map fun l => (filled (some l) : Int) - 1).foldl max ((filled (some first) : Int) - 1))) = m := ⟨_, rfl⟩
  have hiff : ∀ n : Int, m < n ↔ (∀ l, last = some l → (filled (some l) : Int) - 1 < n) ∧ ∀ l ∈ first :: rest, (filled (some l) : Int) - 1 < n := by
    intro n
    rw [← hm]
    have hall : (rest.map fun l => (filled (some l) : Int) - 1).foldl max ((filled (some first) : Int) - 1) < n ↔
        ∀ l ∈ first :: rest, (filled (some l) : Int) - 1 < n := by
      rw [foldl_max_lt]
      simp
    cases last with
    | none => simpa using hall
    | some l => rw [Option.map_some, Option.elim_some, max_lt_iff, hall]; simp
  have hpos : 0 ≤ m := by
    by_contra hneg
    obtain ⟨a, hfirst, -⟩ := hls first List.mem_cons_self
    have hzero := ((hiff 0).1 (Int.not_le.1 hneg)).2 first List.mem_cons_self
    rw [hfirst] at hzero
    simp [filled] at hzero
    omega
  have hbound : m < ((2 ^ depth : Nat) : Int) := by
    refine (hiff _).2 ⟨fun l hl => ?_, fun l hl => ?_⟩
    · have hle := hlt (hlast l hl)
      omega
    · have hle := hlt (hls l hl)
      omega
  obtain ⟨k, rfl⟩ := Int.eq_ofNat_of_zero_le hpos
  have hk : k < 2 ^ depth := by exact_mod_cast hbound
  refine ⟨.account (ofIndex depth k), ?_, ⟨_, rfl, length_ofIndex⟩, fun n => ?_⟩
  · rw [Util.newLastLocation, hcurrent]
    simp only [Option.bind_eq_bind, Option.bind_some]
    rw [Database.computeLastIndex, indexOf_leaf hdepth (hls first List.mem_cons_self)]
    simp only [Option.bind_eq_bind, Option.bind_some, hrest]
    rw [hm, Addr.ofIntExn_natCast hdepth, if_pos hk]
    rfl
  · have hn := hiff n
    have hfilled : filled (some (.account (ofIndex depth k))) = k + 1 := by rw [filled, index_ofIndex hk]
    have hcast : ∀ x : Nat, (x : Int) - 1 < n ↔ x ≤ n := fun x => by omega
    simp only [hcast] at hn
    have hlastIff : (∀ l, last = some l → filled (some l) ≤ n) ↔ filled last ≤ n := by
      cases last with
      | none => simp [filled]
      | some l => simp
    rw [hfilled, ← hlastIff, ← hn]
    omega

end LastLocation

/-! ### What is left by writing accounts -/

/-- Accounts at addresses, as they are listed for writing. -/
def accountsAt (qs : List (Addr × Account)) : List (Location × Account) := qs.map fun q => (.account q.1, q.2)

variable {qs : List (Addr × Account)}

section Lists

variable {depth : Nat} {inputs : Inputs Key TokenId Account Hash}

theorem isLeaf_accountsAt (hlen : ∀ q ∈ qs, q.1.length = depth) : ∀ l ∈ (accountsAt qs).map Prod.fst, l.IsLeaf depth := by
  intro l hl
  obtain ⟨p, hp, rfl⟩ := List.mem_map.1 hl
  obtain ⟨q, hq, rfl⟩ := List.mem_map.1 hp
  exact ⟨q.1, rfl, hlen q hq⟩

theorem filled_accountsAt {n : Nat} : (∀ l ∈ (accountsAt qs).map Prod.fst, filled (some l) ≤ n) ↔ ∀ q ∈ qs, index q.1 < n := by
  simp only [accountsAt, List.map_map, List.forall_mem_map]
  exact Iff.rfl

theorem accountsAt_append (qs qs' : List (Addr × Account)) : accountsAt (qs ++ qs') = accountsAt qs ++ accountsAt qs' := List.map_append

theorem idLocations_append (ps ps' : List (Location × Account)) :
    Mask.idLocations inputs (ps ++ ps') = Mask.idLocations inputs ps ++ Mask.idLocations inputs ps' := List.map_append

theorem snd_idLocations (inputs : Inputs Key TokenId Account Hash) (ps : List (Location × Account)) :
    (Mask.idLocations inputs ps).map Prod.snd = ps.map Prod.fst := by
  simp [Mask.idLocations]

theorem mapM_accountHash {leaf : Addr → Hash} (hleaf : ∀ q ∈ qs, leaf q.1 = inputs.hashAccount q.2) :
    (accountsAt qs).mapM (Database.accountHash inputs) = some ((qs.map Prod.fst).map fun a => (a, leaf a)) := by
  rw [accountsAt, List.mapM_map, List.map_map]
  refine mapM_eq_some_map fun q hq => ?_
  simp [Database.accountHash, Location.toPath, hleaf q hq]

end Lists

namespace Mask

variable [Ord Key] [Ord TokenId] [TransOrd Key] [TransOrd TokenId]

variable {inputs : Inputs Key TokenId Account Hash} {t t' t'' : Mask Key TokenId Account Hash}
  {parent ancestor : AnyLedger Key TokenId Account Hash} {maps maps' maps'' : Maps Key TokenId Account Hash}
  {base leaf : Addr → Hash} {qs' : List (Addr × Account)} {a : Addr} {account : Account}

/-- **Accounts were written**: they are in the maps, and the hashes are made anew above them. -/
structure Written (inputs : Inputs Key TokenId Account Hash) (base leaf : Addr → Hash) (parent : AnyLedger Key TokenId Account Hash)
    (qs : List (Addr × Account)) (t t' : Mask Key TokenId Account Hash) (maps maps' : Maps Key TokenId Account Hash) : Prop where
  depth : t'.depth = t.depth
  stays : ∀ P, t.Over P → t'.Over P
  accounts : ∀ l : Location, maps'.accounts[l]? = (insertAll maps.accounts (accountsAt qs))[l]?
  locations : ∀ aid : AccountId Key TokenId, maps'.locations[aid]? = (insertAll maps.locations (idLocations inputs (accountsAt qs)))[aid]?
  hashes : ∀ a : Addr, overlaid maps'.hashes base a =
    rehash inputs.merge (overlaid maps.hashes base) leaf (qs.map Prod.fst) (t.depth - a.length) a
  last : ∀ parentLast, parent.lastFilled = some parentLast → ∀ n, filled parentLast ≤ n →
    (filled t'.currentLocation ≤ n ↔ filled t.currentLocation ≤ n ∧ ∀ q ∈ qs, index q.1 < n)

theorem Written.refl : Written inputs base leaf parent ([] : List (Addr × Account)) t t maps maps where
  depth := rfl
  stays _ ho := ho
  accounts _ := rfl
  locations _ := rfl
  hashes _ := rehash_nil.symm
  last _ _ n _ := by simp

/-- **One round after another.** -/
theorem Written.trans [LawfulEqOrd Key] [LawfulEqOrd TokenId] (h : Written inputs base leaf parent qs t t' maps maps')
    (h' : Written inputs base leaf parent qs' t' t'' maps' maps'') (hlen : ∀ q ∈ qs ++ qs', q.1.length = t.depth) :
    Written inputs base leaf parent (qs ++ qs') t t'' maps maps'' where
  depth := h'.depth.trans h.depth
  stays P ho := h'.stays P (h.stays P ho)
  accounts l := by
    rw [h'.accounts, accountsAt_append, insertAll_append]
    exact insertAll_congr (h.accounts l)
  locations aid := by
    rw [h'.locations, accountsAt_append, idLocations_append, insertAll_append]
    exact insertAll_congr (h.locations aid)
  hashes a := by
    rw [h'.hashes, h.depth, funext h.hashes, List.map_append]
    by_cases ha : a.length ≤ t.depth
    · exact rehash_append (by omega)
    · have hnot : ∀ rs : List (Addr × Account), (∀ r ∈ rs, r ∈ qs ++ qs') → ¬ Above (rs.map Prod.fst) a := by
        rintro rs hrs ⟨p, hp, hsuffix⟩
        obtain ⟨r, hr, rfl⟩ := List.mem_map.1 hp
        exact ha (hsuffix.length_le.trans_eq (hlen r (hrs r hr)))
      rw [← List.map_append, rehash_of_not (hnot qs' fun r hr => List.mem_append_right _ hr),
        rehash_of_not (hnot qs fun r hr => List.mem_append_left _ hr), rehash_of_not (hnot _ fun r hr => hr)]
  last parentLast hparent n hn := by
    rw [h'.last parentLast hparent n hn, h.last parentLast hparent n hn, List.forall_mem_append, and_assoc]

omit [Ord Key] [Ord TokenId] [TransOrd Key] [TransOrd TokenId] in
theorem overlaid_insertAll {hashes : ExtTreeMap Addr Hash} {depth : Nat} {leaves nodes : List Addr} (hmem : ∀ x, x ∈ nodes ↔ Above leaves x)
    (a : Addr) :
    overlaid (insertAll hashes (nodes.map fun x => (x, rehash inputs.merge (overlaid hashes base) leaf leaves (depth - x.length) x))) base a =
      rehash inputs.merge (overlaid hashes base) leaf leaves (depth - a.length) a := by
  obtain ⟨hnot, heq⟩ | ⟨v, hv, heq⟩ := insertAll_cases
    (nodes.map fun x => (x, rehash inputs.merge (overlaid hashes base) leaf leaves (depth - x.length) x)) a
  · have hout : ¬ Above leaves a := fun habove => hnot (by simpa using (hmem a).2 habove)
    rw [overlaid, heq, rehash_of_not hout, overlaid]
  · obtain ⟨x, -, hx⟩ := List.mem_map.1 hv
    obtain ⟨rfl, rfl⟩ := Prod.mk.inj hx
    rw [overlaid, heq, Option.getD_some]

theorem overlaid_setAccounts {ps : List (Location × Account)} : overlaid (setAccounts inputs ps maps).hashes base = overlaid maps.hashes base := rfl

variable (hr : Reads inputs t parent maps ancestor)
  (hbase : ∀ a : Addr, a.length ≤ t.depth → ancestor.getInnerHashAtAddrExn a = some (base a))

include hr hbase in
/-- **`set`** writes an account. -/
theorem set_written (ha : a.length = t.depth) (hleaf : leaf a = inputs.hashAccount account) :
    ∃ t' maps', set inputs t (.account a) account = some t' ∧ Reads inputs t' parent maps' ancestor ∧
      Written inputs base leaf parent [(a, account)] t t' maps maps' := by
  have hours := hr.covers.location
  rw [hr.depth] at hours
  have hlater := isLeaf_laterLocation hours ha
  have hcovers : Covers inputs (some (laterLocation (.account a) t.currentLocation)) ancestor :=
    hr.covers.mono (by rwa [hr.depth]) (by rw [filled_laterLocation hours ha]; exact le_max_left _ _)
  -- the path is read when the account is written, and its hashes are those from before
  have hunsafe := setAccountUnsafe_eq inputs hr.isAttached (.account a) account
  have hr' : Reads inputs (t.write (setAccounts inputs [(.account a, account)]) (some (laterLocation (.account a) t.currentLocation))) parent
      (setAccounts inputs [(.account a, account)] maps) ancestor := hr.write hcovers
  have hpath := hr'.merklePathAtAddrExn_eq hbase ha.le
  obtain ⟨nodes, hnodes, hmem⟩ := addressesAndHashesFrom_eq inputs (overlaid maps.hashes base) leaf ha
    (List.suffix_refl a) []
  have hstart : rehash inputs.merge (overlaid maps.hashes base) leaf [a] 0 a = inputs.hashAccount account := by
    rw [rehash, if_pos List.mem_cons_self, hleaf]
  have hzero : t.depth - a.length = 0 := by omega
  rw [hzero, hstart, List.append_nil] at hnodes
  have habove : ∀ x, x ∈ nodes ↔ Above [a] x := fun x => by rw [hmem]; simp [Above]
  refine ⟨_, _, ?_, hr'.write (f := setHashes (nodes.map fun x => (x, rehash inputs.merge (overlaid maps.hashes base) leaf [a] (t.depth - x.length) x)))
    hcovers, ?_⟩
  · rw [set, hr.isAttached, hunsafe]
    simp only [Option.bind_eq_bind, Option.bind_some, Location.toPath, merklePath]
    rw [hpath]
    simp only [Option.bind_some, addressesAndHashesFromMerklePathExn]
    rw [overlaid_setAccounts, hnodes, Option.bind_some, foldl_selfSetHash]
    rfl
  · exact {
      depth := rfl
      stays := fun P ho => ho.write.write
      accounts := fun l => rfl
      locations := fun aid => rfl
      hashes := fun b => overlaid_insertAll habove b
      last := fun parentLast _ n _ => by
        rw [currentLocation_write, filled_laterLocation hours ha]
        simp }

/-- Accounts are set one after another. -/
def setEach (inputs : Inputs Key TokenId Account Hash) (t : Mask Key TokenId Account Hash) (ps : List (Location × Account)) :
    Option (Mask Key TokenId Account Hash) :=
  ps.foldlM (fun t p => set inputs t p.1 p.2) t

include hr

/-- **`set_raw_addresses`** writes the locations, and moves the last one to the furthest. -/
theorem setRawAddresses_eq (hdepth : t.depth ≤ 61) (hlen : ∀ q ∈ qs, q.1.length = t.depth) :
    ∃ last, setRawAddresses inputs t (accountsAt qs) = some (t.write (setLocations (idLocations inputs (accountsAt qs))) last) ∧
      (∀ l, last = some l → l.IsLeaf t.depth) ∧ filled t.currentLocation ≤ filled last ∧
      ∀ parentLast, parent.lastFilled = some parentLast → ∀ n, filled parentLast ≤ n →
        (filled last ≤ n ↔ filled t.currentLocation ≤ n ∧ ∀ q ∈ qs, index q.1 < n) := by
  have hours := hr.covers.location
  rw [hr.depth] at hours
  cases qs with
  | nil =>
    refine ⟨t.currentLocation, ?_, hours, le_rfl, fun _ _ n _ => by simp⟩
    exact congrArg some (write_self fun _ => rfl).symm
  | cons q qs =>
    obtain ⟨parentLast, lastFilled, hparentLast, hlastFilled, hleaf, hfilled⟩ := hr.exists_lastFilled
    have hls := isLeaf_accountsAt hlen
    obtain ⟨l, hl, hlLeaf, hlFilled⟩ := newLastLocation_eq inputs hdepth hleaf hls
    have hsome : ∀ l', some l = some l' → l'.IsLeaf t.depth := fun l' heq => Option.some.inj heq ▸ hlLeaf
    have hbound : ∀ n, filled (furthest (some l) ((accountsAt (q :: qs)).map Prod.fst)) ≤ n ↔
        filled lastFilled ≤ n ∧ ∀ q' ∈ q :: qs, index q'.1 < n := by
      intro n
      rw [filled_furthest hls hsome, hlFilled, and_assoc, ← filled_accountsAt]
      exact and_congr_right fun _ => and_self_iff
    have hall := (hbound _).1 le_rfl
    refine ⟨furthest (some l) ((accountsAt (q :: qs)).map Prod.fst), ?_, isLeaf_furthest hls hsome, ?_, fun parentLast' hparentLast' n hn => ?_⟩
    · have hcons : accountsAt (q :: qs) = (.account q.1, q.2) :: accountsAt qs := rfl
      rw [hcons, setRawAddresses]
      simp only [hlastFilled, Option.bind_eq_bind, Option.bind_some]
      have hl' : Util.newLastLocation inputs t.depth lastFilled (.account q.1) ((accountsAt qs).map Prod.fst) = some l := hl
      rw [hl', Option.bind_some, setLocationBatch_eq]
      have hsnd := snd_idLocations inputs (accountsAt (q :: qs))
      rw [hcons] at hsnd
      rw [← hsnd]
      rfl
    · have hle := hall.1
      rw [hfilled] at hle
      exact (le_max_right _ _).trans hle
    · obtain rfl := Option.some.inj (hparentLast.symm.trans hparentLast')
      rw [hbound, hfilled, Nat.max_le, and_iff_right hn]

include hbase in
/-- **`set_batch`** writes all the accounts. -/
theorem setBatch_written [LawfulEqOrd Key] [LawfulEqOrd TokenId] (hdepth : t.depth ≤ 61)
    (hlen : ∀ q ∈ qs, q.1.length = t.depth) (hnodup : (qs.map Prod.fst).Nodup) (hleaf : ∀ q ∈ qs, leaf q.1 = inputs.hashAccount q.2) :
    ∃ t' maps', setBatch inputs t (accountsAt qs) = some t' ∧ Reads inputs t' parent maps' ancestor ∧
      Written inputs base leaf parent qs t t' maps maps' := by
  obtain ⟨last, haddresses, hlast, hle, hfilled⟩ := setRawAddresses_eq hr hdepth hlen
  have hls := isLeaf_accountsAt hlen
  have hcovers : Covers inputs last ancestor := hr.covers.mono (by rwa [hr.depth]) hle
  have hcovers' : Covers inputs (furthest last ((accountsAt qs).map Prod.fst)) ancestor :=
    hcovers.mono (by rw [hr.depth]; exact isLeaf_furthest hls hlast) (le_filled_furthest hls hlast)
  have hr₁ := hr.write (f := setLocations (idLocations inputs (accountsAt qs))) hcovers
  have hr₂ := hr₁.write (f := setAccounts inputs (accountsAt qs)) hcovers'
  have hread : ∀ a : Addr, a.length ≤ t.depth → ((Mask.write (setAccounts inputs (accountsAt qs)) (furthest last ((accountsAt qs).map Prod.fst))
      (t.write (setLocations (idLocations inputs (accountsAt qs))) last)).getHash a).join = some (overlaid maps.hashes base a) := by
    intro a ha
    rw [hr₂.getHash_eq hbase ha]
    rfl
  have hleaves : ∀ a ∈ qs.map Prod.fst, a.length = t.depth := by
    intro a ha
    obtain ⟨q, hq, rfl⟩ := List.mem_map.1 ha
    exact hlen q hq
  obtain ⟨nodes, hcompute, hmem⟩ := Util.computeAffected_eq inputs leaf hread hleaves hnodup
  refine ⟨_, _, ?_, hr₂.write (f := setHashes (nodes.map fun x =>
    (x, rehash inputs.merge (overlaid maps.hashes base) leaf (qs.map Prod.fst) (t.depth - x.length) x))) hcovers', ?_⟩
  · rw [setBatch, haddresses]
    simp only [Option.bind_eq_bind, Option.bind_some]
    rw [setRawAccountBatch_eq inputs hr₁.isAttached, Option.bind_some, mapM_accountHash hleaf, Option.bind_some, setHashBatch]
    simp only [Option.bind_eq_bind, depth_write, currentLocation_write]
    rw [hcompute, Option.bind_some, setRawHashBatch, hr₂.isAttached, Option.bind_eq_bind, Option.bind_some, foldl_selfSetHash]
    rfl
  · exact {
      depth := rfl
      stays := fun P ho => ho.write.write.write
      accounts := fun l => rfl
      locations := fun aid => insertAll_insertAll
      hashes := fun b => overlaid_insertAll hmem b
      last := fun parentLast hparent n hn => by
        rw [currentLocation_write, filled_furthest hls hlast, hfilled parentLast hparent n hn, filled_accountsAt, and_assoc, and_self_iff] }

omit hr

/-- **What is written does not depend on the order.** -/
theorem Written.agree {many one : Mask Key TokenId Account Hash} {maps₁ maps₂ : Maps Key TokenId Account Hash}
    (hr₁ : Reads inputs many parent maps₁ ancestor) (hw₁ : Written inputs base leaf parent qs t many maps maps₁)
    (hr₂ : Reads inputs one parent maps₂ ancestor) (hw₂ : Written inputs base leaf parent qs' t one maps maps₂)
    (hbase : ∀ a : Addr, a.length ≤ t.depth → ancestor.getInnerHashAtAddrExn a = some (base a)) (hnodup : (qs.map Prod.fst).Nodup)
    (hperm : qs.Perm qs') : (∀ a : Addr, a.length = t.depth → many.get (.account a) = one.get (.account a)) ∧
      (∀ a : Addr, a.length ≤ t.depth → many.getInnerHashAtAddrExn a = one.getInnerHashAtAddrExn a) ∧ many.lastFilled = one.lastFilled := by
  have hkeys : ((accountsAt qs).map Prod.fst).Nodup := by
    have hfst : (accountsAt qs).map Prod.fst = (qs.map Prod.fst).map Location.account := by simp [accountsAt]
    rw [hfst]
    exact hnodup.map fun _ _ h => Location.account.inj h
  have hpermAt : (accountsAt qs).Perm (accountsAt qs') := hperm.map _
  refine ⟨fun a ha => ?_, fun a ha => ?_, ?_⟩
  · rw [hr₁.get_eq (ha.trans hw₁.depth.symm), hr₂.get_eq (ha.trans hw₂.depth.symm), hw₁.accounts, hw₂.accounts,
      insertAll_perm hkeys hpermAt]
  · rw [hr₁.getInnerHashAtAddrExn_eq (by rwa [hw₁.depth]) (ha.trans_eq hw₁.depth.symm),
      hr₂.getInnerHashAtAddrExn_eq (by rwa [hw₂.depth]) (ha.trans_eq hw₂.depth.symm), hw₁.hashes, hw₂.hashes, rehash_perm (hperm.map Prod.fst)]
  · obtain ⟨parentLast, last₁, hparent, hlast₁, hleaf₁, hfilled₁⟩ := hr₁.exists_lastFilled
    obtain ⟨parentLast', last₂, hparent', hlast₂, hleaf₂, hfilled₂⟩ := hr₂.exists_lastFilled
    obtain rfl := Option.some.inj (hparent.symm.trans hparent')
    rw [hw₁.depth] at hleaf₁
    rw [hw₂.depth] at hleaf₂
    have hiff : ∀ n, filled last₁ ≤ n ↔ filled last₂ ≤ n := by
      intro n
      rw [hfilled₁, hfilled₂, Nat.max_le, Nat.max_le]
      refine and_congr_right fun hn => ?_
      rw [hw₁.last _ hparent n hn, hw₂.last _ hparent n hn]
      exact and_congr_right fun _ => ⟨fun h q hq => h q (hperm.mem_iff.2 hq), fun h q hq => h q (hperm.mem_iff.1 hq)⟩
    rw [hlast₁, hlast₂, eq_of_filled hleaf₁ hleaf₂ (Nat.le_antisymm ((hiff _).2 le_rfl) ((hiff _).1 le_rfl))]

variable [LawfulEqOrd Key] [LawfulEqOrd TokenId]

include hr hbase in
/-- **One after another**, the accounts are written all the same. -/
theorem setEach_written (hlen : ∀ q ∈ qs, q.1.length = t.depth) (hleaf : ∀ q ∈ qs, leaf q.1 = inputs.hashAccount q.2) :
    ∃ t' maps', setEach inputs t (accountsAt qs) = some t' ∧ Reads inputs t' parent maps' ancestor ∧
      Written inputs base leaf parent qs t t' maps maps' := by
  induction qs generalizing t maps with
  | nil => exact ⟨t, maps, rfl, hr, .refl⟩
  | cons q qs ih =>
    obtain ⟨t₁, maps₁, hset, hr₁, hw⟩ := set_written hr hbase (hlen q List.mem_cons_self) (hleaf q List.mem_cons_self)
    obtain ⟨t₂, maps₂, heach, hr₂, hw'⟩ := ih hr₁ (by rwa [hw.depth]) (by rw [hw.depth]; exact fun q' hq' => hlen q' (List.mem_cons_of_mem _ hq'))
      fun q' hq' => hleaf q' (List.mem_cons_of_mem _ hq')
    refine ⟨t₂, maps₂, ?_, hr₂, hw.trans hw' hlen⟩
    rw [setEach, accountsAt, List.map_cons, List.foldlM_cons, hset]
    exact heach

end Mask

end MinaProtocol.MerkleLedger
