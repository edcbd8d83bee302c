import MinaProtocol.Lib.Rehash
import MinaProtocol.MerkleLedger.Slots

/-!
# MerkleLedger.Util

What ledgers share (`util.ml`), over how a ledger reads a hash. The hashes above some leaves are computed level
by level: at each one, the nodes that it has are all those above the leaves, each once and with its new hash,
and a sibling that it does not have is read, as it keeps its hash.
-/

namespace MinaProtocol.MerkleLedger

open AddressTree Std

variable {Key TokenId Account Hash : Type}

namespace Util

/-- The hash of a parent, for which the ledger is asked for the sibling where it is not known. -/
def parentHash (inputs : Inputs Key TokenId Account Hash) (getHash : Addr → Option Hash) (height : Nat) : Database.Known Hash → Option Hash
  | .oneSide path hash => do
    let sibling ← Addr.sibling path
    let siblingHash ← getHash sibling
    (Database.orderSiblings path hash siblingHash).map fun hashes => inputs.merge height hashes.1 hashes.2
  | .hash hash => some hash

/-- `compute_affected_locations_and_hashes`; each call is a level further up. -/
def computeAffectedLocationsAndHashes (inputs : Inputs Key TokenId Account Hash) (getHash : Addr → Option Hash) (ledgerDepth : Nat) :
    Nat → List (Addr × Hash) → List (Addr × Hash) → Option (List (Addr × Hash))
  | 0, _, _ => none
  | _ + 1, [], acc => some acc
  | levels + 1, p :: ps, acc =>
    let height := Addr.height ledgerDepth p.1
    if height < ledgerDepth then do
      let parents ← (p :: ps).foldlM (Database.addChild inputs height) ∅
      let hashes ← parents.toList.mapM fun q => (parentHash inputs getHash height q.2).map fun hash => (q.1, hash)
      computeAffectedLocationsAndHashes inputs getHash ledgerDepth levels hashes.reverse (hashes ++ acc)
    else some acc

/-- `new_last_location`: the last of the locations that are filled and of those that are written. -/
def newLastLocation (inputs : Inputs Key TokenId Account Hash) (ledgerDepth : Nat) (lastFilled : Option Location) (first : Location)
    (rest : List Location) : Option Location := do
  let currentLastIndex ← lastFilled.mapM (Database.indexOf inputs)
  let foreignLastIndex ← Database.computeLastIndex inputs first rest
  let maxIndexInAllAccounts := currentLastIndex.elim foreignLastIndex fun maxIndex => max maxIndex foreignLastIndex
  (Addr.ofIntExn inputs.lslBeyond ledgerDepth maxIndexInAllAccounts).map .account

/-! ### One level -/

variable {inputs : Inputs Key TokenId Account Hash} {getHash : Addr → Option Hash}

section Level

variable {height : Nat} {hash : Addr → Hash} {nodes : List Addr} {q : Addr}

/-- What is known of a node when some of the nodes have been gone through. -/
def knownOf (inputs : Inputs Key TokenId Account Hash) (height : Nat) (hash : Addr → Hash) (nodes : List Addr) (q : Addr) :
    Option (Database.Known Hash) :=
  if nodes.contains (false :: q) then
    if nodes.contains (true :: q) then some (.hash (inputs.merge height (hash (false :: q)) (hash (true :: q))))
    else some (.oneSide (false :: q) (hash (false :: q)))
  else if nodes.contains (true :: q) then some (.oneSide (true :: q) (hash (true :: q)))
  else none

theorem knownOf_eq_none (h : knownOf inputs height hash nodes q = none) (b : Bool) : b :: q ∉ nodes := by
  simp only [knownOf, List.contains_iff_mem] at h
  by_cases hleft : false :: q ∈ nodes
  · rw [if_pos hleft] at h
    split at h <;> exact absurd h (Option.some_ne_none _)
  · rw [if_neg hleft] at h
    by_cases hright : true :: q ∈ nodes
    · rw [if_pos hright] at h
      exact absurd h (Option.some_ne_none _)
    · cases b with
      | false => exact hleft
      | true => exact hright

theorem knownOf_append_of_ne {b : Bool} {r : Addr} (hne : q ≠ r) :
    knownOf inputs height hash (nodes ++ [b :: r]) q = knownOf inputs height hash nodes q := by
  simp [knownOf, hne]

/-- **One more node**, that was not gone through before. -/
theorem addChild_eq {parents : ExtTreeMap Addr (Database.Known Hash)} {a : Addr} (ha : a ≠ [])
    (hparents : ∀ q, parents[q]? = knownOf inputs height hash nodes q) (hnew : a ∉ nodes) :
    ∃ parents', Database.addChild inputs height parents (a, hash a) = some parents' ∧
      ∀ q, parents'[q]? = knownOf inputs height hash (nodes ++ [a]) q := by
  obtain _ | ⟨b, r⟩ := a
  · exact absurd rfl ha
  have hinsert : ∀ k : Database.Known Hash, some k = knownOf inputs height hash (nodes ++ [b :: r]) r →
      ∀ q, (parents.insert r k)[q]? = knownOf inputs height hash (nodes ++ [b :: r]) q := by
    intro k hk q
    rw [ExtTreeMap.getElem?_insert]
    by_cases hq : r = q
    · subst hq
      simp [hk]
    · rw [knownOf_append_of_ne (Ne.symm hq), ← hparents q]
      simp [hq]
  by_cases hsibling : (!b) :: r ∈ nodes
  · have hknown : parents[r]? = some (.oneSide ((!b) :: r) (hash ((!b) :: r))) := by
      rw [hparents r]
      cases b <;> simp_all [knownOf]
    refine ⟨parents.insert r (.hash (inputs.merge height (hash (false :: r)) (hash (true :: r)))), ?_, hinsert _ ?_⟩
    · cases b <;> simp [Database.addChild, Addr.parent, hknown, Database.orderSiblings]
    · cases b <;> simp_all [knownOf]
  · have hknown : parents[r]? = none := by
      rw [hparents r]
      cases b <;> simp_all [knownOf]
    refine ⟨parents.insert r (.oneSide (b :: r) (hash (b :: r))), ?_, hinsert _ ?_⟩
    · simp [Database.addChild, Addr.parent, hknown]
    · cases b <;> simp_all [knownOf]

/-- **All the nodes of a level**, each once. -/
theorem foldlM_addChild : ∀ {before : List Addr} {parents : ExtTreeMap Addr (Database.Known Hash)},
    (∀ q, parents[q]? = knownOf inputs height hash before q) → (before ++ nodes).Nodup → (∀ a ∈ nodes, a ≠ []) →
    ∃ parents', (nodes.map fun a => (a, hash a)).foldlM (Database.addChild inputs height) parents = some parents' ∧
      ∀ q, parents'[q]? = knownOf inputs height hash (before ++ nodes) q := by
  induction nodes with
  | nil =>
    intro before parents hparents _ _
    exact ⟨parents, rfl, by simpa using hparents⟩
  | cons a nodes ih =>
    intro before parents hparents hnodup hne
    have hnew : a ∉ before := fun hmem => by
      have hdisjoint := List.disjoint_of_nodup_append hnodup
      exact hdisjoint hmem List.mem_cons_self
    obtain ⟨parents', hadd, hparents'⟩ := addChild_eq (hne a List.mem_cons_self) hparents hnew
    have happend : before ++ a :: nodes = (before ++ [a]) ++ nodes := by simp
    rw [happend] at hnodup ⊢
    obtain ⟨parents'', hfold, hparents''⟩ := ih hparents' hnodup fun x hx => hne x (List.mem_cons_of_mem _ hx)
    refine ⟨parents'', ?_, hparents''⟩
    rw [List.map_cons, List.foldlM_cons, hadd]
    exact hfold

/-- **The hash of a parent**, when the ledger has the hashes of the nodes that are not there. -/
theorem parentHash_eq {k : Database.Known Hash}
    (hread : ∀ b : Bool, b :: q ∉ nodes → getHash (b :: q) = some (hash (b :: q)))
    (hk : knownOf inputs height hash nodes q = some k) :
    parentHash inputs getHash height k = some (inputs.merge height (hash (false :: q)) (hash (true :: q))) := by
  simp only [knownOf, List.contains_iff_mem] at hk
  split_ifs at hk with hleft hright hright
  · rw [← Option.some.inj hk]
    rfl
  · rw [← Option.some.inj hk]
    simp [parentHash, Addr.sibling, hread true hright, Database.orderSiblings]
  · rw [← Option.some.inj hk]
    simp [parentHash, Addr.sibling, hread false hleft, Database.orderSiblings]

/-- **A level gives the next one**: the parents of its nodes, each once and with its hash. -/
theorem exists_parents (inputs : Inputs Key TokenId Account Hash) (hash : Addr → Hash) (height : Nat) (hnodup : nodes.Nodup) (hne : ∀ a ∈ nodes, a ≠ [])
    (hread : ∀ (b : Bool) (q : Addr), (∃ b' : Bool, b' :: q ∈ nodes) → b :: q ∉ nodes →
      getHash (b :: q) = some (hash (b :: q))) :
    ∃ parents : ExtTreeMap Addr (Database.Known Hash), ∃ above : List Addr,
      (nodes.map fun a => (a, hash a)).foldlM (Database.addChild inputs height) ∅ = some parents ∧
      parents.toList.mapM (fun q => (parentHash inputs getHash height q.2).map fun hash => (q.1, hash)) =
        some (above.map fun q => (q, inputs.merge height (hash (false :: q)) (hash (true :: q)))) ∧
      above.Nodup ∧ ∀ q, q ∈ above ↔ ∃ b : Bool, b :: q ∈ nodes := by
  have hempty : ∀ q, (∅ : ExtTreeMap Addr (Database.Known Hash))[q]? = knownOf inputs height hash [] q := by simp [knownOf]
  obtain ⟨parents, hfold, hparents⟩ := foldlM_addChild hempty hnodup hne
  rw [List.nil_append] at hparents
  have hmem : ∀ q, q ∈ parents.toList.map Prod.fst ↔ ∃ b : Bool, b :: q ∈ nodes := by
    intro q
    constructor
    · intro h
      obtain ⟨⟨q', k⟩, hk, rfl⟩ := List.mem_map.1 h
      rw [ExtTreeMap.mem_toList_iff_getElem?_eq_some, hparents] at hk
      by_contra hnone
      have hleft : false :: q' ∉ nodes := fun h => hnone ⟨false, h⟩
      have hright : true :: q' ∉ nodes := fun h => hnone ⟨true, h⟩
      simp [knownOf, hleft, hright] at hk
    · intro h
      obtain ⟨b, hb⟩ := h
      cases hk : knownOf inputs height hash nodes q with
      | none => exact absurd hb (knownOf_eq_none hk b)
      | some k =>
        rw [← hparents] at hk
        exact List.mem_map.2 ⟨(q, k), ExtTreeMap.mem_toList_iff_getElem?_eq_some.2 hk, rfl⟩
  refine ⟨parents, parents.toList.map Prod.fst, hfold, ?_, ?_, hmem⟩
  · rw [List.map_map]
    refine mapM_eq_some_map fun p hp => ?_
    have hchild := (hmem p.1).1 (List.mem_map_of_mem hp)
    rw [ExtTreeMap.mem_toList_iff_getElem?_eq_some, hparents] at hp
    rw [parentHash_eq (fun b hb => hread b p.1 hchild hb) hp]
    rfl
  · have hdistinct := ExtTreeMap.distinct_keys_toList (t := parents)
    rw [List.Nodup, List.pairwise_map]
    exact hdistinct.imp fun h heq => h (by simp [heq])

end Level

/-! ### All the levels -/

section Levels

variable {old leaf : Addr → Hash} {ledgerDepth : Nat} {leaves : List Addr} {d : Nat}

theorem exists_above {p : Addr} (hp : p ∈ leaves) (hd : d ≤ p.length) : ∃ a : Addr, a.length = d ∧ Above leaves a :=
  ⟨p.drop (p.length - d), by rw [List.length_drop]; omega, above_of_mem hp (List.drop_suffix _ _)⟩

theorem exists_child_above {a : Addr} (hlen : ∀ p ∈ leaves, a.length < p.length) (habove : Above leaves a) :
    ∃ b : Bool, Above leaves (b :: a) := by
  obtain ⟨p, hp, a', rfl⟩ := habove
  obtain rfl | ⟨a'', b, rfl⟩ := List.eq_nil_or_concat a'
  · exact absurd (hlen a hp) (Nat.lt_irrefl _)
  · exact ⟨b, above_of_mem hp ⟨a'', by simp⟩⟩

/-- **The levels above a level**: all the nodes above the leaves, with their new hashes. -/
theorem computeAffected_levels (hread : ∀ a : Addr, a.length ≤ ledgerDepth → getHash a = some (old a))
    (hlen : ∀ p ∈ leaves, p.length = ledgerDepth) (hd : d ≤ ledgerDepth) {nodes : List Addr} (hnodup : nodes.Nodup)
    (hnodes : ∀ a, a ∈ nodes ↔ a.length = d ∧ Above leaves a) (acc : List (Addr × Hash)) : ∃ above : List Addr,
      computeAffectedLocationsAndHashes inputs getHash ledgerDepth (d + 1)
          (nodes.map fun a => (a, rehash inputs.merge old leaf leaves (ledgerDepth - a.length) a)) acc =
        some ((above.map fun a => (a, rehash inputs.merge old leaf leaves (ledgerDepth - a.length) a)) ++ acc) ∧
      ∀ a, a ∈ above ↔ a.length < d ∧ Above leaves a := by
  induction d generalizing nodes acc with
  | zero =>
    refine ⟨[], ?_, by simp⟩
    cases nodes with
    | nil => rfl
    | cons a nodes =>
      have ha : a = [] := List.length_eq_zero_iff.1 ((hnodes a).1 List.mem_cons_self).1
      subst ha
      rw [List.map_cons, computeAffectedLocationsAndHashes]
      simp [Addr.height]
  | succ d ih =>
    cases nodes with
    | nil =>
      refine ⟨[], rfl, fun a => ⟨fun h => absurd h List.not_mem_nil, fun h => ?_⟩⟩
      obtain ⟨p, hp, -⟩ := h.2
      obtain ⟨a', hlen', habove⟩ := exists_above hp (hd.trans_eq (hlen p hp).symm)
      exact absurd ((hnodes a').2 ⟨hlen', habove⟩) List.not_mem_nil
    | cons a nodes =>
      have hne : ∀ x ∈ a :: nodes, x ≠ [] := by
        intro x hx heq
        have hx' := ((hnodes x).1 hx).1
        rw [heq] at hx'
        simp at hx'
      -- a sibling that is not there is above no leaf
      have hsibling : ∀ (b : Bool) (q : Addr), (∃ b' : Bool, b' :: q ∈ a :: nodes) → b :: q ∉ a :: nodes →
          getHash (b :: q) = some (rehash inputs.merge old leaf leaves (ledgerDepth - (b :: q).length) (b :: q)) := by
        intro b q hchild hnot
        obtain ⟨b', hb'⟩ := hchild
        have hq : (b :: q).length = d + 1 := by simpa using ((hnodes _).1 hb').1
        rw [rehash_of_not fun habove => hnot ((hnodes _).2 ⟨hq, habove⟩), hread _ (hq.trans_le hd)]
      obtain ⟨parents, above, hfold, hmap, habove, hmem⟩ := exists_parents inputs
        (fun a => rehash inputs.merge old leaf leaves (ledgerDepth - a.length) a) (ledgerDepth - (d + 1)) hnodup hne hsibling
      have hmemAbove : ∀ q, q ∈ above.reverse ↔ q.length = d ∧ Above leaves q := by
        intro q
        rw [List.mem_reverse, hmem]
        constructor
        · rintro ⟨b, hb⟩
          have hchild := (hnodes _).1 hb
          exact ⟨by simpa using hchild.1, hchild.2.tail⟩
        · rintro ⟨hq, hleaves⟩
          obtain ⟨b, hb⟩ := exists_child_above (fun p hp => by rw [hlen p hp]; omega) hleaves
          exact ⟨b, (hnodes _).2 ⟨by simp [hq], hb⟩⟩
      have hhash : (above.map fun q => (q, inputs.merge (ledgerDepth - (d + 1))
          (rehash inputs.merge old leaf leaves (ledgerDepth - (false :: q).length) (false :: q))
          (rehash inputs.merge old leaf leaves (ledgerDepth - (true :: q).length) (true :: q)))) =
          above.map fun q => (q, rehash inputs.merge old leaf leaves (ledgerDepth - q.length) q) := by
        refine List.map_congr_left fun q hq => ?_
        obtain ⟨hq', hleaves⟩ := (hmemAbove q).1 (List.mem_reverse.2 hq)
        have hheight : ledgerDepth - d = ledgerDepth - (d + 1) + 1 := by omega
        rw [List.length_cons, List.length_cons, hq', hheight, rehash_succ hleaves]
      rw [hhash] at hmap
      obtain ⟨rest, hrest, hmemRest⟩ := ih (by omega) (List.nodup_reverse.2 habove) hmemAbove
        ((above.map fun q => (q, rehash inputs.merge old leaf leaves (ledgerDepth - q.length) q)) ++ acc)
      refine ⟨rest ++ above, ?_, fun q => ?_⟩
      · have hahead : Addr.height ledgerDepth a = ledgerDepth - (d + 1) := by
          rw [Addr.height, ((hnodes a).1 List.mem_cons_self).1]
        have hlt : ledgerDepth - (d + 1) < ledgerDepth := by omega
        rw [List.map_cons] at hfold ⊢
        rw [computeAffectedLocationsAndHashes]
        dsimp only
        rw [hahead, if_pos hlt, hfold]
        simp only [Option.bind_eq_bind, Option.bind_some]
        rw [hmap, Option.bind_some, ← List.map_reverse, hrest, List.map_append, List.append_assoc]
      · have hq := hmemAbove q
        rw [List.mem_reverse] at hq
        rw [List.mem_append, hmemRest, hq]
        constructor
        · rintro (h | h)
          · exact ⟨by omega, h.2⟩
          · exact ⟨by omega, h.2⟩
        · rintro ⟨hlt, hleaves⟩
          rcases Nat.lt_or_eq_of_le (Nat.le_of_lt_succ hlt) with h | h
          · exact .inl ⟨h, hleaves⟩
          · exact .inr ⟨h, hleaves⟩

/-- **What is affected**: the nodes above the leaves, with the hashes that they have when the leaves are written. -/
theorem computeAffected_eq (inputs : Inputs Key TokenId Account Hash) (leaf : Addr → Hash)
    (hread : ∀ a : Addr, a.length ≤ ledgerDepth → getHash a = some (old a)) (hlen : ∀ p ∈ leaves, p.length = ledgerDepth) (hnodup : leaves.Nodup) :
    ∃ nodes : List Addr,
      computeAffectedLocationsAndHashes inputs getHash ledgerDepth (ledgerDepth + 1) (leaves.map fun a => (a, leaf a))
          (leaves.map fun a => (a, leaf a)) =
        some (nodes.map fun a => (a, rehash inputs.merge old leaf leaves (ledgerDepth - a.length) a)) ∧
      ∀ a, a ∈ nodes ↔ Above leaves a := by
  have hself : ∀ a, a ∈ leaves ↔ a.length = ledgerDepth ∧ Above leaves a := by
    intro a
    constructor
    · exact fun ha => ⟨hlen a ha, above_of_mem ha List.suffix_rfl⟩
    · rintro ⟨hlen', p, hp, hsuffix⟩
      rwa [hsuffix.eq_of_length (hlen'.trans (hlen p hp).symm)]
  have hvalues : (leaves.map fun a => (a, leaf a)) =
      leaves.map fun a => (a, rehash inputs.merge old leaf leaves (ledgerDepth - a.length) a) := by
    refine List.map_congr_left fun a ha => ?_
    rw [hlen a ha, Nat.sub_self, rehash, if_pos ha]
  obtain ⟨above, hcompute, hmem⟩ := computeAffected_levels hread hlen le_rfl hnodup hself (leaves.map fun a => (a, leaf a))
  refine ⟨above ++ leaves, ?_, fun a => ?_⟩
  · rw [List.map_append, ← hvalues, ← hcompute, ← hvalues]
  · rw [List.mem_append, hmem, hself]
    constructor
    · rintro (h | h) <;> exact h.2
    · rintro h
      obtain ⟨p, hp, hsuffix⟩ := id h
      have hle := hsuffix.length_le
      rw [hlen p hp] at hle
      rcases Nat.lt_or_eq_of_le hle with hlt | heq
      · exact .inl ⟨hlt, h⟩
      · exact .inr ⟨heq, h⟩

end Levels

end Util

namespace Database

variable {inputs : Inputs Key TokenId Account Hash} {t : Database}

theorem computeAffected_eq_util {levels : Nat} {ps acc : List (Addr × Hash)} :
    computeAffectedLocationsAndHashes inputs t levels ps acc =
      Util.computeAffectedLocationsAndHashes inputs (getHash inputs t) t.depth levels ps acc := by
  have hparent : ∀ height, parentHash inputs t height = Util.parentHash inputs (getHash inputs t) height := by
    intro height
    funext k
    cases k <;> rfl
  induction levels generalizing ps acc with
  | zero => rfl
  | succ levels ih =>
    cases ps with
    | nil => rfl
    | cons p ps => simp only [computeAffectedLocationsAndHashes, Util.computeAffectedLocationsAndHashes, hparent, ih]

end Database

end MinaProtocol.MerkleLedger
