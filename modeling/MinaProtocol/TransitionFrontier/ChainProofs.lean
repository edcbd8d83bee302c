import MinaProtocol.TransitionFrontier.Runs

/-!
# TransitionFrontier.ChainProofs

Proofs that a block is an ancestor of another. `Merkle_list_prover` goes back from a block and collects the hashes
of the bodies; `Merkle_list_verifier` hashes them onto the state hash that a proof starts from, until it has that of
the block. `Best_tip_prover` proves the chain from the root of a frontier to its best tip. What is validated besides
the hashes, the proof of each block among it, is a parameter.
-/

namespace MinaProtocol.TransitionFrontier

open Consensus ParentTree

/-! ### Merkle lists -/

namespace MerkleList

variable {Value Elem Hash : Type}

/-- `find_path` of `Merkle_list_prover`. -/
def findPath (toProofElem : Value → Elem) (getPrevious : Value → Option Value) :
    Nat → Option Int → Value → Option (Value × List Elem)
  | 0, _, _ => none
  | fuel + 1, length, value =>
    if length = some 0 then some (value, [])
    else
      match getPrevious value with
      | none => some (value, [])
      | some parent => do
        let (first, proofs) ← findPath toProofElem getPrevious fuel (length.map (· - 1)) parent
        return (first, toProofElem value :: proofs)

/-- `Merkle_list_prover.prove`. -/
def prove (toProofElem : Value → Elem) (getPrevious : Value → Option Value) (fuel : Nat) (length : Option Int)
    (last : Value) : Option (Value × List Elem) :=
  (findPath toProofElem getPrevious fuel length last).map fun (first, proofs) => (first, proofs.reverse)

variable (hash : Hash → Elem → Hash)

/-- `conser`: the hashes, the last one first. -/
def conser (acc : Hash × List Hash) (proofElem : Elem) : Hash × List Hash :=
  (hash acc.1 proofElem, acc.1 :: acc.2)

/-- `Merkle_list_verifier.verify`. -/
def verify [DecidableEq Hash] (init : Hash) (merkleList : List Elem) (targetHash : Hash) : Option (Hash × List Hash) :=
  let hashes := merkleList.foldl (conser hash) (init, [])
  if targetHash = hashes.1 then some hashes else none

theorem foldl_conser_append (merkleList : List Elem) (e : Elem) (acc : Hash × List Hash) :
    ((merkleList ++ [e]).foldl (conser hash) acc).1 = hash (merkleList.foldl (conser hash) acc).1 e := by
  simp [conser]

theorem verify_isSome [DecidableEq Hash] {init targetHash : Hash} {merkleList : List Elem} :
    (verify hash init merkleList targetHash).isSome = true ↔ targetHash = (merkleList.foldl (conser hash) (init, [])).1 := by
  simp [verify]

end MerkleList

/-! ### The best tip -/

variable {Body : Type} (hash : Nat → Body → Nat) (bodyHash : Breadcrumb → Body)

/-- The state hash of `Protocol_state.hashes`. -/
def stateHashOf (b : Breadcrumb) : Nat := hash b.parentHash (bodyHash b)

/-- The blocks of the table have the hashes that are computed from them. -/
def HashesHold (t : Frontier) : Prop :=
  ∀ (h : Nat) (node : Node), t.table[h]? = some node → stateHashOf hash bodyHash node.breadcrumb = h

namespace Frontier

/-- `find`. -/
def find (t : Frontier) (hash : Nat) : Option Breadcrumb := t.table[hash]?.map Node.breadcrumb

end Frontier

/-- `Proof_carrying_data.t`: the best tip, the merkle list and the root. -/
structure BestTipProof (Body : Type) where
  data : Breadcrumb
  merkleList : List Body
  root : Breadcrumb

inductive BestTipError where
  | wrongLength (maxLength : Int) (merkleListLength : Nat)
  | invalidMerkleList
  | invalidBlock

variable (globalMaxLength : Int) (genesisStateHash : Nat)

/-- `Best_tip_prover.prove`. -/
def proveBestTip (t : Frontier) : Except Exn (Option (BestTipProof Body)) := do
  let root ← t.rootBreadcrumb
  let length ← t.bestTipPathLengthExn
  if length = globalMaxLength ∨ root.stateHash = genesisStateHash then
    let bestTip ← t.bestTipBreadcrumb
    let (_, merkleList) ← getExn .outOfFuel
      (MerkleList.prove bodyHash (fun b => t.find b.parentHash) t.fuel none bestTip)
    return some ⟨bestTip, merkleList, root⟩
  else return none

/-- `Best_tip_prover.verify`; the root and the best tip. -/
def verifyBestTip (validateProof : Breadcrumb → Bool) (proof : BestTipProof Body) :
    Except BestTipError (Breadcrumb × Breadcrumb) :=
  let rootStateHash := stateHashOf hash bodyHash proof.root
  if globalMaxLength = proof.merkleList.length ∨ rootStateHash = genesisStateHash then
    match MerkleList.verify hash rootStateHash proof.merkleList (stateHashOf hash bodyHash proof.data) with
    | none => .error .invalidMerkleList
    | some _ =>
      if validateProof proof.root && validateProof proof.data then .ok (proof.root, proof.data) else .error .invalidBlock
  else .error (.wrongLength globalMaxLength proof.merkleList.length)

variable {H : StateHashes} {t : Frontier} {maxLength n fuel : Nat} {b : Breadcrumb} {hash bodyHash}

theorem Sound.find_parent (hs : Sound H t maxLength) (hb : Stored t b) (hne : b.stateHash ≠ t.root) :
    ∃ parent, t.find b.parentHash = some parent ∧ Stored t parent ∧ parent.stateHash = b.parentHash := by
  obtain ⟨-, hmem⟩ := hs.mem_of_parentOf (parentOf_stored hb hne)
  obtain ⟨node, hnode⟩ := Frontier.exists_node hmem
  have heq := hs.tree.stateHash_eq _ _ hnode
  exact ⟨node.breadcrumb, by simp [Frontier.find, hnode], ⟨node, by rwa [heq], rfl⟩, heq⟩

theorem Sound.merkleList_root (hs : Sound H t maxLength) (hhashes : HashesHold hash bodyHash t) (hb : Stored t b) :
    ∃ n, H.height b.stateHash = H.height t.root + n ∧ Steps t.parentOf t.root b.stateHash n ∧
      ∀ fuel, n < fuel → ∃ first proofs,
        MerkleList.findPath bodyHash (fun b => t.find b.parentHash) fuel none b = some (first, proofs) ∧
          proofs.length = n ∧ (proofs.reverse.foldl (MerkleList.conser hash) (t.root, [])).1 = b.stateHash := by
  obtain ⟨node, hnode, -⟩ := id hb
  have hbelow := hs.below_root hnode
  generalize hx : b.stateHash = x at hbelow ⊢
  induction hbelow generalizing b node with
  | refl =>
    refine ⟨0, rfl, steps_zero.2 rfl, fun fuel hfuel => ?_⟩
    obtain ⟨fuel, rfl⟩ := Nat.exists_eq_succ_of_ne_zero (Nat.ne_of_gt hfuel)
    obtain ⟨node, hnode, rfl⟩ := hb
    rw [hx] at hnode
    have hnone := hs.root_parent_not_mem hnode
    exact ⟨node.breadcrumb, [], by simp [MerkleList.findPath, Frontier.find, hnone], rfl, rfl⟩
  | @step x p hp _ ih =>
    have hne := (Frontier.parentOf_eq_some.1 hp).1
    rw [← hx] at hp hne
    obtain ⟨parent, hfind, hstored, heq⟩ := hs.find_parent hb hne
    obtain rfl : parent.stateHash = p := heq.trans (Option.some.inj ((parentOf_stored hb hne).symm.trans hp))
    obtain ⟨parentNode, hparentNode, -⟩ := id hstored
    obtain ⟨n, hheight, hsteps, hpath⟩ := ih hstored parentNode hparentNode rfl
    refine ⟨n + 1, ?_, hx ▸ (steps_succ hp).2 hsteps, fun fuel hfuel => ?_⟩
    · rw [← hx, hs.ranked _ _ hp, hheight, Nat.add_assoc]
    · obtain ⟨fuel, rfl⟩ := Nat.exists_eq_succ_of_ne_zero (Nat.ne_of_gt (Nat.zero_lt_of_lt hfuel))
      obtain ⟨first, proofs, hfirst, hlength, hfold⟩ := hpath fuel (by omega)
      obtain ⟨node, hnode, rfl⟩ := hb
      refine ⟨first, bodyHash node.breadcrumb :: proofs, by simp [MerkleList.findPath, hfind, hfirst], by simp [hlength], ?_⟩
      rw [List.reverse_cons, MerkleList.foldl_conser_append, hfold, heq, ← hx]
      exact hhashes _ _ hnode

theorem HashesHold.steps_of_foldl_conser (hhashes : HashesHold hash bodyHash t)
    (hfree : ∀ p e p' e', hash p e = hash p' e' → p = p' ∧ e = e') {init x : Nat} {merkleList : List Body}
    (hn : Steps t.parentOf t.root x n) (hle : merkleList.length ≤ n)
    (hfold : (merkleList.foldl (MerkleList.conser hash) (init, [])).1 = x) :
    Steps t.parentOf init x merkleList.length := by
  induction merkleList using List.reverseRecOn generalizing x n with
  | nil => exact steps_zero.2 hfold.symm
  | append_singleton merkleList e ih =>
    rw [List.length_append, List.length_singleton] at hle ⊢
    obtain ⟨n, rfl⟩ := Nat.exists_eq_succ_of_ne_zero (Nat.ne_of_gt (Nat.zero_lt_of_lt hle))
    obtain ⟨p, hp, hn⟩ := exists_parent_of_steps hn
    obtain ⟨-, node, hnode, rfl⟩ := Frontier.parentOf_eq_some.1 hp
    have hhash := hhashes x node hnode
    rw [MerkleList.foldl_conser_append] at hfold
    exact (steps_succ hp).2 (ih hn (Nat.le_of_succ_le_succ hle) (hfree _ _ _ _ (hfold.trans hhash.symm)).1)

/-- **A proof that is accepted does not lie**: without collisions, its root is the ancestor of its best tip that is as
far above as its list is long, whoever made the proof. -/
theorem accepted_root_is_ancestor (t : Frontier) (hash : Nat → Body → Nat) (bodyHash : Breadcrumb → Body)
    (hhashes : HashesHold hash bodyHash t) (hfree : ∀ p e p' e', hash p e = hash p' e' → p = p' ∧ e = e')
    (globalMaxLength : Int) (genesisStateHash : Nat) (validateProof : Breadcrumb → Bool) (proof : BestTipProof Body)
    (root tip : Breadcrumb)
    (h : verifyBestTip hash bodyHash globalMaxLength genesisStateHash validateProof proof = .ok (root, tip)) (n : Nat)
    (hn : Steps t.parentOf t.root (stateHashOf hash bodyHash tip) n) (hle : proof.merkleList.length ≤ n) :
    Steps t.parentOf (stateHashOf hash bodyHash root) (stateHashOf hash bodyHash tip) proof.merkleList.length := by
  unfold verifyBestTip at h
  dsimp only at h
  split at h
  · split at h
    · cases h
    · rename_i hashes hsome
      split at h
      · obtain ⟨rfl, rfl⟩ := Prod.mk.inj (Except.ok.inj h)
        have hfold := (MerkleList.verify_isSome hash).1 (Option.isSome_iff_exists.2 ⟨hashes, hsome⟩)
        exact hhashes.steps_of_foldl_conser hfree hn hle hfold.symm
      · cases h
  · cases h

/-! ### One branch -/

/-- A hash of the states of the branch at every other slot. -/
def evenHash (previous : Nat) (_ : Unit) : Nat :=
  if previous = 10 then 21 else if previous = 11 then 20 else previous + 10

theorem evenHash_free (p : Nat) (e : Unit) (p' : Nat) (e' : Unit) (h : evenHash p e = evenHash p' e') : p = p' ∧ e = e' := by
  unfold evenHash at h
  exact ⟨by split_ifs at h <;> omega, rfl⟩

theorem exists_evenFrontier : ∃ t, t.root = 10 ∧ t.bestTip = 41 ∧
    Reachable smallStateHashes smallHashes smallConstants 3
      (KeepsBestTip smallHashes smallConstants) t ∧
    HashesHold evenHash (fun _ => ()) t ∧ Steps t.parentOf t.root 41 3 := by
  have hrun : (frontierAfter (fun t b => wellMade t b && decide (b.parentHash = t.bestTip))
      (evenBranch.take 3)).any (fun t => t.root = 10 && t.bestTip = 41 &&
        t.table.toList.all fun e => evenHash e.2.breadcrumb.parentHash () = e.1) = true := by
    decide
  obtain ⟨t, ht, hlast⟩ := (Option.any_eq_true _ _).1 hrun
  simp only [Bool.and_eq_true, decide_eq_true_eq, List.all_eq_true] at hlast
  obtain ⟨⟨hroot, htip⟩, hall⟩ := hlast
  have hr : Reachable smallStateHashes smallHashes smallConstants 3
      (KeepsBestTip smallHashes smallConstants) t := by
    refine reachable_frontierAfter (fun t b h => ?_) ht
    rw [Bool.and_eq_true, decide_eq_true_eq] at h
    exact ⟨addable_of_wellMade h.1, keepsBestTip_of_parentHash_eq h.2⟩
  have hhashes : HashesHold evenHash (fun _ => ()) t := fun x node hnode =>
    hall (x, node) (Std.ExtTreeMap.mem_toList_iff_getElem?_eq_some.2 hnode)
  obtain ⟨hs, -, hmem⟩ := hr.sound (by decide)
  obtain ⟨tip, -, htipHash, hstored⟩ := hs.findExn_ok hmem
  obtain ⟨n, hheight, hsteps, -⟩ := hs.merkleList_root hhashes hstored
  rw [htipHash, htip, hroot] at hheight
  obtain rfl : 3 = n := Nat.add_left_cancel hheight
  exact ⟨t, hroot, htip, hr, hhashes, htip ▸ htipHash ▸ hsteps⟩

theorem accepted_root_is_ancestor_three_blocks : ∃ t : Frontier, Steps t.parentOf 10 41 3 := by
  obtain ⟨t, -, -, -, hhashes, hsteps⟩ := exists_evenFrontier
  exact ⟨t, accepted_root_is_ancestor t evenHash (fun _ => ()) hhashes evenHash_free 3 0 (fun _ => true)
    ⟨⟨41, ⟨31, smallGenesisState⟩, ∅⟩, [(), (), ()], genesisBreadcrumb⟩ genesisBreadcrumb
    ⟨41, ⟨31, smallGenesisState⟩, ∅⟩ rfl 3 hsteps le_rfl⟩

end MinaProtocol.TransitionFrontier
