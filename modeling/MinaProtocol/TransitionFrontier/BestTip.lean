import MinaProtocol.Consensus.Descent
import MinaProtocol.TransitionFrontier.Runs

/-!
# TransitionFrontier.BestTip

The best tip of a frontier whose blocks carry the consensus states of their chains. Where
the root moves to an heir that the best tip is not below, the new breadcrumb has the
longer chain. That is enough to be preferred in short range. In long range the virtual
densities come first, and a best tip with the higher one is kept and removed.
-/

namespace MinaProtocol.TransitionFrontier

open Std Consensus ParentTree

variable {H : StateHashes} {hashes : Hashes} {constants : Constants} {t t' : Frontier} {b : Breadcrumb}
  {maxLength heir : Nat}

namespace Breadcrumb

/-- The consensus state of the block. -/
def consensusState (b : Breadcrumb) : ConsensusState := b.protocolState.consensusState

/-- `blockchain_length`, as a number. -/
def blockchainLength (b : Breadcrumb) : Nat := b.consensusState.blockchainLength.toNat

end Breadcrumb

/-- The consensus state is made by a block from the one of the parent. -/
def ProducedOn (hashes : Hashes) (constants : Constants) (t : Frontier) (b : Breadcrumb) : Prop :=
  ∃ parentNode block, t.table[b.parentHash]? = some parentNode
    ∧ update hashes constants parentNode.breadcrumb.consensusState block = .ok b.consensusState

/-- The length of the chain does not wrap. -/
def LengthFits (t : Frontier) (b : Breadcrumb) : Prop :=
  ∀ parentNode, t.table[b.parentHash]? = some parentNode → parentNode.breadcrumb.blockchainLength + 1 < 2 ^ 32

/-- The breadcrumb is in short range of the tip, or its virtual density is not lower. -/
def Rivals (constants : Constants) (tip b : ConsensusState) : Prop :=
  ShortRange constants tip b
    ∨ virtualMinWindowDensity constants (GlobalSlot.max b.currGlobalSlot tip.currGlobalSlot) tip
      ≤ virtualMinWindowDensity constants (GlobalSlot.max b.currGlobalSlot tip.currGlobalSlot) b

/-- If the breadcrumb moves the root off the branch of the best tip, it rivals the best tip. -/
def RivalsBestTip (constants : Constants) (t : Frontier) (b : Breadcrumb) : Prop :=
  ∀ tip heir, t.bestTipBreadcrumb = .ok tip → MovesRoot t b heir → ¬ Below t.parentOf heir t.bestTip →
    Rivals constants tip.consensusState b.consensusState

theorem select_longer_iff (h3 : EpochInThirds constants) {existing candidate : WithHash}
    (hlt : existing.data.blockchainLength < candidate.data.blockchainLength) :
    select hashes constants existing candidate = some .take
      ↔ Rivals constants existing.data candidate.data := by
  have hrank : rank hashes existing candidate = .lt := rank_lt_of_blockchainLength_lt hlt
  rw [select_eq (isShortRange_eq h3 existing.data candidate.data), Option.some.injEq]
  unfold choiceRank Rivals
  by_cases hshort : ShortRange constants existing.data candidate.data
  · simp [hshort, hrank]
  · simp only [hshort, decide_false, Bool.false_eq_true, if_false, false_or]
    unfold longRank
    rw [hrank]
    generalize virtualMinWindowDensity constants _ existing.data = x
    generalize virtualMinWindowDensity constants _ candidate.data = y
    rw [UInt32.le_iff_toNat_le]
    cases hc : compare x y with
    | lt =>
      have := UInt32.lt_iff_toNat_lt.1 (Std.compare_eq_lt.1 hc)
      simpa [Ordering.then] using this.le
    | eq => simp [Ordering.then, Std.LawfulEqOrd.eq_of_compare hc]
    | gt =>
      have := UInt32.lt_iff_toNat_lt.1 (Std.compare_eq_gt.1 hc)
      simpa [Ordering.then] using this

/-- The lengths of the chains follow the heights of their hashes. -/
def LengthsFollow (H : StateHashes) (t : Frontier) : Prop :=
  ∀ (hash hash' : Nat) (node node' : Node), t.table[hash]? = some node → t.table[hash']? = some node' →
    node.breadcrumb.blockchainLength + H.height hash' = node'.breadcrumb.blockchainLength + H.height hash

theorem ProducedOn.blockchainLength_eq (h : ProducedOn hashes constants t b) (hfits : LengthFits t b)
    {parentNode : Node} (hp : t.table[b.parentHash]? = some parentNode) :
    b.blockchainLength = parentNode.breadcrumb.blockchainLength + 1 := by
  obtain ⟨pn, block, hpn, hupdate⟩ := h
  obtain rfl := Option.some.inj (hp.symm.trans hpn)
  have hlen := congrArg UInt32.toNat (updated_of_update hupdate).blockchainLength
  have hlt := hfits parentNode hp
  unfold Breadcrumb.blockchainLength at hlt ⊢
  rw [hlen, UInt32.toNat_add, UInt32.toNat_one]
  omega

theorem LengthsFollow.step (hl : LengthsFollow H t) (hb : HashedBy H b)
    (hprod : ProducedOn hashes constants t b) (hfits : LengthFits t b)
    (hent : ∀ (hash : Nat) (node : Node), t'.table[hash]? = some node → Entered t b hash node) :
    LengthsFollow H t' := by
  obtain ⟨parentNode, -, hp, -⟩ := id hprod
  have hlen := hprod.blockchainLength_eq hfits hp
  have hheight := hb.height_eq
  intro hash hash' node node' hn hn'
  obtain ⟨rfl, hb₁⟩ | ⟨old, hold, hb₁⟩ := hent hash node hn <;>
    obtain ⟨rfl, hb₂⟩ | ⟨old', hold', hb₂⟩ := hent hash' node' hn' <;> rw [hb₁, hb₂]
  · have := hl _ _ parentNode old' hp hold'
    omega
  · have := hl _ _ old parentNode hold hp
    omega
  · exact hl _ _ old old' hold hold'

theorem MovesRoot.longer (hm : MovesRoot t b heir) (hs : Sound H t t.maxLength)
    (hl : LengthsFollow H t) (hprod : ProducedOn hashes constants t b) (hfits : LengthFits t b)
    {hash : Nat} {node : Node} (hnode : t.table[hash]? = some node) :
    node.breadcrumb.blockchainLength < b.blockchainLength := by
  obtain ⟨⟨parentNode, rootNode, hp, hroot, hlong⟩, -, -⟩ := hm
  have hlen := hprod.blockchainLength_eq hfits hp
  have := hl _ _ node parentNode hnode hp
  have := hs.height_le hnode
  have := hs.length_eq _ parentNode rootNode hp hroot
  omega

/-- A step of the run, with the chains. -/
structure Produced (hashes : Hashes) (constants : Constants) (t : Frontier) (b : Breadcrumb) : Prop where
  producedOn : ProducedOn hashes constants t b
  lengthFits : LengthFits t b
  rivals : RivalsBestTip constants t b

theorem select_take_iff_rivals (hs : Sound H t t.maxLength) (hl : LengthsFollow H t)
    (hprod : ProducedOn hashes constants t b) (hfits : LengthFits t b) (hm : MovesRoot t b heir)
    (htip : t.bestTip ∈ t.table) {tip : Breadcrumb} (hfind : t.bestTipBreadcrumb = .ok tip) :
    select hashes constants tip.consensusStateWithHashes b.consensusStateWithHashes = some .take
      ↔ Rivals constants tip.consensusState b.consensusState := by
  obtain ⟨parentNode, block, hp, hupdate⟩ := id hprod
  have h3 := (updated_of_update hupdate).epochInThirds
  obtain ⟨tip', hfind', -, node, hnode, hnodeEq⟩ := hs.findExn_ok htip
  obtain rfl := Except.ok.inj (hfind.symm.trans hfind')
  have hlt := hm.longer hs hl hprod hfits hnode
  rw [hnodeEq] at hlt
  exact select_longer_iff h3 (UInt32.lt_iff_toNat_lt.2 hlt)

theorem Produced.keepsBestTip (hs : Sound H t t.maxLength) (hl : LengthsFollow H t) (htip : t.bestTip ∈ t.table)
    (h : Produced hashes constants t b) : KeepsBestTip hashes constants t b := by
  intro tip heir hfind hm hnot
  rw [(select_take_iff_rivals hs hl h.producedOn h.lengthFits hm htip hfind).2 (h.rivals tip heir hfind hm hnot)]
  simp

theorem create_lengthsFollow {rootBreadcrumb : Breadcrumb} {protocolStates : List (Nat × ProtocolState)}
    (h : create rootBreadcrumb protocolStates maxLength = .ok t) : LengthsFollow H t := by
  have hone := create_entries h
  intro hash hash' node node' hn hn'
  obtain ⟨rfl, rfl⟩ := hone hash node hn
  obtain ⟨rfl, rfl⟩ := hone hash' node' hn'
  rfl

/-- The runs in which the consensus states are those of the chains. -/
theorem Reachable.produced (hpos : 1 ≤ maxLength)
    (hr : Reachable H hashes constants maxLength (Produced hashes constants) t) :
    Sound H t t.maxLength ∧ t.maxLength = maxLength ∧ t.bestTip ∈ t.table ∧ LengthsFollow H t := by
  induction hr with
  | create hb hreq h =>
    obtain ⟨hs, hmax, htip⟩ := create_sound hb hreq h
    exact ⟨hs, hmax, htip, create_lengthsFollow h⟩
  | add _ ha hprod h ih =>
    obtain ⟨hs, hmax, htip, hl⟩ := ih
    obtain ⟨tip, status, rootDiffs, hfind, hsel, hstep⟩ := addStep_of_addBreadcrumb hs (by omega) htip ha h
    refine ⟨hstep.sound, hstep.maxLength_eq.trans hmax,
      hstep.bestTip_mem hs htip (hprod.keepsBestTip hs hl htip) hfind hsel, ?_⟩
    exact hl.step ha.hashed hprod.producedOn hprod.lengthFits hstep.entries

/-- The best tip is in the table, and what is read from it is found. -/
structure HasBestTip (t : Frontier) : Prop where
  mem : t.bestTip ∈ t.table
  bestTip : ∃ tip, t.bestTipBreadcrumb = .ok tip
  path : ∀ maxLength, ∃ path, t.bestTipPath maxLength = .ok path
  length : ∃ length, t.bestTipPathLengthExn = .ok length

theorem Sound.hasBestTip (hs : Sound H t t.maxLength) (htip : t.bestTip ∈ t.table) : HasBestTip t := by
  obtain ⟨tip, hfind, htipHash, hstored⟩ := hs.findExn_ok htip
  obtain ⟨node, hnode⟩ := Frontier.exists_node htip
  obtain ⟨rootNode, hroot, -⟩ := hs.tree.root_mem
  refine ⟨htip, ⟨tip, hfind⟩, fun maxLength => ?_, ⟨(node.length : Int) - rootNode.length, ?_⟩⟩
  · unfold Frontier.bestTipPath Frontier.bestTipBreadcrumb
    rw [hfind, ok_bind]
    by_cases htipRoot : tip.stateHash = t.root
    · unfold Frontier.pathMap Frontier.fuel
      rw [Frontier.findPath]
      split
      · exact ⟨_, rfl⟩
      · exact ⟨[], rfl⟩
    · have hup := Sound.parentOf_stored hstored htipRoot
      have hheight := hs.ranked _ _ hup
      rw [htipHash] at hheight
      have := hs.height_le hnode
      refine hs.findPath_ok (hs.mem_of_parentOf hup).2 ?_
      unfold Frontier.fuel
      omega
  · unfold Frontier.bestTipPathLengthExn
    rw [hnode, hroot]
    rfl

/-- **The best tip is never collected**, as long as each breadcrumb that moves the root off
its branch rivals it; and it is collected by the first that does not. -/
theorem best_tip_never_collected (H : StateHashes) (hashes : Hashes) (constants : Constants)
    (maxLength : Nat) (hpos : 1 ≤ maxLength) (t : Frontier)
    (hr : Reachable H hashes constants maxLength (Produced hashes constants) t) :
    HasBestTip t ∧ ∀ b t', Addable H t b → ProducedOn hashes constants t b → LengthFits t b →
      t.addBreadcrumb hashes constants b = .ok t' → (HasBestTip t' ↔ RivalsBestTip constants t b) := by
  obtain ⟨hs, hmax, htip, hl⟩ := hr.produced hpos
  refine ⟨hs.hasBestTip htip, fun b t' ha hprod hfits h => ?_⟩
  obtain ⟨tip, status, rootDiffs, hfind, hsel, hstep⟩ := addStep_of_addBreadcrumb hs (by omega) htip ha h
  constructor
  · intro hhas tip' heir hfind' hm hnot
    obtain rfl := Except.ok.inj (hfind.symm.trans hfind')
    obtain htake | hbelow := (hstep.bestTip_mem_iff hs htip).1 hhas.mem
    · rw [htake] at hsel
      exact (select_take_iff_rivals hs hl hprod hfits hm htip hfind).1 hsel
    · exact absurd (hbelow heir hm) hnot
  · intro hrivals
    have hkeeps : KeepsBestTip hashes constants t b :=
      Produced.keepsBestTip hs hl htip ⟨hprod, hfits, hrivals⟩
    exact hstep.sound.hasBestTip (hstep.bestTip_mem hs htip hkeeps hfind hsel)

/-! ### A best tip that is collected -/

theorem producedOn_of_wellMade (h : wellMade t b = true) : ProducedOn smallHashes smallConstants t b := by
  unfold wellMade at h
  obtain ⟨-, hparent⟩ := (Bool.and_eq_true _ _).mp h
  obtain ⟨parentNode, hp, hupdate⟩ := (Option.any_eq_true _ _).1 hparent
  exact ⟨parentNode, _, hp, of_decide_eq_true hupdate⟩

/-- The chain of the parent is short. -/
def onShortChain (t : Frontier) (b : Breadcrumb) : Bool :=
  t.table[b.parentHash]?.all fun parentNode => decide (parentNode.breadcrumb.blockchainLength < 100)

theorem lengthFits_of_onShortChain (h : onShortChain t b = true) : LengthFits t b := by
  intro parentNode hp
  unfold onShortChain at h
  rw [hp, Option.all_some, decide_eq_true_eq] at h
  omega

/-- The best tip is extended until the root moves, and once more. -/
theorem best_tip_never_collected_one_branch :
    ∃ t, t.root = 21 ∧ HasBestTip t ∧ ∃ b t', t.addBreadcrumb smallHashes smallConstants b = .ok t'
      ∧ (HasBestTip t' ↔ RivalsBestTip smallConstants t b) := by
  have hrun : (frontierAfter (fun t b => wellMade t b && onShortChain t b && decide (b.parentHash = t.bestTip))
      (evenBranch.take 4)).any (fun t => t.root = 21 && (evenBranch.drop 4).all fun b =>
        wellMade t b && onShortChain t b && (t.addBreadcrumb smallHashes smallConstants b).toOption.isSome) = true := by
    decide
  obtain ⟨t, ht, hlast⟩ := (Option.any_eq_true _ _).1 hrun
  rw [Bool.and_eq_true, decide_eq_true_eq] at hlast
  have hb := List.all_eq_true.1 hlast.2 (onParent (onParent (onParent (onParent (onParent genesisBreadcrumb
    21 1) 31 3) 41 5) 51 7) 61 9) (by simp [evenBranch, branch])
  rw [Bool.and_eq_true, Bool.and_eq_true] at hb
  obtain ⟨⟨hmade, hshort⟩, hsome⟩ := hb
  have hr : Reachable smallStateHashes smallHashes smallConstants 3 (Produced smallHashes smallConstants) t := by
    refine reachable_frontierAfter (fun t b h => ?_) ht
    rw [Bool.and_eq_true, Bool.and_eq_true, decide_eq_true_eq] at h
    refine ⟨addable_of_wellMade h.1.1, producedOn_of_wellMade h.1.1, lengthFits_of_onShortChain h.1.2, ?_⟩
    intro tip heir _ hm hnot
    rw [← h.2] at hnot
    exact absurd hm.heir_above hnot
  have hkept := best_tip_never_collected smallStateHashes smallHashes smallConstants 3 (by decide) t hr
  obtain ⟨t', ht'⟩ := Option.isSome_iff_exists.1 hsome
  have hadd := eq_ok_of_toOption ht'
  exact ⟨t, hlast.1, hkept.1, _, t', hadd, hkept.2 _ t' (addable_of_wellMade hmade)
    (producedOn_of_wellMade hmade) (lengthFits_of_onShortChain hshort) hadd⟩

/-- The late branch moves the root, but the even branch is denser. -/
theorem best_tip_collected_two_branches :
    ∃ t, Reachable smallStateHashes smallHashes smallConstants 3 (ProducedOn smallHashes smallConstants) t
      ∧ t.bestTip ∉ t.table := by
  have hrun : (frontierAfter wellMade (evenBranch.take 3 ++ lateBranch.take 4)).any
      (fun t => !decide (t.bestTip ∈ t.table)) = true := by
    decide
  obtain ⟨t, ht, hlast⟩ := (Option.any_eq_true _ _).1 hrun
  refine ⟨t, reachable_frontierAfter (fun t b h => ⟨addable_of_wellMade h, producedOn_of_wellMade h⟩) ht, ?_⟩
  simpa using hlast

end MinaProtocol.TransitionFrontier
