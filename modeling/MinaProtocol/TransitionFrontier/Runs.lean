import MinaProtocol.Consensus.EpochHistory
import MinaProtocol.TransitionFrontier.Additions

/-!
# TransitionFrontier.Runs

Frontiers that are reached by adding breadcrumbs. The table stays a tree. The one search
that can fail is the one for the best tip: the root moves for any breadcrumb that is too far
above it, and takes the best tip with it unless that is below the heir, or the new
breadcrumb becomes the best tip.
-/

namespace MinaProtocol.TransitionFrontier

open Std Consensus ParentTree

variable {H : StateHashes} {hashes : Hashes} {constants : Constants} {t t' : Frontier} {b : Breadcrumb}
  {parentNode : Node} {maxLength : Nat} {protocolStates : List (Nat × ProtocolState)} {rootBreadcrumb : Breadcrumb}

/-- A breadcrumb that is built on an entry of the table. -/
structure Addable (H : StateHashes) (t : Frontier) (b : Breadcrumb) : Prop where
  hashed : HashedBy H b
  parent : ∃ parentNode, t.table[b.parentHash]? = some parentNode ∧ BuiltOn b parentNode.breadcrumb

/-- The breadcrumb moves the root to the heir. -/
structure MovesRoot (t : Frontier) (b : Breadcrumb) (heir : Nat) : Prop where
  too_long : ∃ parentNode rootNode, t.table[b.parentHash]? = some parentNode
    ∧ t.table[t.root]? = some rootNode ∧ rootNode.length + t.maxLength < parentNode.length + 1
  heir_parent : t.parentOf heir = some t.root
  heir_above : Below t.parentOf heir b.parentHash

/-- What a root transition does to the table, once the breadcrumb is in it. -/
structure RootMoved (t : Frontier) (b : Breadcrumb) (newRoot : LimitedRootData) (garbage : List Breadcrumb)
    (t' : Frontier) : Prop where
  root_eq : t'.root = newRoot.stateHash
  removes : ∃ t₁, t.applyDiff (.newNode b) = .ok t₁
    ∧ (∀ hash, hash ∈ t'.table ↔ hash ∈ t₁.table ∧ hash ≠ t₁.root ∧ Below t₁.parentOf newRoot.stateHash hash)
    ∧ (∀ hash, hash ∈ garbage.map Breadcrumb.stateHash
      ↔ hash ∈ t₁.table ∧ hash ≠ t₁.root ∧ ¬ Below t₁.parentOf newRoot.stateHash hash)
    ∧ (garbage.map Breadcrumb.stateHash).Pairwise fun x y => ¬ Below t₁.parentOf x y

/-! ### One addition -/

variable (hs : Sound H t t.maxLength)
  {check : Frontier → Breadcrumb → Bool} {Kind : Frontier → Breadcrumb → Prop} {rootNode : Node} {status : SelectStatus} {rootDiffs : List Diff} {bs : List Breadcrumb} {hash : Nat} {α : Type}
  {x : Except Exn α}

include hs

theorem rootDiffs_ok (hpos : 1 ≤ t.maxLength) (hb : HashedBy H b)
    (hp : t.table[b.parentHash]? = some parentNode) (hroot : t.table[t.root]? = some rootNode) :
    t.rootDiffs b parentNode rootNode = .ok [] ∧ parentNode.length + 1 ≤ rootNode.length + t.maxLength
      ∨ ∃ heir states garbage, t.rootDiffs b parentNode rootNode
          = .ok [.rootTransitioned ⟨heir.stateHash, states⟩ garbage]
        ∧ MovesRoot t b heir.stateHash ∧ t.table[heir.stateHash]?.map Node.breadcrumb = some heir
        ∧ states.map Prod.fst = heir.requiredStateHashes.toList ∧ IsGarbage t heir.stateHash garbage := by
  by_cases hlong : rootNode.length + t.maxLength < parentNode.length + 1
  · right
    have hmem := Frontier.mem_table hp
    have hlow := hs.height_root_le hmem
    have hhigh := hs.height_le hp
    have hheight := hb.height_eq
    have hbroot : b.stateHash ≠ t.root := by
      intro heq
      rw [heq] at hheight
      omega
    have hproot : b.parentHash ≠ t.root := by
      intro heq
      rw [heq, hroot] at hp
      obtain rfl := Option.some.inj hp
      omega
    have hfuel : H.height b.parentHash + 1 ≤ H.height t.root + t.fuel := by
      unfold Frontier.fuel
      omega
    obtain ⟨heirHash, rest, hpath, hheir, habove⟩ := hs.findPath_head [] hbroot hmem hproot hfuel
    obtain ⟨heir, hfind, rfl, hstored⟩ := hs.findExn_ok (hs.mem_of_parentOf hheir).1
    obtain ⟨states, garbage, hdiff, hstates, hg⟩ := hs.calculateRootTransitionDiff_ok hstored hheir
    refine ⟨heir, states, garbage, ?_, ⟨⟨parentNode, rootNode, hp, hroot, hlong⟩, hheir, habove⟩, ?_, hstates, hg⟩
    · unfold Frontier.rootDiffs Frontier.hashPath Frontier.pathMap
      rw [if_pos (by omega), hpath, ok_bind, List.head?_cons, getExn_some, ok_bind, hfind, ok_bind, hdiff]
      rfl
    · obtain ⟨heirNode, hheirNode, rfl⟩ := hstored
      rw [hheirNode]
      rfl
  · left
    unfold Frontier.rootDiffs
    rw [if_neg (by omega)]
    exact ⟨rfl, by omega⟩

theorem not_too_long_of_mem (hb : HashedBy H b) (hmem : b.stateHash ∈ t.table)
    (hp : t.table[b.parentHash]? = some parentNode) (hroot : t.table[t.root]? = some rootNode) :
    parentNode.length + 1 ≤ rootNode.length + t.maxLength := by
  obtain ⟨node, hnode⟩ := Frontier.exists_node hmem
  have hheight := hb.height_eq
  have := hs.height_le hnode
  have := hs.length_eq _ parentNode rootNode hp hroot
  omega

omit hs

theorem newNode_ok (hb : HashedBy H b) (hp : t.table[b.parentHash]? = some parentNode) :
    (b.stateHash ∈ t.table ∧ t.applyDiff (.newNode b) = .ok t)
      ∨ b.stateHash ∉ t.table ∧ ∃ t₁, t.applyDiff (.newNode b) = .ok t₁ ∧ Inserted t b parentNode t₁ := by
  by_cases hmem : b.stateHash ∈ t.table
  · refine .inl ⟨hmem, ?_⟩
    unfold Frontier.applyDiff Frontier.findNodeExn
    dsimp only
    rw [hp, getExn_some, ok_bind, if_pos hmem]
    rfl
  · refine .inr ⟨hmem, applyDiff_newNode hp ?_ hmem⟩
    intro heq
    have := hb.height_eq
    rw [heq] at this
    omega

/-- The diffs for the best tip. -/
def tipDiffs (status : SelectStatus) (b : Breadcrumb) : List Diff :=
  if status = .take then [.bestTipChanged b.stateHash] else []

theorem applyDiffs_tip (t : Frontier) (status : SelectStatus) (b : Breadcrumb) :
    (tipDiffs status b).foldlM Frontier.applyDiff t
      = .ok { t with bestTip := if status = .take then b.stateHash else t.bestTip } := by
  cases status <;> rfl

theorem Sound.setBestTip (hs : Sound H t maxLength) (hash : Nat) : Sound H { t with bestTip := hash } maxLength where
  tree := ⟨hs.tree.root_mem, hs.tree.stateHash_eq, hs.tree.parent_mem, hs.tree.successors⟩
  hashed := hs.hashed
  builtOn := hs.builtOn
  length_eq := hs.length_eq
  required := hs.required

/-- A breadcrumb is added with the root where it was. -/
structure Stays (t : Frontier) (b : Breadcrumb) (rootDiffs : List Diff) (t' : Frontier) : Prop where
  diffs_eq : rootDiffs = []
  not_moves : ∀ heir, ¬ MovesRoot t b heir
  keeps : ∀ hash ∈ t.table, hash ∈ t'.table

/-- A breadcrumb is added and moves the root. -/
structure Moves (t : Frontier) (b : Breadcrumb) (rootDiffs : List Diff) (newRoot : LimitedRootData)
    (garbage : List Breadcrumb) (t' : Frontier) : Prop where
  diffs_eq : rootDiffs = [.rootTransitioned newRoot garbage]
  moves : MovesRoot t b newRoot.stateHash
  moved : RootMoved t b newRoot garbage t'
  keeps_iff : ∀ hash ∈ t.table, hash ∈ t'.table ↔ Below t.parentOf newRoot.stateHash hash

/-- The block of an entry is the new one, or it was in the table. -/
def Entered (t : Frontier) (b : Breadcrumb) (hash : Nat) (node : Node) : Prop :=
  (hash = b.stateHash ∧ node.breadcrumb = b)
    ∨ ∃ old, t.table[hash]? = some old ∧ node.breadcrumb = old.breadcrumb

theorem Inserted.entered (h : Inserted t b parentNode t') (hp : t.table[b.parentHash]? = some parentNode) {node : Node}
    (hnode : t'.table[hash]? = some node) : Entered t b hash node := by
  obtain ⟨rfl, rfl⟩ | ⟨-, old, hold, hbc, -⟩ := h.cases hp hnode
  · exact .inl ⟨rfl, rfl⟩
  · exact .inr ⟨old, hold, hbc⟩

/-- What an addition comes to, apart from the best tip. -/
structure AddStep (H : StateHashes) (t : Frontier) (b : Breadcrumb) (status : SelectStatus)
    (rootDiffs : List Diff) (t' : Frontier) : Prop where
  applied : (.newNode b :: rootDiffs ++ tipDiffs status b).foldlM Frontier.applyDiff t = .ok t'
  sound : Sound H t' t'.maxLength
  maxLength_eq : t'.maxLength = t.maxLength
  bestTip_eq : t'.bestTip = if status = .take then b.stateHash else t.bestTip
  new_mem : b.stateHash ∈ t'.table
  entries : ∀ (hash : Nat) (node : Node), t'.table[hash]? = some node → Entered t b hash node
  root : Stays t b rootDiffs t' ∨ ∃ newRoot garbage, Moves t b rootDiffs newRoot garbage t'

include hs in
theorem addStep_ok (hpos : 1 ≤ t.maxLength) (ha : Addable H t b) (hp : t.table[b.parentHash]? = some parentNode)
    (hroot : t.table[t.root]? = some rootNode) (status : SelectStatus) :
    ∃ rootDiffs t', t.rootDiffs b parentNode rootNode = .ok rootDiffs ∧ AddStep H t b status rootDiffs t' := by
  obtain ⟨hb, parentNode', hp', hbuilt⟩ := ha
  obtain rfl := Option.some.inj (hp.symm.trans hp')
  obtain ⟨hdiffs, hshort⟩ | ⟨heir, states, garbage, hdiffs, hmoves, hheirNode, hstates, hg⟩ :=
    rootDiffs_ok hs hpos hb hp hroot
  · have hnot : ∀ heir, ¬ MovesRoot t b heir := by
      rintro heir ⟨⟨pn, rn, hpn, hrn, hlong⟩, -, -⟩
      obtain rfl := Option.some.inj (hp.symm.trans hpn)
      obtain rfl := Option.some.inj (hroot.symm.trans hrn)
      omega
    obtain ⟨hmem, hrun⟩ | ⟨hnew, t₁, hrun, hins⟩ := newNode_ok hb hp
    · -- the breadcrumb is there already
      refine ⟨[], { t with bestTip := if status = .take then b.stateHash else t.bestTip }, hdiffs, ?_,
        hs.setBestTip _, rfl, rfl, hmem, fun hash node h => .inr ⟨node, h, rfl⟩, .inl ⟨rfl, hnot, fun _ h => h⟩⟩
      rw [List.cons_append, List.foldlM_cons, hrun, ok_bind]
      exact applyDiffs_tip t status b
    · have hs₁ : Sound H t₁ t₁.maxLength := by
        rw [hins.maxLength_eq]
        refine hins.sound hs hb hp hnew hbuilt le_rfl fun rn hrn => ?_
        rwa [← Option.some.inj (hroot.symm.trans hrn)]
      refine ⟨[], { t₁ with bestTip := if status = .take then b.stateHash else t₁.bestTip }, hdiffs, ?_,
        hs₁.setBestTip _, hins.maxLength_eq, ?_, Frontier.mem_table hins.new, fun _ _ => hins.entered hp,
        .inl ⟨rfl, hnot, fun hash h => (hins.mem_iff hp hnew).2 (.inr h)⟩⟩
      · rw [List.cons_append, List.foldlM_cons, hrun, ok_bind]
        exact applyDiffs_tip t₁ status b
      · dsimp only
        rw [hins.bestTip_eq]
  · have hnew : b.stateHash ∉ t.table := by
      intro hmem
      obtain ⟨⟨pn, rn, hpn, hrn, hlong⟩, -, -⟩ := hmoves
      obtain rfl := Option.some.inj (hp.symm.trans hpn)
      obtain rfl := Option.some.inj (hroot.symm.trans hrn)
      have := not_too_long_of_mem hs hb hmem hp hroot
      omega
    obtain ⟨hmem, -⟩ | ⟨-, t₁, hrun, hins⟩ := newNode_ok hb hp
    · exact absurd hmem hnew
    · -- the frontier with the breadcrumb, one level too high
      have hs₁ : Sound H t₁ (t.maxLength + 1) := by
        refine hins.sound hs hb hp hnew hbuilt (Nat.le_succ _) fun rn hrn => ?_
        obtain ⟨rn', hrn', hlen⟩ := hs.tree.root_mem
        obtain rfl := Option.some.inj (hrn.symm.trans hrn')
        have := hlen _ parentNode hp
        omega
      have hmemHeir := (hs.mem_of_parentOf hmoves.heir_parent).1
      have hheir₁ : t₁.parentOf heir.stateHash = some t₁.root := by
        rw [hins.parentOf_old hp hnew hmemHeir, hins.root_eq, hmoves.heir_parent]
      have hg₁ := hins.isGarbage hs hp hnew hmoves.heir_above hg
      obtain ⟨t₂, hrun₂, hmoved⟩ := moveRoot_ok hs₁ hheir₁ hg₁ hstates
      obtain ⟨heirNode, hheirNode, hheirEq⟩ := Option.map_eq_some_iff.1 hheirNode
      obtain ⟨heirNode₁, hheirNode₁, hheirEq₁, -⟩ := hins.of_old hp hnew hheirNode
      have hs₂ : Sound H t₂ t₂.maxLength := by
        rw [hmoved.maxLength_eq, hins.maxLength_eq]
        exact hmoved.sound hs₁ hheir₁ hheirNode₁ (by rw [hheirEq₁, hheirEq])
      have hbelow : Below t₁.parentOf heir.stateHash b.stateHash := by
        refine .step (hins.parentOf_new hs hnew) ?_
        rw [hins.below_iff hs hp hnew (Frontier.mem_table hp)]
        exact hmoves.heir_above
      have hnotRoot : ∀ hash, Below t₁.parentOf heir.stateHash hash → hash ≠ t₁.root := by
        rintro hash hd rfl
        exact hs₁.ranked.not_below_parent hheir₁ hd
      refine ⟨_, { t₂ with bestTip := if status = .take then b.stateHash else t₂.bestTip }, hdiffs, ?_,
        hs₂.setBestTip _, ?_, ?_, ?_, fun _ _ h => hins.entered hp (hmoved.of_mem h).2,
        .inr ⟨_, garbage, rfl, hmoves, ⟨hmoved.root_eq, t₁, hrun, ?_, hg₁.mem_iff, hg₁.ordered⟩, ?_⟩⟩
      · rw [List.cons_append, List.foldlM_cons, hrun, ok_bind, List.cons_append, List.foldlM_cons]
        unfold Frontier.applyDiff
        dsimp only
        rw [hrun₂, ok_bind]
        exact applyDiffs_tip t₂ status b
      · rw [← hins.maxLength_eq]
        exact hmoved.maxLength_eq
      · dsimp only
        rw [hmoved.bestTip_eq, hins.bestTip_eq]
      · exact hmoved.mem_iff.2 ⟨Frontier.mem_table hins.new, hbelow⟩
      · intro hash
        refine hmoved.mem_iff.trans (and_congr_right fun _ => ?_)
        exact ⟨fun hd => ⟨hnotRoot hash hd, hd⟩, fun hd => hd.2⟩
      · intro hash hmem
        rw [← hins.below_iff hs hp hnew hmem]
        exact hmoved.mem_iff.trans (and_iff_right ((hins.mem_iff hp hnew).2 (.inr hmem)))

theorem addBreadcrumb_ok (hashes : Hashes) (constants : Constants) (hs : Sound H t t.maxLength) (hpos : 1 ≤ t.maxLength) (htip : t.bestTip ∈ t.table)
    (ha : Addable H t b) : ∃ tip, t.bestTipBreadcrumb = .ok tip ∧ tip.stateHash = t.bestTip ∧
      ((select hashes constants tip.consensusStateWithHashes b.consensusStateWithHashes = none
          ∧ t.calculateDiffs hashes constants b = .error .assertFailed) ∨ ∃ status rootDiffs t',
          select hashes constants tip.consensusStateWithHashes b.consensusStateWithHashes = some status
          ∧ t.calculateDiffs hashes constants b = .ok (.newNode b :: rootDiffs ++ tipDiffs status b)
          ∧ t.applyDiffs (.newNode b :: rootDiffs ++ tipDiffs status b) = .ok t'
          ∧ AddStep H t b status rootDiffs t') := by
  obtain ⟨parentNode, hp, -⟩ := ha.parent
  obtain ⟨rootNode, hroot, -⟩ := hs.tree.root_mem
  obtain ⟨tip, hfind, htipHash, -⟩ := hs.findExn_ok htip
  refine ⟨tip, hfind, htipHash, ?_⟩
  have hcalc : ∀ rootDiffs, t.rootDiffs b parentNode rootNode = .ok rootDiffs →
      t.calculateDiffs hashes constants b = (do
        let status ← getExn .assertFailed <|
          select hashes constants tip.consensusStateWithHashes b.consensusStateWithHashes
        return .newNode b :: rootDiffs ++ tipDiffs status b) := by
    intro rootDiffs hdiffs
    unfold Frontier.calculateDiffs Frontier.findNodeExn Frontier.bestTipBreadcrumb
    rw [hp, getExn_some, ok_bind, hroot, getExn_some, ok_bind, hfind, ok_bind, hdiffs, ok_bind]
    rfl
  cases hsel : select hashes constants tip.consensusStateWithHashes b.consensusStateWithHashes with
  | none =>
    obtain ⟨rootDiffs, -, hdiffs, -⟩ := addStep_ok hs hpos ha hp hroot .keep
    refine .inl ⟨rfl, ?_⟩
    rw [hcalc rootDiffs hdiffs, hsel]
    rfl
  | some status =>
    obtain ⟨rootDiffs, t', hdiffs, hstep⟩ := addStep_ok hs hpos ha hp hroot status
    refine .inr ⟨status, rootDiffs, t', rfl, ?_, ?_, hstep⟩
    · rw [hcalc rootDiffs hdiffs, hsel]
      rfl
    · unfold Frontier.applyDiffs Frontier.bestTipBreadcrumb
      rw [hfind, ok_bind]
      exact hstep.applied

/-! ### Runs -/

/-- The best tip is not left behind: it is below the heir, or the breadcrumb is preferred. -/
def KeepsBestTip (hashes : Hashes) (constants : Constants) (t : Frontier) (b : Breadcrumb) : Prop :=
  ∀ tip heir, t.bestTipBreadcrumb = .ok tip → MovesRoot t b heir → ¬ Below t.parentOf heir t.bestTip →
    select hashes constants tip.consensusStateWithHashes b.consensusStateWithHashes ≠ some .keep

/-- The frontiers that additions of the kind lead to. -/
inductive Reachable (H : StateHashes) (hashes : Hashes) (constants : Constants) (maxLength : Nat)
    (Kind : Frontier → Breadcrumb → Prop) : Frontier → Prop
  | create {rootBreadcrumb : Breadcrumb} {protocolStates : List (Nat × ProtocolState)} {t : Frontier} :
      HashedBy H rootBreadcrumb →
      (∀ hash ∈ rootBreadcrumb.requiredStateHashes, hash ∈ protocolStates.map Prod.fst) →
      create rootBreadcrumb protocolStates maxLength = .ok t →
      Reachable H hashes constants maxLength Kind t
  | add {t t' : Frontier} {b : Breadcrumb} :
      Reachable H hashes constants maxLength Kind t → Addable H t b → Kind t b →
      t.addBreadcrumb hashes constants b = .ok t' → Reachable H hashes constants maxLength Kind t'

theorem ofAlistExn_keys {l : List (Nat × ProtocolState)} {states : ProtocolStates}
    (h : ofAlistExn l = .ok states) (hmem : hash ∈ l.map Prod.fst) : hash ∈ states := by
  induction l generalizing states with
  | nil => simp at hmem
  | cons x l ih =>
    rw [ofAlistExn] at h
    cases hrest : ofAlistExn l with
    | error e =>
      rw [hrest] at h
      exact absurd h (by simp [bind, Except.bind])
    | ok rest =>
      rw [hrest, ok_bind] at h
      split at h
      · exact absurd h (by simp)
      · obtain rfl := Except.ok.inj h
        rw [ExtTreeMap.mem_insert, Nat.compare_eq_eq]
        obtain rfl | hmem := List.mem_cons.1 hmem
        · exact .inl rfl
        · exact .inr (ih hrest hmem)

variable (h : create rootBreadcrumb protocolStates maxLength = .ok t)

include h

theorem create_eq_ok :
    ∃ states, ofAlistExn protocolStates = .ok states ∧ t = {
      root := rootBreadcrumb.stateHash
      bestTip := rootBreadcrumb.stateHash
      table := (∅ : ExtTreeMap Nat Node).insert rootBreadcrumb.stateHash ⟨rootBreadcrumb, [], 0⟩
      protocolStatesForRootScanState := states
      maxLength } := by
  unfold create at h
  cases hstates : ofAlistExn protocolStates with
  | error e =>
    rw [hstates] at h
    exact absurd h (by simp [bind, Except.bind])
  | ok states =>
    rw [hstates, ok_bind] at h
    exact ⟨states, rfl, (Except.ok.inj h).symm⟩

theorem create_entries (hash : Nat) (node : Node)
    (hnode : t.table[hash]? = some node) : hash = rootBreadcrumb.stateHash ∧ node = ⟨rootBreadcrumb, [], 0⟩ := by
  obtain ⟨states, -, rfl⟩ := create_eq_ok h
  dsimp only at hnode
  rw [ExtTreeMap.getElem?_insert] at hnode
  split at hnode
  · rename_i heq
    exact ⟨(Nat.compare_eq_eq.1 heq).symm, (Option.some.inj hnode).symm⟩
  · simp at hnode

omit h

theorem create_sound (hb : HashedBy H rootBreadcrumb)
    (hreq : ∀ hash ∈ rootBreadcrumb.requiredStateHashes, hash ∈ protocolStates.map Prod.fst)
    (h : create rootBreadcrumb protocolStates maxLength = .ok t) :
    Sound H t t.maxLength ∧ t.maxLength = maxLength ∧ t.bestTip ∈ t.table := by
  have hone := create_entries h
  obtain ⟨states, hstates, rfl⟩ := create_eq_ok h
  have hself : ((∅ : ExtTreeMap Nat Node).insert rootBreadcrumb.stateHash
      ⟨rootBreadcrumb, [], 0⟩)[rootBreadcrumb.stateHash]? = some (⟨rootBreadcrumb, [], 0⟩ : Node) :=
    ExtTreeMap.getElem?_insert_self
  refine ⟨⟨⟨⟨_, hself, ?_⟩, ?_, ?_, ?_⟩, ?_, ?_, ?_, ?_⟩, rfl, Frontier.mem_table hself⟩
  · intro hash node hnode
    obtain ⟨-, rfl⟩ := hone hash node hnode
    exact Nat.le_add_right _ _
  · intro hash node hnode
    obtain ⟨rfl, rfl⟩ := hone hash node hnode
    rfl
  · intro hash node hnode hne
    exact absurd (hone hash node hnode).1 hne
  · intro hash node hnode
    obtain ⟨rfl, rfl⟩ := hone hash node hnode
    refine ⟨List.nodup_nil, fun c => ⟨by simp, ?_⟩⟩
    rintro ⟨child, hchild, hp⟩
    obtain ⟨-, rfl⟩ := hone c child hchild
    have := hb.height_eq
    dsimp only at hp
    rw [hp] at this
    omega
  · intro hash node hnode
    obtain ⟨-, rfl⟩ := hone hash node hnode
    exact hb
  · intro hash node pn hnode hne
    exact absurd (hone hash node hnode).1 hne
  · intro hash node rn hnode hrn
    obtain ⟨rfl, rfl⟩ := hone hash node hnode
    obtain ⟨-, rfl⟩ := hone _ rn hrn
    rfl
  · intro rn hrn hash hin
    obtain ⟨-, rfl⟩ := hone _ rn hrn
    exact ofAlistExn_keys hstates (hreq hash hin)

include hs

theorem AddStep.bestTip_mem_iff (h : AddStep H t b status rootDiffs t') (htip : t.bestTip ∈ t.table) :
    t'.bestTip ∈ t'.table
      ↔ status = .take ∨ ∀ heir, MovesRoot t b heir → Below t.parentOf heir t.bestTip := by
  rw [h.bestTip_eq]
  cases status with
  | take => simpa using h.new_mem
  | keep =>
    simp only [reduceCtorEq, if_false, false_or]
    obtain ⟨-, hnot, hkeeps⟩ | ⟨newRoot, garbage, -, hmoves, hmoved, hkeeps⟩ := h.root
    · exact iff_of_true (hkeeps _ htip) fun heir hm => absurd hm (hnot heir)
    · rw [hkeeps _ htip]
      refine ⟨fun hd heir hm => ?_, fun hd => hd _ hmoves⟩
      have heq : heir = newRoot.stateHash := by
        refine hs.ranked.unique hm.heir_above hmoves.heir_above ?_
        rw [hs.ranked _ _ hm.heir_parent, hs.ranked _ _ hmoves.heir_parent]
      rwa [heq]

/-- An addition that returns. -/
theorem addStep_of_addBreadcrumb (hpos : 1 ≤ t.maxLength)
    (htip : t.bestTip ∈ t.table) (ha : Addable H t b) (h : t.addBreadcrumb hashes constants b = .ok t') :
    ∃ tip status rootDiffs, t.bestTipBreadcrumb = .ok tip
      ∧ select hashes constants tip.consensusStateWithHashes b.consensusStateWithHashes = some status
      ∧ AddStep H t b status rootDiffs t' := by
  unfold Frontier.addBreadcrumb at h
  obtain ⟨tip, hfind, -, ⟨-, hcalc⟩ | ⟨status, rootDiffs, t'', hsel, hcalc, happly, hstep⟩⟩ :=
    addBreadcrumb_ok hashes constants hs hpos htip ha
  · rw [hcalc] at h
    exact absurd h (by simp [bind, Except.bind])
  · rw [hcalc, ok_bind, happly] at h
    obtain rfl := Except.ok.inj h
    exact ⟨tip, status, rootDiffs, hfind, hsel, hstep⟩

theorem AddStep.bestTip_mem (h : AddStep H t b status rootDiffs t') (htip : t.bestTip ∈ t.table)
    (hkeeps : KeepsBestTip hashes constants t b) {tip : Breadcrumb} (hfind : t.bestTipBreadcrumb = .ok tip)
    (hsel : select hashes constants tip.consensusStateWithHashes b.consensusStateWithHashes = some status) :
    t'.bestTip ∈ t'.table := by
  refine (h.bestTip_mem_iff hs htip).2 ?_
  cases status with
  | take => exact .inl rfl
  | keep =>
    refine .inr fun heir hm => ?_
    by_contra hnot
    exact hkeeps tip heir hfind hm hnot hsel

omit hs

theorem Reachable.sound (hpos : 1 ≤ maxLength)
    (hr : Reachable H hashes constants maxLength (KeepsBestTip hashes constants) t) :
    Sound H t t.maxLength ∧ t.maxLength = maxLength ∧ t.bestTip ∈ t.table := by
  induction hr with
  | create hb hreq h => exact create_sound hb hreq h
  | add _ ha hkeeps h ih =>
    obtain ⟨hs, hmax, htip⟩ := ih
    obtain ⟨tip, status, rootDiffs, hfind, hsel, hstep⟩ := addStep_of_addBreadcrumb hs (by omega) htip ha h
    exact ⟨hstep.sound, hstep.maxLength_eq.trans hmax, hstep.bestTip_mem hs htip hkeeps hfind hsel⟩

/-- No search fails in the addition, and it leaves a tree. -/
def AddsInTree (hashes : Hashes) (constants : Constants) (maxLength : Nat) (t : Frontier) (b : Breadcrumb) : Prop :=
  (∃ tip, t.bestTipBreadcrumb = .ok tip
      ∧ select hashes constants tip.consensusStateWithHashes b.consensusStateWithHashes = none
      ∧ t.calculateDiffs hashes constants b = .error .assertFailed)
    ∨ ∃ diffs t', t.calculateDiffs hashes constants b = .ok diffs ∧ t.applyDiffs diffs = .ok t'
      ∧ IsTree t' maxLength
      ∧ ∀ newRoot garbage, .rootTransitioned newRoot garbage ∈ diffs → RootMoved t b newRoot garbage t'

/-- **The frontier stays a tree**, and no search in it fails, as long as no root transition
leaves the best tip behind. -/
theorem frontier_stays_tree (H : StateHashes) (hashes : Hashes) (constants : Constants) (maxLength : Nat)
    (hpos : 1 ≤ maxLength) (t : Frontier)
    (hr : Reachable H hashes constants maxLength (KeepsBestTip hashes constants) t) :
    IsTree t maxLength ∧ ∀ b, Addable H t b → AddsInTree hashes constants maxLength t b := by
  obtain ⟨hs, hmax, htip⟩ := hr.sound hpos
  refine ⟨hmax ▸ hs.tree, fun b ha => ?_⟩
  obtain ⟨tip, hfind, -, ⟨hsel, hcalc⟩ | ⟨status, rootDiffs, t', hsel, hcalc, happly, hstep⟩⟩ :=
    addBreadcrumb_ok hashes constants hs (by omega) htip ha
  · exact .inl ⟨tip, hfind, hsel, hcalc⟩
  · refine .inr ⟨_, t', hcalc, happly, ?_, fun newRoot garbage hmem => ?_⟩
    · rw [← hmax, ← hstep.maxLength_eq]
      exact hstep.sound.tree
    · have hroot : Diff.rootTransitioned newRoot garbage ∈ rootDiffs := by
        simp only [List.cons_append, List.mem_cons, List.mem_append, reduceCtorEq, false_or] at hmem
        refine hmem.resolve_right fun htipDiff => ?_
        unfold tipDiffs at htipDiff
        split at htipDiff <;> simp at htipDiff
      obtain ⟨hnil, -, -⟩ | ⟨newRoot', garbage', hdiffs, -, hmoved, -⟩ := hstep.root
      · rw [hnil] at hroot
        simp at hroot
      · rw [hdiffs, List.mem_singleton] at hroot
        cases hroot
        exact hmoved

/-! ### Two branches -/

theorem keepsBestTip_of_parentHash_eq (h : b.parentHash = t.bestTip) : KeepsBestTip hashes constants t b := by
  intro tip heir _ hm hnot
  rw [← h] at hnot
  exact absurd hm.heir_above hnot

/-- Add the breadcrumbs, as long as the check holds before each. -/
def addChecked (hashes : Hashes) (constants : Constants) (check : Frontier → Breadcrumb → Bool) :
    Frontier → List Breadcrumb → Option Frontier
  | t, [] => some t
  | t, b :: bs =>
    if check t b then (t.addBreadcrumb hashes constants b).toOption.bind (addChecked hashes constants check · bs)
    else none

theorem eq_ok_of_toOption {a : α} (h : x.toOption = some a) : x = .ok a := by
  cases x with
  | error e => exact absurd h (by simp [Except.toOption])
  | ok a' => rw [Option.some.inj h]

theorem Reachable.addChecked (hcheck : ∀ t b, check t b = true → Addable H t b ∧ Kind t b)
    (hr : Reachable H hashes constants maxLength Kind t) (h : addChecked hashes constants check t bs = some t') :
    Reachable H hashes constants maxLength Kind t' := by
  induction bs generalizing t with
  | nil =>
    obtain rfl := Option.some.inj h
    exact hr
  | cons b bs ih =>
    rw [TransitionFrontier.addChecked] at h
    split at h
    · rename_i hb
      obtain ⟨t₁, ht₁, h⟩ := Option.bind_eq_some_iff.1 h
      exact ih (.add hr (hcheck t b hb).1 (hcheck t b hb).2 (eq_ok_of_toOption ht₁)) h
    · exact absurd h (by simp)

/-- Hashes that are numbers: the tens count the states of the chain. -/
def smallStateHashes : StateHashes where
  previous hash := if hash < 20 then 0 else if hash < 30 then 10 else hash - 10
  height hash := hash / 10

/-- The genesis block. -/
def genesisBreadcrumb : Breadcrumb := ⟨10, ⟨0, smallGenesisState⟩, ∅⟩

/-- The consensus state after a block at the slot. -/
def stateOn (parent : Breadcrumb) (slot : UInt32) : ConsensusState :=
  match update smallHashes smallConstants parent.protocolState.consensusState (blockAt slot parent.stateHash) with
  | .ok s => s
  | _ => parent.protocolState.consensusState

/-- A breadcrumb on the parent. -/
def onParent (parent : Breadcrumb) (stateHash : Nat) (slot : UInt32) : Breadcrumb :=
  ⟨stateHash, ⟨parent.stateHash, stateOn parent slot⟩, ∅⟩

/-- Breadcrumbs at the slots, one on another. -/
def branch (parent : Breadcrumb) : List (Nat × UInt32) → List Breadcrumb
  | [] => []
  | (stateHash, slot) :: rest => onParent parent stateHash slot :: branch (onParent parent stateHash slot) rest

/-- A branch with blocks at every other slot. -/
def evenBranch : List Breadcrumb := branch genesisBreadcrumb [(21, 1), (31, 3), (41, 5), (51, 7), (61, 9)]

/-- A branch that starts late and is longer afterwards. -/
def lateBranch : List Breadcrumb := branch genesisBreadcrumb [(22, 3), (32, 4), (42, 6), (52, 7), (62, 8)]

/-- The breadcrumb has a hash without collision, requires nothing, and its state is made from the
state of its parent by the block at its slot. -/
def wellMade (t : Frontier) (b : Breadcrumb) : Bool :=
  b.parentHash = smallStateHashes.previous b.stateHash
    && smallStateHashes.height b.stateHash = smallStateHashes.height b.parentHash + 1
    && b.requiredStateHashes.isEmpty
    && t.table[b.parentHash]?.any fun parentNode =>
      update smallHashes smallConstants parentNode.breadcrumb.protocolState.consensusState
        (blockAt b.protocolState.consensusState.currGlobalSlot.slotNumber b.parentHash)
        = .ok b.protocolState.consensusState

theorem addable_of_wellMade (h : wellMade t b = true) : Addable smallStateHashes t b := by
  unfold wellMade at h
  simp only [Bool.and_eq_true, decide_eq_true_eq] at h
  obtain ⟨⟨⟨hprev, hheight⟩, hempty⟩, hparent⟩ := h
  obtain ⟨parentNode, hp, -⟩ := (Option.any_eq_true _ _).1 hparent
  refine ⟨⟨hprev, hheight⟩, parentNode, hp, fun hash hmem => ?_⟩
  rw [ExtTreeSet.isEmpty_iff.1 hempty] at hmem
  simp at hmem

/-- The frontier of the genesis block after the breadcrumbs. -/
def frontierAfter (check : Frontier → Breadcrumb → Bool) (bs : List Breadcrumb) : Option Frontier :=
  (create genesisBreadcrumb [] 3).toOption.bind (addChecked smallHashes smallConstants check · bs)

theorem reachable_frontierAfter (hcheck : ∀ t b, check t b = true → Addable smallStateHashes t b ∧ Kind t b)
    (h : frontierAfter check bs = some t) : Reachable smallStateHashes smallHashes smallConstants 3 Kind t := by
  obtain ⟨t₀, ht₀, h⟩ := Option.bind_eq_some_iff.1 h
  refine Reachable.addChecked hcheck (@Reachable.create _ _ _ _ _ genesisBreadcrumb [] _ ?_ ?_ ?_) h
  · exact ⟨rfl, rfl⟩
  · intro hash hmem
    exact absurd hmem ExtTreeSet.not_mem_empty
  · exact congrArg Except.ok (Option.some.inj ht₀)

/-- The search fails. -/
def searchFails {α : Type} (x : Except Exn α) : Bool :=
  match x with
  | .error e => e = .notFound
  | .ok _ => false

theorem searchFails_iff : searchFails x = true ↔ x = .error .notFound := by
  cases x <;> simp [searchFails]

/-- The long branch moves the root, and the short one stays the best tip. -/
theorem best_tip_search_fails_two_branches :
    ∃ t b, Reachable smallStateHashes smallHashes smallConstants 3 (fun _ _ => True) t
      ∧ Addable smallStateHashes t b
      ∧ t.calculateDiffs smallHashes smallConstants b = .error .notFound := by
  have hrun : (frontierAfter wellMade (evenBranch.take 3 ++ lateBranch.take 4)).any (fun t =>
      (lateBranch.drop 4).all fun b =>
        wellMade t b && searchFails (t.calculateDiffs smallHashes smallConstants b)) = true := by
    decide
  obtain ⟨t, ht, hlast⟩ := (Option.any_eq_true _ _).1 hrun
  have hb := List.all_eq_true.1 hlast (onParent (onParent (onParent (onParent (onParent genesisBreadcrumb
    22 3) 32 4) 42 6) 52 7) 62 8) (by simp [lateBranch, branch])
  rw [Bool.and_eq_true, searchFails_iff] at hb
  exact ⟨t, _, reachable_frontierAfter (fun t b h => ⟨addable_of_wellMade h, trivial⟩) ht,
    addable_of_wellMade hb.1, hb.2⟩

/-- The best tip is extended until the root moves. -/
theorem frontier_stays_tree_one_branch :
    ∃ t, t.root = 21 ∧ IsTree t 3 ∧ ∃ b, AddsInTree smallHashes smallConstants 3 t b := by
  have hrun : (frontierAfter (fun t b => wellMade t b && decide (b.parentHash = t.bestTip))
      (evenBranch.take 4)).any (fun t => t.root = 21 && (evenBranch.drop 4).all (wellMade t)) = true := by
    decide
  obtain ⟨t, ht, hlast⟩ := (Option.any_eq_true _ _).1 hrun
  rw [Bool.and_eq_true, decide_eq_true_eq] at hlast
  have hb := List.all_eq_true.1 hlast.2 (onParent (onParent (onParent (onParent (onParent genesisBreadcrumb
    21 1) 31 3) 41 5) 51 7) 61 9) (by simp [evenBranch, branch])
  have hr : Reachable smallStateHashes smallHashes smallConstants 3
      (KeepsBestTip smallHashes smallConstants) t := by
    refine reachable_frontierAfter (fun t b h => ?_) ht
    rw [Bool.and_eq_true, decide_eq_true_eq] at h
    exact ⟨addable_of_wellMade h.1, keepsBestTip_of_parentHash_eq h.2⟩
  have htree := frontier_stays_tree smallStateHashes smallHashes smallConstants 3 (by decide) t hr
  exact ⟨t, hlast.1, htree.1, _, htree.2 _ (addable_of_wellMade hb)⟩

end MinaProtocol.TransitionFrontier
