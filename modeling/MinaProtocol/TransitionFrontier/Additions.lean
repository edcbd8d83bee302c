import MinaProtocol.TransitionFrontier.Diffs

/-!
# TransitionFrontier.Additions

The diffs of an addition, applied. A new node makes the tree one level higher at most;
moving the root to its child takes that level away again. The table that is left has
exactly what is below the new root.
-/

namespace MinaProtocol.TransitionFrontier

open Std Consensus ParentTree

/-! ### A new node -/

/-- The table after a new node. -/
structure Inserted (t : Frontier) (b : Breadcrumb) (parentNode : Node) (t' : Frontier) : Prop where
  root_eq : t'.root = t.root
  bestTip_eq : t'.bestTip = t.bestTip
  maxLength_eq : t'.maxLength = t.maxLength
  states_eq : t'.protocolStatesForRootScanState = t.protocolStatesForRootScanState
  new : t'.table[b.stateHash]? = some ⟨b, [], parentNode.length + 1⟩
  parent : t'.table[b.parentHash]?
    = some { parentNode with successorHashes := b.stateHash :: parentNode.successorHashes }
  other : ∀ hash, hash ≠ b.stateHash → hash ≠ b.parentHash → t'.table[hash]? = t.table[hash]?

theorem applyDiff_newNode {t : Frontier} {b : Breadcrumb} {parentNode : Node}
    (hp : t.table[b.parentHash]? = some parentNode) (hne : b.parentHash ≠ b.stateHash)
    (hnew : b.stateHash ∉ t.table) : ∃ t', t.applyDiff (.newNode b) = .ok t' ∧ Inserted t b parentNode t' := by
  have hrun : t.applyDiff (.newNode b) = .ok { t with
      table := (t.table.insert b.stateHash ⟨b, [], parentNode.length + 1⟩).insert b.parentHash
        { parentNode with successorHashes := b.stateHash :: parentNode.successorHashes } } := by
    unfold Frontier.applyDiff Frontier.findNodeExn
    dsimp only
    rw [hp, getExn_some, ok_bind, if_neg hnew]
    rfl
  refine ⟨_, hrun, rfl, rfl, rfl, rfl, ?_, ?_, ?_⟩
  · rw [ExtTreeMap.getElem?_insert, if_neg (by simpa using hne), ExtTreeMap.getElem?_insert_self]
  · rw [ExtTreeMap.getElem?_insert_self]
  · intro hash h₁ h₂
    rw [ExtTreeMap.getElem?_insert, if_neg (by simpa using Ne.symm h₂), ExtTreeMap.getElem?_insert,
      if_neg (by simpa using Ne.symm h₁)]

variable {H : StateHashes} {t t' : Frontier} {maxLength : Nat}

namespace Inserted

variable {maxLength' : Nat} {b : Breadcrumb} {parentNode : Node}

variable (h : Inserted t b parentNode t')

include h

variable (hp : t.table[b.parentHash]? = some parentNode) {hash : Nat} {node : Node}

include hp

theorem cases (hnode : t'.table[hash]? = some node) : hash = b.stateHash ∧ node = ⟨b, [], parentNode.length + 1⟩
      ∨ hash ≠ b.stateHash ∧ ∃ old, t.table[hash]? = some old ∧ node.breadcrumb = old.breadcrumb
        ∧ node.length = old.length ∧ node.successorHashes
          = if hash = b.parentHash then b.stateHash :: old.successorHashes else old.successorHashes := by
  by_cases hnew : hash = b.stateHash
  · left
    rw [hnew, h.new] at hnode
    exact ⟨hnew, (Option.some.inj hnode).symm⟩
  · refine .inr ⟨hnew, ?_⟩
    by_cases hpar : hash = b.parentHash
    · rw [hpar, h.parent] at hnode
      obtain rfl := Option.some.inj hnode
      rw [hpar]
      exact ⟨parentNode, hp, rfl, rfl, by simp⟩
    · rw [h.other hash hnew hpar] at hnode
      exact ⟨node, hnode, rfl, rfl, by simp [hpar]⟩

theorem of_old (hnew : b.stateHash ∉ t.table) {old : Node} (hold : t.table[hash]? = some old) :
    ∃ node, t'.table[hash]? = some node ∧ node.breadcrumb = old.breadcrumb ∧ node.length = old.length := by
  have hne : hash ≠ b.stateHash := fun heq => hnew (heq ▸ Frontier.mem_table hold)
  by_cases hpar : hash = b.parentHash
  · rw [hpar, hp] at hold
    obtain rfl := Option.some.inj hold
    rw [hpar, h.parent]
    exact ⟨_, rfl, rfl, rfl⟩
  · exact ⟨old, by rw [h.other hash hne hpar, hold], rfl, rfl⟩

theorem mem_iff (hnew : b.stateHash ∉ t.table) : hash ∈ t'.table ↔ hash = b.stateHash ∨ hash ∈ t.table := by
  constructor
  · intro hmem
    obtain ⟨node, hnode⟩ := Frontier.exists_node hmem
    obtain ⟨heq, -⟩ | ⟨-, old, hold, -⟩ := h.cases hp hnode
    · exact .inl heq
    · exact .inr (Frontier.mem_table hold)
  · rintro (rfl | hmem)
    · exact Frontier.mem_table h.new
    · obtain ⟨old, hold⟩ := Frontier.exists_node hmem
      obtain ⟨node, hnode, -⟩ := h.of_old hp hnew hold
      exact Frontier.mem_table hnode

omit hp

variable (hs : Sound H t maxLength)

include hs

theorem successors (hb : HashedBy H b) (hp : t.table[b.parentHash]? = some parentNode) (hnew : b.stateHash ∉ t.table)
    (hnode : t'.table[hash]? = some node) : node.successorHashes.Nodup ∧ ∀ c, c ∈ node.successorHashes
      ↔ ∃ child, t'.table[c]? = some child ∧ child.breadcrumb.parentHash = hash := by
  have hheight := hs.height_root_le (Frontier.mem_table hp)
  have hbheight := hb.height_eq
  obtain ⟨rfl, rfl⟩ | ⟨hne, old, hold, -, -, hsucc⟩ := h.cases hp hnode
  · -- nothing is below the new node
    refine ⟨List.nodup_nil, fun c => ⟨by simp, ?_⟩⟩
    rintro ⟨child, hchild, hpc⟩
    obtain ⟨rfl, rfl⟩ | ⟨-, oldChild, hold, hbc, -⟩ := h.cases hp hchild
    · dsimp only at hpc
      rw [hpc] at hbheight
      omega
    · rw [hbc] at hpc
      by_cases hroot : c = t.root
      · have hrh := (hs.hashed c oldChild hold).height_eq
        rw [hs.tree.stateHash_eq c oldChild hold, hpc, hroot] at hrh
        omega
      · obtain ⟨pn, hpn, -⟩ := hs.tree.parent_mem c oldChild hold hroot
        rw [hpc] at hpn
        exact absurd (Frontier.mem_table hpn) hnew
  · obtain ⟨hnodup, hmem⟩ := hs.tree.successors hash old hold
    have hbnot : b.stateHash ∉ old.successorHashes := by
      intro hin
      obtain ⟨child, hchild, -⟩ := (hmem b.stateHash).1 hin
      exact hnew (Frontier.mem_table hchild)
    have hchild : ∀ c, (∃ child, t'.table[c]? = some child ∧ child.breadcrumb.parentHash = hash)
        ↔ (c = b.stateHash ∧ hash = b.parentHash) ∨ c ∈ old.successorHashes := by
      intro c
      rw [hmem]
      constructor
      · rintro ⟨child, hchild, hpc⟩
        obtain ⟨rfl, rfl⟩ | ⟨-, oldChild, holdc, hbc, -⟩ := h.cases hp hchild
        · exact .inl ⟨rfl, hpc.symm⟩
        · exact .inr ⟨oldChild, holdc, by rw [← hbc, hpc]⟩
      · rintro (⟨rfl, rfl⟩ | ⟨oldChild, holdc, hpc⟩)
        · exact ⟨_, h.new, rfl⟩
        · obtain ⟨child, hchild, hbc, -⟩ := h.of_old hp hnew holdc
          exact ⟨child, hchild, by rw [hbc, hpc]⟩
    rw [hsucc]
    split
    · rename_i hpar
      refine ⟨List.nodup_cons.2 ⟨hbnot, hnodup⟩, fun c => ?_⟩
      rw [hchild, List.mem_cons]
      simp [hpar]
    · rename_i hpar
      refine ⟨hnodup, fun c => ?_⟩
      rw [hchild]
      simp [hpar]

theorem sound (hb : HashedBy H b) (hp : t.table[b.parentHash]? = some parentNode) (hnew : b.stateHash ∉ t.table)
    (hbuilt : BuiltOn b parentNode.breadcrumb) (hle : maxLength ≤ maxLength')
    (hroom : ∀ rootNode, t.table[t.root]? = some rootNode →
      parentNode.length + 1 ≤ rootNode.length + maxLength') : Sound H t' maxLength' := by
  obtain ⟨rootNode, hroot, hlen⟩ := hs.tree.root_mem
  obtain ⟨rootNode', hroot', hrootb, hrootlen⟩ := h.of_old hp hnew hroot
  rw [← h.root_eq] at hroot'
  refine ⟨⟨⟨rootNode', hroot', ?_⟩, ?_, ?_, ?_⟩, ?_, ?_, ?_, ?_⟩
  · intro hash node hnode
    obtain ⟨-, rfl⟩ | ⟨-, old, hold, -, hl, -⟩ := h.cases hp hnode
    · have := hroom rootNode hroot
      dsimp only
      omega
    · have := hlen hash old hold
      omega
  · intro hash node hnode
    obtain ⟨rfl, rfl⟩ | ⟨-, old, hold, hbc, -⟩ := h.cases hp hnode
    · rfl
    · rw [hbc]
      exact hs.tree.stateHash_eq hash old hold
  · intro hash node hnode hne
    rw [h.root_eq] at hne
    obtain ⟨rfl, rfl⟩ | ⟨-, old, hold, hbc, hl, -⟩ := h.cases hp hnode
    · exact ⟨_, h.parent, rfl⟩
    · obtain ⟨pn, hpn, hpl⟩ := hs.tree.parent_mem hash old hold hne
      obtain ⟨pn', hpn', -, hpl'⟩ := h.of_old hp hnew hpn
      exact ⟨pn', by rw [hbc, hpn'], by omega⟩
  · exact fun hash node hnode => h.successors hs hb hp hnew hnode
  · intro hash node hnode
    obtain ⟨-, rfl⟩ | ⟨-, old, hold, hbc, -⟩ := h.cases hp hnode
    · exact hb
    · rw [hbc]
      exact hs.hashed hash old hold
  · intro hash node pn hnode hne hpn
    rw [h.root_eq] at hne
    obtain ⟨-, rfl⟩ | ⟨-, old, hold, hbc, -⟩ := h.cases hp hnode
    · dsimp only at hpn
      rw [h.parent] at hpn
      obtain rfl := Option.some.inj hpn
      exact hbuilt
    · rw [hbc] at hpn ⊢
      obtain ⟨oldParent, holdp, -⟩ := hs.tree.parent_mem hash old hold hne
      obtain ⟨pn', hpn', hpb, -⟩ := h.of_old hp hnew holdp
      obtain rfl := Option.some.inj (hpn.symm.trans hpn')
      rw [hpb]
      exact hs.builtOn hash old oldParent hold hne holdp
  · intro hash node rn hnode hrn
    obtain rfl := Option.some.inj (hroot'.symm.trans hrn)
    rw [h.root_eq, hrootlen]
    obtain ⟨rfl, rfl⟩ | ⟨-, old, hold, -, hl, -⟩ := h.cases hp hnode
    · have := hs.length_eq b.parentHash parentNode rootNode hp hroot
      have := hb.height_eq
      dsimp only
      omega
    · rw [hl]
      exact hs.length_eq hash old rootNode hold hroot
  · intro rn hrn
    obtain rfl := Option.some.inj (hroot'.symm.trans hrn)
    rw [h.states_eq, hrootb]
    exact hs.required rootNode hroot

theorem parentOf_new (hnew : b.stateHash ∉ t.table) : t'.parentOf b.stateHash = some b.parentHash := by
  refine Frontier.parentOf_eq_some.2 ⟨fun heq => hnew ?_, _, h.new, rfl⟩
  obtain ⟨rootNode, hroot, -⟩ := hs.tree.root_mem
  rw [heq, h.root_eq]
  exact Frontier.mem_table hroot

omit hs

include hp in
theorem parentOf_old (hnew : b.stateHash ∉ t.table) (hold : hash ∈ t.table) : t'.parentOf hash = t.parentOf hash := by
  obtain ⟨old, hold⟩ := Frontier.exists_node hold
  obtain ⟨node, hnode, hbc, -⟩ := h.of_old hp hnew hold
  unfold Frontier.parentOf
  rw [h.root_eq, hold, hnode, Option.map_some, Option.map_some, hbc]

include hs

/-- Nothing changes above an old entry. -/
theorem below_iff (hp : t.table[b.parentHash]? = some parentNode) (hnew : b.stateHash ∉ t.table) {a : Nat}
    (hold : hash ∈ t.table) : Below t'.parentOf a hash ↔ Below t.parentOf a hash := by
  constructor
  · intro hd
    induction hd with
    | refl => exact .refl
    | step hpar _ ih =>
      rw [h.parentOf_old hp hnew hold] at hpar
      exact .step hpar (ih (hs.mem_of_parentOf hpar).2)
  · intro hd
    induction hd with
    | refl => exact .refl
    | step hpar _ ih =>
      refine .step ?_ (ih (hs.mem_of_parentOf hpar).2)
      rw [h.parentOf_old hp hnew hold]
      exact hpar

theorem isGarbage (hp : t.table[b.parentHash]? = some parentNode) (hnew : b.stateHash ∉ t.table) {heir : Nat}
    {garbage : List Breadcrumb} (hheir : Below t.parentOf heir b.parentHash)
    (hg : IsGarbage t heir garbage) : IsGarbage t' heir garbage where
  mem_iff hash := by
    rw [hg.mem_iff, h.mem_iff hp hnew, h.root_eq]
    constructor
    · rintro ⟨hmem, hne, hnot⟩
      exact ⟨.inr hmem, hne, by rwa [h.below_iff hs hp hnew hmem]⟩
    · rintro ⟨rfl | hmem, hne, hnot⟩
      · refine absurd (Below.step (h.parentOf_new hs hnew) ?_) hnot
        rwa [h.below_iff hs hp hnew (Frontier.mem_table hp)]
      · exact ⟨hmem, hne, by rwa [h.below_iff hs hp hnew hmem] at hnot⟩
  ordered := by
    refine hg.ordered.imp_of_mem fun {x y} hx hy hnot => ?_
    rwa [h.below_iff hs hp hnew ((hg.mem_iff y).1 hy).1]

omit hs

omit h

end Inserted

/-! ### Moving the root -/

theorem removeGarbage_ok (t : Frontier) (garbage : List Breadcrumb)
    (hmem : ∀ hash ∈ garbage.map Breadcrumb.stateHash, hash ∈ t.table)
    (hnodup : (garbage.map Breadcrumb.stateHash).Nodup) :
    ∃ table, garbage.foldlM Frontier.removeGarbage t = .ok { t with table }
      ∧ (∀ hash, hash ∈ garbage.map Breadcrumb.stateHash → table[hash]? = none)
      ∧ ∀ hash, hash ∉ garbage.map Breadcrumb.stateHash → table[hash]? = t.table[hash]? := by
  induction garbage generalizing t with
  | nil => exact ⟨t.table, rfl, by simp, fun _ _ => rfl⟩
  | cons b garbage ih =>
    rw [List.map_cons, List.nodup_cons] at hnodup
    obtain ⟨node, hnode⟩ := Frontier.exists_node (hmem b.stateHash (by simp))
    have hstep : t.removeGarbage b = .ok { t with table := t.table.erase b.stateHash } := by
      unfold Frontier.removeGarbage Frontier.findExn Frontier.findNodeExn
      rw [hnode]
      rfl
    have hrest : ∀ hash ∈ garbage.map Breadcrumb.stateHash,
        hash ∈ (Frontier.table { t with table := t.table.erase b.stateHash }) := by
      intro hash hin
      have hne : b.stateHash ≠ hash := fun heq => hnodup.1 (heq ▸ hin)
      refine ExtTreeMap.mem_erase.2 ⟨by simpa using hne, hmem hash (by simp [hin])⟩
    obtain ⟨table, hrun, hnone, hkeep⟩ := ih _ hrest hnodup.2
    refine ⟨table, ?_, ?_, ?_⟩
    · rw [List.foldlM_cons, hstep, ok_bind, hrun]
    · intro hash hin
      by_cases hin' : hash ∈ garbage.map Breadcrumb.stateHash
      · exact hnone hash hin'
      · obtain rfl : hash = b.stateHash := by simpa [hin'] using hin
        rw [hkeep _ hin', ExtTreeMap.getElem?_erase, if_pos (Nat.compare_eq_eq.2 rfl)]
    · intro hash hnot
      rw [List.map_cons, List.mem_cons, not_or] at hnot
      rw [hkeep hash hnot.2, ExtTreeMap.getElem?_erase, if_neg]
      rw [Nat.compare_eq_eq]
      exact Ne.symm hnot.1

/-- The frontier after its root has moved. -/
structure Moved (t : Frontier) (heir : Nat) (required : ExtTreeSet Nat) (t' : Frontier) : Prop where
  root_eq : t'.root = heir
  bestTip_eq : t'.bestTip = t.bestTip
  maxLength_eq : t'.maxLength = t.maxLength
  below : ∀ hash, Below t.parentOf heir hash → t'.table[hash]? = t.table[hash]?
  gone : ∀ hash, ¬ Below t.parentOf heir hash → t'.table[hash]? = none
  states : ∀ hash, hash ∈ t'.protocolStatesForRootScanState ↔ hash ∈ required

section Move

variable {heir : Nat} {required : ExtTreeSet Nat}

theorem moveRoot_ok (hs : Sound H t maxLength) (hheir : t.parentOf heir = some t.root)
    {garbage : List Breadcrumb} (hg : IsGarbage t heir garbage) {states : List (Nat × ProtocolState)}
    (hstates : states.map Prod.fst = required.toList) :
    ∃ t', t.moveRoot heir states garbage = .ok t' ∧ Moved t heir required t' := by
  obtain ⟨rootNode, hroot, -⟩ := hs.tree.root_mem
  obtain ⟨hne, heirNode, hheirNode, -⟩ := Frontier.parentOf_eq_some.1 hheir
  obtain ⟨table, hremove, hnone, hkeep⟩ := removeGarbage_ok t garbage
    (fun hash hin => ((hg.mem_iff hash).1 hin).1)
    (hg.ordered.imp fun hnot heq => by
      rw [heq] at hnot
      exact hnot .refl)
  obtain ⟨next, hnext, hnextmem⟩ := ofAlistExn_nodup (l := states) (by
    rw [hstates]
    exact nodup_toList required)
  have hrun : t.moveRoot heir states garbage = .ok { t with
      root := heir
      table := (table.erase t.root).insert heir heirNode
      protocolStatesForRootScanState := next } := by
    unfold Frontier.moveRoot Frontier.findNodeExn
    rw [hroot, hheirNode, getExn_some, ok_bind, getExn_some, ok_bind, hremove, ok_bind]
    dsimp only
    rw [hnext]
    rfl
  have hlookup : ∀ hash, hash ≠ heir → ((table.erase t.root).insert heir heirNode)[hash]?
      = if hash = t.root then none else table[hash]? := by
    intro hash hh
    rw [ExtTreeMap.getElem?_insert, if_neg (by simpa using Ne.symm hh), ExtTreeMap.getElem?_erase]
    simp only [Nat.compare_eq_eq, @eq_comm _ t.root]
  refine ⟨_, hrun, rfl, rfl, rfl, ?_, ?_, ?_⟩
  · intro hash hdesc
    dsimp only
    by_cases hh : hash = heir
    · rw [hh, ExtTreeMap.getElem?_insert_self, hheirNode]
    · have hnroot : hash ≠ t.root := by
        rintro rfl
        exact hs.ranked.not_below_parent hheir hdesc
      rw [hlookup hash hh, if_neg hnroot]
      exact hkeep hash fun hin => ((hg.mem_iff hash).1 hin).2.2 hdesc
  · intro hash hnot
    have hh : hash ≠ heir := fun heq => hnot (heq ▸ .refl)
    dsimp only
    rw [hlookup hash hh]
    split
    · rfl
    · rename_i hnroot
      by_cases hmem : hash ∈ t.table
      · exact hnone hash ((hg.mem_iff hash).2 ⟨hmem, hnroot, hnot⟩)
      · rw [hkeep hash fun hin => hmem ((hg.mem_iff hash).1 hin).1]
        by_contra hc
        obtain ⟨node, hnode⟩ := Option.ne_none_iff_exists'.1 hc
        exact hmem (Frontier.mem_table hnode)
  · intro hash
    rw [hnextmem, hstates, ExtTreeSet.mem_toList]

namespace Moved

variable (h : Moved t heir required t')

include h

theorem of_mem {hash : Nat} {node : Node} (hnode : t'.table[hash]? = some node) :
    Below t.parentOf heir hash ∧ t.table[hash]? = some node := by
  by_cases hd : Below t.parentOf heir hash
  · exact ⟨hd, by rw [← h.below hash hd, hnode]⟩
  · rw [h.gone hash hd] at hnode
    exact absurd hnode (by simp)

theorem mem_iff {hash : Nat} :
    hash ∈ t'.table ↔ hash ∈ t.table ∧ Below t.parentOf heir hash := by
  constructor
  · intro hmem
    obtain ⟨node, hnode⟩ := Frontier.exists_node hmem
    exact ⟨Frontier.mem_table (h.of_mem hnode).2, (h.of_mem hnode).1⟩
  · rintro ⟨hmem, hd⟩
    obtain ⟨node, hnode⟩ := Frontier.exists_node hmem
    rw [← h.below hash hd] at hnode
    exact Frontier.mem_table hnode

theorem sound (hs : Sound H t (maxLength + 1))
    (hheir : t.parentOf heir = some t.root) {heirNode : Node} (hnode : t.table[heir]? = some heirNode)
    (hreq : heirNode.breadcrumb.requiredStateHashes = required) : Sound H t' maxLength := by
  obtain ⟨rootNode, hroot, hlen⟩ := hs.tree.root_mem
  have hheir' : t'.table[t'.root]? = some heirNode := by rw [h.root_eq, h.below heir .refl, hnode]
  have hheirlen := hs.length_eq heir heirNode rootNode hnode hroot
  have hheirheight := hs.ranked _ _ hheir
  have hneroot : ∀ hash, Below t.parentOf heir hash → hash ≠ t.root := by
    rintro hash hd rfl
    exact hs.ranked.not_below_parent hheir hd
  -- the parent of what is strictly below the heir is below the heir
  have hup : ∀ (hash : Nat) (node : Node), t.table[hash]? = some node → Below t.parentOf heir hash →
      hash ≠ heir → Below t.parentOf heir node.breadcrumb.parentHash := by
    intro hash node hn hd hne
    obtain heq | ⟨p, hp, hd⟩ := Below.iff_parent.1 hd
    · exact absurd heq hne
    · obtain ⟨-, node', hn', rfl⟩ := Frontier.parentOf_eq_some.1 hp
      rwa [Option.some.inj (hn.symm.trans hn')]
  refine ⟨⟨⟨heirNode, hheir', ?_⟩, ?_, ?_, ?_⟩, ?_, ?_, ?_, ?_⟩
  · intro hash node hn
    have := hlen hash node (h.of_mem hn).2
    omega
  · exact fun hash node hn => hs.tree.stateHash_eq hash node (h.of_mem hn).2
  · intro hash node hn hne
    rw [h.root_eq] at hne
    obtain ⟨hd, hn⟩ := h.of_mem hn
    obtain ⟨pn, hpn, hpl⟩ := hs.tree.parent_mem hash node hn (hneroot hash hd)
    exact ⟨pn, by rw [h.below _ (hup hash node hn hd hne), hpn], hpl⟩
  · intro hash node hn
    obtain ⟨hd, hn⟩ := h.of_mem hn
    obtain ⟨hnodup, hmem⟩ := hs.tree.successors hash node hn
    refine ⟨hnodup, fun c => ?_⟩
    rw [hmem]
    refine exists_congr fun child => ?_
    constructor
    · rintro ⟨hc, hpc⟩
      have hcne : c ≠ t.root := by
        rintro rfl
        have hout := hs.root_parent_not_mem hc
        rw [hpc, hn] at hout
        exact Option.some_ne_none node hout
      have hcd : Below t.parentOf heir c :=
        .step (Frontier.parentOf_eq_some.2 ⟨hcne, child, hc, hpc⟩) hd
      exact ⟨by rw [h.below c hcd, hc], hpc⟩
    · rintro ⟨hc, hpc⟩
      exact ⟨(h.of_mem hc).2, hpc⟩
  · exact fun hash node hn => hs.hashed hash node (h.of_mem hn).2
  · intro hash node pn hn hne hpn
    obtain ⟨hd, hn⟩ := h.of_mem hn
    exact hs.builtOn hash node pn hn (hneroot hash hd) (h.of_mem hpn).2
  · intro hash node rn hn hrn
    obtain rfl := Option.some.inj (hheir'.symm.trans hrn)
    have := hs.length_eq hash node rootNode (h.of_mem hn).2 hroot
    rw [h.root_eq]
    omega
  · intro rn hrn hash hin
    obtain rfl := Option.some.inj (hheir'.symm.trans hrn)
    rw [hreq] at hin
    exact (h.states hash).2 hin

omit h

end Moved

end Move

end MinaProtocol.TransitionFrontier
