import MinaProtocol.TransitionFrontier.Tree

/-!
# TransitionFrontier.Diffs

The diffs that `calculate_diffs` finds for a sound frontier. The path from a breadcrumb
leads to the root, and starts with the child of the root that the breadcrumb is below. The
garbage is what is below the other children of the root, each node after its descendants.
-/

namespace MinaProtocol.TransitionFrontier

open Std Consensus ParentTree

variable {α : Type} {β : Type}

@[simp] theorem ok_bind (a : α) (f : α → Except Exn β) : (Except.ok a >>= f) = f a := rfl

@[simp] theorem getExn_some (e : Exn) (a : α) : getExn e (some a) = .ok a := rfl

theorem mapM_ok {γ : Type} {f : α → Except Exn β} {g : β → γ} {k : α → γ} {P : β → Prop} {l : List α}
    (h : ∀ x ∈ l, ∃ y, f x = .ok y ∧ g y = k x ∧ P y) :
    ∃ ys, l.mapM f = .ok ys ∧ ys.map g = l.map k ∧ ∀ y ∈ ys, P y := by
  induction l with
  | nil => exact ⟨[], rfl, rfl, by simp⟩
  | cons x l ih =>
    obtain ⟨y, hy, hg, hP⟩ := h x (by simp)
    obtain ⟨ys, hys, hmap, hall⟩ := ih fun x' hx' => h x' (by simp [hx'])
    refine ⟨y :: ys, ?_, by simp [hg, hmap], by simpa using ⟨hP, hall⟩⟩
    rw [List.mapM_cons, hy, hys]
    rfl

/-! ### Protocol states -/

theorem ofAlistExn_nodup {l : List (Nat × ProtocolState)} (h : (l.map Prod.fst).Nodup) :
    ∃ states, ofAlistExn l = .ok states ∧ ∀ hash, hash ∈ states ↔ hash ∈ l.map Prod.fst := by
  induction l with
  | nil => exact ⟨∅, rfl, by simp⟩
  | cons x l ih =>
    rw [List.map_cons, List.nodup_cons] at h
    obtain ⟨states, hstates, hmem⟩ := ih h.2
    have hx : x.1 ∉ states := fun hx => h.1 ((hmem x.1).1 hx)
    refine ⟨states.insert x.1 x.2, ?_, fun hash => ?_⟩
    · rw [ofAlistExn, hstates]
      exact if_neg hx
    · rw [ExtTreeMap.mem_insert, hmem, List.map_cons, List.mem_cons, Nat.compare_eq_eq, eq_comm]

theorem protocolStatesForNextRootScanState_ok {old : ProtocolStates} {required : ExtTreeSet Nat}
    (oldRoot : Nat × ProtocolState) (h : ∀ hash ∈ required, hash ∈ old ∨ hash = oldRoot.1) :
    ∃ states, protocolStatesForNextRootScanState old required oldRoot = .ok states
      ∧ states.map Prod.fst = required.toList := by
  have hfind : ∀ hash ∈ required.toList, ∃ entry : Nat × ProtocolState,
      (do
        let state ← getExn .notFound (old.insert oldRoot.1 oldRoot.2)[hash]?
        return (hash, state)) = .ok entry ∧ entry.1 = hash ∧ True := by
    intro hash hmem
    have hin : hash ∈ old.insert oldRoot.1 oldRoot.2 := by
      rw [ExtTreeMap.mem_insert, Nat.compare_eq_eq]
      exact (h hash (ExtTreeSet.mem_toList.1 hmem)).symm.imp_left Eq.symm
    obtain ⟨state, hstate⟩ := Option.isSome_iff_exists.1 (ExtTreeMap.mem_iff_isSome_getElem?.1 hin)
    exact ⟨(hash, state), by rw [hstate]; rfl, rfl, trivial⟩
  obtain ⟨states, hstates, hmap, -⟩ := mapM_ok (k := id) hfind
  exact ⟨states, hstates, hmap.trans (List.map_id _)⟩

theorem nodup_toList (s : ExtTreeSet Nat) : s.toList.Nodup :=
  s.distinct_toList.imp fun hne heq => hne (Nat.compare_eq_eq.2 heq)

/-! ### Searches in the table -/

variable {H : StateHashes} {t : Frontier} {maxLength hash : Nat} {node : Node} {b heir : Breadcrumb}

namespace Sound

/-- The breadcrumb is the one in the table under its hash. -/
def Stored (t : Frontier) (b : Breadcrumb) : Prop :=
  ∃ node, t.table[b.stateHash]? = some node ∧ node.breadcrumb = b

variable (hs : Sound H t maxLength) {fuel : Nat}

include hs in
theorem findExn_ok (h : hash ∈ t.table) : ∃ b, t.findExn hash = .ok b ∧ b.stateHash = hash ∧ Stored t b := by
  obtain ⟨node, hnode⟩ := Frontier.exists_node h
  refine ⟨node.breadcrumb, ?_, hs.tree.stateHash_eq hash node hnode, node, ?_, rfl⟩
  · unfold Frontier.findExn Frontier.findNodeExn
    rw [hnode]
    rfl
  · rwa [hs.tree.stateHash_eq hash node hnode]

theorem parentOf_stored (hb : Stored t b) (hne : b.stateHash ≠ t.root) :
    t.parentOf b.stateHash = some b.parentHash := by
  obtain ⟨node, hnode, rfl⟩ := hb
  exact Frontier.parentOf_eq_some.2 ⟨hne, node, hnode, rfl⟩

include hs

theorem successors_ok (hb : Stored t b) :
    ∃ l, t.successors b = .ok l ∧ l.map Breadcrumb.stateHash = t.childrenOf b.stateHash
      ∧ ∀ c ∈ l, Stored t c := by
  obtain ⟨node, hnode, -⟩ := hb
  have hfind : ∀ c ∈ node.successorHashes, ∃ bc, t.findExn c = .ok bc ∧ bc.stateHash = c ∧ Stored t bc := by
    intro c hc
    obtain ⟨child, hchild, -⟩ := ((hs.tree.successors _ node hnode).2 c).1 hc
    exact hs.findExn_ok (Frontier.mem_table hchild)
  obtain ⟨l, hl, hmap, hstored⟩ := mapM_ok (k := id) hfind
  refine ⟨l, ?_, ?_, hstored⟩
  · unfold Frontier.successors Frontier.successorHashes Frontier.findNodeExn
    rw [hnode]
    exact hl
  · rw [Frontier.childrenOf_eq hnode]
    exact hmap.trans (List.map_id _)

theorem successorsRec_ok (hb : Stored t b)
    (hfuel : H.height t.root + maxLength + 1 ≤ H.height b.stateHash + fuel) : ∃ l, t.successorsRec fuel b = .ok l
      ∧ b.stateHash :: l.map Breadcrumb.stateHash = subtree t.childrenOf fuel b.stateHash
      ∧ ∀ c ∈ l, Stored t c := by
  induction fuel generalizing b with
  | zero =>
    obtain ⟨node, hnode, -⟩ := hb
    have := hs.height_le hnode
    omega
  | succ fuel ih =>
    obtain ⟨succs, hsuccs, hmap, hstored⟩ := hs.successors_ok hb
    have hbelow : ∀ succ ∈ succs, ∃ l, (do return succ :: (← t.successorsRec fuel succ)) = .ok l
        ∧ l.map Breadcrumb.stateHash = subtree t.childrenOf fuel succ.stateHash
        ∧ ∀ c ∈ l, Stored t c := by
      intro succ hsucc
      have hchild : succ.stateHash ∈ t.childrenOf b.stateHash := by
        rw [← hmap]
        exact List.mem_map_of_mem hsucc
      have hheight := hs.ranked _ _ ((hs.lists.mem_children _ _).1 hchild)
      obtain ⟨l, hl, hlmap, hlstored⟩ := ih (hstored succ hsucc) (by omega)
      refine ⟨succ :: l, by rw [hl]; rfl, hlmap, ?_⟩
      simpa using ⟨hstored succ hsucc, hlstored⟩
    obtain ⟨below, hok, hbmap, hbstored⟩ := mapM_ok hbelow
    refine ⟨below.flatten, ?_, ?_, ?_⟩
    · rw [Frontier.successorsRec, hsuccs, ok_bind, hok]
      rfl
    · rw [subtree, List.map_flatten, hbmap, ← hmap, List.flatMap_map, List.flatMap_def]
    · intro c hc
      obtain ⟨l, hl, hc⟩ := List.mem_flatten.1 hc
      exact hbstored l hl c hc

theorem height_root_le (h : hash ∈ t.table) : H.height t.root ≤ H.height hash := by
  obtain ⟨node, hnode⟩ := Frontier.exists_node h
  exact hs.ranked.height_le (hs.below_root hnode)

theorem findPath_ok {α : Type} {f : Breadcrumb → α} {countOpt : Option Int} {acc : List α} (hp : b.parentHash ∈ t.table)
    (hfuel : H.height b.parentHash + 1 ≤ H.height t.root + fuel) : ∃ l, t.findPath f fuel b countOpt acc = .ok l := by
  induction fuel generalizing b countOpt acc with
  | zero =>
    have := hs.height_root_le hp
    omega
  | succ fuel ih =>
    rw [Frontier.findPath]
    split
    · exact ⟨acc, rfl⟩
    · dsimp only
      split
      · exact ⟨acc, rfl⟩
      · split
        · exact ⟨f b :: acc, rfl⟩
        · rename_i hne
          obtain ⟨parent, hparent, heq, hstored⟩ := hs.findExn_ok hp
          rw [← heq] at hne hfuel
          have hup := parentOf_stored hstored hne
          have := hs.ranked _ _ hup
          rw [hparent, ok_bind]
          exact ih (hs.mem_of_parentOf hup).2 (by omega)

theorem findPath_head (acc : List Nat)
    (hb : b.stateHash ≠ t.root) (hp : b.parentHash ∈ t.table) (hne : b.parentHash ≠ t.root)
    (hfuel : H.height b.parentHash + 1 ≤ H.height t.root + fuel) :
    ∃ heir rest, t.findPath Breadcrumb.stateHash fuel b none acc = .ok (heir :: rest)
      ∧ t.parentOf heir = some t.root ∧ Below t.parentOf heir b.parentHash := by
  induction fuel generalizing b acc with
  | zero =>
    have := hs.height_root_le hp
    omega
  | succ fuel ih =>
    obtain ⟨parent, hparent, heq, hstored⟩ := hs.findExn_ok hp
    have hup := parentOf_stored hstored (by rwa [heq])
    have hheight := hs.ranked _ _ hup
    rw [heq] at hup hheight
    have hstep : t.findPath Breadcrumb.stateHash (fuel + 1) b none acc
        = t.findPath Breadcrumb.stateHash fuel parent none (b.stateHash :: acc) := by
      rw [Frontier.findPath]
      simp [hb, hne, hparent]
    rw [hstep]
    by_cases hroot : parent.parentHash = t.root
    · -- the parent is the child of the root
      have hpos : fuel ≠ 0 := by
        rw [hroot] at hheight
        omega
      obtain ⟨fuel, rfl⟩ := Nat.exists_eq_succ_of_ne_zero hpos
      refine ⟨b.parentHash, b.stateHash :: acc, ?_, hroot ▸ hup, .refl⟩
      rw [Frontier.findPath]
      simp [heq, hne, hroot]
    · obtain ⟨heir, rest, hpath, hheir, hdesc⟩ := ih (b.stateHash :: acc) (by rwa [heq])
        (hs.mem_of_parentOf hup).2 hroot (by omega)
      exact ⟨heir, rest, hpath, hheir, .step hup hdesc⟩

omit hs

end Sound

/-! ### The garbage -/

/-- The garbage of a root transition to the heir. -/
structure IsGarbage (t : Frontier) (heir : Nat) (garbage : List Breadcrumb) : Prop where
  mem_iff : ∀ hash, hash ∈ garbage.map Breadcrumb.stateHash
    ↔ hash ∈ t.table ∧ hash ≠ t.root ∧ ¬ Below t.parentOf heir hash
  ordered : (garbage.map Breadcrumb.stateHash).Pairwise fun x y => ¬ Below t.parentOf x y

namespace Sound

theorem below_sibling_iff (hs : Sound H t maxLength) {heir : Nat} (hheir : t.parentOf heir = some t.root) :
    (∃ sibling, (t.parentOf sibling = some t.root ∧ heir ≠ sibling) ∧ Below t.parentOf sibling hash)
      ↔ hash ∈ t.table ∧ hash ≠ t.root ∧ ¬ Below t.parentOf heir hash := by
  constructor
  · rintro ⟨sibling, ⟨hsib, hne⟩, hdesc⟩
    have hmem : hash ∈ t.table := by
      cases hdesc with
      | refl => exact (hs.mem_of_parentOf hsib).1
      | step hp _ => exact (hs.mem_of_parentOf hp).1
    refine ⟨hmem, fun hroot => ?_, fun hheirdesc => hne ?_⟩
    · rw [hroot] at hdesc
      exact hs.ranked.not_below_parent hsib hdesc
    · refine hs.ranked.unique hheirdesc hdesc ?_
      rw [hs.ranked _ _ hheir, hs.ranked _ _ hsib]
  · rintro ⟨hmem, hne, hnot⟩
    obtain ⟨node, hnode⟩ := Frontier.exists_node hmem
    obtain heq | ⟨sibling, hsib, hdesc⟩ := Below.iff_child.1 (hs.below_root hnode)
    · exact absurd heq hne
    · refine ⟨sibling, ⟨hsib, fun heq => hnot ?_⟩, hdesc⟩
      rwa [heq]

theorem isGarbage_of_map (hs : Sound H t t.maxLength) {heir : Nat} (hheir : t.parentOf heir = some t.root)
    {garbage : List Breadcrumb} (hmap : garbage.map Breadcrumb.stateHash
      = (((t.childrenOf t.root).filter fun c => decide (heir ≠ c)).flatMap
        (subtree t.childrenOf t.fuel)).reverse) : IsGarbage t heir garbage := by
  have hroots : ∀ r, r ∈ (t.childrenOf t.root).filter (fun c => decide (heir ≠ c))
      ↔ t.parentOf r = some t.root ∧ heir ≠ r := by
    intro r
    rw [List.mem_filter, hs.lists.mem_children, decide_eq_true_eq]
  have hheight : ∀ r ∈ (t.childrenOf t.root).filter (fun c => decide (heir ≠ c)),
      H.height r = H.height t.root + 1 := fun r hr => hs.ranked _ _ ((hroots r).1 hr).1
  have hdeep : ∀ r ∈ (t.childrenOf t.root).filter (fun c => decide (heir ≠ c)),
      H.height t.root + t.maxLength ≤ H.height r + t.fuel := by
    intro r hr
    have := hheight r hr
    unfold Frontier.fuel
    omega
  constructor
  · intro hash
    rw [hmap, List.mem_reverse, List.mem_flatMap, ← hs.below_sibling_iff hheir]
    refine exists_congr fun r => ?_
    constructor
    · rintro ⟨hr, hmem⟩
      exact ⟨(hroots r).1 hr, (hs.lists.mem_subtree hs.ranked (hdeep r hr)).1 hmem⟩
    · rintro ⟨hr, hdesc⟩
      have hr := (hroots r).2 hr
      exact ⟨hr, (hs.lists.mem_subtree hs.ranked (hdeep r hr)).2 hdesc⟩
  · rw [hmap, List.pairwise_reverse]
    refine Lists.pairwise_flatMap hs.ranked ((hs.lists.nodup t.root).filter _) ?_ ?_ ?_
    · intro r hr r' hr'
      rw [hheight r hr, hheight r' hr']
    · exact fun r hr y => (hs.lists.mem_subtree hs.ranked (hdeep r hr)).1
    · exact fun r hr => hs.lists.pairwise_subtree hs.ranked (hdeep r hr)

/-- `calculate_root_transition_diff` of a child of the root. -/
theorem calculateRootTransitionDiff_ok (hs : Sound H t t.maxLength) (hb : Stored t heir)
    (hheir : t.parentOf heir.stateHash = some t.root) :
    ∃ states garbage, t.calculateRootTransitionDiff heir = .ok (.rootTransitioned ⟨heir.stateHash, states⟩ garbage)
      ∧ states.map Prod.fst = heir.requiredStateHashes.toList
      ∧ IsGarbage t heir.stateHash garbage := by
  obtain ⟨rootNode, hroot, -⟩ := hs.tree.root_mem
  obtain ⟨root, hfind, hrootHash, hrootStored⟩ := hs.findExn_ok (Frontier.mem_table hroot)
  obtain ⟨succs, hsuccs, hsmap, hsstored⟩ := hs.successors_ok hrootStored
  rw [hrootHash] at hsmap
  -- what is below each sibling
  have hchild : ∀ s ∈ succs, t.parentOf s.stateHash = some t.root := by
    intro s hmem
    refine (hs.lists.mem_children _ _).1 ?_
    rw [← hsmap]
    exact List.mem_map_of_mem hmem
  have hdeep : ∀ s ∈ succs, H.height t.root + t.maxLength + 1 ≤ H.height s.stateHash + t.fuel := by
    intro s hmem
    have := hs.ranked _ _ (hchild s hmem)
    unfold Frontier.fuel
    omega
  have hbelow : ∀ s ∈ succs.filter fun b => decide (heir.stateHash ≠ b.stateHash),
      ∃ l, (do return s :: (← t.successorsRec t.fuel s)) = .ok l
        ∧ l.map Breadcrumb.stateHash = subtree t.childrenOf t.fuel s.stateHash ∧ True := by
    intro s hmem
    have hmem := (List.mem_filter.1 hmem).1
    obtain ⟨l, hl, hlmap, -⟩ := hs.successorsRec_ok (hsstored s hmem) (hdeep s hmem)
    exact ⟨s :: l, by rw [hl]; rfl, hlmap, trivial⟩
  obtain ⟨below, hok, hbmap, -⟩ := mapM_ok hbelow
  -- the protocol states
  obtain ⟨heirNode, hheirNode, rfl⟩ := hb
  have hparent : heirNode.breadcrumb.parentHash = t.root := by
    obtain ⟨-, node, hnode, hp⟩ := Frontier.parentOf_eq_some.1 hheir
    obtain rfl := Option.some.inj (hheirNode.symm.trans hnode)
    exact hp
  obtain ⟨rootNode', hroot', hrootEq⟩ := hrootStored
  rw [hrootHash] at hroot'
  have hbuilt : ∀ hash ∈ heirNode.breadcrumb.requiredStateHashes,
      hash ∈ t.protocolStatesForRootScanState ∨ hash = root.stateHash := by
    intro hash hmem
    have hne := (Frontier.parentOf_eq_some.1 hheir).1
    obtain hreq | rfl := hs.builtOn _ heirNode rootNode' hheirNode hne (by rwa [hparent]) hash hmem
    · exact .inl (hs.required rootNode' hroot' hash hreq)
    · exact .inr (by rw [hrootEq])
  obtain ⟨states, hstates, hkeys⟩ := protocolStatesForNextRootScanState_ok
    (root.stateHash, root.protocolState) hbuilt
  refine ⟨states, below.flatten.reverse, ?_, hkeys, ?_⟩
  · unfold Frontier.calculateRootTransitionDiff Frontier.rootBreadcrumb
    rw [hfind, ok_bind, hsuccs, ok_bind]
    dsimp only
    rw [hok, ok_bind, hstates]
    rfl
  · refine hs.isGarbage_of_map hheir ?_
    rw [List.map_reverse, List.map_flatten, hbmap, ← hsmap, List.filter_map, List.flatMap_map, List.flatMap_def]
    rfl

end Sound

end MinaProtocol.TransitionFrontier
