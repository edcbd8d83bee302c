import MinaProtocol.ParallelScan.State

/-!
# ParallelScan.AllNodes

What holds of every node of a tree. A fold that does not stop has gone on at every node, and a fold keeps what every node lets
it keep; so a check that folds over the trees says something about every job that there is to do.
-/

namespace MinaProtocol.ParallelScan

namespace Tree

/-- `P` holds of the values of the nodes, and `Q` of the leaves. -/
def AllNodes {M B : Type} (P : M → Prop) (Q : B → Prop) (t : Tree M B) : Prop :=
  match t with
  | .leaf d => Q d
  | .node _ value subTree => P value ∧ AllNodes (fun x : M × M => P x.1 ∧ P x.2) (fun x : B × B => Q x.1 ∧ Q x.2) subTree
termination_by structural t

variable {M B A F : Type} {P : M → Prop} {Q : B → Prop} {fBase : A → B → ContinueOrStop A F}
  {fMerge : Int → A → M → ContinueOrStop A F} {t : Tree M B} {I : A → Prop} {acc : A}

theorem allNodes_of_continue
    (hP : ∀ i acc m acc', fMerge i acc m = .continue acc' → P m) (hQ : ∀ acc b acc', fBase acc b = .continue acc' → Q b)
    {acc' : A} (h : foldDepthUntil' fMerge fBase acc t = .continue acc') : AllNodes P Q t := by
  induction t generalizing acc with
  | leaf d => exact hQ acc d acc' h
  | node depth value subTree ih =>
    rw [foldDepthUntil'] at h
    cases hvalue : fMerge depth acc value with
    | stop f =>
      rw [hvalue] at h
      cases h
    | «continue» next =>
      rw [hvalue] at h
      refine ⟨hP _ _ _ _ hvalue, ih (fun i acc m acc' hm => ?_) (fun acc b acc' hb => ?_) h⟩
      · cases hfirst : fMerge i acc m.1 with
        | stop f =>
          rw [hfirst] at hm
          cases hm
        | «continue» r =>
          rw [hfirst] at hm
          exact ⟨hP _ _ _ _ hfirst, hP _ _ _ _ hm⟩
      · cases hfirst : fBase acc b.1 with
        | stop f =>
          rw [hfirst] at hb
          cases hb
        | «continue» r =>
          rw [hfirst] at hb
          exact ⟨hQ _ _ _ hfirst, hQ _ _ _ hb⟩

theorem stop_of_stop {S : F → Prop}
    (hM : ∀ i acc m f, fMerge i acc m = .stop f → S f) (hB : ∀ acc b f, fBase acc b = .stop f → S f)
    {f : F} (h : foldDepthUntil' fMerge fBase acc t = .stop f) : S f := by
  induction t generalizing acc with
  | leaf d => exact hB _ _ _ h
  | node depth value subTree ih =>
    rw [foldDepthUntil'] at h
    cases hvalue : fMerge depth acc value with
    | stop f' =>
      rw [hvalue] at h
      cases h
      exact hM _ _ _ _ hvalue
    | «continue» next =>
      rw [hvalue] at h
      refine ih (fun i acc m f hm => ?_) (fun acc b f hb => ?_) h
      · cases hfirst : fMerge i acc m.1 with
        | stop f' =>
          rw [hfirst] at hm
          cases hm
          exact hM _ _ _ _ hfirst
        | «continue» r =>
          rw [hfirst] at hm
          exact hM _ _ _ _ hm
      · cases hfirst : fBase acc b.1 with
        | stop f' =>
          rw [hfirst] at hb
          cases hb
          exact hB _ _ _ hfirst
        | «continue» r =>
          rw [hfirst] at hb
          exact hB _ _ _ hb

theorem foldDepthUntil'_keeps (hM : ∀ i acc m, P m → I acc → ∃ acc', fMerge i acc m = .continue acc' ∧ I acc')
    (hB : ∀ acc b, Q b → I acc → ∃ acc', fBase acc b = .continue acc' ∧ I acc') (h : AllNodes P Q t) (hacc : I acc) :
    ∃ acc', foldDepthUntil' fMerge fBase acc t = .continue acc' ∧ I acc' := by
  induction t generalizing acc with
  | leaf d => exact hB acc d h hacc
  | node depth value subTree ih =>
    obtain ⟨next, hvalue, hnext⟩ := hM depth acc value h.1 hacc
    rw [foldDepthUntil', hvalue]
    refine ih (fun i acc m hm hacc => ?_) (fun acc b hb hacc => ?_) h.2 hnext
    · obtain ⟨r, hfirst, hr⟩ := hM i acc m.1 hm.1 hacc
      rw [hfirst]
      exact hM i r m.2 hm.2 hr
    · obtain ⟨r, hfirst, hr⟩ := hB acc b.1 hb.1 hacc
      rw [hfirst]
      exact hB r b.2 hb.2 hr

theorem foldDepth_keeps {fMerge : Int → A → M → A} {fBase : A → B → A} (hM : ∀ i acc m, P m → I acc → I (fMerge i acc m))
    (hB : ∀ acc b, Q b → I acc → I (fBase acc b)) (h : AllNodes P Q t) (hacc : I acc) :
    I (foldDepth fMerge fBase acc t) := by
  have hrun : ∃ acc', foldDepthUntil' (fun i acc a => ContinueOrStop.continue (F := A) (fMerge i acc a))
      (fun acc d => .continue (fBase acc d)) acc t = .continue acc' ∧ I acc' :=
    foldDepthUntil'_keeps (fun i acc m hm hacc => ⟨_, rfl, hM i acc m hm hacc⟩) (fun acc b hb hacc => ⟨_, rfl, hB acc b hb hacc⟩) h hacc
  obtain ⟨acc', hacc', hI⟩ := hrun
  rw [foldDepth, foldDepthUntil, hacc']
  exact hI

theorem allNodes_createTreeGo {fMerge : Int → M} {base : B} (hP : ∀ d, P (fMerge d)) (hQ : Q base) (d : Int) (remaining : Nat) :
    AllNodes P Q (createTreeGo d fMerge base remaining) := by
  induction remaining generalizing M B d with
  | zero => exact hQ
  | succ remaining ih => exact ⟨hP d, ih (fun i => ⟨hP i, hP i⟩) ⟨hQ, hQ⟩ (d + 1)⟩

end Tree

section Jobs

variable {α β : Type} {G : AvailableJob α β → Prop} {s : State α β}

/-- What there is to do at a merge node is as `G` says. -/
def MergeTodo (G : AvailableJob α β → Prop) (m : MergeNode α) : Prop :=
  ∀ left right seqNo, m.2 = .full { left, right, seqNo, status := .todo } → G (.merge left right)

/-- What there is to do at a leaf is as `G` says. -/
def BaseTodo (G : AvailableJob α β → Prop) (b : BaseNode β) : Prop :=
  ∀ job seqNo, b.2 = .full { job, seqNo, status := .todo } → G (.base job)

/-- All that there is to do in a tree is as `G` says. -/
abbrev TreeTodo (G : AvailableJob α β → Prop) (tree : ScanTree α β) : Prop := Tree.AllNodes (MergeTodo G) (BaseTodo G) tree

theorem treeTodo_createTree (depth : Nat) : TreeTodo G (createTree depth : ScanTree α β) := by
  refine Tree.allNodes_createTreeGo (fun d left right seqNo h => ?_) (fun job seqNo h => ?_) 0 depth
  · cases h
  · cases h

theorem TreeTodo.jobsOnLevel {tree : ScanTree α β} (h : TreeTodo G tree) (depth level : Int) :
    ∀ job ∈ Tree.jobsOnLevel depth level tree, G job := by
  intro job hjob
  rw [Tree.jobsOnLevel, List.mem_reverse] at hjob
  revert job
  refine Tree.foldDepth_keeps (I := fun jobs : List (AvailableJob α β) => ∀ job ∈ jobs, G job) (fun i acc m hm hacc => ?_)
    (fun acc b hb hacc => ?_) h (fun job hjob => absurd hjob List.not_mem_nil)
  · split
    · rename_i hfull
      exact List.forall_mem_cons.mpr ⟨hm _ _ _ hfull, hacc⟩
    · exact hacc
  · split
    · rename_i hfull
      exact List.forall_mem_cons.mpr ⟨hb _ _ hfull, hacc⟩
    · exact hacc

theorem mem_work {trees : List (ScanTree α β)} (h : ∀ tree ∈ trees, TreeTodo G tree) (delay maxBaseJobs : Nat) :
    ∀ job ∈ work trees delay maxBaseJobs, G job := by
  intro job hjob
  obtain ⟨⟨tree, i⟩, htree, hjob⟩ := List.mem_flatMap.mp hjob
  have hmem := List.mem_of_mem_take (List.fst_mem_of_mem_zipIdx htree)
  obtain ⟨⟨tree', i'⟩, htree', rfl⟩ := List.mem_map.mp hmem
  exact (h _ (List.fst_mem_of_mem_zipIdx (List.mem_of_mem_filter htree'))).jobsOnLevel _ _ job hjob

theorem mem_allWorkStep {depth : Nat} (rounds : List Nat) {acc : State α β × List (List (AvailableJob α β))}
    (htrees : ∀ tree ∈ acc.1.trees.toList, TreeTodo G tree) (hsets : ∀ jobs ∈ acc.2, ∀ job ∈ jobs, G job) :
    ∀ jobs ∈ (rounds.foldl (fun acc _ => allWorkStep depth acc) acc).2, ∀ job ∈ jobs, G job := by
  induction rounds generalizing acc with
  | nil => exact hsets
  | cons _ rounds ih =>
    have hwork : ∀ job ∈ workForTree { acc.1 with trees := acc.1.trees.cons (createTree depth) } .current, G job :=
      mem_work htrees _ _
    have hcons : ∀ tree ∈ (acc.1.trees.cons (createTree depth)).toList, TreeTodo G tree :=
      List.forall_mem_cons.mpr ⟨treeTodo_createTree depth, htrees⟩
    refine ih ?_ ?_
    · unfold allWorkStep
      dsimp only
      split
      · exact hcons
      · exact hcons
    · unfold allWorkStep
      dsimp only
      split
      · exact hsets
      · exact List.forall_mem_cons.mpr ⟨hwork, hsets⟩

theorem mem_allWork (h : ∀ tree ∈ s.trees.toList, TreeTodo G tree) : ∀ jobs ∈ allWork s, ∀ job ∈ jobs, G job := by
  have hcurrent : ∀ job ∈ workForTree s .current, G job := mem_work (fun tree htree => h tree (List.mem_cons_of_mem _ htree)) _ _
  have hmore : ∀ jobs ∈ ((List.range (s.delay + 1)).foldl (fun acc _ => allWorkStep (ceilLog2 s.maxBaseJobs) acc) (s, [])).2.reverse,
      ∀ job ∈ jobs, G job := by
    intro jobs hjobs
    exact mem_allWorkStep _ h (fun jobs hjobs => absurd hjobs List.not_mem_nil) jobs (List.mem_reverse.mp hjobs)
  unfold allWork
  dsimp only
  split
  · exact hmore
  · exact List.forall_mem_cons.mpr ⟨hcurrent, hmore⟩

variable {A F : Type}

theorem treeTodo_of_foldChronologicalUntil {S : F → Prop} {fMerge : A → MergeNode α → Tree.ContinueOrStop A F}
    {fBase : A → BaseNode β → Tree.ContinueOrStop A F} {finish : A → F} {init : A}
    (hP : ∀ acc m acc', fMerge acc m = .continue acc' → MergeTodo G m) (hQ : ∀ acc b acc', fBase acc b = .continue acc' → BaseTodo G b)
    (hM : ∀ acc m f, fMerge acc m = .stop f → S f) (hB : ∀ acc b f, fBase acc b = .stop f → S f)
    (h : ¬ S (foldChronologicalUntil s init fMerge fBase finish)) : ∀ tree ∈ s.trees.toList, TreeTodo G tree := by
  have hgo : ∀ (trees : List (ScanTree α β)) (acc : A), (∃ acc', foldTreesUntil fMerge fBase acc trees = .continue acc' ∧
      ∀ tree ∈ trees, TreeTodo G tree) ∨ ∃ f, foldTreesUntil fMerge fBase acc trees = .stop f ∧ S f := by
    intro trees
    induction trees with
    | nil => exact fun acc => Or.inl ⟨acc, rfl, fun tree htree => absurd htree List.not_mem_nil⟩
    | cons tree trees ih =>
      intro acc
      rw [foldTreesUntil]
      cases htree : Tree.foldDepthUntil' (fun _ => fMerge) fBase acc tree with
      | stop f => exact Or.inr ⟨f, rfl, Tree.stop_of_stop (fun _ => hM) hB htree⟩
      | «continue» r =>
        rcases ih r with ⟨acc', hacc', htrees⟩ | hstop
        · exact Or.inl ⟨acc', hacc', List.forall_mem_cons.mpr ⟨Tree.allNodes_of_continue (fun _ => hP) hQ htree, htrees⟩⟩
        · exact Or.inr hstop
  intro tree htree
  rcases hgo s.trees.toList.reverse init with ⟨acc', -, htrees⟩ | ⟨f, hstop, hf⟩
  · exact htrees tree (List.mem_reverse.mpr htree)
  · rw [foldChronologicalUntil, hstop] at h
    exact absurd hf h

end Jobs

end MinaProtocol.ParallelScan
