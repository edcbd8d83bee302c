import MinaProtocol.Base.UserCommand
import MinaProtocol.Lib.Outcome
import MinaProtocol.Lib.PairCut

/-!
# Base.UpdateGroup

The grouping of account updates into proof segments: a segment has one account update, or two without proofs. The
updates of several commands are grouped together, so that a segment may begin one command or two. The grouping is the
one that takes pairs from the front, which makes the fewest segments.
-/

namespace MinaProtocol.UpdateGroup

/-- `Control.t`, but for a proof: `Signature` and `None_given` are matched together everywhere. -/
inductive Unproved where
  | signature
  | noneGiven
deriving DecidableEq, Repr

/-- `Control.t`. -/
inductive Control where
  | proof
  | unproved (control : Unproved)
deriving DecidableEq, Repr

/-- The authorization of an account update. -/
def Control.ofTag : ControlTag → Control
  | .proof => .proof
  | .signature => .unproved .signature
  | .noneGiven => .unproved .noneGiven

inductive Kind where
  | same
  | new
  | twoNew
deriving DecidableEq, Repr

/-- `Zkapp_command_intermediate_state.t`. -/
structure IntermediateState (Global Local Connecting Spec : Type) where
  kind : Kind
  spec : Spec
  stateBefore : Global × Local
  stateAfter : Global × Local
  connectingLedger : Connecting

variable {Global Local Connecting Spec : Type}

/-- A statement: the global state, the local state and the connecting ledger hash. -/
abbrev Stmt (Global Local Connecting : Type) := Global × Local × Connecting

def intermediateState (kind : Kind) (spec : Spec) (before after : Stmt Global Local Connecting) :
    IntermediateState Global Local Connecting Spec where
  kind := kind
  spec := spec
  stateBefore := (before.1, before.2.1)
  stateAfter := (after.1, after.2.1)
  connectingLedger := after.2.2

/-- What a call of `group_by_zkapp_command_rev` does: it ends, with a last segment or without one, or it makes a segment and
goes on, or it raises. The segment is given by its kind, its controls and the statements around it. -/
inductive Step (S : Type) where
  | done
  | last (kind : Kind) (controls : List Control) (before after : S)
  | more (kind : Kind) (controls : List Control) (before after : S) (commands : List (List Control)) (stmtss : List (List S))
  | failwith (message : String)

variable {S : Type}

section Step

/-- The cases that raise. -/
def unmatched : List (List Control) → List (List S) → String
  | _, [] => "group_by_zkapp_command_rev: No statements remaining"
  | [], _ => "group_by_zkapp_command_rev: Unmatched statements remaining"
  | [[]], _ => "group_by_zkapp_command_rev: Unmatched statements remaining"
  | [] :: _, [] :: _ => "group_by_zkapp_command_rev: No final statement for current transaction"
  | [] :: _, (_ :: _ :: _) :: _ => "group_by_zkapp_command_rev: Unmatched statements for current transaction"
  | [] :: [_] :: _, [_] :: (_ :: _ :: _ :: _) :: _ => "group_by_zkapp_command_rev: Unmatched statements for next transaction"
  | [[], [_]], [_] :: [_, _] :: _ :: _ => "group_by_zkapp_command_rev: Unmatched statements after next transaction"
  | (_ :: _) :: _, [] :: _ => "group_by_zkapp_command_rev: Too few statements remaining for the current transaction"
  | (_ :: _) :: _, [_] :: _ => "group_by_zkapp_command_rev: Too few statements remaining for the current transaction"
  | (_ :: _ :: _) :: _, [_, _] :: _ => "group_by_zkapp_command_rev: Too few statements remaining for the current transaction"
  | [] :: [] :: _, _ => "group_by_zkapp_command_rev: The next transaction has no zkapp_command"
  | [_] :: [] :: _, _ => "group_by_zkapp_command_rev: The next transaction has no zkapp_command"
  | [] :: (_ :: _) :: _, _ :: [] :: _ => "group_by_zkapp_command_rev: Too few statements remaining for the next transaction"
  | [] :: (_ :: _) :: _, _ :: [_] :: _ => "group_by_zkapp_command_rev: Too few statements remaining for the next transaction"
  | [] :: (_ :: _ :: _) :: _, _ :: [_, _] :: _ => "group_by_zkapp_command_rev: Too few statements remaining for the next transaction"
  | [_] :: (_ :: _) :: _, _ :: [] :: _ => "group_by_zkapp_command_rev: Too few statements remaining for the next transaction"
  | [_] :: (_ :: _) :: _, _ :: [_] :: _ => "group_by_zkapp_command_rev: Too few statements remaining for the next transaction"
  | [] :: [_] :: (_ :: _) :: _, _ :: _ :: [] :: _ =>
    "group_by_zkapp_command_rev: Too few statements remaining for the transaction after next"
  | [] :: [_] :: (_ :: _) :: _, _ :: _ :: [_] :: _ =>
    "group_by_zkapp_command_rev: Too few statements remaining for the transaction after next"
  | [] :: (_ :: _) :: _, [_] => "group_by_zkapp_command_rev: No statements given for the next transaction"
  | [_] :: (_ :: _) :: _, [_] => "group_by_zkapp_command_rev: No statements given for the next transaction"
  | [] :: [_] :: (_ :: _) :: _, [_, _ :: _ :: _] => "group_by_zkapp_command_rev: No statements given for transaction after next"
  | _, _ => "Match_failure"

/-- One call of `group_by_zkapp_command_rev`, on the authorizations of the account updates. -/
def step : List (List Control) → List (List S) → Step S
  -- we've associated statements with all given zkapp_command
  | [], [_] => .done
  | [[]], [_] => .done
  -- no later account update to pair this one with
  | [[a1]], [[before, after]] => .last .same [a1] before after
  | [[], [a1]], [[_], [before, after]] => .last .new [a1] before after
  -- this account update contains a proof
  | (.proof :: command) :: commands, (before :: after :: stmts) :: stmtss =>
    .more .same [.proof] before after (command :: commands) ((after :: stmts) :: stmtss)
  | [] :: (.proof :: command) :: commands, [_] :: (before :: after :: stmts) :: stmtss =>
    .more .new [.proof] before after (command :: commands) ((after :: stmts) :: stmtss)
  -- the next account update contains a proof
  | (a1 :: .proof :: command) :: commands, (before :: after :: stmts) :: stmtss =>
    .more .same [a1] before after ((.proof :: command) :: commands) ((after :: stmts) :: stmtss)
  | [a1] :: (.proof :: command) :: commands, (before :: after :: stmts) :: stmtss =>
    .more .same [a1] before after ([] :: (.proof :: command) :: commands) ((after :: stmts) :: stmtss)
  -- the next two are within the same transaction
  | (.unproved a1 :: .unproved a2 :: command) :: commands, (before :: _ :: after :: stmts) :: stmtss =>
    .more .same [.unproved a1, .unproved a2] before after (command :: commands) ((after :: stmts) :: stmtss)
  | [] :: (a1 :: .proof :: command) :: commands, [_] :: (before :: after :: stmts) :: stmtss =>
    .more .new [a1] before after ((.proof :: command) :: commands) ((after :: stmts) :: stmtss)
  -- the next two are within the same new transaction
  | [] :: (.unproved a1 :: .unproved a2 :: command) :: commands, [_] :: (before :: _ :: after :: stmts) :: stmtss =>
    .more .new [.unproved a1, .unproved a2] before after (command :: commands) ((after :: stmts) :: stmtss)
  -- the second is within a new transaction
  | [.unproved a1] :: (.unproved a2 :: command) :: commands, (before :: _) :: (_ :: after :: stmts) :: stmtss =>
    .more .new [.unproved a1, .unproved a2] before after (command :: commands) ((after :: stmts) :: stmtss)
  -- this one is in a new transaction, and the one after it contains a proof
  | [] :: (a1 :: command) :: (.proof :: command') :: commands, [_] :: [before, after] :: stmts :: stmtss =>
    .more .new [a1] before after (command :: (.proof :: command') :: commands) ([after] :: stmts :: stmtss)
  -- the first is within a new transaction, and the second is within another new transaction
  | [] :: [.unproved a1] :: (.unproved a2 :: command) :: commands, [_] :: [before, _] :: (_ :: after :: stmts) :: stmtss =>
    .more .twoNew [.unproved a1, .unproved a2] before after (command :: commands) ((after :: stmts) :: stmtss)
  -- the final account update
  | [[a1]], (before :: after :: _) :: _ => .last .same [a1] before after
  | [] :: [a1] :: [] :: _, [_] :: (before :: after :: _) :: _ => .last .new [a1] before after
  | commands, stmtss => .failwith (unmatched commands stmtss)

end Step

section Group

variable (zkappSegmentOfControls : List Control → Except String Spec)

/-- The loop of `group_by_zkapp_command_rev`, with so many calls. -/
def groupFrom : Nat → List (List Control) → List (List (Stmt Global Local Connecting)) → List (IntermediateState Global Local Connecting Spec) →
    Option (Except String (List (IntermediateState Global Local Connecting Spec)))
  | 0, _, _, _ => none
  | fuel + 1, commands, stmtss, acc =>
    match step commands stmtss with
    | .done => some (.ok acc)
    | .last kind controls before after =>
      match zkappSegmentOfControls controls with
      | .ok spec => some (.ok (intermediateState kind spec before after :: acc))
      | .error message => some (.error message)
    | .more kind controls before after commands stmtss =>
      match zkappSegmentOfControls controls with
      | .ok spec => groupFrom fuel commands stmtss (intermediateState kind spec before after :: acc)
      | .error message => some (.error message)
    | .failwith message => some (.error message)

/-- `all_account_updates_list`. -/
def allAccountUpdatesList (t : ZkappCommand) : List AccountUpdate :=
  (t.accountUpdates.fold (fun acc p => p :: acc) [AccountUpdate.ofFeePayer t.feePayer]).reverse

/-- The authorization of an account update. -/
def control (accountUpdate : AccountUpdate) : Control := .ofTag accountUpdate.authorization

def groupByZkappCommandRev (fuel : Nat) (zkappCommands : List ZkappCommand) (stmtss : List (List (Stmt Global Local Connecting))) :
    Option (Except String (List (IntermediateState Global Local Connecting Spec))) :=
  groupFrom zkappSegmentOfControls fuel ([] :: zkappCommands.map fun zkappCommand => (allAccountUpdatesList zkappCommand).map control) stmtss []

end Group

inductive PossibleSegments where
  | proved
  | signedSingle
  | signedPair
deriving DecidableEq, Repr

def zkappSegmentOfControls : List Control → Except String PossibleSegments
  | [.proof] => .ok .proved
  | [.unproved _] => .ok .signedSingle
  | [.unproved _, .unproved _] => .ok .signedPair
  | _ => .error "zkapp_segment_of_controls: Unsupported combination"

/-! ### What the segments are -/

section Spec

variable {A : Type}

/-- A proof is alone in its segment. -/
def isProof : Control → Bool
  | .proof => true
  | .unproved _ => false

/-- The elements of a command, with a mark on the first. -/
def mark : List A → List (Bool × A)
  | [] => []
  | a :: as => (true, a) :: as.map (false, ·)

/-- The commands that a segment enters. -/
def kindOf (piece : List (Bool × A)) : Kind :=
  match piece.countP (·.1) with
  | 0 => .same
  | 1 => .new
  | _ => .twoNew

/-- The statements, one after the other: lists share their boundaries. -/
def statesOf (stmtss : List (List S)) : List S := stmtss.head?.getD [] ++ stmtss.tail.flatMap List.tail

/-- One list with a statement, then one list for each command with a statement around each of its account updates, and lists
begin with the statement that the one before ends with. -/
structure Documented (updatess : List (List A)) (stmtss : List (List S)) : Prop where
  lengths : ∃ s lists, stmtss = [s] :: lists ∧ List.Forall₂ (fun us ss => ss.length = us.length + 1) updatess lists
  boundaries : stmtss.IsChain fun ss ss' => ss.getLast? = ss'.head?

/-- The segments of the pieces, with the statements around each of them. -/
def Describes (zkappSegmentOfControls : List Control → Except String Spec) :
    List (List (Bool × Control)) → List (Stmt Global Local Connecting) → List (IntermediateState Global Local Connecting Spec) → Prop
  | [], states, segments => segments = [] ∧ states.length = 1
  | piece :: pieces, states, segments => ∃ spec before after rest, zkappSegmentOfControls (piece.map (·.2)) = .ok spec ∧
      states[0]? = some before ∧ states[piece.length]? = some after ∧
      segments = intermediateState (kindOf piece) spec before after :: rest ∧
      Describes zkappSegmentOfControls pieces (states.drop piece.length) rest

end Spec

/-! ### Commands with a statement after each account update -/

section Zipped

/-- A command's account updates, each with the statement after it. There is at least the fee payer. -/
abbrev Zipped (S : Type) := (Control × S) × List (Control × S)

def commandsOf (cur : List (Control × S)) (rest : List (Zipped S)) : List (List Control) :=
  cur.map (·.1) :: rest.map fun command => command.1.1 :: command.2.map (·.1)

/-- The last statement, after the account updates that remain of a command. -/
def endOf : S → List (Control × S) → S
  | x, [] => x
  | _, update :: updates => endOf update.2 updates

def stmtssFrom : S → List (Zipped S) → List (List S)
  | _, [] => []
  | x, command :: rest => (x :: command.1.2 :: command.2.map (·.2)) :: stmtssFrom (endOf command.1.2 command.2) rest

def stmtssOf (x : S) (cur : List (Control × S)) (rest : List (Zipped S)) : List (List S) :=
  (x :: cur.map (·.2)) :: stmtssFrom (endOf x cur) rest

def marked (cur : List (Control × S)) (rest : List (Zipped S)) : List (Bool × Control) :=
  cur.map (fun update => (false, update.1)) ++ (commandsOf cur rest).tail.flatMap mark

def statesFrom (x : S) (cur : List (Control × S)) (rest : List (Zipped S)) : List S :=
  x :: (cur.map (·.2) ++ rest.flatMap fun command => command.1.2 :: command.2.map (·.2))

/-- A proof is not paired with anything. -/
abbrev solo (e : Bool × Control) : Bool := isProof e.2

theorem marked_cons (update : Control × S) (cur : List (Control × S)) (rest : List (Zipped S)) :
    marked (update :: cur) rest = (false, update.1) :: marked cur rest := rfl

theorem marked_new (update : Control × S) (r : List (Control × S)) (rest : List (Zipped S)) :
    marked [] ((update, r) :: rest) = (true, update.1) :: marked r rest := by
  simp [marked, commandsOf, mark, Function.comp_def]

/-- The call makes the first piece the next segment, and goes on behind it. -/
structure Makes (x : S) (cur : List (Control × S)) (rest : List (Zipped S)) (piece : List (Bool × Control))
    (y : S) (cur' : List (Control × S)) (rest' : List (Zipped S)) : Prop where
  marks : marked cur rest = piece ++ marked cur' rest'
  cut : pairCut solo (marked cur rest) = piece :: pairCut solo (marked cur' rest')
  before : (statesFrom x cur rest)[piece.length]? = some y
  after : (statesFrom x cur rest).drop piece.length = statesFrom y cur' rest'
  step : step (commandsOf cur rest) (stmtssOf x cur rest) =
      .more (kindOf piece) (piece.map (·.2)) x y (commandsOf cur' rest') (stmtssOf y cur' rest') ∨
    step (commandsOf cur rest) (stmtssOf x cur rest) = .last (kindOf piece) (piece.map (·.2)) x y ∧ cur' = [] ∧ rest' = []

section Shapes

variable (x s s' : S) (u u' : Unproved) (r : List (Control × S)) (command : Zipped S) (rest : List (Zipped S))

theorem makes_proof : Makes x ((.proof, s) :: r) rest [(false, .proof)] s r rest where
  marks := rfl
  cut := pairCut_solo (Or.inl rfl)
  before := rfl
  after := rfl
  step := by
    cases r with
    | nil =>
      cases rest with
      | nil => exact Or.inr ⟨rfl, rfl, rfl⟩
      | cons command rest => exact Or.inl rfl
    | cons update r => exact Or.inl rfl

theorem makes_newProof : Makes x [] (((.proof, s), r) :: rest) [(true, .proof)] s r rest where
  marks := marked_new _ r rest
  cut := by
    rw [marked_new]
    exact pairCut_solo (Or.inl rfl)
  before := rfl
  after := rfl
  step := by
    cases r with
    | nil =>
      cases rest with
      | nil => exact Or.inr ⟨rfl, rfl, rfl⟩
      | cons command rest => exact Or.inl rfl
    | cons update r => exact Or.inl rfl

variable (h : ∀ e, (marked r rest).head? = some e → solo e = true)

include h

/-- An account update in front of a proof, or the last one. -/
theorem makes_single :
    Makes x ((.unproved u, s) :: r) rest [(false, .unproved u)] s r rest where
  marks := rfl
  cut := pairCut_solo (Or.inr h)
  before := rfl
  after := rfl
  step := by
    rcases r with _ | ⟨⟨_ | _, _⟩, r⟩
    · rcases rest with _ | ⟨⟨⟨_ | _, _⟩, r⟩, rest⟩
      · exact Or.inr ⟨rfl, rfl, rfl⟩
      · exact Or.inl rfl
      · cases h _ (by rw [marked_new]; rfl)
    · exact Or.inl rfl
    · cases h _ rfl

theorem makes_newSingle :
    Makes x [] (((.unproved u, s), r) :: rest) [(true, .unproved u)] s r rest where
  marks := marked_new _ r rest
  cut := by
    rw [marked_new]
    exact pairCut_solo (Or.inr h)
  before := rfl
  after := rfl
  step := by
    rcases r with _ | ⟨⟨_ | _, _⟩, r⟩
    · rcases rest with _ | ⟨⟨⟨_ | _, _⟩, r⟩, rest⟩
      · exact Or.inr ⟨rfl, rfl, rfl⟩
      · exact Or.inl rfl
      · cases h _ (by rw [marked_new]; rfl)
    · exact Or.inl rfl
    · cases h _ rfl

omit h

theorem makes_pair : Makes x ((.unproved u, s) :: (.unproved u', s') :: r) rest [(false, .unproved u), (false, .unproved u')] s' r rest where
  marks := rfl
  cut := pairCut_pair rfl rfl
  before := rfl
  after := rfl
  step := Or.inl rfl

theorem makes_newPair : Makes x [] (((.unproved u, s), (.unproved u', s') :: r) :: rest) [(true, .unproved u), (false, .unproved u')] s' r rest where
  marks := marked_new _ _ rest
  cut := by
    rw [marked_new]
    exact pairCut_pair rfl rfl
  before := rfl
  after := rfl
  step := Or.inl rfl

theorem makes_pairAcross :
    Makes x [(.unproved u, s)] (((.unproved u', s'), r) :: rest) [(false, .unproved u), (true, .unproved u')] s' r rest where
  marks := by rw [marked_cons, marked_new]; rfl
  cut := by
    rw [marked_cons, marked_new]
    exact pairCut_pair rfl rfl
  before := rfl
  after := rfl
  step := Or.inl rfl

theorem makes_twoNew :
    Makes x [] (((.unproved u, s), []) :: ((.unproved u', s'), r) :: rest) [(true, .unproved u), (true, .unproved u')] s' r rest where
  marks := by rw [marked_new, marked_new]; rfl
  cut := by
    rw [marked_new, marked_new]
    exact pairCut_pair rfl rfl
  before := rfl
  after := rfl
  step := Or.inl rfl

end Shapes

theorem exists_makes (x : S) (cur : List (Control × S)) (rest : List (Zipped S)) :
    (cur = [] ∧ rest = []) ∨ ∃ piece y cur' rest', Makes x cur rest piece y cur' rest' := by
  rcases cur with _ | ⟨⟨_ | u, s⟩, r⟩
  · rcases rest with _ | ⟨⟨⟨_ | u, s⟩, r⟩, rest⟩
    · exact Or.inl ⟨rfl, rfl⟩
    · exact Or.inr ⟨_, _, _, _, makes_newProof x s r rest⟩
    · right
      rcases r with _ | ⟨⟨_ | u', s'⟩, r⟩
      · rcases rest with _ | ⟨⟨⟨_ | u', s'⟩, r⟩, rest⟩
        · exact ⟨_, _, _, _, makes_newSingle x s u [] [] (by simp [marked, commandsOf])⟩
        · refine ⟨_, _, _, _, makes_newSingle x s u [] _ fun e he => ?_⟩
          rw [marked_new] at he
          cases he
          rfl
        · exact ⟨_, _, _, _, makes_twoNew x s s' u u' r rest⟩
      · refine ⟨_, _, _, _, makes_newSingle x s u _ rest fun e he => ?_⟩
        cases he
        rfl
      · exact ⟨_, _, _, _, makes_newPair x s s' u u' r rest⟩
  · exact Or.inr ⟨_, _, _, _, makes_proof x s r rest⟩
  · right
    rcases r with _ | ⟨⟨_ | u', s'⟩, r⟩
    · rcases rest with _ | ⟨⟨⟨_ | u', s'⟩, r⟩, rest⟩
      · exact ⟨_, _, _, _, makes_single x s u [] [] (by simp [marked, commandsOf])⟩
      · refine ⟨_, _, _, _, makes_single x s u [] _ fun e he => ?_⟩
        rw [marked_new] at he
        cases he
        rfl
      · exact ⟨_, _, _, _, makes_pairAcross x s s' u u' r rest⟩
    · refine ⟨_, _, _, _, makes_single x s u _ rest fun e he => ?_⟩
      cases he
      rfl
    · exact ⟨_, _, _, _, makes_pair x s s' u u' r rest⟩

end Zipped

variable {segmentOf : List Control → Except String Spec}

section Run

/-- The controls of every piece are supported. -/
def Supports (segmentOf : List Control → Except String Spec) : Prop :=
  ∀ piece, IsPiece solo piece → ∃ spec, segmentOf (piece.map (·.2)) = .ok spec

theorem groupFrom_describes (hsupports : Supports segmentOf) (x : Stmt Global Local Connecting)
    (cur : List (Control × Stmt Global Local Connecting)) (rest : List (Zipped (Stmt Global Local Connecting))) :
    ∃ segments, Describes segmentOf (pairCut solo (marked cur rest)) (statesFrom x cur rest) segments ∧
      ∀ fuel acc, (marked cur rest).length < fuel →
        groupFrom segmentOf fuel (commandsOf cur rest) (stmtssOf x cur rest) acc = some (.ok (segments.reverse ++ acc)) := by
  induction hn : (marked cur rest).length using Nat.strongRecOn generalizing x cur rest with
  | ind n ih =>
    rcases exists_makes x cur rest with hdone | ⟨piece, y, cur', rest', hmakes⟩
    · obtain ⟨rfl, rfl⟩ := hdone
      refine ⟨[], ⟨rfl, rfl⟩, fun fuel acc hfuel => ?_⟩
      obtain ⟨fuel, rfl⟩ := Nat.exists_eq_succ_of_ne_zero (Nat.ne_of_gt (Nat.zero_lt_of_lt hfuel))
      rfl
    · have hpiece : IsPiece solo piece :=
        (pairCut_isPairCut solo (marked cur rest)).pieces piece (by rw [hmakes.cut]; exact List.mem_cons_self)
      obtain ⟨spec, hspec⟩ := hsupports piece hpiece
      have hlength : (marked cur rest).length = piece.length + (marked cur' rest').length := by
        rw [hmakes.marks, List.length_append]
      have hpos : 0 < piece.length := by
        rcases hpiece with ⟨e, rfl⟩ | ⟨e, e', rfl, -⟩
        · exact Nat.zero_lt_one
        · exact Nat.zero_lt_two
      obtain ⟨segments, hdescribes, hrun⟩ := ih (marked cur' rest').length (by omega) y cur' rest' rfl
      refine ⟨intermediateState (kindOf piece) spec x y :: segments, ?_, fun fuel acc hfuel => ?_⟩
      · rw [hmakes.cut]
        refine ⟨spec, x, y, segments, hspec, rfl, hmakes.before, rfl, ?_⟩
        rw [hmakes.after]
        exact hdescribes
      · obtain ⟨fuel, rfl⟩ := Nat.exists_eq_succ_of_ne_zero (Nat.ne_of_gt (Nat.zero_lt_of_lt hfuel))
        have hacc : (intermediateState (kindOf piece) spec x y :: segments).reverse ++ acc =
            segments.reverse ++ intermediateState (kindOf piece) spec x y :: acc := by simp
        rw [hacc]
        rcases hmakes.step with hmore | ⟨hlast, rfl, rfl⟩
        · rw [groupFrom, hmore]
          simp only [hspec]
          exact hrun fuel _ (by omega)
        · obtain rfl : segments = [] := hdescribes.1
          rw [groupFrom, hlast]
          simp only [hspec]
          rfl

end Run

section Documented

theorem getLast?_endOf (x : S) (r : List (Control × S)) : (x :: r.map (·.2)).getLast? = some (endOf x r) := by
  induction r generalizing x with
  | nil => rfl
  | cons update r ih =>
    rw [List.map_cons, List.getLast?_cons_cons]
    exact ih update.2

theorem exists_zipped {updatess : List (List Control)} {lists : List (List S)} (hnonempty : ∀ us ∈ updatess, us ≠ [])
    (hlengths : List.Forall₂ (fun us ss => ss.length = us.length + 1) updatess lists) {ss : List S} {x : S} (hx : ss.getLast? = some x)
    (hboundaries : (ss :: lists).IsChain fun ss ss' => ss.getLast? = ss'.head?) :
    ∃ rest : List (Zipped S), [] :: updatess = commandsOf [] rest ∧ lists = stmtssFrom x rest := by
  induction hlengths generalizing ss x with
  | nil => exact ⟨[], rfl, rfl⟩
  | cons hlength hlengths ih =>
    rename_i us ss' updatess lists
    obtain ⟨husne, htailne⟩ := List.forall_mem_cons.mp hnonempty
    obtain ⟨hhead, hchain⟩ := List.isChain_cons_cons.mp hboundaries
    obtain ⟨u, us, rfl⟩ := List.exists_cons_of_ne_nil husne
    rcases ss' with _ | ⟨y, _ | ⟨s, ss'⟩⟩
    · cases hlength
    · cases hlength
    · obtain rfl : x = y := Option.some.inj (hx.symm.trans hhead)
      have hlen : us.length = ss'.length := by
        simp only [List.length_cons] at hlength
        omega
      have hcontrols : (us.zip ss').map (·.1) = us := List.map_fst_zip (Nat.le_of_eq hlen)
      have hstates : (us.zip ss').map (·.2) = ss' := List.map_snd_zip (Nat.le_of_eq hlen.symm)
      have hlast : (x :: s :: ss').getLast? = some (endOf s (us.zip ss')) := by
        rw [List.getLast?_cons_cons, ← getLast?_endOf, hstates]
      obtain ⟨rest, hcommands, hlists⟩ := ih htailne hlast hchain
      refine ⟨((u, s), us.zip ss') :: rest, ?_, ?_⟩
      · obtain ⟨-, rfl⟩ := List.cons.inj hcommands
        rw [commandsOf, List.map_cons, hcontrols]
        rfl
      · rw [stmtssFrom, hstates, ← hlists]

theorem statesOf_zipped (x : S) (rest : List (Zipped S)) : statesOf (stmtssOf x [] rest) = statesFrom x [] rest := by
  have htails : ∀ y, (stmtssFrom y rest).flatMap List.tail = rest.flatMap fun command => command.1.2 :: command.2.map (·.2) := by
    induction rest with
    | nil => exact fun _ => rfl
    | cons command rest ih =>
      intro y
      rw [stmtssFrom, List.flatMap_cons, List.flatMap_cons, ih]
      rfl
  change x :: (stmtssFrom x rest).flatMap List.tail = _
  rw [htails]
  rfl

theorem Documented.zipped {A : Type} {updatess : List (List A)} {stmtss : List (List S)} (h : Documented updatess stmtss) (control : A → Control)
    (hnonempty : ∀ us ∈ updatess, us ≠ []) :
    ∃ x, ∃ rest : List (Zipped S), [] :: updatess.map (·.map control) = commandsOf [] rest ∧ stmtss = stmtssOf x [] rest := by
  obtain ⟨⟨x, lists, rfl, hlengths⟩, hboundaries⟩ := h
  have hnonempty' : ∀ us ∈ updatess.map (·.map control), us ≠ [] := by
    intro controls hcontrols
    obtain ⟨us, hus, rfl⟩ := List.mem_map.mp hcontrols
    exact fun hnil => hnonempty us hus (List.map_eq_nil_iff.mp hnil)
  have hlengths' : List.Forall₂ (fun us ss => ss.length = us.length + 1) (updatess.map (·.map control)) lists := by
    rw [List.forall₂_map_left_iff]
    exact hlengths.imp fun us ss hlength => by rw [List.length_map]; exact hlength
  obtain ⟨rest, hcommands, hlists⟩ := exists_zipped hnonempty' hlengths' rfl hboundaries
  exact ⟨x, rest, hcommands, by rw [hlists]; rfl⟩

end Documented

section Result

variable {segments : List (IntermediateState Global Local Connecting Spec)}
  {states : List (Stmt Global Local Connecting)} {pieces : List (List (Bool × Control))} {A : Type}

theorem Describes.isChain (h : Describes segmentOf pieces states segments) :
    segments.IsChain fun segment segment' => segment.stateAfter = segment'.stateBefore := by
  induction pieces generalizing states segments with
  | nil =>
    rw [h.1]
    exact List.IsChain.nil
  | cons piece pieces ih =>
    obtain ⟨spec, before, after, rest, -, -, hafter, rfl, hrest⟩ := h
    have hchain := ih hrest
    cases pieces with
    | nil =>
      obtain ⟨rfl, -⟩ := hrest
      exact List.isChain_singleton _
    | cons piece' pieces =>
      obtain ⟨spec', before', after', rest', -, hbefore', -, rfl, -⟩ := hrest
      rw [List.getElem?_drop, Nat.add_zero, hafter] at hbefore'
      cases hbefore'
      exact List.isChain_cons_cons.mpr ⟨rfl, hchain⟩

theorem Describes.length_eq (h : Describes segmentOf pieces states segments) : segments.length = pieces.length := by
  induction pieces generalizing states segments with
  | nil =>
    rw [h.1]
    rfl
  | cons piece pieces ih =>
    obtain ⟨spec, before, after, rest, -, -, -, rfl, hrest⟩ := h
    rw [List.length_cons, ih hrest, List.length_cons]

theorem allAccountUpdatesList_eq (t : ZkappCommand) :
    allAccountUpdatesList t = AccountUpdate.ofFeePayer t.feePayer :: t.accountUpdates.toList := by
  rw [allAccountUpdatesList, CallForest.fold_eq_foldl, List.foldl_flip_cons_eq_append]
  simp

theorem zkappSegmentOfControls_supports : Supports zkappSegmentOfControls := by
  rintro piece (⟨⟨b, control⟩, rfl⟩ | ⟨⟨b, control⟩, ⟨b', control'⟩, rfl, hcontrol, hcontrol'⟩)
  · cases control with
    | proof => exact ⟨.proved, rfl⟩
    | unproved control => exact ⟨.signedSingle, rfl⟩
  · cases control with
    | proof => cases hcontrol
    | unproved control =>
      cases control' with
      | proof => cases hcontrol'
      | unproved control' => exact ⟨.signedPair, rfl⟩

/-- The account updates of all commands, the first of each command marked. -/
def markedUpdates (zkappCommands : List ZkappCommand) : List (Bool × AccountUpdate) :=
  zkappCommands.flatMap fun zkappCommand => mark (allAccountUpdatesList zkappCommand)

theorem mark_map {B : Type} (f : A → B) (as : List A) : mark (as.map f) = (mark as).map (Prod.map id f) := by
  cases as <;> simp [mark, Function.comp_def]

theorem map_snd_mark (as : List A) : (mark as).map (·.2) = as := by
  cases as <;> simp [mark, Function.comp_def]

/-- Account updates are grouped into single ones and pairs without proofs, as few as there can be. -/
theorem grouped_fewest (zkappCommands : List ZkappCommand) (stmtss : List (List (Stmt Global Local Connecting)))
    (h : Documented (zkappCommands.map allAccountUpdatesList) stmtss) :
    ∃ pieces, ∃ segments : List (IntermediateState Global Local Connecting PossibleSegments),
      (∀ fuel, (markedUpdates zkappCommands).length < fuel →
        groupByZkappCommandRev zkappSegmentOfControls fuel zkappCommands stmtss = some (.ok segments.reverse)) ∧
      IsPairCut (fun e => isProof (control e.2)) (markedUpdates zkappCommands) pieces ∧
      Describes zkappSegmentOfControls (pieces.map (·.map (Prod.map id control))) (statesOf stmtss) segments ∧
      segments.IsChain (fun segment segment' => segment.stateAfter = segment'.stateBefore) ∧
      ∀ pieces', IsPairCut (fun accountUpdate => isProof (control accountUpdate)) (zkappCommands.flatMap allAccountUpdatesList) pieces' →
        segments.length ≤ pieces'.length := by
  have hnonempty : ∀ us ∈ zkappCommands.map allAccountUpdatesList, us ≠ [] := by
    intro us hus
    obtain ⟨t, -, rfl⟩ := List.mem_map.mp hus
    rw [allAccountUpdatesList_eq]
    exact List.cons_ne_nil _ _
  obtain ⟨x, rest, hcommands, rfl⟩ := h.zipped control hnonempty
  rw [List.map_map] at hcommands
  have hmarked : marked [] rest = (markedUpdates zkappCommands).map (Prod.map id control) := by
    rw [marked, ← hcommands, markedUpdates, List.map_flatMap, List.tail_cons, List.flatMap_map]
    exact List.flatMap_congr fun t _ => mark_map control (allAccountUpdatesList t)
  have hcut := pairCut_map solo (Prod.map id control) (markedUpdates zkappCommands)
  have hupdates : (markedUpdates zkappCommands).map (·.2) = zkappCommands.flatMap allAccountUpdatesList := by
    rw [markedUpdates, List.map_flatMap]
    exact List.flatMap_congr fun t _ => map_snd_mark (allAccountUpdatesList t)
  obtain ⟨segments, hdescribes, hrun⟩ := groupFrom_describes zkappSegmentOfControls_supports x [] rest
  rw [hmarked, hcut] at hdescribes
  refine ⟨pairCut (fun e => isProof (control e.2)) (markedUpdates zkappCommands), segments, fun fuel hfuel => ?_,
    pairCut_isPairCut _ _, ?_, hdescribes.isChain, fun pieces' hpieces' => ?_⟩
  · have hfuel : (marked [] rest).length < fuel := by
      rw [hmarked, List.length_map]
      exact hfuel
    have hresult := hrun fuel [] hfuel
    rw [List.append_nil, ← hcommands] at hresult
    exact hresult
  · rw [statesOf_zipped]
    exact hdescribes
  · have hle := hpieces'.length_le
    rw [← hupdates, pairCut_map, List.length_map] at hle
    rw [hdescribes.length_eq, List.length_map]
    exact hle

end Result

def samplePayer : FeePayer := ⟨⟨1, false⟩, 5, none, 0⟩

/-- A command with its fee payer only, and one with a proof and two more account updates. -/
def sampleCommands : List ZkappCommand :=
  let update := AccountUpdate.ofFeePayer samplePayer
  [⟨samplePayer, .nil, ""⟩,
    ⟨samplePayer, .cons { update with authorization := .proof } (.cons update .nil .nil) (.cons update .nil .nil), ""⟩]

def sampleStmtss : List (List (Stmt Nat Unit Unit)) :=
  [[(0, (), ())], [(0, (), ()), (1, (), ())], [(1, (), ()), (2, (), ()), (3, (), ()), (4, (), ()), (5, (), ())]]

/-- Both fee payers are in one segment, then there is the proof, then a pair. -/
theorem grouped_fewest_sample : ∃ segments : List (IntermediateState Nat Unit Unit PossibleSegments),
      groupByZkappCommandRev zkappSegmentOfControls 6 sampleCommands sampleStmtss = some (.ok segments.reverse) ∧
      segments.IsChain (fun segment segment' => segment.stateAfter = segment'.stateBefore) ∧ segments.length ≤ 3 := by
  have hlengths : List.Forall₂ (fun us ss => ss.length = us.length + 1) (sampleCommands.map allAccountUpdatesList) sampleStmtss.tail :=
    .cons rfl (.cons rfl .nil)
  have hboundaries : sampleStmtss.IsChain fun ss ss' => ss.getLast? = ss'.head? := by
    simp [sampleStmtss]
  obtain ⟨pieces, segments, hrun, -, -, hchain, hfewest⟩ :=
    grouped_fewest sampleCommands sampleStmtss ⟨⟨(0, (), ()), sampleStmtss.tail, rfl, hlengths⟩, hboundaries⟩
  let payer := AccountUpdate.ofFeePayer samplePayer
  have hcut : IsPairCut (fun accountUpdate => isProof (control accountUpdate)) (sampleCommands.flatMap allAccountUpdatesList)
      [[payer, payer], [{ payer with authorization := .proof }], [payer, payer]] := by
    refine ⟨rfl, fun piece hpiece => ?_⟩
    rcases List.mem_cons.mp hpiece with rfl | hpiece
    · exact Or.inr ⟨_, _, rfl, rfl, rfl⟩
    · rcases List.mem_cons.mp hpiece with rfl | hpiece
      · exact Or.inl ⟨_, rfl⟩
      · obtain rfl := List.mem_singleton.mp hpiece
        exact Or.inr ⟨_, _, rfl, rfl, rfl⟩
  exact ⟨segments, hrun 6 (by decide), hchain, hfewest _ hcut⟩

end MinaProtocol.UpdateGroup
