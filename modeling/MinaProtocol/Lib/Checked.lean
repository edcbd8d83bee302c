import Mathlib.Tactic

/-!
# Lib.Checked

Computations that note checks on the way and go on whether they hold or not. Each check
has the error that it reports. An assertion that fails is no check: it stops the
computation. `Passes` says that the computation gives a value and all its checks hold.
-/

namespace MinaProtocol

/-- A value with the checks that were made for it, in their order, or nothing where an
assertion fails. -/
def Checked (ε α : Type) := Option (α × List (ε × Bool))

namespace Checked

variable {ε α β : Type} {u : Unit} {b : Bool} {a : α}

instance : Monad (Checked ε) where
  pure a := some (a, [])
  bind x f :=
    match x with
    | none => none
    | some (a, checks) =>
      match f a with
      | none => none
      | some (b, checks') => some (b, checks ++ checks')

/-- Note one check. -/
def check (e : ε) (b : Bool) : Checked ε Unit := some ((), [(e, b)])

/-- Note several checks. -/
def checkAll (l : List (ε × Bool)) : Checked ε Unit := some ((), l)

/-- Stop unless the condition holds. -/
def assert (b : Bool) : Checked ε Unit := if b then some ((), []) else none

/-- The value of an option, or stop. -/
def ofOption : Option α → Checked ε α
  | none => none
  | some a => some (a, [])

/-- The value, with all checks holding. -/
def Passes (x : Checked ε α) (a : α) : Prop :=
  ∃ checks, x = some (a, checks) ∧ ∀ c ∈ checks, c.2 = true

@[simp] theorem passes_pure {b : α} : (pure a : Checked ε α).Passes b ↔ b = a := by
  constructor
  · rintro ⟨checks, h, -⟩
    exact (congrArg Prod.fst (Option.some.inj h)).symm
  · rintro rfl
    exact ⟨[], rfl, nofun⟩

/-- **Two computations pass when both do.** -/
@[simp] theorem passes_bind {x : Checked ε α} {f : α → Checked ε β} {b : β} :
    (x >>= f).Passes b ↔ ∃ a, x.Passes a ∧ (f a).Passes b := by
  constructor
  · rintro ⟨checks, h, hall⟩
    cases x with
    | none => cases h
    | some p =>
      obtain ⟨a, l⟩ := p
      change (match f a with | none => none | some (b, l') => some (b, l ++ l')) = _ at h
      cases hfa : f a with
      | none =>
        rw [hfa] at h
        cases h
      | some q =>
        rw [hfa] at h
        cases h
        refine ⟨a, ⟨l, rfl, ?_⟩, q.2, hfa, ?_⟩
        · intro c hc
          exact hall c (List.mem_append_left _ hc)
        · intro c hc
          exact hall c (List.mem_append_right _ hc)
  · rintro ⟨a, ⟨l, rfl, hl⟩, l', hfa, hl'⟩
    refine ⟨l ++ l', ?_, ?_⟩
    · change (match f a with | none => none | some (b, l') => some (b, l ++ l')) = _
      rw [hfa]
    · intro c hc
      rcases List.mem_append.1 hc with hc | hc
      · exact hl c hc
      · exact hl' c hc

@[simp] theorem passes_check {e : ε} : (check e b).Passes u ↔ b = true := by
  constructor
  · rintro ⟨checks, h, hall⟩
    cases h
    exact hall (e, b) (List.mem_singleton.2 rfl)
  · rintro rfl
    refine ⟨[(e, true)], rfl, ?_⟩
    intro c hc
    rw [List.mem_singleton.1 hc]

@[simp] theorem passes_checkAll {l : List (ε × Bool)} : (checkAll l).Passes u ↔ ∀ c ∈ l, c.2 = true := by
  constructor
  · rintro ⟨checks, h, hall⟩
    cases h
    exact hall
  · intro h
    exact ⟨l, rfl, h⟩

@[simp] theorem passes_assert : (assert b : Checked ε Unit).Passes u ↔ b = true := by
  cases b with
  | false =>
    constructor
    · rintro ⟨checks, h, -⟩
      cases h
    · nofun
  | true => exact ⟨fun _ => rfl, fun _ => ⟨[], rfl, nofun⟩⟩

@[simp] theorem passes_ofOption {o : Option α} : (ofOption o : Checked ε α).Passes a ↔ o = some a := by
  cases o with
  | none =>
    constructor
    · rintro ⟨checks, h, -⟩
      cases h
    · nofun
  | some b =>
    constructor
    · rintro ⟨checks, h, -⟩
      cases h
      rfl
    · rintro ⟨⟩
      exact ⟨[], rfl, nofun⟩

end Checked

end MinaProtocol
