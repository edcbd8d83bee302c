import Mathlib.Tactic

/-!
# Lib.Outcome

The outcome of a call that can return a value, return an error, or raise. Errors are
results that the caller sees and handles; a raise goes through every caller.
-/

namespace MinaProtocol

universe u v

/-- A value, an error, or an exception. -/
inductive Outcome (ε : Type) (α : Type u) where
  | raise
  | error (e : ε)
  | ok (a : α)
deriving DecidableEq

namespace Outcome

variable {ε : Type} {α β : Type u}
  {x : Outcome ε α} {f : α → Outcome ε β} {o : Option α} {b : Bool} {ε' : Type} {e : ε} {u : Unit} {a : α}

/-- Go on with the value, which may live in another universe than the result. -/
protected def bind {α : Type u} {β : Type v} (x : Outcome ε α) (f : α → Outcome ε β) : Outcome ε β :=
  match x with
  | .raise => .raise
  | .error e => .error e
  | .ok a => f a

instance : Monad (Outcome ε) where
  pure := .ok
  bind := Outcome.bind

/-- The value of an option, or raise. -/
def ofOption : Option α → Outcome ε α
  | none => .raise
  | some a => .ok a

/-- The value of an option, or the error. -/
def okOr (o : Option α) (e : ε) : Outcome ε α :=
  match o with
  | none => .error e
  | some a => .ok a

/-- Raise unless the condition holds. -/
def assert (b : Bool) : Outcome ε Unit := if b then .ok () else .raise

/-- Return the error unless the condition holds. -/
def okIfTrue (b : Bool) (e : ε) : Outcome ε Unit := if b then .ok () else .error e

/-- Catch an exception and return it as the error. -/
def tryWith (e : ε) (x : Outcome ε α) : Outcome ε α :=
  match x with
  | .raise => .error e
  | .error e => .error e
  | .ok a => .ok a

@[simp] theorem tryWith_eq_ok : tryWith e x = .ok a ↔ x = .ok a := by
  cases x <;> simp [tryWith]

/-- `Result.map_error`. -/
def mapError {ε' : Type} (f : ε → ε') (x : Outcome ε α) : Outcome ε' α :=
  match x with
  | .raise => .raise
  | .error e => .error (f e)
  | .ok a => .ok a

theorem mapError_eq_ok {f : ε → ε'} : mapError f x = .ok a ↔ x = .ok a := by
  cases x <;> simp [mapError]

@[simp] theorem pure_eq (a : α) : (pure a : Outcome ε α) = .ok a := rfl

@[simp] theorem raise_bind (f : α → Outcome ε β) : (Outcome.raise >>= f) = .raise := rfl

@[simp] theorem error_bind (e : ε) (f : α → Outcome ε β) : (Outcome.error e >>= f) = .error e := rfl

@[simp] theorem ok_bind (a : α) (f : α → Outcome ε β) : (Outcome.ok a >>= f) = f a := rfl

@[simp] theorem ofOption_none : (ofOption none : Outcome ε α) = .raise := rfl

@[simp] theorem ofOption_some (a : α) : (ofOption (some a) : Outcome ε α) = .ok a := rfl

@[simp] theorem assert_true : (assert true : Outcome ε Unit) = .ok () := rfl

@[simp] theorem assert_false : (assert false : Outcome ε Unit) = .raise := rfl

@[simp] theorem okIfTrue_true (e : ε) : okIfTrue true e = .ok () := rfl

@[simp] theorem okIfTrue_false (e : ε) : okIfTrue false e = .error e := rfl

/-- The call returned a value. -/
def isOk : Outcome ε α → Bool
  | .ok _ => true
  | _ => false

theorem bind_eq_ok {b : β} : (x >>= f) = .ok b ↔ ∃ a, x = .ok a ∧ f a = .ok b := by
  cases x <;> simp

theorem bind_ok_iff {α : Type u} {β : Type v} {x : Outcome ε α} {f : α → Outcome ε β} {b : β} :
    x.bind f = .ok b ↔ ∃ a, x = .ok a ∧ f a = .ok b := by
  cases x <;> simp [Outcome.bind]

theorem ofOption_eq_ok : (ofOption o : Outcome ε α) = .ok a ↔ o = some a := by
  cases o <;> simp

theorem okOr_eq_ok : okOr o e = .ok a ↔ o = some a := by
  cases o <;> simp [okOr]

@[simp] theorem assert_eq_ok : (assert b : Outcome ε Unit) = .ok u ↔ b = true := by
  cases b <;> simp

theorem okIfTrue_eq_ok : okIfTrue b e = .ok u ↔ b = true := by
  cases b <;> simp

/-! ### Calls that do not raise -/

theorem okIfTrue_ne_raise : okIfTrue b e ≠ .raise := by
  cases b <;> simp

theorem okOr_ne_raise : okOr o e ≠ .raise := by
  cases o <;> simp [okOr]

theorem mapError_ne_raise {f : ε → ε'} : mapError f x ≠ .raise ↔ x ≠ .raise := by
  cases x <;> simp [mapError]

theorem bind_ne_raise (hx : x ≠ .raise) (hf : ∀ a, x = .ok a → f a ≠ .raise) : (x >>= f) ≠ .raise := by
  cases x with
  | raise => exact absurd rfl hx
  | error e => simp
  | ok a => exact hf a rfl

end Outcome

end MinaProtocol
