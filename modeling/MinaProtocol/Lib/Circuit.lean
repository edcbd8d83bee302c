import Mathlib.Tactic

/-!
# Lib.Circuit

Circuits as the values that they can return. A circuit chooses its variables, checks
their types, and asserts constraints; it returns a value if some choice satisfies them.
A prover can make any such choice, also one that the code never makes itself. A circuit
that leaves no choice is equal to a `pure` value.
-/

namespace MinaProtocol

/-- A circuit, by the values that it returns in the satisfying assignments. -/
def Circuit (α : Type) : Type := α → Prop

namespace Circuit

variable {α β : Type} {c : Circuit α} {a : α}

/-- Some assignment satisfies the constraints and returns the value. -/
def Returns (c : Circuit α) (a : α) : Prop := c a

/-- The constraints can be satisfied. -/
def Satisfiable (c : Circuit α) : Prop := ∃ a, c.Returns a

instance : Monad Circuit where
  pure a := fun b => b = a
  bind c f := fun b => ∃ a, c a ∧ f a b

/-- A variable that the prover chooses, with the check of its type. -/
def choose (check : α → Prop) : Circuit α := check

/-- A constraint. -/
def assert (p : Prop) : Circuit Unit := fun _ => p

@[simp] theorem returns_pure {b : α} : (pure a : Circuit α).Returns b ↔ b = a := Iff.rfl

@[simp] theorem returns_bind {f : α → Circuit β} {b : β} :
    (c >>= f).Returns b ↔ ∃ a, c.Returns a ∧ (f a).Returns b := Iff.rfl

@[simp] theorem returns_choose {check : α → Prop} : (choose check).Returns a ↔ check a := Iff.rfl

@[simp] theorem returns_assert {p : Prop} {u : Unit} : (assert p).Returns u ↔ p := Iff.rfl

@[ext] theorem ext {d : Circuit α} (h : ∀ a, c.Returns a ↔ d.Returns a) : c = d :=
  funext fun a => propext (h a)

theorem id_map' (c : Circuit α) : id <$> c = c := by
  ext a
  constructor
  · intro h
    obtain ⟨b, hb, hab⟩ := h
    exact hab ▸ hb
  · intro h
    exact ⟨a, h, rfl⟩

theorem pure_bind' (a : α) (f : α → Circuit β) : pure a >>= f = f a := by
  ext b
  constructor
  · intro h
    obtain ⟨x, hx, hb⟩ := h
    exact hx ▸ hb
  · intro h
    exact ⟨a, rfl, h⟩

theorem bind_assoc' {γ : Type} (c : Circuit α) (f : α → Circuit β) (g : β → Circuit γ) :
    c >>= f >>= g = c >>= fun x => f x >>= g := by
  ext x
  constructor
  · intro h
    obtain ⟨b, ⟨a, ha, hb⟩, hx⟩ := h
    exact ⟨a, ha, b, hb, hx⟩
  · intro h
    obtain ⟨a, ha, b, hb, hx⟩ := h
    exact ⟨b, ⟨a, ha, hb⟩, hx⟩

instance : LawfulMonad Circuit := LawfulMonad.mk' Circuit id_map' pure_bind' bind_assoc'

@[simp] theorem assert_true : assert True = pure () := by
  ext u
  exact ⟨fun _ => rfl, fun _ => trivial⟩

/-- A circuit for each element of a list and its index. -/
def mapi (f : Nat → α → Circuit β) : Nat → List α → Circuit (List β)
  | _, [] => pure []
  | i, x :: xs => do
    let y ← f i x
    let ys ← mapi f (i + 1) xs
    pure (y :: ys)

/-- A circuit along a list. -/
def fold (f : β → α → Circuit β) : β → List α → Circuit β
  | init, [] => pure init
  | init, x :: xs => do
    let y ← f init x
    fold f y xs

theorem mapi_eq_pure {f : Nat → α → Circuit β} {g : Nat → α → β} (i : Nat) (xs : List α)
    (h : ∀ j x, xs[j]? = some x → f (i + j) x = pure (g (i + j) x)) :
    mapi f i xs = pure (xs.mapIdx fun j x => g (i + j) x) := by
  induction xs generalizing i with
  | nil => rfl
  | cons x xs ih =>
    have hx := h 0 x rfl
    have hxs := ih (i + 1) fun j y hj => by
      have := h (j + 1) y hj
      rwa [show i + 1 + j = i + (j + 1) by omega]
    rw [add_zero] at hx
    unfold mapi
    rw [hx, pure_bind, hxs, pure_bind, List.mapIdx_cons, add_zero]
    congr 3
    funext j y
    rw [show i + 1 + j = i + (j + 1) by omega]

end Circuit

end MinaProtocol
