import MinaProtocol.Lib.Outcome

/-!
# Lib.InPlace

Calls that change a state in place. What such a call has written stays when it returns an error or raises, so
that an error has a state of its own: the inversion lemmas say where a sequence of calls has stopped, and with
which state.
-/

namespace MinaProtocol

/-- A call on a state: the outcome, and the state afterwards whatever the outcome. -/
def InPlace (σ ε α : Type) : Type := σ → Outcome ε α × σ

namespace InPlace

variable {σ ε α β : Type}

protected def bind (x : InPlace σ ε α) (f : α → InPlace σ ε β) : InPlace σ ε β := fun s =>
  match x s with
  | (.ok a, s₁) => f a s₁
  | (.error e, s₁) => (.error e, s₁)
  | (.raise, s₁) => (.raise, s₁)

instance : Monad (InPlace σ ε) where
  pure a := fun s => (.ok a, s)
  bind := InPlace.bind

/-- A call that does not touch the state. -/
def lift (x : Outcome ε α) : InPlace σ ε α := fun s => (x, s)

def get : InPlace σ ε σ := fun s => (.ok s, s)

def modify (f : σ → σ) : InPlace σ ε Unit := fun s => (.ok (), f s)

/-- Catch an exception and return it as the error. -/
def tryWith (e : ε) (x : InPlace σ ε α) : InPlace σ ε α := fun s => (Outcome.tryWith e (x s).1, (x s).2)

/-- The call on a copy of the state, which takes its place when there is no error. -/
def onCopy (x : InPlace σ ε α) : InPlace σ ε α := fun s => ((x s).1, if (x s).1.isOk then (x s).2 else s)

variable {s s' : σ} {e : ε} {a : α} {b : β} {x : InPlace σ ε α} {f : α → InPlace σ ε β} {o : Outcome ε α} {g : σ → σ}

@[simp] theorem pure_apply : (pure a : InPlace σ ε α) s = (.ok a, s) := rfl

@[simp] theorem get_apply : (get : InPlace σ ε σ) s = (.ok s, s) := rfl

@[simp] theorem modify_apply : (modify g : InPlace σ ε Unit) s = (.ok (), g s) := rfl

@[simp] theorem lift_apply : (lift o : InPlace σ ε α) s = (o, s) := rfl

theorem bind_apply : (x >>= f) s = InPlace.bind x f s := rfl

/-- **A sequence stops with an error** in its first part, or in the rest. -/
theorem bind_eq_error :
    (x >>= f) s = (.error e, s') ↔ x s = (.error e, s') ∨ ∃ a s₁, x s = (.ok a, s₁) ∧ f a s₁ = (.error e, s') := by
  rw [bind_apply, InPlace.bind]
  obtain ⟨o, s₁⟩ := x s
  cases o <;> simp

theorem bind_pure_eq_error {g : α → β} : (x >>= fun a => pure (g a)) s = (.error e, s') ↔ x s = (.error e, s') := by
  rw [bind_eq_error]
  simp

/-- **A sequence goes through.** -/
theorem bind_eq_ok : (x >>= f) s = (.ok b, s') ↔ ∃ a s₁, x s = (.ok a, s₁) ∧ f a s₁ = (.ok b, s') := by
  rw [bind_apply, InPlace.bind]
  obtain ⟨o, s₁⟩ := x s
  cases o <;> simp

theorem bind_of_ok (h : x s = (.ok a, s')) : (x >>= f) s = f a s' := by rw [bind_apply, InPlace.bind, h]

@[simp] theorem get_bind {g : σ → InPlace σ ε β} : (get >>= g) s = g s s := rfl

@[simp] theorem pure_bind_apply {g : α → InPlace σ ε β} : (pure a >>= g) s = g a s := rfl

theorem lift_bind_eq_error :
    (lift o >>= f) s = (.error e, s') ↔ o = .error e ∧ s = s' ∨ ∃ a, o = .ok a ∧ f a s = (.error e, s') := by
  rw [bind_eq_error]
  cases o <;> simp

/-! ### All or nothing -/

/-- From this state the call writes nothing unless it goes through. -/
def Atomic (x : InPlace σ ε α) (s : σ) : Prop := (x s).1.isOk = false → (x s).2 = s

theorem Atomic.error (h : Atomic x s) (hx : x s = (.error e, s')) : s' = s := by
  unfold Atomic at h
  rw [hx] at h
  exact h rfl

theorem atomic_lift (o : Outcome ε α) : Atomic (lift o) s := fun _ => rfl

theorem atomic_pure : Atomic (pure a : InPlace σ ε α) s := fun _ => rfl

theorem atomic_modify : Atomic (modify g : InPlace σ ε Unit) s := fun h => Bool.noConfusion h

/-- **The rest of a sequence** goes through once something is written, or nothing is written yet. -/
theorem Atomic.bind (h : Atomic x s)
    (hf : ∀ a s₁, x s = (.ok a, s₁) → (f a s₁).1.isOk = true ∨ s₁ = s ∧ Atomic (f a) s) : Atomic (x >>= f) s := by
  unfold Atomic at h ⊢
  rw [bind_apply, InPlace.bind]
  cases hx : x s with
  | mk o s₁ =>
    rw [hx] at h
    cases o with
    | raise => exact fun _ => h rfl
    | error e => exact fun _ => h rfl
    | ok a =>
      intro hstop
      rcases hf a s₁ hx with hgoes | ⟨rfl, hrest⟩
      · exact Bool.noConfusion (hgoes.symm.trans hstop)
      · exact hrest hstop

theorem Atomic.lift_bind (hf : ∀ a, o = .ok a → Atomic (f a) s) : Atomic (lift o >>= f) s := by
  refine (atomic_lift o).bind fun a s₁ h => .inr ?_
  obtain ⟨rfl, rfl⟩ := Prod.mk.inj h
  exact ⟨rfl, hf a rfl⟩

theorem Atomic.bind_pure {g : α → β} (h : Atomic x s) : Atomic (x >>= fun a => pure (g a)) s :=
  h.bind fun _ _ _ => .inl rfl

theorem Atomic.tryWith (h : Atomic x s) : Atomic (tryWith e x) s := by
  unfold Atomic InPlace.tryWith at *
  cases hx : x s with
  | mk o s₁ =>
    rw [hx] at h
    cases o with
    | raise => exact fun _ => h rfl
    | error e => exact fun _ => h rfl
    | ok a => exact fun hstop => Bool.noConfusion hstop

/-- **On a copy every call is all or nothing.** -/
theorem atomic_onCopy (x : InPlace σ ε α) (s : σ) : Atomic (onCopy x) s := by
  intro hstop
  change (x s).1.isOk = false at hstop
  simp [onCopy, hstop]

end InPlace

end MinaProtocol
