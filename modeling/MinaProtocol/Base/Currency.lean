import Mathlib

/-!
# Base.Currency

The numbers of the protocol. Amounts of currency, fees and balances are natural
numbers whose operations fail when the result does not fit into 64 bits; nonces and
slots have 32 bits and wrap.
-/

namespace MinaProtocol

/-- `Account_nonce.t`. -/
abbrev AccountNonce := UInt32

/-- `Global_slot_since_genesis.t`, `Global_slot_since_hard_fork.t` and
`Global_slot_span.t`. -/
abbrev GlobalSlot := UInt32

namespace Amount

/-- `Currency.Amount.( + )`. -/
def add (a b : Nat) : Option Nat := if a + b < 2 ^ 64 then some (a + b) else none

/-- `Currency.Amount.( - )`, also for fees and balances. -/
def sub (a b : Nat) : Option Nat := if b ≤ a then some (a - b) else none

variable {a b : Nat}

theorem add_eq_some {c : Nat} : add a b = some c ↔ a + b = c ∧ c < 2 ^ 64 := by
  unfold add
  split
  · rename_i h
    rw [Option.some.injEq]
    exact ⟨fun e => ⟨e, e ▸ h⟩, fun e => e.1⟩
  · rename_i h
    exact ⟨fun e => by simp at e, fun e => absurd (e.1 ▸ e.2) h⟩

theorem sub_eq_some {c : Nat} : sub a b = some c ↔ a = c + b := by
  unfold sub
  split
  · rw [Option.some.injEq]
    omega
  · simp only [reduceCtorEq, false_iff]
    omega

theorem sub_eq_none : sub a b = none ↔ a < b := by
  unfold sub
  split
  · simp only [reduceCtorEq, false_iff]
    omega
  · simp only [true_iff]
    omega

@[simp] theorem sub_add (a b : Nat) : sub (a + b) b = some a := sub_eq_some.2 rfl

end Amount

/-- `Account_nonce.max_value` and `Global_slot_since_genesis.max_value`. -/
def maxValue : UInt32 := 4294967295

/-- `Account_nonce.succ`. -/
def AccountNonce.succ (n : AccountNonce) : AccountNonce := n + 1

theorem AccountNonce.succ_toNat {n : AccountNonce} (h : n ≠ maxValue) : (AccountNonce.succ n).toNat = n.toNat + 1 := by
  unfold AccountNonce.succ
  have hlt : n.toNat < 2 ^ 32 := n.toNat_lt
  have hne : n.toNat ≠ 4294967295 := fun e => h (UInt32.toNat_inj.1 e)
  rw [UInt32.toNat_add, UInt32.toNat_one]
  omega

end MinaProtocol
