import Mathlib.Tactic

/-!
# Lib.LittleEndian

Numbers as bytes, the least significant first. Reading is injective on byte strings of one length,
so a fixed-width number that was read is written back as the bytes it was read from.
-/

namespace MinaProtocol

/-- The `w` lowest bytes of a number. -/
def bytesLE (w n : Nat) : List UInt8 := (List.range w).map fun i => UInt8.ofNat (n / 256 ^ i % 256)

/-- The number with these bytes. -/
def natLE (bytes : List UInt8) : Nat := bytes.foldr (fun b n => b.toNat + 256 * n) 0

@[simp] theorem length_bytesLE (w n : Nat) : (bytesLE w n).length = w := by simp [bytesLE]

@[simp] theorem natLE_nil : natLE [] = 0 := rfl

theorem natLE_cons (b : UInt8) (bytes : List UInt8) : natLE (b :: bytes) = b.toNat + 256 * natLE bytes := rfl

theorem bytesLE_succ (w n : Nat) : bytesLE (w + 1) n = UInt8.ofNat (n % 256) :: bytesLE w (n / 256) := by
  unfold bytesLE
  rw [List.range_succ_eq_map, List.map_cons, List.map_map, pow_zero, Nat.div_one]
  congr 1
  refine List.map_congr_left fun i _ => ?_
  rw [Function.comp_apply, Nat.div_div_eq_div_mul, Nat.succ_eq_add_one, pow_succ']

/-- **Write, then read.** -/
theorem natLE_bytesLE {w n : Nat} (h : n < 256 ^ w) : natLE (bytesLE w n) = n := by
  induction w generalizing n with
  | zero =>
    rw [pow_zero] at h
    simp only [bytesLE, List.range_zero, List.map_nil, natLE_nil]
    omega
  | succ w ih =>
    have hlow : (UInt8.ofNat (n % 256)).toNat = n % 256 := by
      rw [UInt8.toNat_ofNat']
      omega
    have hhigh : n / 256 < 256 ^ w := by
      rw [pow_succ] at h
      omega
    rw [bytesLE_succ, natLE_cons, hlow, ih hhigh]
    omega

theorem natLE_lt (bytes : List UInt8) : natLE bytes < 256 ^ bytes.length := by
  induction bytes with
  | nil => simp
  | cons b bytes ih =>
    have hb := b.toNat_lt
    rw [natLE_cons, List.length_cons, pow_succ]
    omega

theorem natLE_inj {s t : List UInt8} (hlen : s.length = t.length) (h : natLE s = natLE t) : s = t := by
  induction s generalizing t with
  | nil => exact (List.length_eq_zero_iff.1 hlen.symm).symm
  | cons b s ih =>
    cases t with
    | nil => simp at hlen
    | cons c t =>
      have hb := b.toNat_lt
      have hc := c.toNat_lt
      rw [natLE_cons, natLE_cons] at h
      obtain rfl : b = c := UInt8.toNat_inj.1 (by omega)
      rw [ih (Nat.succ.inj hlen) (by omega)]

/-- **Read, then write.** -/
theorem bytesLE_natLE {w : Nat} {bytes : List UInt8} (h : bytes.length = w) : bytesLE w (natLE bytes) = bytes := by
  refine natLE_inj (by simp [h]) (natLE_bytesLE ?_)
  rw [← h]
  exact natLE_lt bytes

end MinaProtocol
