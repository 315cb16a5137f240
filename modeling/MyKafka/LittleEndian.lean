import Mathlib.Tactic

/-!
# Little-endian two's complement integers

`toLE w v` is the `w`-byte little-endian image of the integer `v`, and `fromLE` reads a byte
string back as a signed integer of its own width. Storing an integer that does not fit and
reading it back is the balanced remainder `Int.bmod`, which is what a narrowing store does.
-/

namespace LittleEndian

/-- The low `w` bytes of `v`, least significant first. -/
def toLE : ℕ → ℤ → List UInt8
  | 0, _ => []
  | w + 1, v => UInt8.ofNat (v % 256).toNat :: toLE w (v / 256)

/-- The unsigned value of a byte string. -/
def natLE : List UInt8 → ℕ
  | [] => 0
  | b :: bs => b.toNat + 256 * natLE bs

/-- The signed value of a byte string of its own width. -/
def fromLE (bs : List UInt8) : ℤ := Int.bmod (natLE bs) (256 ^ bs.length)

@[simp] theorem length_toLE (w : ℕ) (v : ℤ) : (toLE w v).length = w := by
  induction w generalizing v with
  | zero => rfl
  | succ w ih => simp [toLE, ih]

theorem natLE_toLE (w : ℕ) (v : ℤ) : (natLE (toLE w v) : ℤ) = v % 256 ^ w := by
  induction w generalizing v with
  | zero => simp [toLE, natLE]
  | succ w ih =>
      have hbyte : ((UInt8.ofNat (v % 256).toNat).toNat : ℤ) = v % 256 := by
        rw [UInt8.toNat_ofNat_of_lt' (by rw [UInt8.size]; omega)]
        omega
      rw [toLE, natLE, Nat.cast_add, Nat.cast_mul, hbyte, ih, pow_succ']
      simp only [Int.emod_def, Nat.cast_ofNat, ← Int.ediv_ediv_of_nonneg (show (0 : ℤ) ≤ 256 by omega)]
      ring

theorem fromLE_toLE (w : ℕ) (v : ℤ) : fromLE (toLE w v) = Int.bmod v (256 ^ w) := by
  rw [fromLE, natLE_toLE, length_toLE]
  have h := Int.emod_bmod v (256 ^ w)
  push_cast at h
  exact h

/-- A value in the signed range of the width survives the round trip. -/
theorem fromLE_toLE_of_range {w : ℕ} {v : ℤ} (hlo : -(256 ^ w / 2) ≤ v)
    (hhi : v < 256 ^ w / 2) : fromLE (toLE w v) = v := by
  rw [fromLE_toLE]
  apply Int.bmod_eq_of_le <;> push_cast <;> omega

theorem natLE_lt (bs : List UInt8) : natLE bs < 256 ^ bs.length := by
  induction bs with
  | nil => simp [natLE]
  | cons b bs ih =>
      have hb := b.toNat_lt
      rw [natLE, List.length_cons, pow_succ']
      omega

theorem natLE_append (bs cs : List UInt8) :
    natLE (bs ++ cs) = natLE bs + 256 ^ bs.length * natLE cs := by
  induction bs with
  | nil => simp [natLE]
  | cons b bs ih =>
      rw [List.cons_append, natLE, natLE, ih, List.length_cons, pow_succ']
      ring

theorem fromLE_of_nonneg {bs : List UInt8} (h : 0 ≤ fromLE bs) : fromLE bs = natLE bs := by
  have hlt : (natLE bs : ℤ) < (256 ^ bs.length : ℕ) := by exact_mod_cast natLE_lt bs
  have hmod : (natLE bs : ℤ) % (256 ^ bs.length : ℕ) = natLE bs :=
    Int.emod_eq_of_lt (Int.natCast_nonneg _) hlt
  rw [fromLE, Int.bmod_def, hmod] at h ⊢
  split_ifs at h ⊢
  · rfl
  · omega

/-- Clearing the most significant byte of a number that is not negative. -/
theorem fromLE_clear {bs : List UInt8} {b : UInt8} (h : 0 ≤ fromLE (bs ++ [b])) :
    fromLE (bs ++ [0]) = fromLE (bs ++ [b]) % 256 ^ bs.length := by
  have hlt := natLE_lt bs
  have hlow : natLE (bs ++ [0]) = natLE bs := by simp [natLE_append, natLE]
  have hval : fromLE (bs ++ [0]) = natLE bs := by
    rw [fromLE, hlow, List.length_append, List.length_singleton, pow_succ']
    apply Int.bmod_eq_of_le <;> omega
  rw [hval, fromLE_of_nonneg h, natLE_append]
  have hmod : (natLE bs + 256 ^ bs.length * natLE [b]) % 256 ^ bs.length = natLE bs := by
    rw [Nat.add_mul_mod_self_left, Nat.mod_eq_of_lt hlt]
  exact_mod_cast hmod.symm

end LittleEndian
