import Mathlib.Data.Nat.Bitwise
import Mathlib.Tactic.Common

/-!
# Little-endian numbers

A natural number as a given number of bytes, the least significant one first, and the
number that such bytes stand for. Each direction undoes the other as long as the number
fits, so a fixed-width field of a binary format holds exactly one number.
-/

namespace Bytes

/-- The first `width` bytes of a number. -/
def leBytes : ℕ → ℕ → List UInt8
  | 0, _ => []
  | width + 1, n => UInt8.ofNat (n % 256) :: leBytes width (n / 256)

/-- The number that the bytes stand for. -/
def readLe : List UInt8 → ℕ
  | [] => 0
  | byte :: bytes => byte.toNat + 256 * readLe bytes

@[simp] theorem length_leBytes (width n : ℕ) : (leBytes width n).length = width := by
  induction width generalizing n with
  | zero => rfl
  | succ width ih => rw [leBytes, List.length_cons, ih]

theorem readLe_leBytes {width n : ℕ} (h : n < 256 ^ width) :
    readLe (leBytes width n) = n := by
  induction width generalizing n with
  | zero =>
      obtain rfl : n = 0 := by simpa using h
      rfl
  | succ width ih =>
      have hrest : n / 256 < 256 ^ width := by
        rw [Nat.div_lt_iff_lt_mul (by decide), ← pow_succ]
        exact h
      rw [leBytes, readLe, ih hrest, UInt8.toNat_ofNat_of_lt' (Nat.mod_lt _ (by decide)),
        Nat.mod_add_div]

theorem readLe_lt (bytes : List UInt8) : readLe bytes < 256 ^ bytes.length := by
  induction bytes with
  | nil => decide
  | cons byte bytes ih =>
      have hbyte : byte.toNat < 256 := byte.toNat_lt
      rw [readLe, List.length_cons, pow_succ]
      omega

theorem leBytes_readLe (bytes : List UInt8) : leBytes bytes.length (readLe bytes) = bytes := by
  induction bytes with
  | nil => rfl
  | cons byte bytes ih =>
      have hbyte : byte.toNat < 256 := byte.toNat_lt
      have hfirst : readLe (byte :: bytes) % 256 = byte.toNat := by
        rw [readLe]
        omega
      have hrest : readLe (byte :: bytes) / 256 = readLe bytes := by
        rw [readLe]
        omega
      rw [List.length_cons, leBytes, hfirst, hrest, UInt8.ofNat_toNat, ih]

/-- A field of `width` bytes and its number determine each other. -/
theorem eq_leBytes_iff {width n : ℕ} {bytes : List UInt8} (hn : n < 256 ^ width)
    (hlength : bytes.length = width) : bytes = leBytes width n ↔ readLe bytes = n := by
  constructor
  · rintro rfl
    exact readLe_leBytes hn
  · rintro rfl
    rw [← hlength]
    exact (leBytes_readLe bytes).symm

theorem leBytes_injective {width n m : ℕ} (hn : n < 256 ^ width) (hm : m < 256 ^ width)
    (h : leBytes width n = leBytes width m) : n = m := by
  rw [← readLe_leBytes hn, h, readLe_leBytes hm]

end Bytes
