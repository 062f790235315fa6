import Mathlib.Algebra.Ring.Nat
import Mathlib.Data.Nat.Notation
import Mathlib.Tactic.Common

/-!
# UTF-16

The units of a character, and the character of a unit or of a surrogate pair.
-/

namespace DarkReNamer

namespace Utf16

def isHighSurrogate (unit : UInt16) : Bool := 0xD800 ≤ unit.toNat && unit.toNat ≤ 0xDBFF

def isLowSurrogate (unit : UInt16) : Bool := 0xDC00 ≤ unit.toNat && unit.toNat ≤ 0xDFFF

/-- The scalar value of a surrogate pair. -/
def pairScalar (high low : UInt16) : ℕ :=
  0x10000 + (high.toNat - 0xD800) * 0x400 + low.toNat - 0xDC00

/-- `char::from_u32`, with the replacement character for what is no scalar value. -/
def charFromU32 (scalar : ℕ) : Char :=
  if scalar.isValidChar then Char.ofNat scalar else Char.ofNat 0xFFFD

/-- `char::len_utf16`. -/
def lenUtf16 (c : Char) : ℕ := if c.toNat < 0x10000 then 1 else 2

/-- `char::encode_utf16`. -/
def encodeUtf16 (c : Char) : List UInt16 :=
  if c.toNat < 0x10000 then [UInt16.ofNat c.toNat]
  else [UInt16.ofNat (0xD800 + (c.toNat - 0x10000) / 0x400),
    UInt16.ofNat (0xDC00 + (c.toNat - 0x10000) % 0x400)]

/-- The units of a text: `encode_utf16().count()`. -/
def utf16Count (text : List Char) : ℕ := (text.map lenUtf16).sum

@[simp] theorem utf16Count_nil : utf16Count [] = 0 := rfl

@[simp] theorem utf16Count_cons (c : Char) (text : List Char) :
    utf16Count (c :: text) = lenUtf16 c + utf16Count text := rfl

@[simp] theorem utf16Count_append (text rest : List Char) :
    utf16Count (text ++ rest) = utf16Count text + utf16Count rest := by
  simp [utf16Count]

theorem toNat_charFromU32 {scalar : ℕ} (h : scalar.isValidChar) :
    (charFromU32 scalar).toNat = scalar := by
  rw [charFromU32, if_pos h, Char.ofNat, dif_pos h]
  rfl

/-- A unit that is no surrogate is its own scalar value. -/
theorem isValidChar_unit {unit : UInt16} (hhigh : isHighSurrogate unit = false)
    (hlow : isLowSurrogate unit = false) : unit.toNat.isValidChar := by
  have hlt := unit.toNat_lt
  simp only [isHighSurrogate, isLowSurrogate, Bool.and_eq_false_iff,
    decide_eq_false_iff_not] at hhigh hlow
  rw [Nat.isValidChar]
  omega

theorem encodeUtf16_unit {unit : UInt16} (hhigh : isHighSurrogate unit = false)
    (hlow : isLowSurrogate unit = false) : encodeUtf16 (charFromU32 unit.toNat) = [unit] := by
  have hlt := unit.toNat_lt
  rw [encodeUtf16, toNat_charFromU32 (isValidChar_unit hhigh hlow), if_pos (by omega),
    UInt16.ofNat_toNat]

section Pair

variable {high low : UInt16} (hhigh : isHighSurrogate high = true)
  (hlow : isLowSurrogate low = true)

include hhigh hlow

theorem surrogate_bounds : 0xD800 ≤ high.toNat ∧ high.toNat ≤ 0xDBFF ∧
    0xDC00 ≤ low.toNat ∧ low.toNat ≤ 0xDFFF := by
  simp only [isHighSurrogate, isLowSurrogate, Bool.and_eq_true, decide_eq_true_eq] at hhigh hlow
  exact ⟨hhigh.1, hhigh.2, hlow.1, hlow.2⟩

/-- The scalar value and the two offsets it is made of. -/
theorem exists_pairScalar : ∃ x y, x < 0x400 ∧ y < 0x400 ∧ high.toNat = 0xD800 + x ∧
    low.toNat = 0xDC00 + y ∧ pairScalar high low = 0x10000 + (x * 0x400 + y) := by
  obtain ⟨hhigh₁, hhigh₂, hlow₁, hlow₂⟩ := surrogate_bounds hhigh hlow
  refine ⟨high.toNat - 0xD800, low.toNat - 0xDC00, by omega, by omega, by omega, by omega, ?_⟩
  unfold pairScalar
  omega

/-- The scalar value of a pair lies above the first plane. -/
theorem pairScalar_bounds :
    0x10000 ≤ pairScalar high low ∧ pairScalar high low < 0x110000 := by
  obtain ⟨x, y, hx, hy, -, -, hscalar⟩ := exists_pairScalar hhigh hlow
  omega

theorem toNat_pair : (charFromU32 (pairScalar high low)).toNat = pairScalar high low := by
  obtain ⟨hge, hlt⟩ := pairScalar_bounds hhigh hlow
  have hvalid : (pairScalar high low).isValidChar := Or.inr ⟨by omega, hlt⟩
  exact toNat_charFromU32 hvalid

/-- A surrogate pair is read back from its character. -/
theorem encodeUtf16_pair : encodeUtf16 (charFromU32 (pairScalar high low)) = [high, low] := by
  obtain ⟨x, y, hx, hy, hxhigh, hylow, hscalar⟩ := exists_pairScalar hhigh hlow
  have hfirst : 0xD800 + (pairScalar high low - 0x10000) / 0x400 = high.toNat := by omega
  have hsecond : 0xDC00 + (pairScalar high low - 0x10000) % 0x400 = low.toNat := by omega
  rw [encodeUtf16, toNat_pair hhigh hlow, if_neg (by omega), hfirst, hsecond,
    UInt16.ofNat_toNat, UInt16.ofNat_toNat]

end Pair

end Utf16

end DarkReNamer
