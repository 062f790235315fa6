import DarkReNamer.ConfirmationDisplay.Rendering

/-!
# Reading a rendering back

An opening bracket is shown by an escape only, so the units of a text that is not elided are read
back from its rendering, and two such texts never look the same.
-/

namespace DarkReNamer

namespace ConfirmationDisplay

open Utf16

/-- The value of a digit of an escape. -/
def digitValue (digit : Char) : ℕ :=
  if digit.toNat < 58 then digit.toNat - 48 else digit.toNat - 55

/-- The value of the digits of an escape. -/
def hexValue (digits : List Char) : ℕ :=
  digits.foldl (fun value digit => value * 16 + digitValue digit) 0

/-- The units that a rendering stands for: a bracket opens an escape, and every other character
stands for itself. -/
def decode : List Char → List UInt16
  | [] => []
  | c :: text =>
    if c = '[' then UInt16.ofNat (hexValue ((text.drop 2).take 4)) :: decode (text.drop 7)
    else encodeUtf16 c ++ decode text
termination_by text => text.length
decreasing_by
  · simp only [List.length_drop, List.length_cons]
    omega
  · simp

/-- The units a glyph stands for. -/
def Glyph.units : Glyph → List UInt16
  | .character value => encodeUtf16 value
  | .escaped unit => [unit]

theorem digitValue_hexDigit : ∀ n < 16, digitValue (hexDigit n) = n := by decide

theorem decode_text_append {token : Token} (h : token.Shown) (rest : List Char) :
    decode (token.text ++ rest) = token.glyph.units ++ decode rest := by
  rw [Token.text]
  cases hglyph : token.glyph with
  | character value =>
      rw [List.singleton_append, decode, if_neg (h value hglyph).1]
      rfl
  | escaped unit =>
      obtain ⟨a, ha, b, hb, c, hc, d, hd, hhex, hunit⟩ := exists_hex4 unit
      have hvalue : hexValue [hexDigit a, hexDigit b, hexDigit c, hexDigit d] = unit.toNat := by
        simp only [hexValue, List.foldl_cons, List.foldl_nil, digitValue_hexDigit a ha,
          digitValue_hexDigit b hb, digitValue_hexDigit c hc, digitValue_hexDigit d hd]
        omega
      simp only [hhex, List.cons_append, List.nil_append]
      rw [decode, if_pos rfl]
      simp only [List.drop_succ_cons, List.drop_zero, List.take_succ_cons, List.take_zero, hvalue,
        UInt16.ofNat_toNat, Glyph.units, List.singleton_append]

theorem decode_append {tokens : List Token} (h : ∀ token ∈ tokens, token.Shown) :
    decode (append tokens) = tokens.flatMap fun token => token.glyph.units := by
  induction tokens with
  | nil => rw [append, List.flatMap_nil, decode, List.flatMap_nil]
  | cons token tokens ih =>
      rw [List.forall_mem_cons] at h
      have happend : append (token :: tokens) = token.text ++ append tokens := rfl
      rw [happend, decode_text_append h.1, ih h.2, List.flatMap_cons]

theorem units_unitGlyph (unit : UInt16) : (unitGlyph unit).units = [unit] := by
  rw [unitGlyph]
  split
  · rfl
  · rename_i h
    simp only [Bool.or_eq_true, not_or, Bool.not_eq_true] at h
    exact encodeUtf16_unit h.2.1 h.2.2

theorem units_tokensFrom (index : ℕ) (units : List UInt16) :
    (tokensFrom index units).flatMap (fun token => token.glyph.units) = units := by
  induction index, units using tokensFrom.induct with
  | case1 index => rfl
  | case2 index unit => simp [tokensFrom, units_unitGlyph]
  | case3 index unit next units hpair ih =>
      rw [tokensFrom, if_pos hpair, List.flatMap_cons, ih]
      rw [Bool.and_eq_true] at hpair
      simp [Glyph.units, encodeUtf16_pair hpair.1 hpair.2]
  | case4 index unit next units hpair ih =>
      rw [tokensFrom, if_neg hpair, List.flatMap_cons, ih, units_unitGlyph]
      rfl

/-- The whole escaped text of some units. -/
def escapedText (units : List UInt16) : List Char := append (tokens units)

/-- The units are read back from their escaped text. -/
theorem decode_escapedText (units : List UInt16) : decode (escapedText units) = units := by
  rw [escapedText, decode_append (shown_tokens units)]
  exact units_tokensFrom 0 units

end ConfirmationDisplay

end DarkReNamer
