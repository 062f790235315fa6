import DarkReNamer.ConfirmationDisplay.Decoding

/-!
# Cutting a rendering

A rendering is a row of characters and escapes. A clipped rendering keeps some of them whole,
from the first on, and ends in an ellipsis.
-/

namespace DarkReNamer

namespace ConfirmationDisplay

open Utf16

/-- A character or an escape of a rendering. -/
inductive Piece : List Char → Prop
  | character {value : Char} (h : value ≠ '[') : Piece [value]
  | escape (unit : UInt16) : Piece ('[' :: 'U' :: '+' :: (hex4 unit.toNat ++ [']']))

/-- A text that consists of whole pieces. -/
def Whole (pieces : List (List Char)) (text : List Char) : Prop :=
  (∀ piece ∈ pieces, Piece piece) ∧ pieces.flatten = text

theorem piece_ellipsis : Piece [ellipsis] := Piece.character (by decide)

theorem piece_text {token : Token} (h : token.Shown) : Piece token.text := by
  rw [Token.text]
  cases hglyph : token.glyph with
  | character value => exact Piece.character (h value hglyph).1
  | escaped unit => exact Piece.escape unit

theorem exists_cons_of_piece {piece : List Char} (h : Piece piece) :
    ∃ c text, piece = c :: text := by
  cases h with
  | character h => exact ⟨_, _, rfl⟩
  | escape unit => exact ⟨_, _, rfl⟩

section Whole

variable {pieces rest : List (List Char)} {text added : List Char}

theorem whole_nil : Whole [] [] := ⟨by simp, rfl⟩

theorem Whole.append (h : Whole pieces text) (hrest : Whole rest added) :
    Whole (pieces ++ rest) (text ++ added) := by
  refine ⟨?_, by rw [List.flatten_append, h.2, hrest.2]⟩
  intro piece hmem
  exact (List.mem_append.1 hmem).elim (h.1 piece) (hrest.1 piece)

theorem whole_ellipsis : Whole [[ellipsis]] [ellipsis] :=
  ⟨by simpa using piece_ellipsis, rfl⟩

theorem exists_whole_ellipsisIf (elided : Bool) : ∃ pieces, Whole pieces (ellipsisIf elided) := by
  cases elided with
  | false => exact ⟨[], whole_nil⟩
  | true => exact ⟨_, whole_ellipsis⟩

theorem whole_append_tokens {tokens : List Token} (h : ∀ token ∈ tokens, token.Shown) :
    Whole (tokens.map Token.text) (append tokens) := by
  refine ⟨?_, rfl⟩
  intro piece hmem
  obtain ⟨token, htoken, rfl⟩ := List.mem_map.1 hmem
  exact piece_text (h token htoken)

end Whole

/-- Every rendering consists of whole pieces. -/
theorem exists_whole_render {tokens : List Token} (h : ∀ token ∈ tokens, token.Shown)
    (rawStart rawEnd : ℕ) {budget : ℕ} (hbudget : 1 ≤ budget) :
    ∃ pieces, Whole pieces (render tokens rawStart rawEnd budget) := by
  have hslice : ∀ start stop, Whole ((slice tokens start stop).map Token.text)
      (append (slice tokens start stop)) := fun start stop =>
    whole_append_tokens fun token hmem => h token (mem_of_mem_slice tokens hmem)
  rcases Nat.lt_or_ge budget (cost tokens) with hlt | hge
  · rcases render_of_lt tokens rawStart rawEnd hbudget hlt with
      heq | ⟨left, right, -, heq⟩ | ⟨start, stop, head, tail, -, heq⟩
    · exact ⟨_, heq ▸ whole_ellipsis⟩
    · obtain ⟨before, hbefore⟩ := exists_whole_ellipsisIf (left != 0)
      obtain ⟨after, hafter⟩ := exists_whole_ellipsisIf (right != tokens.length)
      rw [heq]
      exact ⟨_, (hbefore.append (hslice left right)).append hafter⟩
    · obtain ⟨before, hbefore⟩ := exists_whole_ellipsisIf (start != 0)
      obtain ⟨after, hafter⟩ := exists_whole_ellipsisIf (stop != tokens.length)
      rw [heq]
      exact ⟨_, (((hbefore.append (hslice start head)).append whole_ellipsis).append
        (hslice tail stop)).append hafter⟩
  · rw [render_of_le tokens rawStart rawEnd hbudget hge]
    exact ⟨_, whole_append_tokens h⟩

/-! ### The bytes of a piece -/

theorem utf8EncodeChar_hexDigit :
    ∀ n < 16, String.utf8EncodeChar (hexDigit n) = [UInt8.ofNat (hexDigit n).toNat] := by
  decide

theorem isAscii_hexDigit : ∀ n < 16, UInt8.ofNat (hexDigit n).toNat < 128 := by decide

theorem utf8Size_hexDigit : ∀ n < 16, (hexDigit n).utf8Size = 1 := by decide

theorem takeBytes_zero (text : List Char) : takeBytes 0 text = [] := by
  cases text <;> rfl

theorem takeBytes_character (c : Char) (text : List Char) :
    takeBytes c.utf8Size (c :: text) = [c] := by
  rw [takeBytes, if_neg (Nat.ne_of_gt c.utf8Size_pos), Nat.sub_self, takeBytes_zero]

/-- Characters of one byte each. -/
theorem takeBytes_ascii (text rest : List Char) (h : ∀ c ∈ text, c.utf8Size = 1) :
    takeBytes text.length (text ++ rest) = text := by
  induction text with
  | nil => exact takeBytes_zero rest
  | cons c text ih =>
      rw [List.forall_mem_cons] at h
      rw [List.length_cons, List.cons_append, takeBytes, if_neg (Nat.succ_ne_zero _), h.1,
        Nat.add_sub_cancel, ih h.2]

/-- The width of a piece is the piece. -/
theorem takeBytes_clipWidth {piece : List Char} (h : Piece piece) (rest : List Char) :
    takeBytes (clipWidth (piece ++ rest)) (piece ++ rest) = piece := by
  cases h with
  | @character value h =>
      have hwidth : clipWidth ([value] ++ rest) = value.utf8Size := by
        simp [clipWidth, h]
      rw [hwidth]
      exact takeBytes_character value rest
  | escape unit =>
      obtain ⟨a, ha, b, hb, c, hc, d, hd, hhex, -⟩ := exists_hex4 unit
      rw [hhex]
      have hbytes : asBytes (['[', 'U', '+', hexDigit a, hexDigit b, hexDigit c, hexDigit d,
          ']'] ++ rest) = 0x5B :: 0x55 :: 0x2B :: UInt8.ofNat (hexDigit a).toNat ::
          UInt8.ofNat (hexDigit b).toNat :: UInt8.ofNat (hexDigit c).toNat ::
          UInt8.ofNat (hexDigit d).toNat :: 0x5D :: asBytes rest := by
        simp only [asBytes, List.flatMap_append, List.flatMap_cons, List.flatMap_nil,
          utf8EncodeChar_hexDigit a ha, utf8EncodeChar_hexDigit b hb,
          utf8EncodeChar_hexDigit c hc, utf8EncodeChar_hexDigit d hd]
        rfl
      have hwidth : clipWidth (['[', 'U', '+', hexDigit a, hexDigit b, hexDigit c, hexDigit d,
          ']'] ++ rest) = 8 := by
        unfold clipWidth
        rw [hbytes]
        simp [isAscii, isAscii_hexDigit a ha, isAscii_hexDigit b hb, isAscii_hexDigit c hc,
          isAscii_hexDigit d hd]
      have htake : takeBytes 8 (['[', 'U', '+', hexDigit a, hexDigit b, hexDigit c, hexDigit d,
          ']'] ++ rest) = ['[', 'U', '+', hexDigit a, hexDigit b, hexDigit c, hexDigit d, ']'] := by
        refine takeBytes_ascii ['[', 'U', '+', hexDigit a, hexDigit b, hexDigit c, hexDigit d,
          ']'] rest ?_
        rw [List.forall_mem_cons, List.forall_mem_cons, List.forall_mem_cons,
          List.forall_mem_cons, List.forall_mem_cons, List.forall_mem_cons, List.forall_mem_cons,
          List.forall_mem_singleton]
        exact ⟨rfl, rfl, rfl, utf8Size_hexDigit a ha, utf8Size_hexDigit b hb,
          utf8Size_hexDigit c hc, utf8Size_hexDigit d hd, rfl⟩
      rw [← hwidth] at htake
      exact htake

/-! ### Clipping -/

theorem clipLoop_append {piece : List Char} (h : Piece piece) (room : ℕ) (rest : List Char) :
    clipLoop room (piece ++ rest) =
      if room < utf16Count piece then []
      else piece ++ clipLoop (room - utf16Count piece) rest := by
  have htaken := takeBytes_clipWidth h rest
  obtain ⟨c, text, rfl⟩ := exists_cons_of_piece h
  rw [List.cons_append] at htaken ⊢
  rw [clipLoop]
  simp only [htaken]
  have hmax : max (c :: text).length 1 = (c :: text).length := by simp
  rw [hmax, ← List.cons_append, List.drop_left]

/-- The loop keeps whole pieces. -/
theorem exists_prefix_clipLoop (pieces : List (List Char)) (h : ∀ piece ∈ pieces, Piece piece)
    (room : ℕ) : ∃ kept, kept <+: pieces ∧ clipLoop room pieces.flatten = kept.flatten := by
  induction pieces generalizing room with
  | nil => exact ⟨[], List.prefix_rfl, by rw [List.flatten_nil, clipLoop]⟩
  | cons piece pieces ih =>
      rw [List.forall_mem_cons] at h
      rw [List.flatten_cons, clipLoop_append h.1]
      split
      · exact ⟨[], List.nil_prefix, rfl⟩
      · obtain ⟨kept, hprefix, hkept⟩ := ih h.2 (room - utf16Count piece)
        exact ⟨piece :: kept, List.cons_prefix_cons.2 ⟨rfl, hprefix⟩, by
          rw [hkept, List.flatten_cons]⟩

theorem utf16Count_clipLoop_le (room : ℕ) (rest : List Char) :
    utf16Count (clipLoop room rest) ≤ room := by
  induction room, rest using clipLoop.induct with
  | case1 room => simp [clipLoop]
  | case2 room c text token h =>
      rw [clipLoop, if_pos h]
      exact Nat.zero_le room
  | case3 room c text token h ih =>
      rw [clipLoop, if_neg h, utf16Count_append]
      change utf16Count token + utf16Count (clipLoop (room - utf16Count token)
        ((c :: text).drop (max token.length 1))) ≤ room
      omega

/-- A clipped text is in the budget. -/
theorem utf16Count_clipDiagnostic_le (text : List Char) (budget : ℕ) :
    utf16Count (clipDiagnostic text budget) ≤ budget := by
  rw [clipDiagnostic]
  split
  · assumption
  · split
    · exact Nat.zero_le budget
    · have hloop := utf16Count_clipLoop_le (budget - 1) text
      have hellipsis : utf16Count [ellipsis] = 1 := rfl
      rw [utf16Count_append, hellipsis]
      omega

/-- A text of whole pieces is clipped between them. -/
theorem clipDiagnostic_whole {pieces : List (List Char)} {text : List Char}
    (h : Whole pieces text) {budget : ℕ} (hbudget : 1 ≤ budget) :
    clipDiagnostic text budget = text ∨
      ∃ kept, kept <+: pieces ∧ clipDiagnostic text budget = kept.flatten ++ [ellipsis] := by
  rw [clipDiagnostic]
  split
  · exact Or.inl rfl
  · obtain ⟨kept, hprefix, hkept⟩ := exists_prefix_clipLoop pieces h.1 (budget - 1)
    rw [if_neg (Nat.one_le_iff_ne_zero.1 hbudget), ← h.2, hkept]
    exact Or.inr ⟨kept, hprefix, rfl⟩

end ConfirmationDisplay

end DarkReNamer
