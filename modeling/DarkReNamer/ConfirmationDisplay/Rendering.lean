import DarkReNamer.ConfirmationDisplay

/-!
# The units of a rendering

A rendering shows a window of the tokens with an ellipsis where something is left out. It stays
in the budget, and it has an ellipsis exactly when the escaped text is too long for the budget.
-/

namespace DarkReNamer

namespace ConfirmationDisplay

open Utf16

/-! ### Tokens -/

theorem lenUtf16_hexDigit : ∀ n < 16, lenUtf16 (hexDigit n) = 1 := by decide

theorem hexDigit_ne_ellipsis : ∀ n < 16, hexDigit n ≠ ellipsis := by decide

/-- The four digits of a unit. -/
theorem exists_hex4 (unit : UInt16) : ∃ a < 16, ∃ b < 16, ∃ c < 16, ∃ d < 16,
    hex4 unit.toNat = [hexDigit a, hexDigit b, hexDigit c, hexDigit d] ∧
      unit.toNat = a * 4096 + b * 256 + c * 16 + d := by
  have hlt := unit.toNat_lt
  exact ⟨unit.toNat / 4096, by omega, unit.toNat / 256 % 16, by omega,
    unit.toNat / 16 % 16, by omega, unit.toNat % 16, by omega, rfl, by omega⟩

theorem utf16Count_text (token : Token) : utf16Count token.text = token.cost := by
  rw [Token.text, Token.cost]
  cases token.glyph with
  | character value => simp
  | escaped unit =>
      obtain ⟨a, ha, b, hb, c, hc, d, hd, hhex, -⟩ := exists_hex4 unit
      simp only [hhex, List.cons_append, List.nil_append, utf16Count_cons, utf16Count_nil,
        lenUtf16_hexDigit a ha, lenUtf16_hexDigit b hb, lenUtf16_hexDigit c hc,
        lenUtf16_hexDigit d hd]
      decide

section Costs

@[simp] theorem cost_cons (token : Token) (tokens : List Token) :
    cost (token :: tokens) = token.cost + cost tokens := rfl

@[simp] theorem cost_append (tokens rest : List Token) :
    cost (tokens ++ rest) = cost tokens + cost rest := by
  simp [cost]

@[simp] theorem cost_reverse (tokens : List Token) : cost tokens.reverse = cost tokens := by
  simp [cost, List.sum_reverse]

/-- The cost of tokens is the length of their text. -/
theorem utf16Count_append_tokens (tokens : List Token) :
    utf16Count (append tokens) = cost tokens := by
  induction tokens with
  | nil => rfl
  | cons token tokens ih =>
      have happend : append (token :: tokens) = token.text ++ append tokens := rfl
      rw [happend, utf16Count_append, utf16Count_text, ih, cost_cons]

end Costs

/-- A token whose text shows no bracket and no ellipsis besides the brackets of an escape. -/
def Token.Shown (token : Token) : Prop :=
  ∀ value, token.glyph = .character value → value ≠ '[' ∧ value ≠ ellipsis

theorem shown_escaped (start stop : ℕ) (unit : UInt16) :
    Token.Shown ⟨start, stop, .escaped unit⟩ := by
  intro value h
  cases h

theorem shown_character {value : Char} (hbracket : value.toNat ≠ 0x5B)
    (hellipsis : value.toNat ≠ 0x2026) (start stop : ℕ) :
    Token.Shown ⟨start, stop, .character value⟩ := by
  rintro _ ⟨⟩
  constructor
  · rintro rfl
    exact hbracket rfl
  · rintro rfl
    exact hellipsis rfl

theorem shown_unitGlyph (start stop : ℕ) (unit : UInt16) :
    Token.Shown ⟨start, stop, unitGlyph unit⟩ := by
  rw [unitGlyph]
  split
  · exact shown_escaped start stop unit
  · rename_i h
    simp only [Bool.or_eq_true, not_or, Bool.not_eq_true] at h
    obtain ⟨hescaped, hhigh, hlow⟩ := h
    have hscalar := toNat_charFromU32 (isValidChar_unit hhigh hlow)
    refine shown_character ?_ ?_ start stop <;> rw [hscalar] <;> intro heq <;>
      simp [escaped, heq] at hescaped

theorem shown_tokensFrom (index : ℕ) (units : List UInt16) :
    ∀ token ∈ tokensFrom index units, token.Shown := by
  induction index, units using tokensFrom.induct with
  | case1 index => simp [tokensFrom]
  | case2 index unit =>
      simp only [tokensFrom, List.mem_singleton, forall_eq]
      exact shown_unitGlyph _ _ unit
  | case3 index unit next units hpair ih =>
      rw [tokensFrom, if_pos hpair]
      rw [Bool.and_eq_true] at hpair
      have hge := (pairScalar_bounds hpair.1 hpair.2).1
      have hscalar := toNat_pair hpair.1 hpair.2
      refine List.forall_mem_cons.2 ⟨shown_character ?_ ?_ _ _, ih⟩ <;> omega
  | case4 index unit next units hpair ih =>
      rw [tokensFrom, if_neg hpair]
      exact List.forall_mem_cons.2 ⟨shown_unitGlyph _ _ unit, ih⟩

theorem shown_tokens (units : List UInt16) : ∀ token ∈ tokens units, token.Shown :=
  shown_tokensFrom 0 units

theorem ellipsis_notMem_text {token : Token} (h : token.Shown) : ellipsis ∉ token.text := by
  rw [Token.text]
  cases hglyph : token.glyph with
  | character value =>
      rw [List.mem_singleton]
      exact (h value hglyph).2.symm
  | escaped unit =>
      obtain ⟨a, ha, b, hb, c, hc, d, hd, hhex, -⟩ := exists_hex4 unit
      simp only [hhex, List.cons_append, List.nil_append, List.mem_cons, List.not_mem_nil,
        or_false, not_or]
      exact ⟨by decide, by decide, by decide, (hexDigit_ne_ellipsis a ha).symm,
        (hexDigit_ne_ellipsis b hb).symm, (hexDigit_ne_ellipsis c hc).symm,
        (hexDigit_ne_ellipsis d hd).symm, by decide⟩

theorem ellipsis_notMem_append {tokens : List Token} (h : ∀ token ∈ tokens, token.Shown) :
    ellipsis ∉ append tokens := by
  intro hmem
  obtain ⟨token, htoken, hmem⟩ := List.mem_flatMap.1 hmem
  exact ellipsis_notMem_text (h token htoken) hmem

/-! ### Slices -/

section Slices

variable (tokens : List Token)

/-- Neighbouring slices together. -/
theorem slice_append_slice {start middle stop : ℕ} (hstart : start ≤ middle)
    (hstop : middle ≤ stop) :
    slice tokens start middle ++ slice tokens middle stop = slice tokens start stop := by
  have hsplit : stop - start = middle - start + (stop - middle) := by omega
  have hdrop : List.drop middle tokens = List.drop (middle - start) (List.drop start tokens) := by
    rw [List.drop_drop, Nat.add_sub_cancel' hstart]
  simp only [slice, List.drop_take]
  rw [hsplit, List.take_add, hdrop]

theorem cost_slice_add {start middle stop : ℕ} (hstart : start ≤ middle)
    (hstop : middle ≤ stop) :
    cost (slice tokens start middle) + cost (slice tokens middle stop) =
      cost (slice tokens start stop) := by
  rw [← cost_append, slice_append_slice tokens hstart hstop]

theorem slice_length : slice tokens 0 tokens.length = tokens := by
  simp [slice]

theorem length_slice (start : ℕ) {stop : ℕ} (h : stop ≤ tokens.length) :
    (slice tokens start stop).length = stop - start := by
  simp [slice, Nat.min_eq_left h]

theorem mem_of_mem_slice {start stop : ℕ} {token : Token} (h : token ∈ slice tokens start stop) :
    token ∈ tokens :=
  List.mem_of_mem_take (List.mem_of_mem_drop h)

end Slices

/-! ### The loops -/

theorem takeWithin_le_length (tokens : List Token) (room : ℕ) :
    takeWithin tokens room ≤ tokens.length := by
  induction tokens generalizing room with
  | nil => exact Nat.le_refl 0
  | cons token tokens ih =>
      rw [takeWithin]
      split
      · exact Nat.succ_le_succ (ih _)
      · exact Nat.zero_le _

theorem cost_take_takeWithin (tokens : List Token) (room : ℕ) :
    cost (tokens.take (takeWithin tokens room)) ≤ room := by
  induction tokens generalizing room with
  | nil => exact Nat.zero_le _
  | cons token tokens ih =>
      rw [takeWithin]
      split
      · rename_i h
        have hrest := ih (room - token.cost)
        rw [List.take_succ_cons, cost_cons]
        omega
      · exact Nat.zero_le _

section Loops

variable (tokens : List Token) (start : ℕ) {stop : ℕ} (hstop : stop ≤ tokens.length) (room : ℕ)

include hstop

/-- A loop to the right stays in its slice. -/
theorem takeWithin_slice_le : takeWithin (slice tokens start stop) room ≤ stop - start := by
  have hle := takeWithin_le_length (slice tokens start stop) room
  rwa [length_slice tokens start hstop] at hle

theorem takeWithin_reverse_le :
    takeWithin (slice tokens start stop).reverse room ≤ stop - start := by
  have hle := takeWithin_le_length (slice tokens start stop).reverse room
  rwa [List.length_reverse, length_slice tokens start hstop] at hle

/-- A loop to the right takes no more than its room. -/
theorem cost_slice_right :
    cost (slice tokens start (start + takeWithin (slice tokens start stop) room)) ≤ room := by
  have hle := takeWithin_slice_le tokens start hstop room
  have htaken := cost_take_takeWithin (slice tokens start stop) room
  generalize takeWithin (slice tokens start stop) room = taken at hle htaken ⊢
  have heq : slice tokens start (start + taken) = (slice tokens start stop).take taken := by
    simp only [slice, List.drop_take, List.take_take]
    congr 1
    omega
  rwa [heq]

/-- A loop to the left takes no more than its room. -/
theorem cost_slice_left :
    cost (slice tokens (stop - takeWithin (slice tokens start stop).reverse room) stop) ≤
      room := by
  have hle := takeWithin_reverse_le tokens start hstop room
  have htaken := cost_take_takeWithin (slice tokens start stop).reverse room
  generalize takeWithin (slice tokens start stop).reverse room = taken at hle htaken ⊢
  rw [List.take_reverse, cost_reverse, length_slice tokens start hstop] at htaken
  have heq : slice tokens (stop - taken) stop =
      (slice tokens start stop).drop (stop - start - taken) := by
    rcases Nat.eq_zero_or_pos taken with rfl | hpos
    · rw [Nat.sub_zero, Nat.sub_zero, ← length_slice tokens start hstop,
        List.drop_length]
      simp [slice]
    · simp only [slice, List.drop_drop]
      congr 1
      omega
  rwa [heq]

end Loops

/-! ### Renderings -/

theorem utf16Count_ellipsisIf (elided : Bool) : utf16Count (ellipsisIf elided) = elided.toNat := by
  cases elided <;> rfl

section Render

variable (tokens : List Token) {start stop budget : ℕ}

/-- Around a focus that fits, a window of tokens is shown that leaves room for two ellipses. -/
theorem exists_renderAround (hle : start ≤ stop) (hstop : stop ≤ tokens.length)
    (hfocus : cost (slice tokens start stop) + 2 ≤ budget) :
    ∃ left right, cost (slice tokens left right) + 2 ≤ budget ∧
      renderAround tokens start stop budget = ellipsisIf (left != 0) ++
        append (slice tokens left right) ++ ellipsisIf (right != tokens.length) := by
  have hright : tokens.drop stop = slice tokens stop tokens.length := by
    rw [slice, List.take_length]
  refine ⟨_, _, ?_, rfl⟩
  rw [hright]
  generalize hremaining : budget - cost (slice tokens start stop) - 2 = remaining
  have hfirst := cost_slice_left tokens 0 (Nat.le_trans hle hstop) (remaining / 2)
  change cost (slice tokens (start - takeWithin (tokens.take start).reverse (remaining / 2))
    start) ≤ remaining / 2 at hfirst
  have hleft := Nat.sub_le start (takeWithin (tokens.take start).reverse (remaining / 2))
  generalize start - takeWithin (tokens.take start).reverse (remaining / 2) = left
    at hfirst hleft ⊢
  have hsecond := cost_slice_right tokens stop (Nat.le_refl tokens.length)
    (remaining - cost (slice tokens left start))
  have hright := Nat.le_add_right stop (takeWithin (slice tokens stop tokens.length)
    (remaining - cost (slice tokens left start)))
  generalize stop + takeWithin (slice tokens stop tokens.length)
    (remaining - cost (slice tokens left start)) = right at hsecond hright ⊢
  have hthird := cost_slice_left tokens 0 (Nat.le_trans hleft (Nat.le_trans hle hstop))
    (remaining - cost (slice tokens left start) - cost (slice tokens stop right))
  change cost (slice tokens (left - takeWithin (tokens.take left).reverse _) left) ≤ _ at hthird
  have hagain := Nat.sub_le left (takeWithin (tokens.take left).reverse
    (remaining - cost (slice tokens left start) - cost (slice tokens stop right)))
  generalize left - takeWithin (tokens.take left).reverse (remaining -
    cost (slice tokens left start) - cost (slice tokens stop right)) = again at hthird hagain ⊢
  have hall := cost_slice_add tokens (Nat.le_trans hagain hleft) (Nat.le_trans hle hright)
  have houter := cost_slice_add tokens hagain hleft
  have hinner := cost_slice_add tokens hle hright
  omega

/-- Of a focus that does not fit, head and tail are shown, in the room that the ellipses leave. -/
theorem exists_renderEnds (hstop : stop ≤ tokens.length) (hbudget : 3 ≤ budget) :
    ∃ head tail, cost (slice tokens start head) + cost (slice tokens tail stop) +
        (start != 0).toNat + (stop != tokens.length).toNat + 1 ≤ budget ∧
      renderEnds tokens start stop budget = ellipsisIf (start != 0) ++
        append (slice tokens start head) ++ [ellipsis] ++ append (slice tokens tail stop) ++
        ellipsisIf (stop != tokens.length) := by
  refine ⟨_, _, ?_, rfl⟩
  have hfirst := Bool.toNat_le (start != 0)
  have hlast := Bool.toNat_le (stop != tokens.length)
  generalize (start != 0).toNat = first at hfirst ⊢
  generalize (stop != tokens.length).toNat = last at hlast ⊢
  generalize havailable : budget - (first + last + 1) = available
  have hhead := cost_slice_right tokens start hstop (available / 2)
  generalize start + takeWithin (slice tokens start stop) (available / 2) = head at hhead ⊢
  have htail := cost_slice_left tokens head hstop
    (available - cost (slice tokens start head))
  omega

/-- The forms of a rendering that does not show all tokens. -/
theorem render_of_lt (rawStart rawEnd : ℕ) (hbudget : 1 ≤ budget) (h : budget < cost tokens) :
    render tokens rawStart rawEnd budget = [ellipsis] ∨
      (∃ left right, cost (slice tokens left right) + 2 ≤ budget ∧
        render tokens rawStart rawEnd budget = ellipsisIf (left != 0) ++
          append (slice tokens left right) ++ ellipsisIf (right != tokens.length)) ∨
      ∃ start stop head tail, cost (slice tokens start head) + cost (slice tokens tail stop) +
          (start != 0).toNat + (stop != tokens.length).toNat + 1 ≤ budget ∧
        render tokens rawStart rawEnd budget = ellipsisIf (start != 0) ++
          append (slice tokens start head) ++ [ellipsis] ++ append (slice tokens tail stop) ++
          ellipsisIf (stop != tokens.length) := by
  rw [render, if_neg (Nat.one_le_iff_ne_zero.1 hbudget), if_neg (Nat.not_le.2 h)]
  split
  · exact Or.inl rfl
  · rename_i hthree
    simp only
    have hstart : partitionPoint (fun token => token.stop ≤ rawStart) tokens ≤ tokens.length :=
      (List.takeWhile_prefix _).length_le
    have hend : partitionPoint (fun token => token.start < rawEnd) tokens ≤ tokens.length :=
      (List.takeWhile_prefix _).length_le
    have hstop := Nat.max_le.2 ⟨hend, hstart⟩
    have hle := Nat.le_max_right (partitionPoint (fun token => token.start < rawEnd) tokens)
      (partitionPoint (fun token => token.stop ≤ rawStart) tokens)
    split
    · rename_i hfocus
      exact Or.inr (Or.inl (exists_renderAround tokens hle hstop hfocus))
    · obtain ⟨head, tail, hends⟩ := exists_renderEnds tokens hstop (Nat.not_lt.1 hthree)
      exact Or.inr (Or.inr ⟨_, _, head, tail, hends⟩)

theorem render_of_le (rawStart rawEnd : ℕ) (hbudget : 1 ≤ budget) (h : cost tokens ≤ budget) :
    render tokens rawStart rawEnd budget = append tokens := by
  rw [render, if_neg (Nat.one_le_iff_ne_zero.1 hbudget), if_pos h]

/-- A rendering is in the budget. -/
theorem utf16Count_render_le (rawStart rawEnd : ℕ) (hbudget : 1 ≤ budget) :
    utf16Count (render tokens rawStart rawEnd budget) ≤ budget := by
  rcases Nat.lt_or_ge budget (cost tokens) with hlt | hge
  · have hellipsis : utf16Count [ellipsis] = 1 := rfl
    rcases render_of_lt tokens rawStart rawEnd hbudget hlt with
      heq | ⟨left, right, hcost, heq⟩ | ⟨start, stop, head, tail, hcost, heq⟩
    · rw [heq]
      exact hbudget
    · have hleft := Bool.toNat_le (left != 0)
      have hright := Bool.toNat_le (right != tokens.length)
      simp only [heq, utf16Count_append, utf16Count_append_tokens, utf16Count_ellipsisIf]
      omega
    · simp only [heq, utf16Count_append, utf16Count_append_tokens, utf16Count_ellipsisIf,
        hellipsis]
      omega
  · rw [render_of_le tokens rawStart rawEnd hbudget hge, utf16Count_append_tokens]
    exact hge

/-- A window that is not everything has an ellipsis beside it. -/
theorem ellipsis_mem_ellipsisIf (left right : ℕ)
    (h : cost (slice tokens left right) < cost tokens) :
    ellipsis ∈ ellipsisIf (left != 0) ∨ ellipsis ∈ ellipsisIf (right != tokens.length) := by
  by_cases hleft : left = 0
  · by_cases hright : right = tokens.length
    · rw [hleft, hright, slice_length] at h
      exact absurd h (Nat.lt_irrefl _)
    · simp [ellipsisIf, hright]
  · simp [ellipsisIf, hleft]

variable {tokens}

/-- A rendering has an ellipsis exactly when not all tokens fit. -/
theorem ellipsis_mem_render_iff (hshown : ∀ token ∈ tokens, token.Shown) (rawStart rawEnd : ℕ)
    (hbudget : 1 ≤ budget) :
    ellipsis ∈ render tokens rawStart rawEnd budget ↔ budget < cost tokens := by
  rcases Nat.lt_or_ge budget (cost tokens) with hlt | hge
  · refine iff_of_true ?_ hlt
    rcases render_of_lt tokens rawStart rawEnd hbudget hlt with
      heq | ⟨left, right, hcost, heq⟩ | ⟨start, stop, head, tail, hcost, heq⟩
    · simp [heq]
    · have hmem := ellipsis_mem_ellipsisIf tokens left right (by omega)
      simp only [heq, List.mem_append]
      tauto
    · simp [heq]
  · rw [render_of_le tokens rawStart rawEnd hbudget hge]
    exact iff_of_false (ellipsis_notMem_append hshown) (Nat.not_lt.2 hge)

end Render

end ConfirmationDisplay

end DarkReNamer
