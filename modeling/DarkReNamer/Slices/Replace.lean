import Mathlib.Tactic.Common

/-!
# Replacing occurrences

The leftmost occurrences of a list that do not overlap, each replaced by another list. The
scan goes from the left: where the list occurs it is replaced and the scan continues behind it,
elsewhere one element is kept. An empty list is nowhere replaced.
-/

namespace Slices

variable {α : Type} {needle replacement source result : List α}

/-- `result` is `source` with the occurrences of `needle` replaced. -/
inductive Replaced (needle replacement : List α) : List α → List α → Prop where
  | empty {source : List α} (h : needle = []) : Replaced needle replacement source source
  | nil : Replaced needle replacement [] []
  | hit {rest result : List α} (hneedle : needle ≠ [])
      (later : Replaced needle replacement rest result) :
      Replaced needle replacement (needle ++ rest) (replacement ++ result)
  | skip {a : α} {rest result : List α} (hneedle : needle ≠ []) (hnot : ¬needle <+: a :: rest)
      (later : Replaced needle replacement rest result) :
      Replaced needle replacement (a :: rest) (a :: result)

namespace Replaced

/-- Replacing something by itself changes nothing. -/
theorem self (h : Replaced needle needle source result) : result = source := by
  induction h with
  | empty _ => rfl
  | nil => rfl
  | hit _ _ ih => rw [ih]
  | skip _ _ _ ih => rw [ih]

/-- Nothing fits into a list that is shorter. -/
theorem eq_of_length_lt (h : Replaced needle replacement source result)
    (hlength : source.length < needle.length) : result = source := by
  induction h with
  | empty _ => rfl
  | nil => rfl
  | hit _ _ _ =>
      rw [List.length_append] at hlength
      omega
  | skip _ _ _ ih =>
      rw [List.length_cons] at hlength
      rw [ih (by omega)]

end Replaced

end Slices
