import DarkReNamer.Workbench.Trimming

/-!
# Import lines

The parser of the core returns all lines of a text, trimmed and without the blank ones. The
application has one of its own that stops as soon as it has seen one line more than it may
return. Both split and trim alike, so the bounded one returns the first lines of the full one
and tells whether there are more.
-/

namespace DarkReNamer

/-- All lines of a text, trimmed and without the blank ones. -/
def parseImportLines (text : LegacyText) : List LegacyText :=
  (trimmedImportUnitSlices text).map LegacyText.mk

namespace Admission

/-- The test of the application, written apart from that of the core. -/
def isTrimUnit (unit : UInt16) : Bool :=
  (9 ≤ unit && unit ≤ 13) || unit == 0x20 || unit == 0x85 || unit == 0xA0 || unit == 0x1680 ||
    (0x2000 ≤ unit && unit ≤ 0x200A) || unit == 0x2028 || unit == 0x2029 || unit == 0x202F ||
    unit == 0x205F || unit == 0x3000

theorem isTrimUnit_eq : isTrimUnit = DarkReNamer.isTrimUnit := rfl

/-- The loop over the lines that are left. -/
def collectImportLines (limit : ℕ) :
    List (List UInt16) → List LegacyText → List LegacyText × Bool
  | [], lines => (lines, false)
  | units :: rest, lines =>
      let first := (units.findIdx? fun unit => !isTrimUnit unit).getD units.length
      let last := match rposition (fun unit => !isTrimUnit unit) units with
        | none => first
        | some index => index + 1
      if first = last then
        collectImportLines limit rest lines
      else
        let lines := lines ++ [⟨(units.take last).drop first⟩]
        if lines.length > limit then (lines.take limit, true)
        else collectImportLines limit rest lines

/-- At most `limit` nonblank trimmed lines, and whether there is one more. -/
def boundedImportLines (text : LegacyText) (limit : ℕ) : List LegacyText × Bool :=
  collectImportLines limit (text.units.splitOn lineFeed) []

/-- One line, by what trimming leaves of it. -/
theorem collectImportLines_cons (limit : ℕ) (units : List UInt16) (rest : List (List UInt16))
    (lines : List LegacyText) :
    collectImportLines limit (units :: rest) lines =
      match trimmedSlice units with
      | none => collectImportLines limit rest lines
      | some core =>
          if (lines ++ [LegacyText.mk core]).length > limit then
            ((lines ++ [LegacyText.mk core]).take limit, true)
          else collectImportLines limit rest (lines ++ [LegacyText.mk core]) := by
  rw [collectImportLines, isTrimUnit_eq]
  rcases blank_or_exists_untrimmed units with hblank | ⟨before, core, after, rfl, hbefore, hcore,
    hafter⟩
  · rw [findIdx?_blank hblank, rposition_blank hblank, trimmedSlice_of_blank hblank]
    exact if_pos rfl
  · have hpos := hcore.length_pos
    have hne : ¬before.length = before.length + core.length - 1 + 1 := by omega
    rw [findIdx?_trimmed hbefore hcore, rposition_trimmed hcore hafter,
      trimmedSlice_eq hbefore hcore hafter]
    simp only [Option.getD_some, take_drop_trimmed hcore]
    exact if_neg hne

/-- The lines collected so far and the first of those that are left. -/
theorem collectImportLines_eq {limit : ℕ} (rest : List (List UInt16)) {lines : List LegacyText}
    (h : lines.length ≤ limit) :
    collectImportLines limit rest lines =
      ((lines ++ (rest.filterMap trimmedSlice).map LegacyText.mk).take limit,
        decide (limit < lines.length + (rest.filterMap trimmedSlice).length)) := by
  induction rest generalizing lines with
  | nil => simp [collectImportLines, List.take_of_length_le h, Nat.not_lt.2 h]
  | cons units rest ih =>
      rw [collectImportLines_cons]
      cases hslice : trimmedSlice units with
      | none => rw [List.filterMap_cons_none hslice, ih h]
      | some core =>
          rw [List.filterMap_cons_some hslice]
          dsimp only
          split
          · next hover =>
              rw [List.length_append, List.length_singleton] at hover
              have hlimit : limit = lines.length := by omega
              subst hlimit
              have htake (more : List LegacyText) :
                  (lines ++ more).take lines.length = lines := List.take_left
              rw [htake, htake, decide_eq_true (by rw [List.length_cons]; omega)]
          · next hunder =>
              rw [ih (Nat.not_lt.1 hunder), List.append_assoc, List.length_append,
                List.length_singleton, List.length_cons, Nat.add_assoc,
                Nat.add_comm 1]
              rfl

/-- The bounded import returns the first lines of the full one, and its flag says exactly that
there are more than the limit. -/
theorem boundedImportLines_eq (text : LegacyText) (limit : ℕ) :
    boundedImportLines text limit =
      ((parseImportLines text).take (min limit (parseImportLines text).length),
        decide (limit < (parseImportLines text).length)) := by
  have hnil : ([] : List LegacyText).length ≤ limit := Nat.zero_le limit
  have heq := collectImportLines_eq (text.units.splitOn lineFeed) hnil
  rw [List.nil_append, List.length_nil, Nat.zero_add] at heq
  rw [boundedImportLines, heq, parseImportLines, List.length_map, trimmedImportUnitSlices]
  simp

end Admission

end DarkReNamer
