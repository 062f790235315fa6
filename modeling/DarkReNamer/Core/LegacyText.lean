import Mathlib.Tactic.Common

/-!
# Exact UTF-16 text

`LegacyText` is a string of UTF-16 code units, unpaired surrogates included. The
unit is the indexing unit of every path and name below, so paths are compared,
cut and joined unit by unit and never decoded.
-/

namespace DarkReNamer

/-- An owned string of exact UTF-16 code units. -/
structure LegacyText where
  units : List UInt16
  deriving DecidableEq, Repr

namespace LegacyText

def len (text : LegacyText) : ℕ := text.units.length

def isEmpty (text : LegacyText) : Bool := text.units.isEmpty

/-- Text of an ASCII literal, one unit for each character. -/
def ofAscii (text : String) : LegacyText :=
  ⟨text.toList.map fun c => c.toNat.toUInt16⟩

@[ext] theorem ext {a b : LegacyText} (h : a.units = b.units) : a = b := by
  cases a
  cases b
  simpa using h

end LegacyText

/-- The code unit of `'\'`. -/
def backslash : UInt16 := 92

/-- The code unit of `'/'`. -/
def slash : UInt16 := 47

/-- Either path separator. -/
def isSeparator (unit : UInt16) : Bool := unit == backslash || unit == slash

/-- The part of `units` after its last separator. -/
def afterLastSeparator (units : List UInt16) : List UInt16 :=
  (units.reverse.takeWhile fun unit => !isSeparator unit).reverse

/-- The part of `units` before its last separator, empty when there is none. -/
def beforeLastSeparator (units : List UInt16) : List UInt16 :=
  (units.reverse.dropWhile fun unit => !isSeparator unit).tail.reverse

theorem takeWhile_append_separator {name rest : List UInt16} {unit : UInt16}
    (hname : ∀ u ∈ name, isSeparator u = false) (hunit : isSeparator unit = true) :
    (name ++ unit :: rest).takeWhile (fun u => !isSeparator u) = name := by
  induction name with
  | nil => simp [hunit]
  | cons u name ih =>
      have hu : isSeparator u = false := hname u (by simp)
      simp [hu, ih fun v hv => hname v (by simp [hv])]

/-- A name without separators is read back as the leaf of any path ending in it. -/
theorem afterLastSeparator_append {parent name : List UInt16} {unit : UInt16}
    (hname : ∀ u ∈ name, isSeparator u = false) (hunit : isSeparator unit = true) :
    afterLastSeparator (parent ++ unit :: name) = name := by
  have hrev : (parent ++ unit :: name).reverse =
      name.reverse ++ unit :: parent.reverse := by simp
  rw [afterLastSeparator, hrev,
    takeWhile_append_separator (by simpa using hname) hunit, List.reverse_reverse]

theorem dropWhile_append_separator {name rest : List UInt16} {unit : UInt16}
    (hname : ∀ u ∈ name, isSeparator u = false) (hunit : isSeparator unit = true) :
    (name ++ unit :: rest).dropWhile (fun u => !isSeparator u) = unit :: rest := by
  induction name with
  | nil => simp [hunit]
  | cons u name ih =>
      have hu : isSeparator u = false := hname u (by simp)
      simp [hu, ih fun v hv => hname v (by simp [hv])]

/-- What is before a name without separators is its parent. -/
theorem beforeLastSeparator_append {parent name : List UInt16} {unit : UInt16}
    (hname : ∀ u ∈ name, isSeparator u = false) (hunit : isSeparator unit = true) :
    beforeLastSeparator (parent ++ unit :: name) = parent := by
  have hrev : (parent ++ unit :: name).reverse =
      name.reverse ++ unit :: parent.reverse := by simp
  rw [beforeLastSeparator, hrev,
    dropWhile_append_separator (by simpa using hname) hunit, List.tail_cons, List.reverse_reverse]

end DarkReNamer
