import DarkReNamer.Core.LegacyText

/-!
# Windows leaf names

The checks a new name has to pass (`windows_leaf_name.rs`), unit by unit and without
normalising it. The order of the checks is that of the source: the first violation is
the one reported.
-/

namespace DarkReNamer

/-- Maximum number of UTF-16 code units in one Windows leaf name. -/
def maxWindowsLeafNameUtf16Units : ℕ := 255

inductive WindowsLeafNameError where
  | empty
  | containsNul
  | containsSeparator
  | dotComponent
  | invalidCharacter
  | reservedDeviceName
  | trailingDotOrSpace
  | tooLong
  deriving DecidableEq, Repr

/-- The code unit of `'.'`. -/
def dot : UInt16 := 46

def asciiUpper (unit : UInt16) : UInt16 :=
  if 97 ≤ unit ∧ unit ≤ 122 then unit - 32 else unit

/-- Equality with an ASCII text in upper case, ignoring the case of ASCII letters. -/
def matchesAsciiIgnoreCase (units : List UInt16) (expected : LegacyText) : Bool :=
  units.map asciiUpper == expected.units

def isNumberedDevice (stem : List UInt16) (device : LegacyText) : Bool :=
  stem.length == 4 && matchesAsciiIgnoreCase (stem.take 3) device &&
    stem[3]?.any fun value =>
      (49 ≤ value && value ≤ 57) || value == 0xB9 || value == 0xB2 || value == 0xB3

def isReservedDeviceName (units : List UInt16) : Bool :=
  let stem := units.takeWhile fun unit => unit != dot
  matchesAsciiIgnoreCase stem (.ofAscii "CON") ||
    matchesAsciiIgnoreCase stem (.ofAscii "PRN") ||
    matchesAsciiIgnoreCase stem (.ofAscii "AUX") ||
    matchesAsciiIgnoreCase stem (.ofAscii "NUL") ||
    matchesAsciiIgnoreCase stem (.ofAscii "CLOCK$") ||
    isNumberedDevice stem (.ofAscii "COM") || isNumberedDevice stem (.ofAscii "LPT")

/-- Control units and the characters `<`, `>`, `:`, `"`, `|`, `?` and `*`. -/
def isInvalidCharacter (unit : UInt16) : Bool :=
  unit < 32 || (LegacyText.ofAscii "<>:\"|?*").units.contains unit

def validateWindowsLeafName (name : LegacyText) : Except WindowsLeafNameError Unit :=
  let units := name.units
  if units.isEmpty then .error .empty
  else if units.length > maxWindowsLeafNameUtf16Units then .error .tooLong
  else if units = [dot] ∨ units = [dot, dot] then .error .dotComponent
  else if units.contains 0 then .error .containsNul
  else if units.any isSeparator then .error .containsSeparator
  else if units.any isInvalidCharacter then .error .invalidCharacter
  else if units.getLast?.any fun unit => unit == dot || unit == 32 then
    .error .trailingDotOrSpace
  else if isReservedDeviceName units then .error .reservedDeviceName
  else .ok ()

/-- A valid name has no separator. -/
theorem isSeparator_of_validateWindowsLeafName {name : LegacyText}
    (h : validateWindowsLeafName name = .ok ()) : ∀ u ∈ name.units, isSeparator u = false := by
  unfold validateWindowsLeafName at h
  intro u hu
  by_contra hsep
  have hany : name.units.any isSeparator = true :=
    List.any_eq_true.2 ⟨u, hu, by simpa using hsep⟩
  simp only [hany, if_true] at h
  split_ifs at h

example : validateWindowsLeafName (.ofAscii "lpt1.txt") = .error .reservedDeviceName := by
  decide

end DarkReNamer
