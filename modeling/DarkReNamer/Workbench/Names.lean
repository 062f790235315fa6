import DarkReNamer.Workbench.Staging

/-!
# Proposed names

The text a command proposes for one row. Names and positions are counted in UTF-16 code
units. A name is cut into a stem and an extension at its last dot, and only what follows its
last backslash belongs to the stem.
-/

namespace DarkReNamer

/-- The code unit of `'0'`. -/
def digitZero : UInt16 := 48

/-- The code unit of `'_'`. -/
def underscore : UInt16 := 95

/-- The code unit of a line feed. -/
def lineFeed : UInt16 := 10

def isAsciiDigit (unit : UInt16) : Bool := digitZero ≤ unit && unit ≤ 57

/-- The position after the last backslash. -/
def nameStart (units : List UInt16) : ℕ :=
  match rposition (· == backslash) units with
  | none => 0
  | some index => index + 1

/-- The stem and the extension of the proposed name; a directory has no extension. -/
def stemExtensionUnits (item : LegacyListItem) : List UInt16 × List UInt16 :=
  let units := item.proposedName.units
  let start := nameStart units
  if item.isDirectory then
    (units.drop start, [])
  else
    match rposition (· == dot) units with
    | none => (units.drop start, [])
    | some index => ((units.take (max index start)).drop start, units.drop index)

/-! ### Transforms that cannot fail -/

def clearNameProposal (item : LegacyListItem) : LegacyText :=
  ⟨(stemExtensionUnits item).2⟩

/-- Deletes the units `start` to `last` of the stem, counted from one. -/
def deleteFrontRangeProposal (start finish : ℕ) (item : LegacyListItem) : LegacyText :=
  let (stem, extension) := stemExtensionUnits item
  if start ≤ stem.length then
    let last := if finish > 0 ∧ finish < stem.length then finish else stem.length
    ⟨stem.take (start - 1) ++ stem.drop last ++ extension⟩
  else
    ⟨stem ++ extension⟩

def deleteLastProposal (count : ℕ) (item : LegacyListItem) : LegacyText :=
  let (stem, extension) := stemExtensionUnits item
  ⟨stem.take (stem.length - min count stem.length) ++ extension⟩

def deleteFirstDelimitedProposal (start finish : UInt16) (item : LegacyListItem) : LegacyText :=
  let (stem, extension) := stemExtensionUnits item
  match stem.idxOf? start with
  | none => ⟨stem ++ extension⟩
  | some startIndex =>
    match (stem.drop (startIndex + 1)).idxOf? finish with
    | none => ⟨stem ++ extension⟩
    | some relativeEnd =>
      ⟨stem.take startIndex ++ stem.drop (startIndex + 1 + relativeEnd + 1) ++ extension⟩

def keepAsciiDigitsProposal (item : LegacyListItem) : LegacyText :=
  let (stem, extension) := stemExtensionUnits item
  ⟨stem.filter isAsciiDigit ++ extension⟩

def deleteExtensionProposal (item : LegacyListItem) : LegacyText :=
  ⟨(stemExtensionUnits item).1⟩

theorem stemExtensionUnits_length_le (item : LegacyListItem) :
    (stemExtensionUnits item).1.length + (stemExtensionUnits item).2.length ≤
      item.proposedName.len := by
  simp only [stemExtensionUnits, LegacyText.len]
  split
  · simp
  · split
    · simp
    · simp
      omega

/-! ### Transforms that may exceed a budget -/

/-- The units that replacing would take, each step within the budget, and whether there is a
match at all. -/
def replacedLength (row : ℕ) (needle replacement : List UInt16) :
    List UInt16 → ℕ → Bool → Except ProposalMutationError (ℕ × Bool)
  | [], requestedUnits, isMatched => .ok (requestedUnits, isMatched)
  | unit :: rest, requestedUnits, isMatched => do
    if needle.isPrefixOf (unit :: rest) then
      let requestedUnits ←
        okOr .arithmeticOverflow (checkedAdd usizeMax requestedUnits replacement.length)
      validateProposalUnits row requestedUnits
      replacedLength row needle replacement (rest.drop (needle.length - 1)) requestedUnits true
    else
      let requestedUnits ← okOr .arithmeticOverflow (checkedAdd usizeMax requestedUnits 1)
      validateProposalUnits row requestedUnits
      replacedLength row needle replacement rest requestedUnits isMatched
termination_by units => units.length
decreasing_by
  · simp only [List.length_drop, List.length_cons]
    omega
  · simp

/-- Every match replaced, from the left and without overlaps. -/
def replacedOutput (needle replacement : List UInt16) : List UInt16 → List UInt16
  | [] => []
  | unit :: rest =>
    if needle.isPrefixOf (unit :: rest) then
      replacement ++ replacedOutput needle replacement (rest.drop (needle.length - 1))
    else
      unit :: replacedOutput needle replacement rest
termination_by units => units.length
decreasing_by
  · simp only [List.length_drop, List.length_cons]
    omega
  · simp

def replacedUnits (row : ℕ) (source needle replacement : List UInt16) :
    Staging ProposalMutationError (Option LegacyText) := do
  if needle.isEmpty ∨ needle.length > source.length then
    return none
  let (requestedUnits, isMatched) ← replacedLength row needle replacement source 0 false
  if ¬isMatched ∨ needle = replacement then
    return none
  return some (← tryBuildProposal row requestedUnits (replacedOutput needle replacement source))

def tryNormalizedExtension (extension : LegacyText) :
    Staging ProposalMutationError (Option LegacyText) := do
  if extension.isEmpty then
    return none
  if extension.units.head? = some dot then
    return some (← tryBuildProposal 0 extension.len extension.units)
  let requestedUnits ← checkedSum [1, extension.len]
  return some (← tryBuildProposal 0 requestedUnits (dot :: extension.units))

/-- The last component of a parent, when the parent has two. -/
def parentFolderUnits (rootPath : LegacyText) : Option (List UInt16) :=
  let start := nameStart rootPath.units
  if start > 0 ∧ start < rootPath.len then some (rootPath.units.drop start) else none

/-- The first and the last position of the last run of digits. -/
def lastDigitRun (units : List UInt16) : Option (ℕ × ℕ) := do
  let last ← rposition isAsciiDigit units
  let start := match rposition (fun unit => !isAsciiDigit unit) (units.take (last + 1)) with
    | none => 0
    | some index => index + 1
  some (start, last)

/-- The first run of digits, unless it reaches the end. -/
def firstDigitRun (units : List UInt16) : Option (ℕ × ℕ) := do
  let start ← units.findIdx? isAsciiDigit
  let relativeEnd ← (units.drop start).findIdx? fun unit => !isAsciiDigit unit
  some (start, start + relativeEnd - 1)

def paddedDigitRunProposal (item : LegacyListItem) (row width : ℕ)
    (findRun : List UInt16 → Option (ℕ × ℕ)) : Staging ProposalMutationError LegacyText := do
  let (stem, extension) := stemExtensionUnits item
  match findRun stem with
  | none =>
    let requestedUnits ← checkedSum [stem.length, extension.length]
    tryBuildProposal row requestedUnits (stem ++ extension)
  | some (start, last) =>
    let runLength := last - start + 1
    let padding := width - runLength
    let requestedUnits ← checkedSum [stem.length, padding, extension.length]
    tryBuildProposal row requestedUnits
      (stem.take start ++ List.replicate padding digitZero ++ stem.drop start ++ extension)

/-! ### Imported lines -/

/-- `char::is_whitespace` of a single unit; an unpaired surrogate is no character. -/
def isTrimUnit (unit : UInt16) : Bool :=
  (9 ≤ unit && unit ≤ 13) || unit == 0x20 || unit == 0x85 || unit == 0xA0 || unit == 0x1680 ||
    (0x2000 ≤ unit && unit ≤ 0x200A) || unit == 0x2028 || unit == 0x2029 || unit == 0x202F ||
    unit == 0x205F || unit == 0x3000

/-- The part of a line between its first and its last unit that is no white space. -/
def trimmedSlice (units : List UInt16) : Option (List UInt16) :=
  let first := (units.findIdx? fun unit => !isTrimUnit unit).getD units.length
  let last := match rposition (fun unit => !isTrimUnit unit) units with
    | none => first
    | some index => index + 1
  if first < last then some ((units.take last).drop first) else none

def trimmedImportUnitSlices (text : LegacyText) : List (List UInt16) :=
  (text.units.splitOn lineFeed).filterMap trimmedSlice

end DarkReNamer
