import DarkReNamer.Bytes.Trailer
import DarkReNamer.UiLayout.MainLayout

/-!
# The records of the settings files

The three settings of the user and the records that they are stored as (`preferences.rs`): the
state of the seven columns, the appearance, and the language. Every record has a fixed length,
begins with a magic number and a version, and ends with a checksum over what comes before it.
-/

namespace DarkReNamer

open Bytes UiLayout

/-- `io::ErrorKind`, as far as the settings tell the kinds apart. -/
inductive ErrorKind where
  | notFound
  | alreadyExists
  | invalidInput
  | invalidData
  | other
  deriving DecidableEq, Repr

/-- An error of the operating system, or one that the program makes. -/
inductive SettingsError where
  | os (kind : ErrorKind) (rawOsError : Option ℤ)
  | made (kind : ErrorKind) (message : String)
  deriving DecidableEq, Repr

inductive AppThemeMode where
  | system
  | light
  | dark
  deriving DecidableEq, Repr

inductive PreviewEmphasis where
  | subtle
  | standard
  | strong
  deriving DecidableEq, Repr

structure UiAppearance where
  theme : AppThemeMode
  density : RailDensityPreference
  emphasis : PreviewEmphasis
  showSeparators : Bool
  showPreviewTint : Bool
  showEmptySafety : Bool
  deriving DecidableEq

inductive LanguagePreference where
  | system
  | korean
  | english
  | japanese
  deriving DecidableEq, Repr

namespace Preferences

def invalidData (message : String) : SettingsError := .made .invalidData message

/-- The checksum of a record, one byte after the other. -/
def checksum (input : List UInt8) : UInt32 :=
  input.foldl (fun hash byte => (hash ^^^ byte.toUInt32) * 16777619) 2166136261

/-- A byte with a table of values. -/
def decodeByte {α : Type} (table : List (UInt8 × α)) (message : String) (value : UInt8) :
    Except SettingsError α :=
  match table.lookup value with
  | some field => .ok field
  | none => .error (invalidData message)

def encodeFlag (flag : Bool) : UInt8 := if flag then 1 else 0

def decodeFlag : UInt8 → Except SettingsError Bool :=
  decodeByte [(0, false), (1, true)] "column preference flag is invalid"

/-! ### Columns -/

/-- The bytes `DRCOLS` and two zeros. -/
def magic : List UInt8 := [0x44, 0x52, 0x43, 0x4f, 0x4c, 0x53, 0, 0]

def formatVersion : UInt8 := 1

def columnCount : ℕ := 7

def headerLen : ℕ := 12

def recordLen : ℕ := 6

def checksumLen : ℕ := 4

def serializedLen : ℕ := headerLen + columnCount * recordLen + checksumLen

def maxWidthDip : ℤ := 32768

/-- `to_le_bytes` of an `i32`. -/
def i32LeBytes (n : I32) : List UInt8 := leBytes 4 (BitVec.ofInt 32 n).toNat

theorem bits_mem_i32 (bits : BitVec 32) : i32Min ≤ bits.toInt ∧ bits.toInt ≤ i32Max := by
  have hmin := BitVec.le_toInt bits
  have hmax := BitVec.toInt_lt (x := bits)
  rw [i32Min, i32Max]
  omega

/-- `i32::from_le_bytes`. -/
def i32FromLeBytes (bytes : List UInt8) : I32 :=
  ⟨(BitVec.ofNat 32 (readLe bytes)).toInt, bits_mem_i32 _⟩

/-- `default_column_states`. -/
def defaultColumnStates : ColumnStates where
  primary index := ⟨true, ⟨columnDefaultWidth index, by cases index <;> decide⟩, false⟩
  optional index := ⟨false, ⟨if index = 1 then 80 else 120, by split <;> decide⟩, false⟩

/-- The columns as the array that they are in the source. -/
def columnList (columns : ColumnStates) : List ColumnState :=
  primaryColumns.map columns.primary ++ List.ofFn columns.optional

/-- The default columns with the first ones replaced by those of a list. -/
def ofColumnList (columns : List ColumnState) : ColumnStates where
  primary
    | .current => columns.getD 0 (defaultColumnStates.primary .current)
    | .proposed => columns.getD 1 (defaultColumnStates.primary .proposed)
    | .location => columns.getD 2 (defaultColumnStates.primary .location)
  optional index := columns.getD (3 + index) (defaultColumnStates.optional index)

/-- One round of the loop of `encode`. -/
def encodeColumn (column : ColumnState) : Except SettingsError (List UInt8) :=
  if 0 ≤ column.widthDip.val ∧ column.widthDip.val ≤ maxWidthDip then
    .ok ([encodeFlag column.visible, encodeFlag column.userResized] ++ i32LeBytes column.widthDip)
  else .error (invalidData "column width is outside the supported range")

def encodeColumns : List ColumnState → Except SettingsError (List UInt8)
  | [] => .ok []
  | column :: columns => do
    let record ← encodeColumn column
    let records ← encodeColumns columns
    .ok (record ++ records)

def columnHeader : List UInt8 := magic ++ [formatVersion, UInt8.ofNat columnCount, 0, 0]

def encode (columns : ColumnStates) : Except SettingsError (List UInt8) := do
  let records ← encodeColumns (columnList columns)
  .ok (withTrailer checksum (columnHeader ++ records))

/-- One round of the loop of `decode`. -/
def decodeColumn (record : List UInt8) : Except SettingsError ColumnState := do
  let visible ← decodeFlag (record.getD 0 0)
  let userResized ← decodeFlag (record.getD 1 0)
  let widthDip := i32FromLeBytes (record.extract 2 recordLen)
  if 0 ≤ widthDip.val ∧ widthDip.val ≤ maxWidthDip then .ok ⟨visible, widthDip, userResized⟩
  else .error (invalidData "column width is outside the supported range")

/-- The records of so many columns, one behind the other. -/
def decodeColumns : ℕ → List UInt8 → Except SettingsError (List ColumnState)
  | 0, _ => .ok []
  | count + 1, input => do
    let column ← decodeColumn (input.take recordLen)
    let columns ← decodeColumns count (input.drop recordLen)
    .ok (column :: columns)

def decode (input : List UInt8) : Except SettingsError ColumnStates :=
  if input.length ≠ serializedLen then
    .error (invalidData "column preference length is invalid")
  else if input.take 8 ≠ magic ∨ input.getD 8 0 ≠ formatVersion ∨
      (input.getD 9 0).toNat ≠ columnCount ∨ input.extract 10 headerLen ≠ [0, 0] then
    .error (invalidData "column preference header is invalid")
  else
    let checksumOffset := serializedLen - checksumLen
    if (checksum (input.take checksumOffset)).toNat ≠ readLe (input.drop checksumOffset) then
      .error (invalidData "column preference checksum does not match")
    else (decodeColumns columnCount (input.drop headerLen)).map ofColumnList

/-! ### Appearance -/

/-- The bytes `DRAPPR` and two zeros. -/
def appearanceMagic : List UInt8 := [0x44, 0x52, 0x41, 0x50, 0x50, 0x52, 0, 0]

def appearanceFormatVersion : UInt8 := 1

def appearanceHeaderLen : ℕ := 12

def appearancePayloadLen : ℕ := 8

def appearanceChecksumLen : ℕ := 4

def appearanceSerializedLen : ℕ :=
  appearanceHeaderLen + appearancePayloadLen + appearanceChecksumLen

def encodeTheme : AppThemeMode → UInt8
  | .system => 0
  | .light => 1
  | .dark => 2

def decodeTheme : UInt8 → Except SettingsError AppThemeMode :=
  decodeByte [(0, .system), (1, .light), (2, .dark)] "appearance theme is invalid"

def encodeDensity : RailDensityPreference → UInt8
  | .automatic => 0
  | .comfortable => 1
  | .compact => 2
  | .menuOnly => 3

def decodeDensity : UInt8 → Except SettingsError RailDensityPreference :=
  decodeByte [(0, .automatic), (1, .comfortable), (2, .compact), (3, .menuOnly)]
    "appearance rail density is invalid"

def encodeEmphasis : PreviewEmphasis → UInt8
  | .subtle => 0
  | .standard => 1
  | .strong => 2

def decodeEmphasis : UInt8 → Except SettingsError PreviewEmphasis :=
  decodeByte [(0, .subtle), (1, .standard), (2, .strong)] "appearance preview emphasis is invalid"

def appearanceHeader : List UInt8 :=
  appearanceMagic ++ [appearanceFormatVersion, UInt8.ofNat appearancePayloadLen, 0, 0]

def appearancePayload (appearance : UiAppearance) : List UInt8 :=
  [encodeTheme appearance.theme, encodeDensity appearance.density,
    encodeEmphasis appearance.emphasis, encodeFlag appearance.showSeparators,
    encodeFlag appearance.showPreviewTint, encodeFlag appearance.showEmptySafety, 0, 0]

def encodeAppearance (appearance : UiAppearance) : List UInt8 :=
  withTrailer checksum (appearanceHeader ++ appearancePayload appearance)

def decodeAppearance (input : List UInt8) : Except SettingsError UiAppearance :=
  if input.length ≠ appearanceSerializedLen then
    .error (invalidData "appearance preference length is invalid")
  else if input.take 8 ≠ appearanceMagic ∨ input.getD 8 0 ≠ appearanceFormatVersion ∨
      (input.getD 9 0).toNat ≠ appearancePayloadLen ∨
      input.extract 10 appearanceHeaderLen ≠ [0, 0] then
    .error (invalidData "appearance preference header is invalid")
  else
    let checksumOffset := appearanceSerializedLen - appearanceChecksumLen
    if (checksum (input.take checksumOffset)).toNat ≠ readLe (input.drop checksumOffset) then
      .error (invalidData "appearance preference checksum does not match")
    else
      let offset := appearanceHeaderLen
      if input.extract (offset + 6) (offset + appearancePayloadLen) ≠ [0, 0] then
        .error (invalidData "appearance preference reserved bytes are invalid")
      else do
        let theme ← decodeTheme (input.getD offset 0)
        let density ← decodeDensity (input.getD (offset + 1) 0)
        let emphasis ← decodeEmphasis (input.getD (offset + 2) 0)
        let showSeparators ← decodeFlag (input.getD (offset + 3) 0)
        let showPreviewTint ← decodeFlag (input.getD (offset + 4) 0)
        let showEmptySafety ← decodeFlag (input.getD (offset + 5) 0)
        .ok ⟨theme, density, emphasis, showSeparators, showPreviewTint, showEmptySafety⟩

/-! ### Language -/

/-- The bytes `DRLANG` and two zeros. -/
def languageMagic : List UInt8 := [0x44, 0x52, 0x4c, 0x41, 0x4e, 0x47, 0, 0]

def languageSerializedLen : ℕ := 20

def encodePreference : LanguagePreference → UInt8
  | .system => 0
  | .korean => 1
  | .english => 2
  | .japanese => 3

def decodePreference : UInt8 → Except SettingsError LanguagePreference :=
  decodeByte [(0, .system), (1, .korean), (2, .english), (3, .japanese)]
    "unsupported language preference"

def encodeLanguage (preference : LanguagePreference) : List UInt8 :=
  withTrailer checksum
    (languageMagic ++ [1, 0, 0, 0, encodePreference preference, 0, 0, 0])

def decodeLanguage (bytes : List UInt8) : Except SettingsError LanguagePreference :=
  if bytes.length ≠ languageSerializedLen ∨ bytes.take 8 ≠ languageMagic ∨
      bytes.getD 8 0 ≠ 1 ∨ bytes.extract 9 12 ≠ [0, 0, 0] ∨ bytes.extract 13 16 ≠ [0, 0, 0] ∨
      bytes.drop 16 ≠ leBytes 4 (checksum (bytes.take 16)).toNat then
    .error (invalidData "invalid language preference record")
  else decodePreference (bytes.getD 12 0)

end Preferences

end DarkReNamer
