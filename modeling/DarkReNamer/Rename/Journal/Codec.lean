import DarkReNamer.Bytes.LittleEndian
import DarkReNamer.Bytes.Parser
import DarkReNamer.Rename.Journal.Capacity
import DarkReNamer.Rename.Journal.Replay

/-!
# The journal format

Encoder, decoder and inspection of a journal file (`rename/file_journal.rs`). A file is
a sequence of frames, each a header of 24 bytes and a payload; the header holds the
length of the payload and a checksum over itself and the payload. `readFrame` is the
body of the loop of `inspect_journal_records`, and the frame limit of that loop is the
measure it recurses on.

Lengths are natural numbers: the additions that the source checks against the machine
word stay far below it, because the file is limited first.
-/

namespace DarkReNamer

open Bytes

/-- The bytes `DRJ1`. -/
def magic : List UInt8 := [0x44, 0x52, 0x4a, 0x31]

def legacyVersion : ℕ := 1

def version : ℕ := 2

def headerBytes : ℕ := 24

def flagsNone : UInt8 := 0

inductive JournalCodecErrorKind where
  | fileTooLarge
  | tooManyFrames
  | tooManySteps
  | pathTooLong
  | truncatedFrame
  | invalidMagic
  | unsupportedVersion
  | invalidFlags
  | sequenceMismatch
  | frameTooLarge
  | checksumMismatch
  | unknownRecordKind
  | unknownFieldValue
  | invalidPayload
  | invalidTransitions
  | integerOutOfRange
  deriving DecidableEq, Repr

/-- A codec failure with the index of the failing frame. -/
structure JournalCodecError where
  frame : ℕ
  kind : JournalCodecErrorKind
  deriving DecidableEq, Repr

/-- An issue of the last frame that recovery can live with. -/
inductive JournalTailIssue where
  | truncatedHeader
  | truncatedPayload
  deriving DecidableEq, Repr

/-- Complete valid prefix, and whether a torn frame follows it. -/
structure JournalInspection where
  records : List JournalRecord
  issue : Option JournalTailIssue
  validBytes : ℕ
  deriving DecidableEq

/-! ### Checksum -/

def crc32Round (crc : UInt32) : UInt32 :=
  let mask := 0 - (crc &&& 1)
  (crc >>> 1) ^^^ (0xedb88320 &&& mask)

def crc32Byte (crc : UInt32) (byte : UInt8) : UInt32 :=
  Nat.iterate crc32Round 8 (crc ^^^ byte.toUInt32)

def crc32Parts (parts : List (List UInt8)) : UInt32 :=
  ~~~(parts.foldl (fun crc part => part.foldl crc32Byte crc) 0xffffffff)

/-! ### Encoder -/

def putU32 (payload : List UInt8) (value : UInt32) : List UInt8 :=
  payload ++ leBytes 4 value.toNat

def putU32Len (payload : List UInt8) (value frame : ℕ) :
    Except JournalCodecError (List UInt8) :=
  if value < 2 ^ 32 then .ok (putU32 payload (UInt32.ofNat value))
  else .error ⟨frame, .integerOutOfRange⟩

def putU64 (payload : List UInt8) (value : UInt64) : List UInt8 :=
  payload ++ leBytes 8 value.toNat

def putIdentity (payload : List UInt8) (identity : EntryIdentity) : List UInt8 :=
  payload ++ leBytes 8 identity.volume.toNat ++ leBytes 16 identity.fileId.toNat

def putText (payload : List UInt8) (text : LegacyText) (frame : ℕ) :
    Except JournalCodecError (List UInt8) :=
  if text.len > maxPathUnits then .error ⟨frame, .pathTooLong⟩
  else if payload.length + 4 + text.len * 2 > maxJournalFrameBytes then
    .error ⟨frame, .frameTooLarge⟩
  else
    (putU32Len payload text.len frame).map fun payload =>
      payload ++ text.units.flatMap fun unit => leBytes 2 unit.toNat

def encodeDirection : JournalDirection → UInt8
  | .forward => 0
  | .rollback => 1

def encodeKind : EntryKind → UInt8
  | .file => 0
  | .directory => 1

def encodeScope : MoveScope → UInt8
  | .sameParent => 0
  | .sameVolumeFilesOnly => 1

def encodePhase : TemporaryPhase → UInt8
  | .none => 0
  | .intoTemporary => 1
  | .fromTemporary => 2

def encodeTerminal : JournalTerminal → UInt8
  | .committed => 0
  | .rolledBack => 1

/-- One step of an intent, after what the payload already holds. -/
def encodeStep (frame : ℕ) (payload : List UInt8) (step : JournalStep) :
    Except JournalCodecError (List UInt8) := do
  let payload := putU32 payload step.entry.value
  let payload ← putText payload step.source frame
  let payload ← putText payload step.destination frame
  let payload := putIdentity payload step.expectedSource
  let payload := putIdentity payload step.expectedSourceParent
  let payload := putIdentity payload step.expectedDestinationParent
  match step.kind with
  | none => .error ⟨frame, .invalidPayload⟩
  | some kind =>
      let payload :=
        payload ++ [encodeKind kind, encodeScope step.scope, encodePhase step.temporaryPhase]
      if payload.length > maxJournalFrameBytes then .error ⟨frame, .frameTooLarge⟩
      else .ok payload

/-- The codec's error for a manifest that does not fit. -/
def capacityCodecError (frame : ℕ) (error : JournalCapacityError) : JournalCodecError :=
  match error.kind with
  | .primitiveSteps => ⟨frame, .tooManySteps⟩
  | .intentFrameBytes => ⟨frame, .frameTooLarge⟩

/-- A record of one step and direction. -/
def encodeMove (kind : UInt8) (step : ℕ) (direction : JournalDirection) (frame : ℕ) :
    Except JournalCodecError (UInt8 × List UInt8) :=
  (putU32Len [] step frame).map fun payload => (kind, payload ++ [encodeDirection direction])

/-- The kind and the payload of a record. -/
def encodeRecord (record : JournalRecord) (frame : ℕ) :
    Except JournalCodecError (UInt8 × List UInt8) :=
  match record with
  | .intent plan steps => do
      let _ ← (journalRequirements steps).mapError (capacityCodecError frame)
      let payload := putU64 [] plan.fingerprint
      let payload ← putU32Len payload steps.length frame
      let payload ← steps.foldlM (encodeStep frame) payload
      .ok (1, payload)
  | .prepared step direction => encodeMove 2 step direction frame
  | .completed step direction => encodeMove 3 step direction frame
  | .notApplied step direction => encodeMove 4 step direction frame
  | .terminal value => .ok (5, [encodeTerminal value])

/-- The header fields that the checksum covers. -/
def headerFields (kind : UInt8) (sequence payloadLength : ℕ) : List UInt8 :=
  leBytes 2 version ++ [kind, flagsNone] ++ leBytes 8 sequence ++ leBytes 4 payloadLength

def encodeFrame (sequence : ℕ) (record : JournalRecord) (frame : ℕ) :
    Except JournalCodecError (List UInt8) := do
  let (kind, payload) ← encodeRecord record frame
  if payload.length > maxJournalFrameBytes then .error ⟨frame, .frameTooLarge⟩
  else if payload.length ≥ 2 ^ 32 then .error ⟨frame, .integerOutOfRange⟩
  else
    let fields := headerFields kind sequence payload.length
    .ok (magic ++ fields ++ leBytes 4 (crc32Parts [fields, payload]).toNat ++ payload)

def encodeFrom : List JournalRecord → ℕ → List UInt8 → Except JournalCodecError (List UInt8)
  | [], _, bytes => .ok bytes
  | record :: records, index, bytes => do
      let frame ← encodeFrame index record index
      if bytes.length + frame.length > maxJournalFileBytes then .error ⟨index, .fileTooLarge⟩
      else encodeFrom records (index + 1) (bytes ++ frame)

def encodeJournalRecords (records : List JournalRecord) :
    Except JournalCodecError (List UInt8) :=
  if records.length > maxJournalFrames then .error ⟨maxJournalFrames, .tooManyFrames⟩
  else encodeFrom records 0 []

/-! ### Decoder -/

/-- A decoder of the payload of one frame. -/
abbrev Decoder (α : Type) : Type := Parser UInt8 JournalCodecError α

def readFixedU32 (bytes : List UInt8) (frame : ℕ) : Except JournalCodecError UInt32 :=
  if bytes.length = 4 then .ok (UInt32.ofNat (readLe bytes)) else .error ⟨frame, .invalidPayload⟩

def readFixedU64 (bytes : List UInt8) (frame : ℕ) : Except JournalCodecError UInt64 :=
  if bytes.length = 8 then .ok (UInt64.ofNat (readLe bytes)) else .error ⟨frame, .invalidPayload⟩

namespace Decoder

def take (frame count : ℕ) : Decoder (List UInt8) := takeExactly count ⟨frame, .invalidPayload⟩

def u8 (frame : ℕ) : Decoder UInt8 := do
  let bytes ← take frame 1
  pure (bytes.headD 0)

def u32 (frame : ℕ) : Decoder UInt32 := do
  let bytes ← take frame 4
  liftM (readFixedU32 bytes frame)

def usizeU32 (frame : ℕ) : Decoder ℕ := UInt32.toNat <$> u32 frame

def u64 (frame : ℕ) : Decoder UInt64 := do
  let bytes ← take frame 8
  liftM (readFixedU64 bytes frame)

def u128 (frame : ℕ) : Decoder (BitVec 128) := do
  let bytes ← take frame 16
  pure (BitVec.ofNat 128 (readLe bytes))

def identity (frame : ℕ) : Decoder EntryIdentity := do
  let volume ← u64 frame
  let fileId ← u128 frame
  pure ⟨volume, fileId⟩

/-- The units of a text, from two bytes each. -/
def units : List UInt8 → List UInt16
  | low :: high :: bytes => UInt16.ofNat (readLe [low, high]) :: units bytes
  | _ => []

def text (frame : ℕ) : Decoder LegacyText := do
  let count ← usizeU32 frame
  if count > maxPathUnits then throw ⟨frame, .pathTooLong⟩
  else do
    let bytes ← take frame (count * 2)
    pure ⟨units bytes⟩

/-- A field of one byte. -/
def field {α : Type} (decode : UInt8 → ℕ → Except JournalCodecError α) (frame : ℕ) :
    Decoder α := do
  let value ← u8 frame
  liftM (decode value frame)

end Decoder

/-- A field of one byte with a table of values. -/
def decodeField {α : Type} (table : List (UInt8 × α)) (value : UInt8) (frame : ℕ) :
    Except JournalCodecError α :=
  match table.lookup value with
  | some field => .ok field
  | none => .error ⟨frame, .unknownFieldValue⟩

def decodeDirection : UInt8 → ℕ → Except JournalCodecError JournalDirection :=
  decodeField [(0, .forward), (1, .rollback)]

def decodeKind : UInt8 → ℕ → Except JournalCodecError EntryKind :=
  decodeField [(0, .file), (1, .directory)]

def decodeScope : UInt8 → ℕ → Except JournalCodecError MoveScope :=
  decodeField [(0, .sameParent), (1, .sameVolumeFilesOnly)]

def decodePhase : UInt8 → ℕ → Except JournalCodecError TemporaryPhase :=
  decodeField [(0, .none), (1, .intoTemporary), (2, .fromTemporary)]

def decodeTerminal : UInt8 → ℕ → Except JournalCodecError JournalTerminal :=
  decodeField [(0, .committed), (1, .rolledBack)]

/-- One step of an intent, in the format of the version. -/
def decodeStep (frame version : ℕ) : Decoder JournalStep := do
  let entry ← Decoder.u32 frame
  let source ← Decoder.text frame
  let destination ← Decoder.text frame
  let expectedSource ← Decoder.identity frame
  let expectedSourceParent ← Decoder.identity frame
  let expectedDestinationParent ← Decoder.identity frame
  if version = legacyVersion then do
    let temporaryPhase ← Decoder.field decodePhase frame
    pure (.legacySameParent ⟨entry⟩ source destination expectedSource expectedSourceParent
      expectedDestinationParent temporaryPhase)
  else do
    let entryKind ← Decoder.field decodeKind frame
    let scope ← Decoder.field decodeScope frame
    let temporaryPhase ← Decoder.field decodePhase frame
    pure ((JournalStep.new ⟨entry⟩ source destination expectedSource expectedSourceParent
      expectedDestinationParent temporaryPhase).withMoveAuthorization entryKind scope)

/-- A record of one step and direction. -/
def decodeMove (record : ℕ → JournalDirection → JournalRecord) (frame : ℕ) :
    Decoder JournalRecord := do
  let step ← Decoder.usizeU32 frame
  let direction ← Decoder.field decodeDirection frame
  pure (record step direction)

/-- The fields of a record of one kind. -/
def decodeFields (kind : UInt8) (frame version : ℕ) : Decoder JournalRecord :=
  if kind = 1 then do
    let plan ← Decoder.u64 frame
    let count ← Decoder.usizeU32 frame
    if count > maxJournalSteps then throw ⟨frame, .tooManySteps⟩
    else do
      let steps ← times (decodeStep frame version) count
      pure (.intent ⟨plan⟩ steps)
  else if kind = 2 then decodeMove .prepared frame
  else if kind = 3 then decodeMove .completed frame
  else if kind = 4 then decodeMove .notApplied frame
  else if kind = 5 then do
    let value ← Decoder.field decodeTerminal frame
    pure (.terminal value)
  else throw ⟨frame, .unknownRecordKind⟩

def decodeRecord (kind : UInt8) (payload : List UInt8) (frame version : ℕ) :
    Except JournalCodecError JournalRecord :=
  match (decodeFields kind frame version).run payload with
  | .error error => .error error
  | .ok (record, rest) =>
      if rest = [] then .ok record else .error ⟨frame, .invalidPayload⟩

/-! ### Inspection -/

/-- The bytes from `start` up to `stop`. -/
def slice (bytes : List UInt8) (start stop : ℕ) : List UInt8 :=
  (bytes.drop start).take (stop - start)

/-- The front of a journal: a torn frame, or a complete one and what follows it. -/
inductive FrameRead where
  | torn (issue : JournalTailIssue)
  | complete (record : JournalRecord) (rest : List UInt8)

/-- Reads the frame with the given index. -/
def readFrame (frame : ℕ) (bytes : List UInt8) : Except JournalCodecError FrameRead :=
  let header := slice bytes 0 headerBytes
  if header.length < headerBytes then .ok (.torn .truncatedHeader)
  else if slice header 0 4 ≠ magic then .error ⟨frame, .invalidMagic⟩
  else
    let version' := readLe (slice header 4 6)
    if version' ≠ legacyVersion ∧ version' ≠ version then .error ⟨frame, .unsupportedVersion⟩
    else
      let kind := header.getD 6 0
      if kind < 1 ∨ kind > 5 then .error ⟨frame, .unknownRecordKind⟩
      else if header.getD 7 0 ≠ flagsNone then .error ⟨frame, .invalidFlags⟩
      else if readLe (slice header 8 16) ≠ frame then .error ⟨frame, .sequenceMismatch⟩
      else
        let payloadLength := readLe (slice header 16 20)
        if payloadLength > maxJournalFrameBytes then .error ⟨frame, .frameTooLarge⟩
        else
          let frameEnd := headerBytes + payloadLength
          let payload := slice bytes headerBytes frameEnd
          if payload.length < payloadLength then .ok (.torn .truncatedPayload)
          else if readLe (slice header 20 24) ≠
              (crc32Parts [slice header 4 20, payload]).toNat then
            .error ⟨frame, .checksumMismatch⟩
          else
            (decodeRecord kind payload frame version').map fun record =>
              .complete record (bytes.drop frameEnd)

def finishInspection (records : List JournalRecord) (issue : Option JournalTailIssue)
    (validBytes : ℕ) : Except JournalCodecError JournalInspection :=
  if issue.isSome ∧ records = [] then .error ⟨0, .truncatedFrame⟩
  else if (replayJournal records).isCorrupt then
    .error ⟨records.length - 1, .invalidTransitions⟩
  else .ok ⟨records, issue, validBytes⟩

/-- The loop over the frames: at most `budget` more of them, after `records` in the
first `offset` bytes. -/
def inspectFrom : ℕ → List JournalRecord → ℕ → List UInt8 →
    Except JournalCodecError JournalInspection
  | 0, records, offset, bytes =>
      if bytes = [] then finishInspection records none offset
      else .error ⟨records.length, .tooManyFrames⟩
  | budget + 1, records, offset, bytes =>
      if bytes = [] then finishInspection records none offset
      else
        match readFrame records.length bytes with
        | .error error => .error error
        | .ok (.torn issue) => finishInspection records (some issue) offset
        | .ok (.complete record rest) =>
            inspectFrom budget (records ++ [record]) (offset + (bytes.length - rest.length)) rest

def inspectJournalRecords (bytes : List UInt8) : Except JournalCodecError JournalInspection :=
  if bytes.length > maxJournalFileBytes then .error ⟨0, .fileTooLarge⟩
  else inspectFrom maxJournalFrames [] 0 bytes

def decodeJournalRecords (bytes : List UInt8) : Except JournalCodecError (List JournalRecord) :=
  match inspectJournalRecords bytes with
  | .error error => .error error
  | .ok inspection =>
      if inspection.issue.isSome then .error ⟨inspection.records.length, .truncatedFrame⟩
      else .ok inspection.records

end DarkReNamer
