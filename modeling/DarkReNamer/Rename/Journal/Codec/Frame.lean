import DarkReNamer.Rename.Journal.Codec.Format

/-!
# The bytes of a frame

A header of 24 bytes is cut into its fields once (`FrameHeader`), and `readFrame` is
rewritten as a function of them. The frames of the current version that the inspection
accepts are exactly the ones the encoder writes, and every proper prefix of one is torn.
-/

namespace DarkReNamer

open Bytes

/-- The fields of a header, as bytes. -/
structure FrameHeader where
  magic : List UInt8
  version : List UInt8
  kind : UInt8
  flags : UInt8
  sequence : List UInt8
  payloadLength : List UInt8
  checksum : List UInt8
  length_magic : magic.length = 4
  length_version : version.length = 2
  length_sequence : sequence.length = 8
  length_payloadLength : payloadLength.length = 4
  length_checksum : checksum.length = 4

namespace FrameHeader

/-- The fields that the checksum covers. -/
def fields (h : FrameHeader) : List UInt8 :=
  h.version ++ [h.kind, h.flags] ++ h.sequence ++ h.payloadLength

def bytes (h : FrameHeader) : List UInt8 := h.magic ++ h.fields ++ h.checksum

@[simp] theorem length_bytes (h : FrameHeader) : h.bytes.length = headerBytes := by
  simp [bytes, fields, h.length_magic, h.length_version, h.length_sequence,
    h.length_payloadLength, h.length_checksum, headerBytes]

theorem exists_front {count rest : ℕ} {bytes : List UInt8} (h : count + rest ≤ bytes.length) :
    ∃ front back, front.length = count ∧ rest ≤ back.length ∧ bytes = front ++ back := by
  refine ⟨bytes.take count, bytes.drop count, ?_, ?_, (List.take_append_drop _ _).symm⟩
  · rw [List.length_take]
    omega
  · rw [List.length_drop]
    omega

/-- Every list that is long enough starts with a header. -/
theorem exists_eq_append {bytes : List UInt8} (h : headerBytes ≤ bytes.length) :
    ∃ (header : FrameHeader) (body : List UInt8), bytes = header.bytes ++ body := by
  obtain ⟨magic, _, hmagic, h₁, rfl⟩ := exists_front (show 4 + 20 ≤ bytes.length from h)
  obtain ⟨version, _, hversion, h₂, rfl⟩ := exists_front (show 2 + 18 ≤ _ from h₁)
  obtain ⟨kind, _, hkind, h₃, rfl⟩ := exists_front (show 1 + 17 ≤ _ from h₂)
  obtain ⟨flags, _, hflags, h₄, rfl⟩ := exists_front (show 1 + 16 ≤ _ from h₃)
  obtain ⟨sequence, _, hsequence, h₅, rfl⟩ := exists_front (show 8 + 8 ≤ _ from h₄)
  obtain ⟨payloadLength, _, hlength, h₆, rfl⟩ := exists_front (show 4 + 4 ≤ _ from h₅)
  obtain ⟨checksum, body, hchecksum, -, rfl⟩ := exists_front (show 4 + 0 ≤ _ from h₆)
  obtain ⟨kind, rfl⟩ := List.length_eq_one_iff.1 hkind
  obtain ⟨flags, rfl⟩ := List.length_eq_one_iff.1 hflags
  exact ⟨⟨magic, version, kind, flags, sequence, payloadLength, checksum, hmagic, hversion,
    hsequence, hlength, hchecksum⟩, body, by simp [FrameHeader.bytes, fields]⟩

/-- What is read behind a header. -/
def read (h : FrameHeader) (frame : ℕ) (body : List UInt8) :
    Except JournalCodecError FrameRead :=
  if h.magic ≠ DarkReNamer.magic then .error ⟨frame, .invalidMagic⟩
  else if readLe h.version ≠ legacyVersion ∧ readLe h.version ≠ DarkReNamer.version then
    .error ⟨frame, .unsupportedVersion⟩
  else if h.kind < 1 ∨ h.kind > 5 then .error ⟨frame, .unknownRecordKind⟩
  else if h.flags ≠ flagsNone then .error ⟨frame, .invalidFlags⟩
  else if readLe h.sequence ≠ frame then .error ⟨frame, .sequenceMismatch⟩
  else if readLe h.payloadLength > maxJournalFrameBytes then .error ⟨frame, .frameTooLarge⟩
  else if body.length < readLe h.payloadLength then .ok (.torn .truncatedPayload)
  else if readLe h.checksum ≠
      (crc32Parts [h.fields, body.take (readLe h.payloadLength)]).toNat then
    .error ⟨frame, .checksumMismatch⟩
  else
    (decodeRecord h.kind (body.take (readLe h.payloadLength)) frame (readLe h.version)).map
      fun record => .complete record (body.drop (readLe h.payloadLength))

theorem slice_body (h : FrameHeader) (body : List UInt8) (count : ℕ) :
    slice (h.bytes ++ body) headerBytes (headerBytes + count) = body.take count := by
  rw [slice, ← h.length_bytes, List.drop_left, Nat.add_sub_cancel_left]

theorem readFrame_append (h : FrameHeader) (frame : ℕ) (body : List UInt8) :
    readFrame frame (h.bytes ++ body) = h.read frame body := by
  have hheader : slice (h.bytes ++ body) 0 headerBytes = h.bytes := by
    rw [slice, List.drop_zero, Nat.sub_zero, ← h.length_bytes, List.take_left]
  have hdrop : ∀ count, (h.bytes ++ body).drop (headerBytes + count) = body.drop count := by
    intro count
    rw [← List.drop_drop, ← h.length_bytes, List.drop_left]
  have hpayload : ∀ count, (body.take count).length < count ↔ body.length < count := by
    intro count
    rw [List.length_take]
    omega
  unfold readFrame
  simp only [hheader, slice_body, hdrop, hpayload, length_bytes, lt_irrefl, if_false]
  obtain ⟨m, v, k, f, s, l, c, hm, hv, hs, hl, hc⟩ := h
  match m, v, s, l, c, hm, hv, hs, hl, hc with
  | [_, _, _, _], [_, _], [_, _, _, _, _, _, _, _], [_, _, _, _], [_, _, _, _], _, _, _, _, _ => rfl

end FrameHeader

theorem readFrame_short {bytes : List UInt8} {frame : ℕ} (h : bytes.length < headerBytes) :
    readFrame frame bytes = .ok (.torn .truncatedHeader) := by
  have hslice : (slice bytes 0 headerBytes).length < headerBytes := by
    rw [slice, List.drop_zero, Nat.sub_zero, List.length_take]
    omega
  unfold readFrame
  simp only [hslice, if_true]

/-- The header that the encoder writes. -/
def frameHeader (sequence : ℕ) (record : JournalRecord) : FrameHeader where
  magic := magic
  version := leBytes 2 version
  kind := record.kindByte
  flags := flagsNone
  sequence := leBytes 8 sequence
  payloadLength := leBytes 4 record.payload.length
  checksum := leBytes 4 (crc32Parts
    [headerFields record.kindByte sequence record.payload.length, record.payload]).toNat
  length_magic := rfl
  length_version := length_leBytes _ _
  length_sequence := length_leBytes _ _
  length_payloadLength := length_leBytes _ _
  length_checksum := length_leBytes _ _

def frameBytes (sequence : ℕ) (record : JournalRecord) : List UInt8 :=
  (frameHeader sequence record).bytes ++ record.payload

theorem length_frameBytes (sequence : ℕ) (record : JournalRecord) :
    (frameBytes sequence record).length = headerBytes + record.payload.length := by
  rw [frameBytes, List.length_append, FrameHeader.length_bytes]

theorem frameBytes_ne_nil (sequence : ℕ) (record : JournalRecord) :
    frameBytes sequence record ≠ [] := by
  intro h
  have hlength := length_frameBytes sequence record
  rw [h, headerBytes, List.length_nil] at hlength
  omega

/-- The encoder writes the frames of the records that fit. -/
theorem encodeFrame_eq_ok_iff {sequence frame : ℕ} {record : JournalRecord}
    {result : List UInt8} : encodeFrame sequence record frame = .ok result ↔
      record.Storable ∧ result = frameBytes sequence record := by
  simp only [encodeFrame, bind_eq_ok_iff]
  constructor
  · rintro ⟨⟨kind, payload⟩, hrecord, hframe⟩
    dsimp only at hframe
    split_ifs at hframe with hlarge hwide
    obtain ⟨hstorable, hsame⟩ := encodeRecord_eq_ok_iff.1 ⟨hrecord, Nat.not_lt.1 hlarge⟩
    obtain ⟨rfl, rfl⟩ := Prod.mk.inj hsame
    obtain rfl := Except.ok.inj hframe
    exact ⟨hstorable, rfl⟩
  · rintro ⟨hstorable, rfl⟩
    obtain ⟨hrecord, hfits⟩ : encodeRecord record frame = .ok (record.kindByte, record.payload) ∧
        record.payload.length ≤ maxJournalFrameBytes :=
      encodeRecord_eq_ok_iff.2 ⟨hstorable, rfl⟩
    have hwide : ¬ record.payload.length ≥ 2 ^ 32 :=
      Nat.not_le.2 (lt_of_le_of_lt hfits (by decide))
    refine ⟨_, hrecord, ?_⟩
    dsimp only
    rw [if_neg (Nat.not_lt.2 hfits), if_neg hwide]
    rfl

namespace FrameHeader

theorem ext_fields {h h' : FrameHeader} (hmagic : h.magic = h'.magic)
    (hversion : h.version = h'.version) (hkind : h.kind = h'.kind) (hflags : h.flags = h'.flags)
    (hsequence : h.sequence = h'.sequence) (hlength : h.payloadLength = h'.payloadLength)
    (hchecksum : h.checksum = h'.checksum) : h = h' := by
  cases h
  cases h'
  simp_all

/-- Everything that a complete frame has passed. -/
theorem read_eq_complete {h : FrameHeader} {frame : ℕ} {body rest : List UInt8}
    {record : JournalRecord} (hread : h.read frame body = .ok (.complete record rest)) :
    h.magic = DarkReNamer.magic ∧ h.flags = flagsNone ∧ readLe h.sequence = frame ∧
      readLe h.payloadLength ≤ maxJournalFrameBytes ∧
      readLe h.payloadLength ≤ body.length ∧
      readLe h.checksum =
        (crc32Parts [h.fields, body.take (readLe h.payloadLength)]).toNat ∧
      decodeRecord h.kind (body.take (readLe h.payloadLength)) frame (readLe h.version) =
        .ok record ∧
      rest = body.drop (readLe h.payloadLength) := by
  unfold read at hread
  split_ifs at hread with hmagic hversion hkind hflags hsequence hlarge hshort hchecksum
  · cases hread
  obtain ⟨found, hrecord, hsame⟩ := map_eq_ok_iff.1 hread
  obtain ⟨rfl, rfl⟩ := FrameRead.complete.inj hsame
  exact ⟨not_not.1 hmagic, not_not.1 hflags, not_not.1 hsequence, Nat.not_lt.1 hlarge,
    Nat.not_lt.1 hshort, not_not.1 hchecksum, hrecord, rfl⟩

/-- A complete frame of the current version is one that the encoder writes. -/
theorem eq_frameHeader {h : FrameHeader} {frame : ℕ} {body rest : List UInt8}
    {record : JournalRecord} (hread : h.read frame body = .ok (.complete record rest))
    (hversion : readLe h.version = DarkReNamer.version) (hframe : frame < 2 ^ 64) :
    record.Storable ∧ h = frameHeader frame record ∧ body = record.payload ++ rest := by
  obtain ⟨hmagic, hflags, hsequence, hfits, henough, hchecksum, hrecord, rfl⟩ :=
    read_eq_complete hread
  rw [hversion] at hrecord
  obtain ⟨hkind, hformed, hpayload⟩ := decodeRecord_eq_ok_iff.1 hrecord
  have hlength : record.payload.length = readLe h.payloadLength := by
    rw [← hpayload, List.length_take, Nat.min_eq_left henough]
  have hversionBytes : h.version = leBytes 2 DarkReNamer.version :=
    (eq_leBytes_iff (by decide) h.length_version).2 hversion
  have hsequenceBytes : h.sequence = leBytes 8 frame :=
    (eq_leBytes_iff hframe h.length_sequence).2 hsequence
  have hlengthBytes : h.payloadLength = leBytes 4 record.payload.length := by
    refine (eq_leBytes_iff ?_ h.length_payloadLength).2 hlength.symm
    rw [hlength]
    exact lt_of_le_of_lt hfits (by decide)
  have hfields : h.fields = headerFields record.kindByte frame record.payload.length := by
    rw [fields, headerFields, hversionBytes, hkind, hflags, hsequenceBytes, hlengthBytes]
  refine ⟨⟨hformed, hlength.trans_le hfits⟩, ext_fields hmagic hversionBytes hkind hflags
    hsequenceBytes hlengthBytes ?_, ?_⟩
  · refine (eq_leBytes_iff (UInt32.toNat_lt _) h.length_checksum).2 ?_
    rw [hchecksum, hfields, hpayload]
  · rw [← hpayload, List.take_append_drop]

end FrameHeader

section Read

variable {frame : ℕ} {record : JournalRecord}

theorem frameHeader_read (hstorable : record.Storable) (hframe : frame < 2 ^ 64)
    (body : List UInt8) : (frameHeader frame record).read frame body =
      if body.length < record.payload.length then .ok (.torn .truncatedPayload)
      else if (crc32Parts [headerFields record.kindByte frame record.payload.length,
          record.payload]).toNat ≠ (crc32Parts [headerFields record.kindByte frame
            record.payload.length, body.take record.payload.length]).toNat then
        .error ⟨frame, .checksumMismatch⟩
      else
        (decodeRecord record.kindByte (body.take record.payload.length) frame version).map
          fun record' => .complete record' (body.drop record.payload.length) := by
  have hlength : readLe (leBytes 4 record.payload.length) = record.payload.length :=
    readLe_leBytes (lt_of_le_of_lt hstorable.payload_le (by decide))
  have hversion : readLe (leBytes 2 version) = version := readLe_leBytes (by decide)
  have hsequence : readLe (leBytes 8 frame) = frame := readLe_leBytes hframe
  have hchecksum : ∀ crc : UInt32, readLe (leBytes 4 crc.toNat) = crc.toNat := fun crc =>
    readLe_leBytes crc.toNat_lt
  unfold FrameHeader.read
  rw [if_neg (by simp [frameHeader]), if_neg (by simp [frameHeader, hversion]),
    if_neg (c := (frameHeader frame record).kind < 1 ∨ (frameHeader frame record).kind > 5)
      record.kindByte_mem, if_neg (by simp [frameHeader]),
    if_neg (by simp [frameHeader, hsequence]),
    if_neg (by simpa [frameHeader, hlength] using hstorable.payload_le)]
  simp only [frameHeader, hlength, hversion, hchecksum]
  rfl

/-- The encoder's frame is read back, and what follows it is left. -/
theorem readFrame_frameBytes (hstorable : record.Storable) (hframe : frame < 2 ^ 64)
    (rest : List UInt8) :
    readFrame frame (frameBytes frame record ++ rest) = .ok (.complete record rest) := by
  have hrecord : decodeRecord record.kindByte record.payload frame version = .ok record :=
    decodeRecord_eq_ok_iff.2 ⟨rfl, hstorable.formed, rfl⟩
  rw [frameBytes, List.append_assoc, FrameHeader.readFrame_append,
    frameHeader_read hstorable hframe, if_neg (by simp), List.take_left, List.drop_left,
    if_neg (by simp), hrecord]
  rfl

/-- A proper prefix of a frame is torn in its header or in its payload. -/
theorem readFrame_take (hstorable : record.Storable) (hframe : frame < 2 ^ 64) {count : ℕ}
    (hcount : count < (frameBytes frame record).length) :
    readFrame frame ((frameBytes frame record).take count) =
      .ok (.torn (if count < headerBytes then .truncatedHeader else .truncatedPayload)) := by
  rw [length_frameBytes] at hcount
  split
  · next hshort =>
      refine readFrame_short ?_
      rw [List.length_take]
      omega
  · next hlong =>
      have htake : (frameBytes frame record).take count = (frameHeader frame record).bytes ++
          record.payload.take (count - headerBytes) := by
        rw [frameBytes, List.take_append, FrameHeader.length_bytes, List.take_of_length_le]
        rw [FrameHeader.length_bytes]
        omega
      rw [htake, FrameHeader.readFrame_append, frameHeader_read hstorable hframe, if_pos]
      rw [List.length_take]
      omega

end Read

end DarkReNamer
