import DarkReNamer.Bytes.Checksum
import DarkReNamer.Rename.Journal.Codec.Stream

/-!
# One damaged bit

Every step of the checksum can be undone, so it detects each change of one byte of what
it covers. The payload length is covered too, but it is trusted before the checksum is
looked at: where a damaged length runs past the end of the file the frame counts as
torn, and the checksum is never compared. That is the only change of one bit that the
inspection takes for something else.
-/

namespace DarkReNamer

open Bytes

section Checksum

theorem toBitVec_crc32Round (crc : UInt32) : (crc32Round crc).toBitVec =
    crc.toBitVec >>> 1 ^^^ if crc.toBitVec.getLsbD 0 then 0xedb88320#32 else 0#32 := by
  have hmask : 0#32 - (crc.toBitVec &&& 1#32) =
      if crc.toBitVec.getLsbD 0 then BitVec.allOnes 32 else 0#32 := by
    rw [BitVec.and_one_eq_setWidth_ofBool_getLsbD]
    cases crc.toBitVec.getLsbD 0 <;> rfl
  have hround : (crc32Round crc).toBitVec =
      crc.toBitVec >>> 1 ^^^ (0xedb88320#32 &&& (0#32 - (crc.toBitVec &&& 1#32))) := by
    simp [crc32Round]
  rw [hround, hmask]
  cases crc.toBitVec.getLsbD 0
  · rfl
  · rfl

/-- The first bit of a round is the last bit of the word it started from, and the others
are shifted, so the word can be read off. -/
theorem crc32Round_injective : Function.Injective crc32Round := by
  intro a b h
  have hvec := congrArg UInt32.toBitVec h
  rw [toBitVec_crc32Round, toBitVec_crc32Round] at hvec
  have hfirst : ∀ x : BitVec 32,
      (x >>> 1 ^^^ if x.getLsbD 0 then 0xedb88320#32 else 0#32).getLsbD 31 = x.getLsbD 0 := by
    intro x
    cases hx : x.getLsbD 0 <;> simp
  have hbit : a.toBitVec.getLsbD 0 = b.toBitVec.getLsbD 0 := by
    rw [← hfirst, ← hfirst b.toBitVec, hvec]
  rw [hbit] at hvec
  have hshift : a.toBitVec >>> 1 = b.toBitVec >>> 1 := (BitVec.xor_left_inj _).1 hvec
  refine UInt32.toBitVec_inj.1 (BitVec.eq_of_getLsbD_eq fun i hi => ?_)
  cases i with
  | zero => exact hbit
  | succ i =>
      have hsame := congrArg (fun x : BitVec 32 => x.getLsbD i) hshift
      simpa [BitVec.getLsbD_ushiftRight, Nat.add_comm] using hsame

theorem crc32Byte_injective (byte : UInt8) :
    Function.Injective fun crc => crc32Byte crc byte := by
  intro a b h
  exact (UInt32.xor_left_inj _).1 (crc32Round_injective.iterate 8 h)

theorem crc32Byte_injective_byte (crc : UInt32) : Function.Injective (crc32Byte crc) := by
  intro a b h
  exact UInt8.toUInt32_inj.1 ((UInt32.xor_right_inj _).1 (crc32Round_injective.iterate 8 h))

theorem crc32Parts_pair (a b : List UInt8) :
    crc32Parts [a, b] = ~~~((a ++ b).foldl crc32Byte 0xffffffff) := by
  simp [crc32Parts]

/-- One changed byte changes the checksum. -/
theorem crc32Parts_ne_of_changed {a b a' b' before after : List UInt8} {x y : UInt8}
    (hxy : x ≠ y) (h : a ++ b = before ++ x :: after) (h' : a' ++ b' = before ++ y :: after) :
    (crc32Parts [a, b]).toNat ≠ (crc32Parts [a', b']).toNat := by
  rw [crc32Parts_pair, crc32Parts_pair, h, h']
  intro hsame
  exact foldl_ne_of_changed crc32Byte_injective crc32Byte_injective_byte hxy _
    (UInt32.not_inj.1 (UInt32.toNat_inj.1 hsame))

end Checksum

section Flip

/-- The byte with one bit changed. -/
def flipByte (byte : UInt8) (bit : ℕ) : UInt8 := byte ^^^ UInt8.ofNat (2 ^ bit)

/-- The bytes with one bit changed. -/
def flipBit (bytes : List UInt8) (offset bit : ℕ) : List UInt8 :=
  bytes.modify offset fun byte => flipByte byte bit

variable {bit : ℕ}

theorem flipByte_ne (byte : UInt8) (hbit : bit < 8) : byte ≠ flipByte byte bit := by
  have hmask : ∀ b < 8, UInt8.ofNat (2 ^ b) ≠ 0 := by decide
  intro h
  refine hmask bit hbit ((UInt8.xor_right_inj byte).1 ?_)
  rw [UInt8.xor_zero]
  exact h.symm

@[simp] theorem length_flipBit (bytes : List UInt8) (offset : ℕ) :
    (flipBit bytes offset bit).length = bytes.length := by
  simp [flipBit]

theorem flipBit_append_left {a : List UInt8} {offset : ℕ} (h : offset < a.length)
    (b : List UInt8) : flipBit (a ++ b) offset bit = flipBit a offset bit ++ b := by
  induction a generalizing offset with
  | nil => cases h
  | cons byte a ih =>
      cases offset with
      | zero => rfl
      | succ offset =>
          have hrest := ih (Nat.lt_of_succ_lt_succ h)
          rw [flipBit] at hrest ⊢
          rw [List.cons_append, List.modify_succ_cons, hrest]
          rfl

theorem flipBit_append_right {a : List UInt8} {offset : ℕ} (h : a.length ≤ offset)
    (b : List UInt8) : flipBit (a ++ b) offset bit = a ++ flipBit b (offset - a.length) bit := by
  induction a generalizing offset with
  | nil => rfl
  | cons byte a ih =>
      cases offset with
      | zero => cases h
      | succ offset =>
          have hrest := ih (Nat.le_of_succ_le_succ h)
          rw [flipBit] at hrest ⊢
          rw [List.cons_append, List.modify_succ_cons, hrest, List.length_cons,
            Nat.add_sub_add_right]
          rfl

/-- A change of one bit changes one byte. -/
theorem exists_flipBit_eq {bytes : List UInt8} {offset : ℕ} (h : offset < bytes.length)
    (hbit : bit < 8) : ∃ before x y after, x ≠ y ∧ bytes = before ++ x :: after ∧
      flipBit bytes offset bit = before ++ y :: after := by
  refine ⟨bytes.take offset, bytes[offset], _, bytes.drop (offset + 1), flipByte_ne _ hbit, ?_,
    List.modify_eq_take_cons_drop h⟩
  rw [List.getElem_cons_drop, List.take_append_drop]

theorem flipBit_ne {bytes : List UInt8} {offset : ℕ} (h : offset < bytes.length)
    (hbit : bit < 8) : flipBit bytes offset bit ≠ bytes := by
  obtain ⟨before, x, y, after, hxy, hbytes, hflip⟩ := exists_flipBit_eq h hbit
  rw [hflip, hbytes]
  intro hsame
  exact hxy (List.cons.inj (List.append_cancel_left hsame)).1.symm

end Flip

section Header

variable {h h' : FrameHeader} {offset bit : ℕ}

namespace FrameHeader

/-- The fields between the magic bytes and the payload length. -/
def start (h : FrameHeader) : List UInt8 := h.version ++ [h.kind, h.flags] ++ h.sequence

theorem length_start (h : FrameHeader) : h.start.length = 12 := by
  simp [start, h.length_version, h.length_sequence]

theorem fields_eq (h : FrameHeader) : h.fields = h.start ++ h.payloadLength := rfl

theorem bytes_eq (h : FrameHeader) :
    h.bytes = h.magic ++ (h.start ++ (h.payloadLength ++ h.checksum)) := by
  simp [bytes, fields_eq]

/-- The parts of a header can be read off its bytes. -/
theorem parts_eq {a b c d : List UInt8} (ha : a.length = 4) (hb : b.length = 12)
    (hc : c.length = 4) (hsame : h.bytes = a ++ (b ++ (c ++ d))) :
    h.magic = a ∧ h.start = b ∧ h.payloadLength = c ∧ h.checksum = d := by
  rw [bytes_eq] at hsame
  obtain ⟨hmagic, hsame⟩ := List.append_inj hsame (h.length_magic.trans ha.symm)
  obtain ⟨hstart, hsame⟩ := List.append_inj hsame (h.length_start.trans hb.symm)
  obtain ⟨hlength, hchecksum⟩ := List.append_inj hsame (h.length_payloadLength.trans hc.symm)
  exact ⟨hmagic, hstart, hlength, hchecksum⟩

theorem start_eq (hsame : h'.start = h.start) : h'.version = h.version ∧ h'.kind = h.kind ∧
    h'.flags = h.flags ∧ h'.sequence = h.sequence := by
  obtain ⟨hfront, hsequence⟩ := List.append_inj hsame
    (by simp [h.length_version, h'.length_version])
  obtain ⟨hversion, hbytes⟩ := List.append_inj hfront
    (h'.length_version.trans h.length_version.symm)
  simp only [List.cons.injEq, and_true] at hbytes
  exact ⟨hversion, hbytes.1, hbytes.2, hsequence⟩

/-- The part of a header in which one bit has changed. -/
inductive Damaged (h h' : FrameHeader) (offset : ℕ) : Prop where
  | magic (hto : offset < 16) (hne : h'.magic ≠ h.magic)
  | start (hto : offset < 16) (hne : ∃ before x y after, x ≠ y ∧ h.start = before ++ x :: after ∧
      h'.start = before ++ y :: after)
      (hlength : h'.payloadLength = h.payloadLength) (hchecksum : h'.checksum = h.checksum)
  | payloadLength (hfrom : 16 ≤ offset) (hto : offset < 20) (hmagic : h'.magic = h.magic)
      (hstart : h'.start = h.start) (hne : h'.payloadLength ≠ h.payloadLength)
  | checksum (hfrom : 20 ≤ offset) (hne : h'.checksum ≠ h.checksum)
      (hstart : h'.start = h.start) (hlength : h'.payloadLength = h.payloadLength)

/-- One changed bit of a header lies in one of its parts. -/
theorem exists_damaged (h : FrameHeader) (hoffset : offset < headerBytes) (hbit : bit < 8) :
    ∃ h' : FrameHeader, flipBit h.bytes offset bit = h'.bytes ∧ h.Damaged h' offset := by
  have hlong : headerBytes ≤ (flipBit h.bytes offset bit).length := by
    simp
  obtain ⟨h', body, hbytes⟩ := exists_eq_append hlong
  obtain rfl : body = [] := by
    have hlength := congrArg List.length hbytes
    simpa using hlength
  rw [List.append_nil] at hbytes
  refine ⟨h', hbytes, ?_⟩
  have hmagic := h.length_magic
  have hstart := h.length_start
  have hlength := h.length_payloadLength
  have hchecksum := h.length_checksum
  rw [headerBytes] at hoffset
  rw [bytes_eq] at hbytes
  by_cases h₁ : offset < 4
  · rw [flipBit_append_left (by omega)] at hbytes
    obtain ⟨hm, -⟩ := parts_eq (by simpa) hstart hlength hbytes.symm
    exact .magic (by omega) (hm ▸ flipBit_ne (by omega) hbit)
  rw [flipBit_append_right (by omega)] at hbytes
  by_cases h₂ : offset < 16
  · rw [flipBit_append_left (by omega)] at hbytes
    obtain ⟨-, hs, hl, hc⟩ := parts_eq hmagic (by simpa) hlength hbytes.symm
    exact .start (by omega) (hs ▸ exists_flipBit_eq (by omega) hbit) hl hc
  rw [flipBit_append_right (by omega)] at hbytes
  by_cases h₃ : offset < 20
  · rw [flipBit_append_left (by omega)] at hbytes
    obtain ⟨hm, hs, hl, -⟩ := parts_eq hmagic hstart (by simpa) hbytes.symm
    exact .payloadLength (by omega) h₃ hm hs (hl ▸ flipBit_ne (by omega) hbit)
  · rw [flipBit_append_right (by omega)] at hbytes
    obtain ⟨-, hs, hl, hc⟩ := parts_eq hmagic hstart hlength hbytes.symm
    exact .checksum (by omega) (hc ▸ flipBit_ne (by omega) hbit) hs hl

end FrameHeader

end Header

section Frame

variable {h h' : FrameHeader} {frame offset bit : ℕ} {record : JournalRecord}

/-- The offset is in the payload length of the frame in front, and the payload of that
length, which is allowed, goes past the end. -/
structure Outruns (bytes : List UInt8) (offset : ℕ) : Prop where
  from_le : 16 ≤ offset
  lt_to : offset < 20
  fits : readLe (slice bytes 16 20) ≤ maxJournalFrameBytes
  past : bytes.length < headerBytes + readLe (slice bytes 16 20)

theorem FrameHeader.slice_payloadLength (h : FrameHeader) (body : List UInt8) :
    slice (h.bytes ++ body) 16 20 = h.payloadLength := by
  have hfront : (h.magic ++ h.start).length = 16 := by
    rw [List.length_append, h.length_magic, h.length_start]
  have hbytes : h.bytes ++ body =
      (h.magic ++ h.start) ++ (h.payloadLength ++ (h.checksum ++ body)) := by
    simp [h.bytes_eq]
  rw [slice, hbytes, ← hfront, List.drop_left, hfront, List.take_left' h.length_payloadLength]

theorem FrameHeader.outruns_iff (h : FrameHeader) (body : List UInt8) :
    Outruns (h.bytes ++ body) offset ↔ (16 ≤ offset ∧ offset < 20) ∧
      readLe h.payloadLength ≤ maxJournalFrameBytes ∧
        body.length < readLe h.payloadLength := by
  constructor
  · rintro ⟨hfrom, hto, hfits, hpast⟩
    rw [h.slice_payloadLength] at hfits hpast
    rw [List.length_append, h.length_bytes] at hpast
    exact ⟨⟨hfrom, hto⟩, hfits, by omega⟩
  · rintro ⟨⟨hfrom, hto⟩, hfits, hpast⟩
    refine ⟨hfrom, hto, ?_, ?_⟩
    · rwa [h.slice_payloadLength]
    · rw [h.slice_payloadLength, List.length_append, h.length_bytes]
      omega

/-- A damaged header is never followed by a complete frame. -/
theorem FrameHeader.Damaged.read_ne_complete
    (hdamaged : (frameHeader frame record).Damaged h' offset) (hstorable : record.Storable)
    {rest rest' : List UInt8} {record' : JournalRecord} :
    h'.read frame (record.payload ++ rest) ≠ .ok (.complete record' rest') := by
  intro hread
  obtain ⟨hmagic, -, -, -, henough, hchecksum, hrecord, -⟩ := read_eq_complete hread
  have hlength : readLe (frameHeader frame record).payloadLength = record.payload.length :=
    readLe_leBytes (lt_of_le_of_lt hstorable.payload_le (by decide))
  have hwritten : readLe (frameHeader frame record).checksum =
      (crc32Parts [(frameHeader frame record).fields, record.payload]).toNat :=
    readLe_leBytes (UInt32.toNat_lt _)
  cases hdamaged with
  | magic _ hne => exact hne hmagic
  | start _ hne hsame hsum =>
      obtain ⟨before, x, y, after, hxy, hold, hnew⟩ := hne
      rw [hsame, hlength, List.take_left, hsum, hwritten] at hchecksum
      have hold' : (frameHeader frame record).fields ++ record.payload = before ++ x ::
          (after ++ (frameHeader frame record).payloadLength ++ record.payload) := by
        rw [fields_eq, hold]
        simp
      refine crc32Parts_ne_of_changed hxy hold' ?_ hchecksum
      rw [fields_eq, hnew, hsame]
      simp
  | payloadLength _ _ _ hstart hne =>
      -- no payload of a record is a proper prefix of another one's
      obtain ⟨hversion, hkind, -, -⟩ := start_eq hstart
      have hcurrent : readLe h'.version = DarkReNamer.version := by
        rw [hversion]
        exact readLe_leBytes (by decide)
      rw [hcurrent] at hrecord
      obtain ⟨hkind', hformed', hpayload'⟩ := decodeRecord_eq_ok_iff.1 hrecord
      have hrest : record'.payload ++ (record.payload ++ rest).drop (readLe h'.payloadLength) =
          record.payload ++ rest := by
        rw [← hpayload', List.take_append_drop]
      have hparses : Parses (decodeFields h'.kind frame DarkReNamer.version) _ :=
        parses_decodeFields h'.kind
      obtain ⟨-, hpayload, -⟩ := hparses.unique ⟨hkind', hformed', rfl⟩
        ⟨hkind, hstorable.formed, rfl⟩ hrest
      refine hne ((eq_leBytes_iff ?_ h'.length_payloadLength).2 ?_)
      · exact lt_of_le_of_lt hstorable.payload_le (by decide)
      · rw [← hpayload, ← hpayload', List.length_take, Nat.min_eq_left henough]
  | checksum _ hne hstart hsame =>
      have hfields : h'.fields = (frameHeader frame record).fields := by
        rw [fields_eq, fields_eq, hstart, hsame]
      rw [hsame, hlength, List.take_left, hfields, ← hwritten] at hchecksum
      refine hne ?_
      rw [← leBytes_readLe h'.checksum, hchecksum, h'.length_checksum,
        ← (frameHeader frame record).length_checksum, leBytes_readLe]

/-- A damaged header is followed by a torn frame in one case only. -/
theorem FrameHeader.Damaged.torn (hdamaged : (frameHeader frame record).Damaged h' offset)
    (hstorable : record.Storable) {rest : List UInt8} {issue : JournalTailIssue}
    (hread : h'.read frame (record.payload ++ rest) = .ok (.torn issue)) :
    Outruns (h'.bytes ++ (record.payload ++ rest)) offset := by
  have hlength : readLe (frameHeader frame record).payloadLength = record.payload.length :=
    readLe_leBytes (lt_of_le_of_lt hstorable.payload_le (by decide))
  unfold FrameHeader.read at hread
  split_ifs at hread with hmagic hversion hkind hflags hsequence hlarge hshort hchecksum
  · have hgrown : readLe h'.payloadLength ≠ record.payload.length := by
      rw [List.length_append] at hshort
      omega
    cases hdamaged with
    | magic _ hne => exact absurd hmagic (not_not.2 hne)
    | start _ _ hsame _ => exact absurd (hsame ▸ hlength) hgrown
    | payloadLength hfrom hto =>
        exact (outruns_iff _ _).2 ⟨⟨hfrom, hto⟩, Nat.not_lt.1 hlarge, hshort⟩
    | checksum _ _ _ hsame => exact absurd (hsame ▸ hlength) hgrown
  · obtain ⟨_, _, hne⟩ := map_eq_ok_iff.1 hread
    cases hne

/-- A payload length that goes past the end passes every check in front of the payload. -/
theorem FrameHeader.Damaged.read_eq_torn
    (hdamaged : (frameHeader frame record).Damaged h' offset) (hframe : frame < 2 ^ 64)
    {body : List UInt8} (houtruns : Outruns (h'.bytes ++ body) offset) :
    h'.read frame body = .ok (.torn .truncatedPayload) := by
  obtain ⟨⟨hfrom, hto⟩, hfits, hpast⟩ := (outruns_iff _ _).1 houtruns
  cases hdamaged with
  | magic hlt => omega
  | start hlt => omega
  | payloadLength _ _ hmagic hstart =>
      obtain ⟨hversion, hkind, hflags, hsequence⟩ := start_eq hstart
      have hmagic : h'.magic = DarkReNamer.magic := hmagic
      have hkind : h'.kind = record.kindByte := hkind
      have hflags : h'.flags = flagsNone := hflags
      have hcurrent : readLe h'.version = DarkReNamer.version := by
        rw [hversion]
        exact readLe_leBytes (by decide)
      have hnumber : readLe h'.sequence = frame := by
        rw [hsequence]
        exact readLe_leBytes hframe
      rw [FrameHeader.read, if_neg (not_not.2 hmagic), if_neg (by simp [hcurrent]),
        if_neg (hkind ▸ record.kindByte_mem), if_neg (not_not.2 hflags),
        if_neg (not_not.2 hnumber), if_neg (Nat.not_lt.2 hfits), if_pos hpast]
  | checksum hge => omega

/-- What is read of the encoder's frame after one bit of it has changed. -/
theorem readFrame_flipBit (hstorable : record.Storable) (hframe : frame < 2 ^ 64)
    (hoffset : offset < (frameBytes frame record).length) (hbit : bit < 8)
    (rest : List UInt8) :
    readFrame frame (flipBit (frameBytes frame record ++ rest) offset bit) =
        .ok (.torn .truncatedPayload) ∧
      Outruns (flipBit (frameBytes frame record ++ rest) offset bit) offset ∨
    (∃ error, readFrame frame (flipBit (frameBytes frame record ++ rest) offset bit) =
        .error error) ∧
      ¬ Outruns (flipBit (frameBytes frame record ++ rest) offset bit) offset := by
  rw [length_frameBytes] at hoffset
  rw [frameBytes, List.append_assoc]
  by_cases hheader : offset < headerBytes
  · obtain ⟨h', hflip, hdamaged⟩ := (frameHeader frame record).exists_damaged hheader hbit
    rw [flipBit_append_left (by simpa using hheader), hflip, FrameHeader.readFrame_append]
    by_cases houtruns : Outruns (h'.bytes ++ (record.payload ++ rest)) offset
    · exact .inl ⟨hdamaged.read_eq_torn hframe houtruns, houtruns⟩
    · refine .inr ⟨?_, houtruns⟩
      cases hread : h'.read frame (record.payload ++ rest) with
      | error error => exact ⟨error, rfl⟩
      | ok result =>
          cases result with
          | torn issue => exact absurd (hdamaged.torn hstorable hread) houtruns
          | complete record' rest' => exact absurd hread (hdamaged.read_ne_complete hstorable)
  · have hpayload : offset - headerBytes < record.payload.length := by omega
    obtain ⟨before, x, y, after, hxy, hold, hnew⟩ := exists_flipBit_eq hpayload hbit
    rw [flipBit_append_right (by simpa using hheader), FrameHeader.length_bytes,
      flipBit_append_left hpayload, FrameHeader.readFrame_append,
      frameHeader_read hstorable hframe, if_neg (by simp), List.take_left' (by simp), if_pos]
    · refine .inr ⟨⟨_, rfl⟩, fun houtruns => hheader ?_⟩
      exact houtruns.lt_to.trans (by decide)
    · have hold' : headerFields record.kindByte frame record.payload.length ++ record.payload =
          (headerFields record.kindByte frame record.payload.length ++ before) ++ x :: after := by
        rw [List.append_assoc, ← hold]
      refine crc32Parts_ne_of_changed hxy hold' ?_
      rw [List.append_assoc, ← hnew]

end Frame

section Journal

variable {records : List JournalRecord} {bytes : List UInt8} {offset bit : ℕ}

/-- The offset is in the payload length of a frame behind the first one, and the payload
of that length, which is allowed, goes past the end. -/
def RunsPastEnd (records : List JournalRecord) (bytes : List UInt8) (offset : ℕ) : Prop :=
  ∃ front record back frontBytes, records = front ++ record :: back ∧ front ≠ [] ∧
    encodeJournalRecords front = .ok frontBytes ∧ frontBytes.length ≤ offset ∧
      Outruns (bytes.drop frontBytes.length) (offset - frontBytes.length)

/-- The inspection fails, or it returns the records and no issue. -/
def Detected (records : List JournalRecord)
    (result : Except JournalCodecError JournalInspection) : Prop :=
  (∃ error, result = .error error) ∨ ∃ validBytes, result = .ok ⟨records, none, validBytes⟩

/-- The inspection of a journal with one changed bit in the frame of `record`. -/
theorem inspectJournalRecords_flipBit {front back : List JournalRecord} {record : JournalRecord}
    (hencode : encodeJournalRecords (front ++ record :: back) = .ok bytes)
    (hfrom : (streamBytes 0 front).length ≤ offset)
    (hto : offset - (streamBytes 0 front).length < (frameBytes front.length record).length)
    (hbit : bit < 8) :
    inspectJournalRecords (flipBit bytes offset bit) =
        finishInspection front (some .truncatedPayload) (streamBytes 0 front).length ∧
      Outruns ((flipBit bytes offset bit).drop (streamBytes 0 front).length)
        (offset - (streamBytes 0 front).length) ∨
    (∃ error, inspectJournalRecords (flipBit bytes offset bit) = .error error) ∧
      ¬ Outruns ((flipBit bytes offset bit).drop (streamBytes 0 front).length)
        (offset - (streamBytes 0 front).length) := by
  obtain ⟨hfew, hrecords, rfl, hfits⟩ := encodeJournalRecords_eq_ok_iff.1 hencode
  rw [List.length_append, List.length_cons] at hfew
  have hflip : flipBit (streamBytes 0 (front ++ record :: back)) offset bit =
      streamBytes 0 front ++ flipBit (frameBytes front.length record ++
        streamBytes (front.length + 1) back) (offset - (streamBytes 0 front).length) bit := by
    rw [streamBytes_append, Nat.zero_add, flipBit_append_right hfrom, streamBytes]
  have hstorable : record.Storable := hrecords record (by simp)
  have hlength : (flipBit (streamBytes 0 (front ++ record :: back)) offset bit).length ≤
      maxJournalFileBytes := by
    rwa [length_flipBit]
  rw [hflip] at hlength ⊢
  rw [List.drop_left, inspectJournalRecords_stream
    (fun r hr => hrecords r (List.mem_append_left _ hr)) (by omega) hlength]
  obtain ⟨budget, hbudget⟩ : ∃ budget, maxJournalFrames - front.length = budget + 1 :=
    ⟨maxJournalFrames - front.length - 1, by omega⟩
  have hne : flipBit (frameBytes front.length record ++ streamBytes (front.length + 1) back)
      (offset - (streamBytes 0 front).length) bit ≠ [] := by
    rw [← List.length_pos_iff, length_flipBit, List.length_append]
    omega
  rw [hbudget, inspectFrom, if_neg hne]
  rcases readFrame_flipBit hstorable (lt_two_pow_of_le_maxJournalFrames (by omega)) hto hbit
    (streamBytes (front.length + 1) back) with ⟨hread, houtruns⟩ | ⟨⟨error, hread⟩, houtruns⟩
  · exact .inl ⟨by rw [hread], houtruns⟩
  · exact .inr ⟨⟨error, by rw [hread]⟩, houtruns⟩

/-- One changed bit is detected unless it makes a payload length run past the end of the
file: then the records in front of the frame are returned as a journal with a torn tail. -/
theorem inspectJournalRecords_detects (hencode : encodeJournalRecords records = .ok bytes)
    (hreplay : (replayJournal records).isCorrupt = false) (hoffset : offset < bytes.length)
    (hbit : bit < 8) : Detected records (inspectJournalRecords (flipBit bytes offset bit)) ↔
      ¬ RunsPastEnd records (flipBit bytes offset bit) offset := by
  obtain ⟨hfew, hrecords, rfl, hfits⟩ := encodeJournalRecords_eq_ok_iff.1 hencode
  constructor
  · rintro hdetected ⟨front, record, back, frontBytes, rfl, hfront, hfrontEncode, hfrom, houtruns⟩
    obtain ⟨-, -, rfl, -⟩ := encodeJournalRecords_eq_ok_iff.1 hfrontEncode
    have hto : offset - (streamBytes 0 front).length < (frameBytes front.length record).length := by
      rw [length_frameBytes, headerBytes]
      have := houtruns.lt_to
      omega
    rcases inspectJournalRecords_flipBit hencode hfrom hto hbit with
      ⟨hinspect, -⟩ | ⟨-, hnot⟩
    · rw [hinspect, finishInspection_eq_ok (.inr hfront)
        (isCorrupt_replayJournal_of_append hreplay)] at hdetected
      rcases hdetected with ⟨_, hsame⟩ | ⟨_, hsame⟩
      · cases hsame
      · simp at hsame
    · exact hnot houtruns
  · intro hend
    obtain ⟨front, back, rfl, hfrom, hback⟩ := exists_cutAt hoffset.le
    cases back with
    | nil =>
        rw [List.append_nil] at hoffset
        exact absurd hfrom (Nat.not_le.2 hoffset)
    | cons record back =>
        rw [CutInside, Nat.zero_add] at hback
        have hfrontEncode := (encodeJournalRecords_take hencode front.length).1
        rw [List.take_left] at hfrontEncode
        rcases inspectJournalRecords_flipBit hencode hfrom hback hbit with
          ⟨hinspect, houtruns⟩ | ⟨herror, -⟩
        · by_cases hfront : front = []
          · subst hfront
            exact .inl ⟨_, by rw [hinspect]; rfl⟩
          · exact absurd ⟨front, record, back, _, rfl, hfront, hfrontEncode, hfrom, houtruns⟩
              hend
        · exact .inl herror

/-- A damaged bit of the magic bytes. -/
theorem inspectJournalRecords_detects_sample : ∃ bytes,
    encodeJournalRecords sampleRecords = .ok bytes ∧
      Detected sampleRecords (inspectJournalRecords (flipBit bytes 0 0)) := by
  obtain ⟨bytes, hencode, hlength⟩ := encode_sampleRecords
  refine ⟨bytes, hencode, (inspectJournalRecords_detects hencode replay_sampleRecords ?_
    (by decide)).2 ?_⟩
  · omega
  · rintro ⟨_, _, _, frontBytes, -, -, -, -, houtruns⟩
    have hfrom := houtruns.from_le
    omega

/-- A damaged bit in the payload length of the second frame, and three records are lost. -/
theorem inspectJournalRecords_loses_records : ∃ bytes,
    encodeJournalRecords sampleRecords = .ok bytes ∧
      (replayJournal sampleRecords).isCorrupt = false ∧ 155 < bytes.length ∧
      inspectJournalRecords (flipBit bytes 155 7) =
        .ok ⟨sampleRecords.take 1, some .truncatedPayload, 139⟩ ∧
      ¬ Detected sampleRecords (inspectJournalRecords (flipBit bytes 155 7)) := by
  obtain ⟨bytes, hencode, hlength⟩ := encode_sampleRecords
  have hinspect : inspectJournalRecords (flipBit bytes 155 7) =
      .ok ⟨sampleRecords.take 1, some .truncatedPayload, 139⟩ := by
    have hrun : (encodeJournalRecords sampleRecords).toOption.bind (fun bytes =>
        (inspectJournalRecords (flipBit bytes 155 7)).toOption) =
          some ⟨sampleRecords.take 1, some .truncatedPayload, 139⟩ := by
      decide +kernel
    rw [hencode] at hrun
    cases h : inspectJournalRecords (flipBit bytes 155 7) with
    | error error =>
        simp [h, Except.toOption] at hrun
    | ok inspection =>
        simp only [h, Except.toOption, Option.bind_some, Option.some.injEq] at hrun
        rw [hrun]
  refine ⟨bytes, hencode, replay_sampleRecords, by omega, hinspect, ?_⟩
  rw [hinspect]
  rintro (⟨_, hsame⟩ | ⟨_, hsame⟩)
  · cases hsame
  · simp at hsame

end Journal

end DarkReNamer
