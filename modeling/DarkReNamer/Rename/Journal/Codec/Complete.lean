import DarkReNamer.Rename.Journal.Codec.Stream

/-!
# Complete frames of either version

A journal that was opened may begin with frames of the legacy version and go on with frames
that were appended to it, so its bytes need not be those the encoder writes for its records.
`Frames index bytes records`: the bytes are complete frames of the records, each taken off by
the inspection whatever follows it. Such bytes can be appended to one another, and the
inspection accepts exactly them, with at most one torn frame behind.
-/

namespace DarkReNamer

/-- The bytes are one complete frame, whatever follows them. -/
structure IsFrame (index : ℕ) (front : List UInt8) (record : JournalRecord) : Prop where
  ne_nil : front ≠ []
  read : ∀ rest, readFrame index (front ++ rest) = .ok (.complete record rest)

/-- The bytes are complete frames of the records, numbered from `index` on. -/
inductive Frames : ℕ → List UInt8 → List JournalRecord → Prop where
  | nil (index : ℕ) : Frames index [] []
  | cons {index : ℕ} {front bytes : List UInt8} {record : JournalRecord}
      {records : List JournalRecord} (first : IsFrame index front record)
      (rest : Frames (index + 1) bytes records) : Frames index (front ++ bytes) (record :: records)

section Frames

variable {index : ℕ} {bytes bytes' : List UInt8} {record : JournalRecord}
  {records records' : List JournalRecord}

theorem isFrame_frameBytes (hstorable : record.Storable) (hindex : index < 2 ^ 64) :
    IsFrame index (frameBytes index record) record :=
  ⟨frameBytes_ne_nil index record, readFrame_frameBytes hstorable hindex⟩

/-- What is read off the front is a frame. -/
theorem exists_isFrame {rest : List UInt8}
    (h : readFrame index bytes = .ok (.complete record rest)) :
    ∃ front, bytes = front ++ rest ∧ IsFrame index front record := by
  have hlong : headerBytes ≤ bytes.length := by
    by_contra hshort
    rw [readFrame_short (Nat.not_le.1 hshort)] at h
    cases h
  obtain ⟨header, body, rfl⟩ := FrameHeader.exists_eq_append hlong
  rw [FrameHeader.readFrame_append] at h
  obtain ⟨-, -, -, -, henough, -, -, rfl⟩ := FrameHeader.read_eq_complete h
  refine ⟨header.bytes ++ body.take (Bytes.readLe header.payloadLength), ?_, ?_, fun rest => ?_⟩
  · rw [List.append_assoc, List.take_append_drop]
  · intro hnil
    have hlength := congrArg List.length (List.append_eq_nil_iff.1 hnil).1
    rw [FrameHeader.length_bytes, headerBytes] at hlength
    simp at hlength
  · have hlength : (body.take (Bytes.readLe header.payloadLength)).length =
        Bytes.readLe header.payloadLength := by
      rw [List.length_take, Nat.min_eq_left henough]
    have htake : (body.take (Bytes.readLe header.payloadLength) ++ rest).take
        (Bytes.readLe header.payloadLength) = body.take (Bytes.readLe header.payloadLength) :=
      List.take_left' hlength
    have hdrop : (body.take (Bytes.readLe header.payloadLength) ++ rest).drop
        (Bytes.readLe header.payloadLength) = rest := List.drop_left' hlength
    have hmore : ¬ (body.take (Bytes.readLe header.payloadLength) ++ rest).length <
        Bytes.readLe header.payloadLength := by
      rw [List.length_append, hlength]
      omega
    rw [List.append_assoc, FrameHeader.readFrame_append]
    unfold FrameHeader.read at h ⊢
    rw [if_neg (Nat.not_lt.2 henough)] at h
    rw [htake, hdrop, if_neg hmore]
    split_ifs at h ⊢
    obtain ⟨found, hrecord, hsame⟩ := map_eq_ok_iff.1 h
    rw [hrecord, (FrameRead.complete.inj hsame).1]
    rfl

theorem Frames.append (h : Frames index bytes records)
    (h' : Frames (index + records.length) bytes' records') :
    Frames index (bytes ++ bytes') (records ++ records') := by
  induction h with
  | nil index => exact h'
  | @cons index front bytes record records first _ ih =>
      rw [List.append_assoc]
      refine .cons first (ih ?_)
      rw [List.length_cons, ← Nat.add_assoc, Nat.add_right_comm] at h'
      exact h'

theorem Frames.concat (h : Frames index bytes records) (hstorable : record.Storable)
    (hindex : index + records.length < 2 ^ 64) :
    Frames index (bytes ++ frameBytes (index + records.length) record) (records ++ [record]) := by
  refine h.append ?_
  have hlast := Frames.cons (isFrame_frameBytes hstorable hindex) (.nil _)
  rw [List.append_nil] at hlast
  exact hlast

/-- Frames that begin other frames are frames of their first records. -/
theorem Frames.isPrefix (h : Frames index bytes records) (h' : Frames index bytes' records')
    (hbytes : bytes <+: bytes') : records <+: records' := by
  induction h generalizing bytes' records' with
  | nil index => exact List.nil_prefix
  | @cons index front bytes record records first _ ih =>
      obtain ⟨more, rfl⟩ := hbytes
      rw [List.append_assoc] at h'
      have hread := first.read (bytes ++ more)
      generalize hwhole : front ++ (bytes ++ more) = whole at h' hread
      cases h' with
      | nil =>
          rw [List.append_eq_nil_iff] at hwhole
          exact absurd hwhole.1 first.ne_nil
      | cons first' rest' =>
          rw [first'.read] at hread
          obtain ⟨rfl, rfl⟩ := FrameRead.complete.inj (Except.ok.inj hread)
          exact List.prefix_cons_inj _ |>.2 (ih rest' (List.prefix_append _ _))

end Frames

section Inspect

variable {budget offset : ℕ} {bytes rest : List UInt8} {records rs : List JournalRecord}

/-- The loop takes complete frames off the front. -/
theorem inspectFrom_frames (h : Frames records.length bytes rs) :
    inspectFrom (budget + rs.length) records offset (bytes ++ rest) =
      inspectFrom budget (records ++ rs) (offset + bytes.length) rest := by
  generalize hindex : records.length = index at h
  induction h generalizing records offset with
  | nil index => simp
  | @cons index front bytes record rs first _ ih =>
      have hne : front ++ bytes ++ rest ≠ [] := by
        rw [List.append_assoc]
        exact fun hnil => first.ne_nil (List.append_eq_nil_iff.1 hnil).1
      have hconsumed : (front ++ bytes ++ rest).length - (bytes ++ rest).length = front.length := by
        rw [List.append_assoc, List.length_append]
        omega
      have hlater : inspectFrom (budget + rs.length) (records ++ [record])
          (offset + front.length) (bytes ++ rest) = inspectFrom budget
            (records ++ [record] ++ rs) (offset + front.length + bytes.length) rest :=
        ih (by rw [List.length_append, List.length_singleton, hindex])
      have hread : readFrame records.length (front ++ bytes ++ rest) =
          .ok (.complete record (bytes ++ rest)) := by
        rw [hindex, List.append_assoc, first.read]
      rw [List.length_cons, ← Nat.add_assoc, inspectFrom, if_neg hne, hread]
      dsimp only
      rw [hconsumed, hlater, List.append_assoc, List.singleton_append, List.length_append,
        Nat.add_assoc]

theorem eq_of_finishInspection {issue : Option JournalTailIssue} {validBytes : ℕ}
    {inspection : JournalInspection}
    (h : finishInspection records issue validBytes = .ok inspection) :
    inspection = ⟨records, issue, validBytes⟩ ∧ (replayJournal records).isCorrupt = false := by
  rw [finishInspection] at h
  split_ifs at h with hempty hcorrupt
  exact ⟨(Except.ok.inj h).symm, by simpa using hcorrupt⟩

/-- How an inspection cuts the bytes: complete frames, and behind them a torn one if it says
so. -/
structure Cut (budget offset : ℕ) (bytes : List UInt8) (records : List JournalRecord)
    (inspection : JournalInspection) (front tail : List UInt8) (rs : List JournalRecord) :
    Prop where
  bytes_eq : bytes = front ++ tail
  frames : Frames records.length front rs
  length_le : rs.length ≤ budget
  records_eq : inspection.records = records ++ rs
  validBytes_eq : inspection.validBytes = offset + front.length
  issue_iff : inspection.issue = none ↔ tail = []
  replay : (replayJournal inspection.records).isCorrupt = false

theorem cut_of_finishInspection {issue : Option JournalTailIssue}
    {inspection : JournalInspection} (hissue : issue = none ↔ bytes = [])
    (h : finishInspection records issue offset = .ok inspection) :
    Cut budget offset bytes records inspection [] bytes [] := by
  obtain ⟨rfl, hreplay⟩ := eq_of_finishInspection h
  exact ⟨rfl, .nil _, Nat.zero_le _, (List.append_nil _).symm, rfl, hissue, hreplay⟩

theorem exists_cut_of_inspectFrom {inspection : JournalInspection}
    (h : inspectFrom budget records offset bytes = .ok inspection) :
    ∃ front tail rs, Cut budget offset bytes records inspection front tail rs := by
  induction budget generalizing records offset bytes with
  | zero =>
      rw [inspectFrom] at h
      split_ifs at h with hbytes
      exact ⟨_, _, _, cut_of_finishInspection (by simp [hbytes]) h⟩
  | succ budget ih =>
      rw [inspectFrom] at h
      split_ifs at h with hbytes
      · exact ⟨_, _, _, cut_of_finishInspection (by simp [hbytes]) h⟩
      · cases hread : readFrame records.length bytes with
        | error error =>
            rw [hread] at h
            cases h
        | ok result =>
            rw [hread] at h
            cases result with
            | torn issue => exact ⟨_, _, _, cut_of_finishInspection (by simp [hbytes]) h⟩
            | complete record rest =>
                obtain ⟨first, rfl, hframe⟩ := exists_isFrame hread
                obtain ⟨front, tail, rs, hcut⟩ := ih h
                have hconsumed : (first ++ rest).length - rest.length = first.length := by
                  rw [List.length_append, Nat.add_sub_cancel]
                have hframes := hcut.frames
                have hvalid := hcut.validBytes_eq
                rw [List.length_append, List.length_singleton] at hframes
                rw [hconsumed, Nat.add_assoc, ← List.length_append] at hvalid
                refine ⟨first ++ front, tail, record :: rs, ?_, .cons hframe hframes,
                  Nat.succ_le_succ hcut.length_le, ?_, hvalid, hcut.issue_iff, hcut.replay⟩
                · rw [List.append_assoc, ← hcut.bytes_eq]
                · rw [hcut.records_eq, List.append_assoc]
                  rfl

/-- The cut of a whole file. -/
theorem exists_cut_of_inspectJournalRecords {inspection : JournalInspection}
    (h : inspectJournalRecords bytes = .ok inspection) :
    bytes.length ≤ maxJournalFileBytes ∧ ∃ tail,
      bytes = bytes.take inspection.validBytes ++ tail ∧
      inspection.validBytes ≤ bytes.length ∧
      Frames 0 (bytes.take inspection.validBytes) inspection.records ∧
      inspection.records.length ≤ maxJournalFrames ∧
      (inspection.issue = none ↔ tail = []) ∧
      (replayJournal inspection.records).isCorrupt = false := by
  rw [inspectJournalRecords] at h
  split_ifs at h with hlarge
  obtain ⟨front, tail, rs, hcut⟩ := exists_cut_of_inspectFrom h
  have hvalid := hcut.validBytes_eq
  have hrecords := hcut.records_eq
  rw [Nat.zero_add] at hvalid
  rw [List.nil_append] at hrecords
  have htake : bytes.take inspection.validBytes = front := by
    rw [hcut.bytes_eq, hvalid, List.take_left]
  refine ⟨Nat.not_lt.1 hlarge, tail, ?_, ?_, ?_, ?_, hcut.issue_iff, hcut.replay⟩
  · rw [htake]
    exact hcut.bytes_eq
  · rw [hvalid, hcut.bytes_eq, List.length_append]
    exact Nat.le_add_right _ _
  · rw [htake, hrecords]
    exact hcut.frames
  · rw [hrecords]
    exact hcut.length_le

/-- Complete frames of records that replay are inspected as these records. -/
theorem inspectJournalRecords_frames (h : Frames 0 bytes rs) (hfew : rs.length ≤ maxJournalFrames)
    (hfits : bytes.length ≤ maxJournalFileBytes)
    (hreplay : (replayJournal rs).isCorrupt = false) :
    inspectJournalRecords bytes = .ok ⟨rs, none, bytes.length⟩ := by
  have hloop : inspectFrom (maxJournalFrames - rs.length + rs.length) [] 0 (bytes ++ []) = _ :=
    inspectFrom_frames h
  rw [Nat.sub_add_cancel hfew, List.append_nil, List.nil_append, Nat.zero_add,
    inspectFrom_nil, finishInspection_eq_ok (.inl rfl) hreplay] at hloop
  rw [inspectJournalRecords, if_neg (Nat.not_lt.2 hfits), hloop]

end Inspect

end DarkReNamer
