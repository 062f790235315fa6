import DarkReNamer.Rename.Journal.Codec.Complete

/-!
# The size of frames

Only an intent can be large. The payload of every other record takes at most five bytes in
either version, so that a journal of one intent and `n` other records takes at most a header, the
largest payload and 29 bytes for each of them.
-/

namespace DarkReNamer

open Bytes

/-- The payload bytes that a record may take. -/
def JournalRecord.payloadRoom : JournalRecord → ℕ
  | .intent _ _ => maxJournalFrameBytes
  | _ => 5

theorem JournalRecord.payloadRoom_ofLog (r : UndoLog.Record) :
    (JournalRecord.ofLog r).payloadRoom = 5 := by
  cases r <;> rfl

section Decode

variable {frame : ℕ}

theorem length_of_decodeMove {record : ℕ → JournalDirection → JournalRecord} {payload : List UInt8}
    {r : JournalRecord} (h : (decodeMove record frame).run payload = .ok (r, [])) :
    payload.length = 5 := by
  obtain ⟨front, ⟨step, direction, -, -, rfl⟩, rfl⟩ := (parses_decodeMove record payload r []).1 h
  simp

theorem exists_intent_of_run {payload rest : List UInt8} {version : ℕ} {record : JournalRecord}
    (h : (decodeFields 1 frame version).run payload = .ok (record, rest)) :
    ∃ plan steps, record = .intent plan steps := by
  rw [decodeFields, if_pos rfl, StateT.run_bind] at h
  obtain ⟨⟨plan, afterPlan⟩, -, h⟩ := bind_eq_ok_iff.1 h
  rw [StateT.run_bind] at h
  obtain ⟨⟨count, afterCount⟩, -, h⟩ := bind_eq_ok_iff.1 h
  dsimp only at h
  split_ifs at h
  · cases h
  · rw [StateT.run_bind] at h
    obtain ⟨⟨steps, afterSteps⟩, -, h⟩ := bind_eq_ok_iff.1 h
    cases h
    exact ⟨_, _, rfl⟩

/-- A payload is no longer than its record may take. -/
theorem length_le_of_decodeRecord {kind : UInt8} {payload : List UInt8} {version : ℕ}
    {record : JournalRecord} (hfits : payload.length ≤ maxJournalFrameBytes)
    (h : decodeRecord kind payload frame version = .ok record) :
    payload.length ≤ record.payloadRoom := by
  cases record with
  | intent plan steps => exact hfits
  | prepared | completed | notApplied | terminal =>
      rw [decodeRecord] at h
      split at h
      · cases h
      · next found rest hrun =>
          split_ifs at h with hrest
          subst hrest
          obtain rfl := Except.ok.inj h
          by_cases hkind : kind = 1
          · subst hkind
            obtain ⟨plan, steps, hintent⟩ := exists_intent_of_run hrun
            cases hintent
          rw [decodeFields, if_neg hkind] at hrun
          split_ifs at hrun
          · exact (length_of_decodeMove hrun).le
          · exact (length_of_decodeMove hrun).le
          · exact (length_of_decodeMove hrun).le
          · obtain ⟨front, ⟨value, first, second, ⟨_, rfl⟩, ⟨-, rfl⟩, rfl⟩, rfl⟩ :=
              (((parses_field decodeTerminal_eq_ok_iff).bind fun value _ _ =>
                Parses.pure (JournalRecord.terminal value)) _ _ _).1 hrun
            simp [JournalRecord.payloadRoom]
          · cases hrun

end Decode

theorem IsFrame.length_le {index : ℕ} {front : List UInt8} {record : JournalRecord}
    (h : IsFrame index front record) : front.length ≤ headerBytes + record.payloadRoom := by
  have hread := h.read []
  rw [List.append_nil] at hread
  have hlong : headerBytes ≤ front.length := by
    by_contra hshort
    rw [readFrame_short (Nat.not_le.1 hshort)] at hread
    cases hread
  obtain ⟨header, body, rfl⟩ := FrameHeader.exists_eq_append hlong
  rw [FrameHeader.readFrame_append] at hread
  obtain ⟨-, -, -, hlarge, henough, -, hdecode, hrest⟩ := FrameHeader.read_eq_complete hread
  have hwhole : body.take (readLe header.payloadLength) = body :=
    List.take_of_length_le (List.drop_eq_nil_iff.1 hrest.symm)
  rw [hwhole] at hdecode
  have hbody := length_le_of_decodeRecord
    ((List.drop_eq_nil_iff.1 hrest.symm).trans hlarge) hdecode
  rw [List.length_append, FrameHeader.length_bytes]
  omega

/-- Frames of records that are no intents. -/
theorem Frames.length_le_of_ofLog {index : ℕ} {bytes : List UInt8} {log : List UndoLog.Record}
    (h : Frames index bytes (log.map .ofLog)) : bytes.length ≤ (headerBytes + 5) * log.length := by
  induction log generalizing index bytes with
  | nil =>
      cases h
      exact Nat.le_refl 0
  | cons r log ih =>
      rw [List.map_cons] at h
      cases h with
      | cons first rest =>
          have hfirst := first.length_le
          have hrest := ih rest
          rw [JournalRecord.payloadRoom_ofLog] at hfirst
          rw [List.length_append, List.length_cons, Nat.mul_succ]
          omega

theorem Frames.length_le_of_intent {index : ℕ} {bytes : List UInt8} {log : List UndoLog.Record}
    {plan : PlanId} {steps : List JournalStep}
    (h : Frames index bytes (.intent plan steps :: log.map .ofLog)) :
    bytes.length ≤ headerBytes + maxJournalFrameBytes + (headerBytes + 5) * log.length := by
  cases h with
  | cons first rest =>
      have hfirst : _ ≤ headerBytes + maxJournalFrameBytes := first.length_le
      have hrest := rest.length_le_of_ofLog
      rw [List.length_append]
      omega

end DarkReNamer
