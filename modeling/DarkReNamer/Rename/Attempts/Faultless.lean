import DarkReNamer.Rename.Attempts.Room

/-!
# A file journal without faults

On an open journal with room the appends that the files carry out succeed. So a trace of the
engine in which no append fails is also one over the file journal, as long as the replay accepts
the records and they are few enough.
-/

namespace DarkReNamer

open Interaction

variable {B : Type} {backend : BackendRel B}

/-- The records that a trace appends. -/
def appendedBy : List EngineEvent → List JournalRecord
  | [] => []
  | ⟨.journal (.append record), _⟩ :: events => record :: appendedBy events
  | _ :: events => appendedBy events

/-- An append that succeeds, or a call that is none of the journal. -/
def EngineEvent.Served : EngineEvent → Prop
  | ⟨.journal (.append _), .ok _⟩ => True
  | ⟨.journal _, _⟩ => False
  | _ => True

instance : (event : EngineEvent) → Decidable (EngineEvent.Served event)
  | ⟨.journal (.append _), .ok _⟩ => .isTrue trivial
  | ⟨.journal (.append _), .error _⟩ => .isFalse id
  | ⟨.journal .snapshot, _⟩ => .isFalse id
  | ⟨.backend _, _⟩ => .isTrue trivial
  | ⟨.control _, _⟩ => .isTrue trivial

namespace FileJournal

/-- An active journal in step with its file, with no tail to repair. -/
structure Ready (journal : FileJournal) (disk : Disk) : Prop where
  unpoisoned : journal.poisoned = false
  active : journal.phase = .active
  whole : journal.tornPrefix = none
  intact : journal.Intact (disk.files journal.file)

/-- A record with room can be appended. -/
structure Room (journal : FileJournal) (record : JournalRecord) : Prop where
  accepted : (replayJournal (journal.records ++ [record])).isCorrupt = false
  few : journal.records.length < maxJournalFrames
  storable : record.Storable

section Append

variable {journal : FileJournal} {disk : Disk} {record : JournalRecord}

theorem Ready.exists_append (h : journal.Ready disk) (hroom : journal.Room record) :
    ∃ frame trace disk', Runs fileEnv (journal.append record) disk trace
      (some (.ok (), journal.appended record frame)) disk' ∧
      (journal.appended record frame).Ready disk' := by
  obtain ⟨frame, hframe⟩ : ∃ frame,
      encodeFrame journal.nextSequence record journal.records.length = .ok frame :=
    ⟨_, encodeFrame_eq_ok_iff.2 ⟨hroom.storable, rfl⟩⟩
  have hbytes := (encodeFrame_eq_ok_iff.1 hframe).2
  have hfits := length_le_of_accepted hroom.accepted (h.intact.whole h.whole).2 hroom.few
    hroom.storable
  have hbound : journal.byteLength + frame.length ≤ maxJournalFileBytes := by
    rw [hbytes, length_frameBytes, h.intact.byteLength]
    omega
  have hsaturated : ¬ saturatingAdd usizeMax journal.byteLength frame.length >
      maxJournalFileBytes := by
    unfold saturatingAdd
    omega
  let written := disk.setFile journal.file ((disk.files journal.file).written frame frame)
  have hwrite : fileEnv disk (.writeAll journal.file frame) (.ok ()) written := rfl
  have hflush : fileEnv written (.flush journal.file) (.ok ()) written := rfl
  have hsync : fileEnv written (.syncAll journal.file) (.ok ())
    (written.setFile journal.file (written.files journal.file).synced) := rfl
  have hrun : ∃ trace, Runs fileEnv (journal.append record) disk trace
      (some (.ok (), journal.appended record frame))
      (written.setFile journal.file (written.files journal.file).synced) := by
    rw [append, if_neg (by simp [h.unpoisoned]), if_neg (by simp [h.whole]),
      if_neg (Nat.not_le.2 hroom.few), hframe]
    dsimp only
    rw [if_neg hsaturated]
    exact ⟨_, .call hwrite (.call hflush (.call hsync (.done _ _)))⟩
  obtain ⟨trace, run⟩ := hrun
  refine ⟨frame, trace, _, run, rfl, h.active, h.whole, ?_⟩
  have happended := h.intact.appended h.whole hroom.few hframe hbound
  rw [show (journal.appended record frame).file = journal.file from rfl]
  simpa [written] using happended

theorem requireActive_of_ready (h : journal.Ready disk) : journal.requireActive = .ok () := by
  rw [requireActive, if_neg (by simp [h.unpoisoned]), if_neg (by simp [h.active])]

/-- A journal without records goes on with an intent alone. -/
theorem records_eq_nil_of_intent {plan : PlanId} {steps : List JournalStep}
    (hroom : journal.Room (.intent plan steps)) : journal.records = [] := by
  obtain ⟨plan', steps', phase, log, hrecords, -⟩ := exists_logs_append hroom.accepted
  cases hjournal : journal.records with
  | nil => rfl
  | cons first rest =>
      rw [hjournal] at hrecords
      obtain ⟨-, hrest⟩ := List.cons.inj hrecords
      have hmem : JournalRecord.intent plan steps ∈ log.map JournalRecord.ofLog := by
        rw [← hrest]
        simp
      obtain ⟨r, -, hr⟩ := List.mem_map.1 hmem
      cases r <;> cases hr

theorem Ready.exists_store (h : journal.Ready disk) (hroom : journal.Room record) :
    ∃ frame trace disk', Runs fileEnv (journal.store record) disk trace
      (some (.ok (), journal.appended record frame)) disk' ∧
      (journal.appended record frame).Ready disk' := by
  obtain ⟨frame, trace, disk', run, hready⟩ := h.exists_append hroom
  refine ⟨frame, trace, disk', ?_, hready⟩
  cases record with
  | intent plan steps =>
      have hempty : (!journal.records.isEmpty) = false := by
        simp [records_eq_nil_of_intent hroom]
      have hpromote : Runs fileEnv (journal.appended (.intent plan steps) frame).promoteCandidate
          disk' [] (some (.ok (), journal.appended (.intent plan steps) frame)) disk' := by
        rw [promoteCandidate, show (journal.appended (.intent plan steps) frame).phase = .active
          from h.active]
        exact .done _ _
      rw [store, «begin», if_neg (by simp [h.unpoisoned]), if_neg (by simp [hempty])]
      rw [← List.append_nil trace]
      exact run.bind hpromote
  | prepared | completed | notApplied | terminal =>
      simp only [store, prepared, completed, notApplied, terminal, appendActive,
        requireActive_of_ready h]
      exact run

theorem Ready.exists_write (h : journal.Ready disk) (hroom : journal.Room record)
    {authorization : Option JournalAuthorization} (hauthorized : ∀ held, authorization = some held →
      held = ⟨journal.identity, journal.generation⟩) :
    ∃ frame trace disk' authorization', Runs fileEnv (journal.write authorization record) disk trace
      (some ((.ok (), journal.appended record frame), authorization')) disk' ∧
      (journal.appended record frame).Ready disk' ∧ ∀ held, authorization' = some held →
        held = ⟨journal.identity, (journal.appended record frame).generation⟩ := by
  cases authorization with
  | none =>
      obtain ⟨frame, trace, disk', run, hready⟩ := h.exists_store hroom
      exact ⟨frame, trace, disk', none, run.map_value, hready, by simp⟩
  | some held =>
      obtain rfl := hauthorized held rfl
      obtain ⟨frame, trace, disk', run, hready⟩ := h.exists_append hroom
      refine ⟨frame, trace, disk', some ⟨journal.identity,
        (journal.appended record frame).generation⟩, ?_, hready, ?_⟩
      · have happend : journal.authorizedAppend ⟨journal.identity, journal.generation⟩ record =
            journal.appendAuthorized ⟨journal.identity, journal.generation⟩ record := by
          rw [authorizedAppend, if_neg (by simp [h.unpoisoned]), requireActive_of_ready h]
          dsimp only
          rw [if_neg (by simp), h.whole]
        have hbehind : Runs fileEnv (journal.appendAuthorized ⟨journal.identity,
            journal.generation⟩ record) disk trace (some ((.ok (), journal.appended record frame),
              ⟨journal.identity, (journal.appended record frame).generation⟩)) disk' := by
          rw [← List.append_nil trace]
          exact run.bind (.done _ disk')
        rw [write, happend]
        exact hbehind.map_value
      · rintro _ ⟨⟩
        rfl

/-- A full journal refuses what a transaction goes on with. -/
theorem Ready.write_full (h : journal.Ready disk)
    (hfull : maxJournalFrames ≤ journal.records.length)
    {authorization : Option JournalAuthorization} (hauthorized : ∀ held, authorization = some held →
      held = ⟨journal.identity, journal.generation⟩) (r : UndoLog.Record) :
    journal.write authorization (.ofLog r) =
      pure ((.error (.notAppended 3), journal), authorization) := by
  have happend : journal.append (.ofLog r) = pure (.error (.notAppended 3), journal) := by
    rw [append, if_neg (by simp [h.unpoisoned]), if_neg (by simp [h.whole]), if_pos hfull]
  cases authorization with
  | none =>
      have hstore : journal.store (.ofLog r) = pure (.error (.notAppended 3), journal) := by
        cases r <;> simp only [JournalRecord.ofLog, store, prepared, completed, notApplied,
          terminal, appendActive, requireActive_of_ready h] <;> exact happend
      rw [write, hstore]
      rfl
  | some held =>
      obtain rfl := hauthorized held rfl
      rw [write, authorizedAppend, if_neg (by simp [h.unpoisoned]), requireActive_of_ready h]
      dsimp only
      rw [if_neg (by simp), h.whole]
      dsimp only
      rw [appendAuthorized, happend]
      rfl

end Append

end FileJournal

namespace Place

variable {s : Place B} {record : JournalRecord}

/-- The open journal is ready, and so is the authorization for it. -/
structure Ready (s : Place B) : Prop where
  journal : s.journal.Ready s.disk
  authorized : ∀ held, s.authorization = some held →
    held = ⟨s.journal.identity, s.journal.generation⟩

theorem Ready.unauthorized (h : s.Ready) : Ready { s with authorization := none } :=
  ⟨h.journal, by simp⟩

theorem Ready.exists_append (h : s.Ready) (hroom : s.journal.Room record) :
    ∃ t, placeEnv backend s (.journal (.append record)) (.ok ()) t ∧ t.Ready ∧
      t.backend = s.backend ∧ t.journal.records = s.journal.records ++ [record] := by
  obtain ⟨frame, trace, disk, authorization, run, hready, hauthorized⟩ :=
    h.journal.exists_write hroom h.authorized
  exact ⟨⟨s.backend, s.journal.appended record frame, authorization, disk⟩, ⟨rfl, trace, run⟩,
    ⟨hready, hauthorized⟩, rfl, rfl⟩

theorem Ready.append_full (h : s.Ready) (hfull : maxJournalFrames ≤ s.journal.records.length)
    (r : UndoLog.Record) :
    placeEnv backend s (.journal (.append (.ofLog r))) (.error (.notAppended 3)) s := by
  refine ⟨rfl, [], ?_⟩
  rw [h.journal.write_full hfull h.authorized]
  exact .done _ _

/-- A snapshot shows the records. -/
theorem Ready.exists_snapshot (h : s.Ready) : ∃ t : Place B,
    placeEnv backend s (.journal .snapshot) (.ok s.journal.records) t ∧ t.Ready ∧
      t.backend = s.backend ∧ t.journal.records = s.journal.records := by
  have hsnapshot : s.journal.authorizedSnapshot =
      .ok (s.journal.records, ⟨s.journal.identity, s.journal.generation⟩) := by
    rw [FileJournal.authorizedSnapshot, FileJournal.requireActive_of_ready h.journal]
  refine ⟨{ s with authorization := some ⟨s.journal.identity, s.journal.generation⟩ }, ?_,
    ⟨h.journal, ?_⟩, rfl, rfl⟩
  · simp [placeEnv, hsnapshot]
  · rintro _ ⟨⟩
    rfl

/-- A trace in which no append fails, on a journal that has room for what it appends. -/
theorem Ready.exists_admitted {w w' : World B} {trace : List EngineEvent} (h : s.Ready)
    (hadmitted : Admitted (engineEnv backend) w trace w') (hbackend : s.backend = w.backend)
    (hserved : ∀ event ∈ trace, EngineEvent.Served event)
    (haccepted : (replayJournal (s.journal.records ++ appendedBy trace)).isCorrupt = false)
    (hfew : s.journal.records.length + (appendedBy trace).length ≤ maxJournalFrames)
    (hstorable : ∀ record ∈ appendedBy trace, record.Storable) :
    ∃ t, Admitted (placeEnv backend) s trace t ∧ t.Ready ∧ t.backend = w'.backend ∧
      t.journal.records = s.journal.records ++ appendedBy trace := by
  induction hadmitted generalizing s with
  | nil w => exact ⟨s, .nil s, h, hbackend, (List.append_nil _).symm⟩
  | @cons w v w' event events move rest ih =>
      obtain ⟨call, answer⟩ := event
      have hlater := fun event hevent => hserved event (List.mem_cons_of_mem _ hevent)
      have hfirst := hserved _ List.mem_cons_self
      cases call with
      | backend call =>
          obtain ⟨hmove, hrecords⟩ := move
          rw [← hbackend] at hmove
          obtain ⟨t, ht, hready, hb, hr⟩ := ih (s := { s with backend := v.backend })
            ⟨h.journal, h.authorized⟩ rfl hlater haccepted hfew hstorable
          exact ⟨t, .cons ⟨hmove, rfl⟩ ht, hready, hb, hr⟩
      | control call =>
          obtain rfl : v = w := move
          obtain ⟨t, ht, hready, hb, hr⟩ := ih h hbackend hlater haccepted hfew hstorable
          exact ⟨t, .cons rfl ht, hready, hb, hr⟩
      | journal call =>
          cases call with
          | snapshot => cases answer <;> exact hfirst.elim
          | append record =>
              cases answer with
              | error error => exact hfirst.elim
              | ok _ =>
                  obtain ⟨hjournal, hsame⟩ := move
                  have hsplit : s.journal.records ++
                      appendedBy (⟨.journal (.append record), .ok ()⟩ ::
                      events) = s.journal.records ++ [record] ++ appendedBy events := by
                    rw [List.append_assoc]
                    rfl
                  have hlength :
                      (appendedBy (⟨.journal (.append record), .ok ()⟩ :: events)).length =
                      (appendedBy events).length + 1 := rfl
                  rw [hlength] at hfew
                  rw [hsplit] at haccepted ⊢
                  obtain ⟨u, hu, hready, hb, hr⟩ := @Ready.exists_append B backend s record h
                    ⟨isCorrupt_replayJournal_of_append haccepted, by omega,
                      hstorable record List.mem_cons_self⟩
                  rw [← hr] at haccepted ⊢
                  obtain ⟨t, ht, hready', hb', hr'⟩ := ih hready
                    (hb.trans (hbackend.trans hsame.symm))
                    hlater haccepted (by rw [hr, List.length_append, List.length_singleton]; omega)
                    fun record hrecord => hstorable record (List.mem_cons_of_mem _ hrecord)
                  exact ⟨t, .cons hu ht, hready', hb', hr'⟩

end Place

end DarkReNamer
