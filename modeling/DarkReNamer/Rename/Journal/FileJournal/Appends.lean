import DarkReNamer.Rename.Journal.FileJournal.Intact

/-!
# What an append tells

The result of an append tells which records it leaves, and an append that is refused for want of
room has met the limit: as many frames as a journal may have, or bytes that no longer fit.
-/

namespace DarkReNamer

open Interaction

namespace FileJournal

/-- The frames of the records and one more are too large. -/
def Overflows (journal : FileJournal) (record : JournalRecord) : Prop :=
  ∃ bytes, Frames 0 bytes journal.records ∧ journal.records.length < maxJournalFrames ∧
    record.Storable ∧ maxJournalFileBytes < bytes.length + headerBytes + record.payload.length

/-- What the result of an append tells about the records. -/
structure Appends (journal : FileJournal) (record : JournalRecord) (outcome : Outcome) : Prop where
  ok : outcome.1 = .ok () → outcome.2.records = journal.records ++ [record]
  whole : outcome.1 = .ok () → outcome.2.tornPrefix = none
  error : ∀ error, outcome.1 = .error error → outcome.2.records = journal.records ∨
    error.certainty = .mayHaveAppended ∧ outcome.2.records = journal.records ++ [record]
  full : outcome.1 = .error (.notAppended 3) → maxJournalFrames ≤ journal.records.length
  large : outcome.1 = .error (.notAppended 5) → journal.Overflows record

section Rules

variable {journal : FileJournal} {disk : Disk} {record : JournalRecord}

/-- A result that tells nothing about the limits and leaves the records alone. -/
theorem appends_error {journal' : FileJournal} {error : JournalError}
    (hrecords : journal'.records = journal.records) (hfull : error ≠ .notAppended 3)
    (hlarge : error ≠ .notAppended 5) : journal.Appends record (.error error, journal') where
  ok := by simp
  whole := by simp
  error := fun _ _ => .inl hrecords
  full := fun h => absurd (Except.error.inj h) hfull
  large := fun h => absurd (Except.error.inj h) hlarge

theorem journalIoMayHaveAppended_ne (error : IoError) (code : UInt32) :
    journalIoMayHaveAppended error ≠ .notAppended code := by
  intro h
  have hcertainty := journalIoMayHaveAppended_certainty error
  rw [h] at hcertainty
  cases hcertainty

/-- A call of a change that failed. -/
theorem appends_io (error : IoError) : journal.Appends record
    (.error (journalIoMayHaveAppended error), { journal with poisoned := true }) :=
  appends_error rfl (journalIoMayHaveAppended_ne error 3) (journalIoMayHaveAppended_ne error 5)

theorem lt_of_lt_saturatingAdd {a b bound : ℕ} (h : bound < saturatingAdd usizeMax a b) :
    bound < a + b := by
  unfold saturatingAdd at h
  omega

theorem appends_append (h : journal.Tracks disk) (record : JournalRecord) :
    Gives (journal.append record) (fun outcome _ => journal.Appends record outcome) disk := by
  unfold append
  split
  · exact gives_pure (appends_error rfl (by decide) (by decide))
  · next hunpoisoned =>
      have hintact := h (Bool.eq_false_iff.2 hunpoisoned)
      split
      · exact gives_pure (appends_error rfl (by decide) (by decide))
      · next hwhole =>
          rw [Bool.not_eq_true, Option.isSome_eq_false_iff, Option.isNone_iff_eq_none] at hwhole
          split
          · next hfull =>
              exact gives_pure ⟨by simp, by simp, fun _ _ => .inl rfl, fun _ => hfull,
                fun h => absurd (Except.error.inj h) (by decide)⟩
          · next hfew =>
              split
              · exact gives_pure (appends_error rfl (by decide) (by decide))
              · next frame hframe =>
                  obtain ⟨hstorable, hbytes⟩ := encodeFrame_eq_ok_iff.1 hframe
                  split
                  · next hlarge =>
                      refine gives_pure ⟨by simp, by simp, fun _ _ => .inl rfl,
                        fun h => absurd (Except.error.inj h) (by decide),
                        fun _ => ⟨_, (hintact.whole hwhole).2, Nat.not_le.1 hfew, hstorable, ?_⟩⟩
                      have hlt := lt_of_lt_saturatingAdd hlarge
                      rw [hbytes, length_frameBytes, hintact.byteLength] at hlt
                      omega
                  · have hfailed : ∀ error (disk' : Disk), journal.Appends record
                        (.error (journalIoMayHaveAppended error),
                          { journal with poisoned := true }) :=
                      fun error _ => appends_io error
                    refine gives_orPoisoned hfailed (gives_ask fun answer disk₁ _ _ => ?_)
                    refine gives_orPoisoned hfailed (gives_flush ?_)
                    refine gives_orPoisoned hfailed (gives_ask fun answer disk₂ _ _ => ?_)
                    exact gives_pure ⟨fun _ => rfl, fun _ => hwhole, by simp, by simp, by simp⟩

theorem appends_appendActive (h : journal.Tracks disk) (record : JournalRecord) :
    Gives (journal.appendActive record) (fun outcome _ => journal.Appends record outcome) disk := by
  unfold appendActive requireActive
  split
  · next error herror =>
      split_ifs at herror with hpoisoned hphase <;> obtain rfl := Except.error.inj herror <;>
        exact gives_pure (appends_error rfl (by decide) (by decide))
  · exact appends_append h record

theorem appends_begin (h : journal.Tracks disk) (plan : PlanId) (steps : List JournalStep) :
    Gives (journal.begin plan steps)
      (fun outcome _ => journal.Appends (.intent plan steps) outcome) disk := by
  unfold «begin»
  split
  · exact gives_pure (appends_error rfl (by decide) (by decide))
  split
  · exact gives_pure (appends_error rfl (by decide) (by decide))
  unfold Gives
  rw [Spec.bind_iff]
  refine (appends_append h _).mono fun outcome disk' happends => ?_
  obtain ⟨result, journal'⟩ := outcome
  cases result with
  | error error => exact gives_pure happends
  | ok _ =>
      have hrecords : journal'.records = _ := happends.ok rfl
      have hwhole : journal'.tornPrefix = none := happends.whole rfl
      dsimp only
      unfold promoteCandidate
      split
      · rw [Spec.bind_iff]
        refine gives_ask fun answer disk'' _ => ?_
        cases answer with
        | error error =>
            refine gives_pure ⟨by simp, by simp, ?_, ?_, ?_⟩
            · rintro _ ⟨⟩
              exact .inr ⟨rfl, hrecords⟩
            · exact fun h => absurd (Except.error.inj h) (journalIoMayHaveAppended_ne error 3)
            · exact fun h => absurd (Except.error.inj h) (journalIoMayHaveAppended_ne error 5)
        | ok _ =>
            exact gives_pure ⟨fun _ => hrecords, fun _ => hwhole, by simp, by simp, by simp⟩
      · exact gives_pure happends

/-- A journal that has records refuses to begin. -/
theorem begin_of_records (h : journal.records ≠ []) (plan : PlanId) (steps : List JournalStep) :
    ∃ error, error ≠ .notAppended 3 ∧ error ≠ .notAppended 5 ∧
      journal.begin plan steps = pure (.error error, journal) := by
  have hrecords : (!journal.records.isEmpty) = true := by simpa using h
  unfold «begin»
  by_cases hpoisoned : journal.poisoned = true
  · rw [if_pos hpoisoned]
    exact ⟨_, by decide, by decide, rfl⟩
  · rw [if_neg hpoisoned, if_pos hrecords]
    exact ⟨_, by decide, by decide, rfl⟩

/-- An append behind a repair that kept the records. -/
theorem Appends.of_records {journal' : FileJournal} {outcome : Outcome}
    (h : journal'.Appends record outcome) (hrecords : journal'.records = journal.records) :
    journal.Appends record outcome := by
  obtain ⟨hok, hwhole, herror, hfull, hlarge⟩ := h
  unfold Overflows at hlarge
  rw [hrecords] at hok herror hfull hlarge
  exact ⟨hok, hwhole, herror, hfull, hlarge⟩

theorem appends_appendAuthorized (h : journal.Tracks disk) (authorization : JournalAuthorization)
    (record : JournalRecord) :
    Gives (journal.appendAuthorized authorization record)
      (fun outcome _ => journal.Appends record outcome.1) disk := by
  unfold appendAuthorized Gives
  rw [Spec.bind_iff]
  refine (appends_append h record).mono fun outcome disk' happends => ?_
  obtain ⟨result, journal'⟩ := outcome
  cases result with
  | error error => exact gives_pure happends
  | ok _ => exact gives_pure happends

/-- A repair fails with an error of the operating system. -/
theorem repairTornTail_error (validBytes : ℕ) :
    Gives (journal.repairTornTail validBytes) (fun outcome _ => ∀ error,
      outcome.1 = .error error → journal.Appends record outcome) disk := by
  have hfailed : ∀ error (disk' : Disk), ∀ error', (Except.error (journalIoMayHaveAppended error) :
      Except JournalError Unit) = .error error' → journal.Appends record
        (.error (journalIoMayHaveAppended error), { journal with poisoned := true }) :=
    fun error _ _ _ => appends_io error
  unfold repairTornTail
  refine gives_orPoisoned hfailed (gives_ask fun answer disk₁ _ _ => ?_)
  refine gives_orPoisoned hfailed (gives_ask fun answer disk₂ _ _ => ?_)
  refine gives_orPoisoned hfailed (gives_flush ?_)
  refine gives_orPoisoned hfailed (gives_ask fun answer disk₃ _ _ => ?_)
  exact gives_pure (by simp)

theorem appends_authorizedAppend (h : journal.Tracks disk) (authorization : JournalAuthorization)
    (record : JournalRecord) :
    Gives (journal.authorizedAppend authorization record)
      (fun outcome _ => journal.Appends record outcome.1) disk := by
  unfold authorizedAppend requireActive
  split
  · exact gives_pure (appends_error rfl (by decide) (by decide))
  · next hunpoisoned =>
      split
      · next error herror =>
          split_ifs at herror
          obtain rfl := Except.error.inj herror
          exact gives_pure (appends_error rfl (by decide) (by decide))
      · split
        · exact gives_pure (appends_error rfl (by decide) (by decide))
        · split
          · exact appends_appendAuthorized h authorization record
          · next validBytes htorn =>
              have hunpoisoned := Bool.eq_false_iff.2 hunpoisoned
              unfold Gives
              rw [Spec.bind_iff]
              refine (Spec.mono_crash ((gives_repairTornTail h hunpoisoned htorn).both
                (@repairTornTail_error journal disk record validBytes)) fun _ _ => trivial).mono
                fun outcome disk' hrepairs => ?_
              obtain ⟨result, journal'⟩ := outcome
              cases result with
              | error error => exact gives_pure (hrepairs.2 error rfl)
              | ok _ =>
                  obtain ⟨hkept, -⟩ := hrepairs.1.ok rfl
                  exact (appends_appendAuthorized hrepairs.1.settles.tracks _ record).mono
                    fun outcome' disk'' happends => happends.of_records hkept

end Rules

end FileJournal

end DarkReNamer
