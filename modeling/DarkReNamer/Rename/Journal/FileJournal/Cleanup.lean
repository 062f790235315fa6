import DarkReNamer.Rename.Journal.FileJournal.InStep

/-!
# Deleting a journal

Two calls mark the retained file for deletion. Neither does while the file holds a prepared step
without a valid terminal record, whatever happened to the journal before.
-/

namespace DarkReNamer

open Interaction

/-- Decision for an explicitly closed active journal (`rename/activation.rs`). -/
inductive JournalCleanupDecision where
  | removeEmpty
  | removeTerminal
  | retain
  deriving DecidableEq, Repr

def cleanupDecision (records : List JournalRecord) : JournalCleanupDecision :=
  if records.isEmpty then .removeEmpty
  else if FileJournal.endsTerminal records ∧ replayJournal records = .clean then .removeTerminal
  else .retain

variable {records : List JournalRecord}

section Contents

variable {index : ℕ} {front front' tail tail' content : List UInt8}
  {others : List JournalRecord}

/-- Complete frames of the same records at the front are the same frames. -/
theorem Frames.front_eq (h : Frames index front records) (h' : Frames index front' records)
    (heq : front ++ tail = front' ++ tail') : front = front' := by
  induction h generalizing front' with
  | nil index =>
      cases h'
      rfl
  | @cons index first bytes record records hfirst _ ih =>
      generalize hall : record :: records = all at h'
      cases h' with
      | nil => cases hall
      | @cons _ first' bytes' record' records' hfirst' hrest' =>
          obtain ⟨rfl, rfl⟩ := List.cons.inj hall
          have hread := hfirst.read (bytes ++ tail)
          rw [← List.append_assoc, heq, List.append_assoc, hfirst'.read] at hread
          have hrest : bytes' ++ tail' = bytes ++ tail :=
            (FrameRead.complete.inj (Except.ok.inj hread)).2
          have hsame := ih hrest' hrest.symm
          subst hsame
          rw [List.append_assoc, List.append_assoc, hrest] at heq
          rw [List.append_cancel_right heq]

/-- The complete frames of the content are those of the records. -/
def HasRecords (content : List UInt8) (records : List JournalRecord) : Prop :=
  ∃ front tail, content = front ++ tail ∧ Frames 0 front records ∧
    ∀ record rest, readFrame records.length tail ≠ .ok (.complete record rest)

theorem hasRecords_of_frames (h : Frames 0 content records) : HasRecords content records := by
  have hempty : readFrame records.length [] = .ok (.torn .truncatedHeader) := rfl
  exact ⟨content, [], (List.append_nil _).symm, h, by simp [hempty]⟩

theorem HasRecords.eq_of_frames (h : HasRecords content records)
    (hframes : Frames 0 content others) :
    others = records := by
  obtain ⟨front, tail, rfl, hfront, hlast⟩ := h
  obtain ⟨more, rfl⟩ := hfront.isPrefix hframes (List.prefix_append _ _)
  obtain ⟨front', tail', hsplit, hfront', htail'⟩ := hframes.split
  have hsame := hfront.front_eq hfront' hsplit
  subst hsame
  obtain rfl := List.append_cancel_left hsplit
  cases htail' with
  | nil => exact List.append_nil records
  | cons hfirst _ => exact absurd (hfirst.read _) (by simpa using hlast _ _)

end Contents

/-- A step was prepared, and no valid terminal record ends the transaction. -/
def Unfinished (records : List JournalRecord) : Prop :=
  (∃ step direction, .prepared step direction ∈ records) ∧
    ¬ (FileJournal.endsTerminal records ∧ replayJournal records = .clean)

theorem not_unfinished_of_cleanupDecision (h : cleanupDecision records ≠ .retain) :
    ¬ Unfinished records := by
  rintro ⟨⟨step, direction, hmem⟩, hterminal⟩
  rw [cleanupDecision, if_neg hterminal] at h
  cases records with
  | nil => cases hmem
  | cons record records => exact h rfl

/-- A call of the trace marked a file for deletion. -/
def Marks (trace : List FileEvent) : Prop := ∃ event ∈ trace, ∃ file, event.call = .markDelete file

namespace FileJournal

section Marking

variable {journal : FileJournal} {disk disk' : Disk} {trace : List FileEvent}
  {r : Option (Except FileJournalError Unit)}

/-- A journal that holds nothing which a recovery needs. -/
structure Deletable (journal : FileJournal) (content : List UInt8) : Prop where
  unpoisoned : journal.poisoned = false
  untorn : journal.tornPrefix = none ∧ journal.tailIssue = none
  frames : Frames 0 content journal.records
  finished : journal.phase = .active ∧ cleanupDecision journal.records ≠ .retain ∨
    (∃ activeLeaf, journal.phase = .candidate activeLeaf) ∧ content = [] ∧ journal.records = []

/-- A candidate with one intent, whose transaction never became active. -/
structure Unactivated (journal : FileJournal) (disk : Disk) : Prop where
  unpoisoned : journal.poisoned = false
  untorn : journal.tornPrefix = none ∧ journal.tailIssue = none
  frames : Frames 0 (disk.files journal.file).content journal.records
  intent : ∃ plan steps, journal.records = [.intent plan steps]
  absent : ∃ activeLeaf, journal.phase = .candidate activeLeaf ∧ disk.leaves activeLeaf = none

theorem isIntentOnly_iff {records : List JournalRecord} :
    isIntentOnly records = true ↔ ∃ plan steps, records = [.intent plan steps] := by
  unfold isIntentOnly
  split
  · simp
  · next hother =>
      simp only [Bool.false_eq_true, false_iff]
      rintro ⟨plan, steps, rfl⟩
      exact hother plan steps rfl

theorem Tracks.deletable (h : journal.Tracks disk) (hsafe : journal.safeToDelete = true) :
    journal.Deletable (disk.files journal.file).content := by
  rw [safeToDelete, Bool.and_eq_true, Bool.not_eq_true'] at hsafe
  obtain ⟨hunpoisoned, hphase⟩ := hsafe
  have hintact := h hunpoisoned
  cases hjournal : journal.phase with
  | active =>
      rw [hjournal] at hphase
      simp only [Bool.and_eq_true, Option.isNone_iff_eq_none, Bool.or_eq_true,
        decide_eq_true_eq] at hphase
      obtain ⟨⟨htorn, hissue⟩, hrecords⟩ := hphase
      refine ⟨hunpoisoned, ⟨htorn, hissue⟩, (hintact.whole htorn).2, .inl ⟨hjournal, ?_⟩⟩
      rw [cleanupDecision]
      rcases hrecords with hempty | hterminal
      · rw [if_pos hempty]
        simp
      · rw [isTerminal] at hterminal
        rw [if_pos hterminal]
        split <;> simp
  | candidate activeLeaf =>
      rw [hjournal] at hphase
      simp only [isPhysicallyEmptyCandidate, Bool.and_eq_true, Bool.not_eq_true',
        decide_eq_true_eq, List.isEmpty_iff, Option.isNone_iff_eq_none] at hphase
      obtain ⟨⟨⟨⟨⟨-, -⟩, hbytes⟩, hrecords⟩, htorn⟩, hissue⟩ := hphase
      have hempty : (disk.files journal.file).content = [] := by
        rw [← List.length_eq_zero_iff, ← hintact.byteLength, hbytes]
      exact ⟨hunpoisoned, ⟨htorn, hissue⟩, (hintact.whole htorn).2,
        .inr ⟨⟨activeLeaf, hjournal⟩, hempty, hrecords⟩⟩
  | promotionUncertain =>
      rw [hjournal] at hphase
      cases hphase

/-- A program that ends with an error marks nothing more. -/
theorem not_marks_of_refused {past : List FileEvent} (hpast : ¬ Marks past)
    {error : FileJournalError}
    (run : Runs fileEnv (pure (.error error) : FileProgram (Except FileJournalError Unit)) disk
      trace r disk') : ¬ (r = some (.ok ()) ∨ Marks (past ++ trace)) := by
  cases run with
  | done => simpa using hpast
  | crash => simpa using hpast

theorem not_marks_nil : ¬ Marks [] := by simp [Marks]

/-- Only a safe journal is marked. -/
theorem safeToDelete_of_markDeleteIfSafe
    (run : Runs fileEnv journal.markDeleteIfSafe disk trace r disk')
    (hmarks : r = some (.ok ()) ∨ Marks trace) : journal.safeToDelete = true := by
  by_contra hunsafe
  rw [markDeleteIfSafe, if_neg hunsafe] at run
  exact not_marks_of_refused not_marks_nil run hmarks

theorem disk_eq_of_markRetainedFileDelete {file : FileId}
    (run : Runs fileEnv (markRetainedFileDelete file) disk trace r disk') : disk' = disk := by
  cases run with
  | crash => rfl
  | @call _ _ _ disk₁ _ answer trace _ step rest =>
      have hsame : disk₁ = disk := by
        cases answer <;> exact step
      subst hsame
      cases answer <;> cases rest <;> rfl

/-- A candidate is marked while the active leaf is absent. -/
theorem Tracks.unactivated (h : journal.Tracks disk)
    (run : Runs fileEnv journal.markUnactivatedIntentDelete disk trace r disk')
    (hmarks : r = some (.ok ()) ∨ Marks trace) : journal.Unactivated disk' := by
  rw [markUnactivatedIntentDelete] at run
  split at run
  · next activeLeaf hphase =>
      split at run
      · next hcomplete =>
          simp only [isCompleteIntentCandidate, Bool.and_eq_true, Bool.not_eq_true',
            decide_eq_true_eq, isIntentOnly_iff, Option.isNone_iff_eq_none] at hcomplete
          obtain ⟨⟨⟨⟨⟨-, hunpoisoned⟩, -⟩, hintent⟩, htorn⟩, hissue⟩ := hcomplete
          cases run with
          | crash => simp [Marks] at hmarks
          | @call _ _ _ disk₁ _ answer trace _ step rest =>
              have hpast : ¬ Marks [⟨.openExisting activeLeaf, answer⟩] := by simp [Marks]
              cases answer with
              | ok file => exact absurd hmarks (not_marks_of_refused hpast rest)
              | error error =>
                  obtain ⟨rfl, habsent⟩ := step
                  change Runs fileEnv (if error.rawOsError = some 2 ∨ error.rawOsError = some 3 then
                    markRetainedFileDelete journal.file else _) disk₁ trace r disk' at rest
                  split at rest
                  · next hcode =>
                      have hsame := disk_eq_of_markRetainedFileDelete rest
                      subst hsame
                      exact ⟨hunpoisoned, ⟨htorn, hissue⟩, ((h hunpoisoned).whole htorn).2,
                        hintent, activeLeaf, hphase, habsent hcode⟩
                  · split at rest
                    · exact absurd hmarks (not_marks_of_refused hpast rest)
                    · exact absurd hmarks (not_marks_of_refused hpast rest)
      · exact absurd hmarks (not_marks_of_refused not_marks_nil run)
  · exact absurd hmarks (not_marks_of_refused not_marks_nil run)

/-- A journal whose file holds an unfinished transaction is not deleted. -/
theorem Tracks.refuses_of_unfinished (h : journal.Tracks disk) {records : List JournalRecord}
    (hrecords : HasRecords (disk.files journal.file).content records)
    (hunfinished : Unfinished records) :
    journal.markDeleteIfSafe = pure (.error unsafeCleanupError) ∧
      journal.markUnactivatedIntentDelete = pure (.error unsafeCleanupError) := by
  constructor
  · rw [markDeleteIfSafe]
    split
    · next hsafe =>
        have hdeletable := h.deletable hsafe
        have heq := hrecords.eq_of_frames hdeletable.frames
        rcases hdeletable.finished with ⟨-, hdecision⟩ | ⟨-, -, hempty⟩
        · exact absurd (heq ▸ hunfinished) (not_unfinished_of_cleanupDecision hdecision)
        · obtain ⟨step, direction, hmem⟩ := hunfinished.1
          rw [← heq, hempty] at hmem
          cases hmem
    · rfl
  · rw [markUnactivatedIntentDelete]
    split
    · split
      · next hcomplete =>
          simp only [isCompleteIntentCandidate, Bool.and_eq_true, Bool.not_eq_true',
            decide_eq_true_eq, isIntentOnly_iff, Option.isNone_iff_eq_none] at hcomplete
          obtain ⟨⟨⟨⟨⟨-, hunpoisoned⟩, -⟩, ⟨plan, steps, hintent⟩⟩, htorn⟩, -⟩ := hcomplete
          have heq := hrecords.eq_of_frames ((h hunpoisoned).whole htorn).2
          obtain ⟨step, direction, hmem⟩ := hunfinished.1
          rw [← heq, hintent] at hmem
          simp at hmem
      · rfl
    · rfl

end Marking

end FileJournal

namespace JournalSession

open FileJournal

/-- What a session lets be deleted. -/
structure Guards (s : JournalSession) : Prop where
  deletes : ∀ journal, s.journal = some journal → ∀ trace r disk',
    Runs fileEnv journal.markDeleteIfSafe s.disk trace r disk' →
    r = some (.ok ()) ∨ Marks trace → journal.Deletable (s.disk.files journal.file).content
  unactivated : ∀ journal, s.journal = some journal → ∀ trace r disk',
    Runs fileEnv journal.markUnactivatedIntentDelete s.disk trace r disk' →
    r = some (.ok ()) ∨ Marks trace → journal.Unactivated disk'
  uncertain : ∀ journal, s.journal = some journal → journal.phase = .promotionUncertain →
    journal.markDeleteIfSafe = pure (.error unsafeCleanupError) ∧
      journal.markUnactivatedIntentDelete = pure (.error unsafeCleanupError)
  unfinished : ∀ journal, s.journal = some journal → ∀ records,
    HasRecords (s.disk.files journal.file).content records → Unfinished records →
    journal.markDeleteIfSafe = pure (.error unsafeCleanupError) ∧
      journal.markUnactivatedIntentDelete = pure (.error unsafeCleanupError)

/-- Whatever happened to the journals of a session, nothing unfinished is deleted. -/
theorem reached_guards {s : JournalSession} (h : s.Reached fun _ => True) : s.Guards where
  deletes := fun journal hjournal _ _ _ run hmarks =>
    (h.sound.tracks journal hjournal).deletable (safeToDelete_of_markDeleteIfSafe run hmarks)
  unactivated := fun journal hjournal _ _ _ run hmarks =>
    (h.sound.tracks journal hjournal).unactivated run hmarks
  uncertain := by
    intro journal _ hphase
    constructor
    · have hunsafe : journal.safeToDelete = false := by
        simp [safeToDelete, hphase]
      rw [markDeleteIfSafe, hunsafe]
      rfl
    · simp [markUnactivatedIntentDelete, hphase]
  unfinished := fun journal hjournal _ hrecords hunfinished =>
    (h.sound.tracks journal hjournal).refuses_of_unfinished hrecords hunfinished

/-- The journal of the sample is empty and can be marked when it is opened. From the durable
Prepared record on neither call marks it, also not when the disk was full. -/
theorem reached_guards_sample : (∀ n, (sampleSession n).Guards) ∧
    (sampleSession 1).journal = some emptyJournal ∧
    Runs fileEnv emptyJournal.markDeleteIfSafe (sampleSession 1).disk
      [⟨.markDelete 0, (.ok () : Except IoError Unit)⟩] (some (.ok ())) (sampleSession 1).disk ∧
    ∀ journal, (sampleSession 3).journal = some journal →
      HasRecords ((sampleSession 3).disk.files journal.file).content
        [.intent ⟨7⟩ [sampleStep], .prepared 0 .forward] ∧
      Unfinished [.intent ⟨7⟩ [sampleStep], .prepared 0 .forward] ∧
      journal.markDeleteIfSafe = pure (.error unsafeCleanupError) ∧
      journal.markUnactivatedIntentDelete = pure (.error unsafeCleanupError) := by
  have hreached : ∀ n, (sampleSession n).Reached fun _ => True :=
    fun n => (reached_sampleSession n).mono fun _ _ => trivial
  refine ⟨fun n => reached_guards (hreached n), by decide +kernel,
    .call rfl (.done (Except.ok ()) _),
    ?_⟩
  intro journal hjournal
  have hprepared : (sampleSession 3).journal.map (fun journal =>
      (journal.poisoned, journal.tornPrefix, journal.records)) =
        some (false, none, [.intent ⟨7⟩ [sampleStep], .prepared 0 .forward]) := by
    decide +kernel
  rw [hjournal] at hprepared
  obtain ⟨hunpoisoned, hrest⟩ := Prod.mk.inj (Option.some.inj hprepared)
  obtain ⟨hwhole, hrecords⟩ := Prod.mk.inj hrest
  have hframes := (((hreached 3).sound.tracks journal hjournal hunpoisoned).whole hwhole).2
  rw [hrecords] at hframes
  have hunfinished : Unfinished [.intent ⟨7⟩ [sampleStep], .prepared 0 .forward] :=
    ⟨⟨0, .forward, by simp⟩, by decide⟩
  have hhas := hasRecords_of_frames hframes
  exact ⟨hhas, hunfinished,
    (reached_guards (hreached 3)).unfinished journal hjournal _ hhas hunfinished⟩

end JournalSession

end DarkReNamer
