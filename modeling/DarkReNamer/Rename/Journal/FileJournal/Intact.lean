import DarkReNamer.Rename.Journal.Codec.Complete
import DarkReNamer.Rename.Journal.FileJournal

/-!
# A journal in step with its file

An unpoisoned journal is in step with its file (`Intact`): the content is the complete frames
of its records, or what the inspection found when it was opened with a torn tail, and the cached
lengths are those of the content. Every operation leaves an unpoisoned journal in step, an
operation that did not append leaves the records and the complete frames alone, and one that
may have appended leaves the journal poisoned.
-/

namespace DarkReNamer

open Interaction

namespace FileJournal

/-- The cached fields agree with the file. -/
structure Intact (journal : FileJournal) (state : FileState) : Prop where
  byteLength : journal.byteLength = state.content.length
  cursor : state.cursor = state.content.length
  fits : state.content.length ≤ maxJournalFileBytes
  few : journal.records.length ≤ maxJournalFrames
  nextSequence : journal.nextSequence = journal.records.length
  whole : journal.tornPrefix = none →
    journal.tailIssue = none ∧ Frames 0 state.content journal.records
  torn : ∀ validBytes, journal.tornPrefix = some validBytes → ∃ issue,
    journal.tailIssue = some issue ∧
      inspectJournalRecords state.content = .ok ⟨journal.records, some issue, validBytes⟩

/-- The phase has no part in it. -/
theorem Intact.withPhase {journal : FileJournal} {state : FileState} (h : journal.Intact state)
    (path : LegacyText) (phase : FileJournalPhase) (poisoned : Bool) :
    Intact { journal with path, phase, poisoned } state :=
  ⟨h.byteLength, h.cursor, h.fits, h.few, h.nextSequence, h.whole, h.torn⟩

/-- An unpoisoned journal is in step with its file. -/
def Tracks (journal : FileJournal) (disk : Disk) : Prop :=
  journal.poisoned = false → journal.Intact (disk.files journal.file)

/-- The bytes of the complete frames. -/
def completeFrames (journal : FileJournal) (disk : Disk) : List UInt8 :=
  (disk.files journal.file).content.take (journal.tornPrefix.getD journal.byteLength)

/-- The file has no content but its present one. -/
def Synced (journal : FileJournal) (disk : Disk) : Prop :=
  (disk.files journal.file).survivors = {(disk.files journal.file).content}

/-- What an operation leaves, as far as its result tells. -/
structure Settles (journal : FileJournal) (disk : Disk) (outcome : Outcome) (disk' : Disk) :
    Prop where
  tracks : outcome.2.Tracks disk'
  unpoisoned : outcome.1 = .ok () → outcome.2.poisoned = false
  synced : outcome.1 = .ok () → outcome.2.Synced disk'
  file_eq : outcome.2.file = journal.file
  extends_records : journal.records <+: outcome.2.records
  notAppended : ∀ error, outcome.1 = .error error → error.certainty = .notAppended →
    outcome.2.records = journal.records ∧
      outcome.2.completeFrames disk' = journal.completeFrames disk
  mayHaveAppended : ∀ error, outcome.1 = .error error → error.certainty = .mayHaveAppended →
    outcome.2.poisoned = true

section Rules

variable {journal : FileJournal} {disk : Disk} {outcome : Outcome}

/-- A program over the files, with no condition on the runs that are cut. -/
abbrev Gives {α : Type} (p : FileProgram α) (post : α → Disk → Prop) (disk : Disk) : Prop :=
  Spec fileEnv (fun _ => True) p post disk

theorem gives_ask {c : FileCall} {post : FileAnswer c → Disk → Prop}
    (h : ∀ answer disk', fileEnv disk c answer disk' → post answer disk') :
    Gives (Program.ask c) post disk :=
  ⟨trivial, fun answer disk' step => ⟨trivial, h answer disk' step⟩⟩

theorem gives_pure {α : Type} {a : α} {post : α → Disk → Prop} (h : post a disk) :
    Gives (pure a) post disk := ⟨trivial, h⟩

theorem tracks_of_poisoned (h : journal.poisoned = true) : journal.Tracks disk := by
  intro hpoisoned
  rw [h] at hpoisoned
  cases hpoisoned

theorem journalIoMayHaveAppended_certainty (error : IoError) :
    (journalIoMayHaveAppended error).certainty = .mayHaveAppended := rfl

/-- An operation that ends with a poisoned journal. -/
theorem settles_poisoned {journal' : FileJournal} {error : JournalError} {disk' : Disk}
    (hpoisoned : journal'.poisoned = true) (herror : error.certainty = .mayHaveAppended)
    (hfile : journal'.file = journal.file) (hrecords : journal.records <+: journal'.records) :
    journal.Settles disk (.error error, journal') disk' where
  tracks := tracks_of_poisoned hpoisoned
  unpoisoned := by simp
  synced := by simp
  file_eq := hfile
  extends_records := hrecords
  notAppended := by
    rintro _ ⟨⟩ hcertainty
    rw [herror] at hcertainty
    cases hcertainty
  mayHaveAppended := by
    rintro _ ⟨⟩ -
    exact hpoisoned

/-- An operation refused before it touched the file. -/
theorem settles_refused (h : journal.Tracks disk) {error : JournalError}
    (herror : error.certainty = .notAppended) :
    journal.Settles disk (.error error, journal) disk where
  tracks := h
  unpoisoned := by simp
  synced := by simp
  file_eq := rfl
  extends_records := List.prefix_rfl
  notAppended := by
    rintro _ ⟨⟩ -
    exact ⟨rfl, rfl⟩
  mayHaveAppended := by
    rintro _ ⟨⟩ hcertainty
    rw [herror] at hcertainty
    cases hcertainty

theorem settles_ok {journal' : FileJournal} {disk' : Disk} (hunpoisoned : journal'.poisoned = false)
    (h : journal'.Intact (disk'.files journal'.file)) (hsynced : journal'.Synced disk')
    (hfile : journal'.file = journal.file) (hrecords : journal.records <+: journal'.records) :
    journal.Settles disk (.ok (), journal') disk' :=
  ⟨fun _ => h, fun _ => hunpoisoned, fun _ => hsynced, hfile, hrecords, by simp, by simp⟩

/-- A call of a change: its error poisons, and behind its success comes what is left. -/
theorem gives_orPoisoned {call : FileProgram (Except IoError Unit)} {next : FileProgram Outcome}
    {started : FileJournal} {post : Outcome → Disk → Prop}
    (hpoisoned : ∀ error disk', post (.error (journalIoMayHaveAppended error), started) disk')
    (h : Gives call (fun r disk' => r = .ok () → Gives next post disk') disk) :
    Gives (orPoisoned call started next) post disk := by
  unfold orPoisoned Gives
  rw [Spec.bind_iff]
  refine h.mono fun r disk' hr => ?_
  cases r with
  | error error => exact gives_pure (hpoisoned error disk')
  | ok _ => exact hr rfl

/-- The calls that leave the files alone when they succeed. -/
theorem gives_flush {file : FileId} {next : FileProgram Outcome} {post : Outcome → Disk → Prop}
    (h : Gives next post disk) :
    Gives (Disk.flush file) (fun r disk' => r = .ok () → Gives next post disk') disk := by
  refine gives_ask fun answer disk' step _ => ?_
  have hsame : disk' = disk := by
    cases answer <;> exact step
  rw [hsame]
  exact h

end Rules

section Append

variable {journal : FileJournal} {disk : Disk}

/-- The journal behind an append that succeeded. -/
def appended (journal : FileJournal) (record : JournalRecord) (frame : List UInt8) :
    FileJournal :=
  { journal with
    poisoned := false
    byteLength := journal.byteLength + frame.length
    records := journal.records ++ [record]
    generation := saturatingAdd u64Max journal.generation 1
    nextSequence := saturatingAdd u64Max journal.nextSequence 1 }

theorem Intact.appended {state : FileState} (h : journal.Intact state)
    (hwhole : journal.tornPrefix = none) {record : JournalRecord} {frame : List UInt8}
    (hfew : journal.records.length < maxJournalFrames)
    (hframe : encodeFrame journal.nextSequence record journal.records.length = .ok frame)
    (hfits : journal.byteLength + frame.length ≤ maxJournalFileBytes) :
    (journal.appended record frame).Intact (state.written frame frame).synced := by
  obtain ⟨hstorable, hbytes⟩ := encodeFrame_eq_ok_iff.1 hframe
  rw [h.nextSequence] at hbytes
  have hcontent : (state.written frame frame).content = state.content ++ frame := by
    rw [FileState.written, h.cursor]
    exact overwrite_end _ _
  have hframes : Frames 0 (state.content ++ frame) (journal.records ++ [record]) := by
    have hindex : 0 + journal.records.length < 2 ^ 64 := by
      rw [Nat.zero_add]
      exact lt_two_pow_of_le_maxJournalFrames hfew.le
    have hconcat := (h.whole hwhole).2.concat hstorable hindex
    rw [Nat.zero_add] at hconcat
    rw [hbytes]
    exact hconcat
  have hsmall : journal.records.length + 1 ≤ u64Max := by
    have hbound : maxJournalFrames ≤ u64Max := by decide
    omega
  rw [h.byteLength] at hfits
  refine
    { byteLength := ?_
      cursor := ?_
      fits := ?_
      few := ?_
      nextSequence := ?_
      whole := fun _ => ⟨(h.whole hwhole).1, ?_⟩
      torn := fun validBytes htorn => ?_ }
  · rw [FileState.synced, hcontent, List.length_append, FileJournal.appended, h.byteLength]
  · rw [FileState.synced, hcontent, List.length_append]
    exact congrArg (· + frame.length) h.cursor
  · rw [FileState.synced, hcontent, List.length_append]
    exact hfits
  · rw [FileJournal.appended, List.length_append]
    exact hfew
  · rw [FileJournal.appended, List.length_append, h.nextSequence, saturatingAdd_eq hsmall]
    rfl
  · rw [FileState.synced, hcontent]
    exact hframes
  · have hnone : journal.tornPrefix = some validBytes := htorn
    rw [hwhole] at hnone
    cases hnone

theorem le_of_saturatingAdd_le {a b bound : ℕ} (hbound : bound < usizeMax)
    (h : saturatingAdd usizeMax a b ≤ bound) : a + b ≤ bound := by
  unfold saturatingAdd at h
  omega

theorem gives_append (h : journal.Tracks disk) (record : JournalRecord) :
    Gives (journal.append record) (journal.Settles disk) disk := by
  unfold append
  split
  · next hpoisoned => exact gives_pure (settles_poisoned hpoisoned rfl rfl List.prefix_rfl)
  · next hunpoisoned =>
      have hintact := h (Bool.eq_false_iff.2 hunpoisoned)
      split
      · exact gives_pure (settles_refused h rfl)
      · next hwhole =>
          rw [Bool.not_eq_true, Option.isSome_eq_false_iff, Option.isNone_iff_eq_none] at hwhole
          split
          · exact gives_pure (settles_refused h rfl)
          · next hfew =>
              split
              · exact gives_pure (settles_refused h rfl)
              · next frame hframe =>
                  split
                  · exact gives_pure (settles_refused h rfl)
                  · next hfits =>
                      have hpoisoned : ∀ error disk', journal.Settles disk
                          (.error (journalIoMayHaveAppended error),
                            { journal with poisoned := true }) disk' :=
                        fun error disk' => settles_poisoned rfl rfl rfl List.prefix_rfl
                      refine gives_orPoisoned hpoisoned (gives_ask fun answer disk₁ step hok => ?_)
                      subst hok
                      obtain rfl : disk₁ = disk.setFile journal.file
                        ((disk.files journal.file).written frame frame) := step
                      refine gives_orPoisoned hpoisoned (gives_flush ?_)
                      refine gives_orPoisoned hpoisoned (gives_ask fun answer disk₂ step hok => ?_)
                      subst hok
                      have hbound := le_of_saturatingAdd_le (by decide) (Nat.not_lt.1 hfits)
                      have happended := hintact.appended hwhole (Nat.not_le.1 hfew) hframe hbound
                      have hfiles : disk₂.files journal.file =
                          ((disk.files journal.file).written frame frame).synced := by
                        rw [step]
                        simp
                      rw [← hfiles] at happended
                      have hsynced : journal.Synced disk₂ := by
                        rw [Synced, hfiles]
                        rfl
                      exact gives_pure (settles_ok rfl happended hsynced rfl
                        (List.prefix_append _ _))

end Append

section Repair

variable {journal : FileJournal} {disk : Disk}

/-- The journal behind a repair. -/
def repaired (journal : FileJournal) (validBytes : ℕ) : FileJournal :=
  { journal with
    poisoned := false
    byteLength := validBytes
    tornPrefix := none
    tailIssue := none
    generation := saturatingAdd u64Max journal.generation 1 }

/-- Without its tail the file is the complete frames. -/
theorem Intact.repaired {state state' : FileState} (h : journal.Intact state) {validBytes : ℕ}
    (htorn : journal.tornPrefix = some validBytes)
    (hcontent : state'.content = resize state.content validBytes)
    (hcursor : state'.cursor = validBytes) : (journal.repaired validBytes).Intact state' := by
  obtain ⟨issue, -, hinspect⟩ := h.torn validBytes htorn
  obtain ⟨hfits, tail, -, hle, hframes, hfew, -, -⟩ := exists_cut_of_inspectJournalRecords hinspect
  rw [resize_of_le hle] at hcontent
  have hlength : state'.content.length = validBytes := by
    rw [hcontent, List.length_take, Nat.min_eq_left hle]
  refine
    { byteLength := hlength.symm
      cursor := hcursor.trans hlength.symm
      fits := hlength.trans_le (hle.trans hfits)
      few := hfew
      nextSequence := h.nextSequence
      whole := fun _ => ⟨rfl, ?_⟩
      torn := by simp [FileJournal.repaired] }
  rw [hcontent]
  exact hframes

/-- What a repair leaves: the complete frames as they were, with no tail behind. -/
structure Repairs (journal : FileJournal) (disk : Disk) (outcome : Outcome) (disk' : Disk) :
    Prop where
  settles : journal.Settles disk outcome disk'
  ok : outcome.1 = .ok () → outcome.2.records = journal.records ∧
    outcome.2.completeFrames disk' = journal.completeFrames disk

theorem gives_repairTornTail (h : journal.Tracks disk) (hunpoisoned : journal.poisoned = false)
    {validBytes : ℕ} (htorn : journal.tornPrefix = some validBytes) :
    Gives (journal.repairTornTail validBytes) (journal.Repairs disk) disk := by
  have hpoisoned : ∀ error disk', journal.Repairs disk (.error (journalIoMayHaveAppended error),
      { journal with poisoned := true }) disk' :=
    fun error disk' => ⟨settles_poisoned rfl rfl rfl List.prefix_rfl, by simp⟩
  unfold repairTornTail
  refine gives_orPoisoned hpoisoned (gives_ask fun answer disk₁ step hok => ?_)
  subst hok
  obtain rfl : disk₁ = disk.setFile journal.file
    ((disk.files journal.file).resized validBytes) := step
  refine gives_orPoisoned hpoisoned (gives_ask fun answer disk₂ step hok => ?_)
  subst hok
  have hcontent₂ : (disk₂.files journal.file).content =
      resize (disk.files journal.file).content validBytes := by
    rw [step]
    simp [FileState.resized]
  have hcursor₂ : (disk₂.files journal.file).cursor = validBytes := by
    rw [step]
    simp
  refine gives_orPoisoned hpoisoned (gives_flush ?_)
  refine gives_orPoisoned hpoisoned (gives_ask fun answer disk₃ step hok => ?_)
  subst hok
  have hcontent : (disk₃.files journal.file).content =
      resize (disk.files journal.file).content validBytes := by
    rw [step, Disk.files_setFile]
    exact hcontent₂
  have hcursor : (disk₃.files journal.file).cursor = validBytes := by
    rw [step, Disk.files_setFile]
    exact hcursor₂
  have hintact := h hunpoisoned
  obtain ⟨issue, -, hinspect⟩ := hintact.torn validBytes htorn
  obtain ⟨-, -, -, hle, -⟩ := exists_cut_of_inspectJournalRecords hinspect
  have hsynced : (disk₃.files journal.file).survivors = {(disk₃.files journal.file).content} := by
    rw [step, Disk.files_setFile]
    rfl
  refine gives_pure ⟨settles_ok rfl (hintact.repaired htorn hcontent hcursor) hsynced rfl
    List.prefix_rfl, fun _ => ⟨rfl, ?_⟩⟩
  show ((disk₃.files journal.file).content.take validBytes) = _
  rw [hcontent, resize_of_le hle, List.take_take, Nat.min_self, completeFrames, htorn]
  rfl

end Repair

section Operations

variable {journal : FileJournal} {disk : Disk}

theorem gives_appendActive (h : journal.Tracks disk) (record : JournalRecord) :
    Gives (journal.appendActive record) (journal.Settles disk) disk := by
  unfold appendActive requireActive
  split
  · next error herror =>
      split_ifs at herror with hpoisoned hphase
      · obtain rfl := Except.error.inj herror
        exact gives_pure (settles_poisoned hpoisoned rfl rfl List.prefix_rfl)
      · obtain rfl := Except.error.inj herror
        exact gives_pure (settles_refused h rfl)
  · exact gives_append h record

/-- A promotion behind an append moves the file alone, or leaves the journal poisoned. -/
theorem gives_promoteCandidate {journal₀ : FileJournal} {disk₀ : Disk}
    (h : journal₀.Settles disk₀ (.ok (), journal) disk) :
    Gives journal.promoteCandidate (journal₀.Settles disk₀) disk := by
  unfold promoteCandidate
  split
  · next activeLeaf hphase =>
      unfold Gives
      rw [Spec.bind_iff]
      refine gives_ask fun answer disk' step => ?_
      cases answer with
      | error error => exact gives_pure (settles_poisoned rfl rfl h.file_eq h.extends_records)
      | ok _ =>
          obtain ⟨-, rfl⟩ := step
          have hintact := h.tracks (h.unpoisoned rfl)
          exact gives_pure (settles_ok rfl (hintact.withPhase activeLeaf .active false)
            (h.synced rfl) h.file_eq h.extends_records)
  · exact gives_pure h

theorem gives_begin (h : journal.Tracks disk) (plan : PlanId) (steps : List JournalStep) :
    Gives (journal.begin plan steps) (journal.Settles disk) disk := by
  unfold «begin»
  split
  · next hpoisoned => exact gives_pure (settles_poisoned hpoisoned rfl rfl List.prefix_rfl)
  · split
    · exact gives_pure (settles_refused h rfl)
    · unfold Gives
      rw [Spec.bind_iff]
      refine (gives_append h _).mono fun outcome disk' hsettles => ?_
      obtain ⟨result, journal'⟩ := outcome
      cases result with
      | error error => exact gives_pure hsettles
      | ok _ => exact gives_promoteCandidate hsettles

/-- An operation behind a repair settles what the repair was for. -/
theorem Repairs.settles_of {outcome outcome' : Outcome} {disk' disk'' : Disk}
    (h : journal.Repairs disk outcome disk') (hok : outcome.1 = .ok ())
    (h' : outcome.2.Settles disk' outcome' disk'') : journal.Settles disk outcome' disk'' := by
  obtain ⟨hrecords, hframes⟩ := h.ok hok
  refine ⟨h'.tracks, h'.unpoisoned, h'.synced, h'.file_eq.trans h.settles.file_eq,
    hrecords ▸ h'.extends_records, fun error herror hcertainty => ?_, h'.mayHaveAppended⟩
  obtain ⟨hrecords', hframes'⟩ := h'.notAppended error herror hcertainty
  exact ⟨hrecords'.trans hrecords, hframes'.trans hframes⟩

theorem gives_appendAuthorized (h : journal.Tracks disk) (authorization : JournalAuthorization)
    (record : JournalRecord) :
    Gives (journal.appendAuthorized authorization record)
      (fun outcome => journal.Settles disk outcome.1) disk := by
  unfold appendAuthorized Gives
  rw [Spec.bind_iff]
  refine (gives_append h record).mono fun outcome disk' hsettles => ?_
  obtain ⟨result, journal'⟩ := outcome
  cases result with
  | error error => exact gives_pure hsettles
  | ok _ => exact gives_pure hsettles

theorem gives_authorizedAppend (h : journal.Tracks disk) (authorization : JournalAuthorization)
    (record : JournalRecord) :
    Gives (journal.authorizedAppend authorization record)
      (fun outcome => journal.Settles disk outcome.1) disk := by
  unfold authorizedAppend requireActive
  split
  · next hpoisoned => exact gives_pure (settles_poisoned hpoisoned rfl rfl List.prefix_rfl)
  · next hunpoisoned =>
      split
      · next error herror =>
          split_ifs at herror
          obtain rfl := Except.error.inj herror
          exact gives_pure (settles_refused h rfl)
      · split
        · exact gives_pure (settles_refused h rfl)
        · split
          · exact gives_appendAuthorized h authorization record
          · next validBytes htorn =>
              have hunpoisoned := Bool.eq_false_iff.2 hunpoisoned
              unfold Gives
              rw [Spec.bind_iff]
              refine (gives_repairTornTail h hunpoisoned htorn).mono
                fun outcome disk' hrepairs => ?_
              obtain ⟨result, journal'⟩ := outcome
              cases result with
              | error error => exact gives_pure hrepairs.settles
              | ok _ =>
                  exact (gives_appendAuthorized hrepairs.settles.tracks _ record).mono
                    fun outcome' disk'' hsettles => hrepairs.settles_of rfl hsettles

end Operations

end FileJournal

end DarkReNamer
