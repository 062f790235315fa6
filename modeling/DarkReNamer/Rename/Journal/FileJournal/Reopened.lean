import DarkReNamer.Rename.Journal.FileJournal.Salvage

/-!
# Files at rest

A process that starts finds files at rest: each of them has one content, which no crash changes.
An opening moves cursors and names alone, so the journal that it opens is kept.
-/

namespace DarkReNamer

open Interaction

namespace FileJournal

variable {journal : FileJournal} {disk disk' disk'' : Disk} {α ε : Type}

/-- No file has changed. -/
def SameContents (disk disk' : Disk) : Prop :=
  ∀ file, (disk'.files file).content = (disk.files file).content ∧
    (disk'.files file).survivors = (disk.files file).survivors

/-- A crash changes no file. -/
def AtRest (disk : Disk) : Prop :=
  ∀ file, (disk.files file).survivors = {(disk.files file).content}

theorem SameContents.refl (disk : Disk) : SameContents disk disk := fun _ => ⟨rfl, rfl⟩

theorem SameContents.leavings (h : SameContents disk disk') (file : FileId) :
    leavings disk' file = leavings disk file := by
  unfold FileJournal.leavings
  rw [(h file).1, (h file).2]

theorem SameContents.atRest (h : SameContents disk disk') (hrest : AtRest disk) :
    AtRest disk' := by
  intro file
  rw [(h file).1, (h file).2, hrest file]

theorem AtRest.leavings (h : AtRest disk) (file : FileId) :
    leavings disk file = {(disk.files file).content} := by
  rw [FileJournal.leavings, h file]
  exact Set.insert_eq_of_mem rfl

theorem atRest_of_crashed (h : Crashed disk disk') : AtRest disk' := fun file => (h file).2

theorem leavings_of_crashed (h : Crashed disk disk') (file : FileId) :
    leavings disk' file ⊆ leavings disk file := by
  rw [(atRest_of_crashed h).leavings file]
  rintro content rfl
  exact .inr (h file).1

theorem AtRest.present (h : AtRest disk) : Present disk := by
  intro file
  rw [h file]
  rfl

theorem SameContents.setFile (h : SameContents disk disk') {file : FileId} {state : FileState}
    (hcontent : state.content = (disk.files file).content)
    (hsurvivors : state.survivors = (disk.files file).survivors) :
    SameContents disk (disk'.setFile file state) := by
  intro other
  by_cases hother : other = file
  · rw [hother, Disk.files_setFile]
    exact ⟨hcontent, hsurvivors⟩
  · have hkept : (disk'.setFile file state).files other = disk'.files other := if_neg hother
    rw [hkept]
    exact h other

theorem SameContents.setCursor (h : SameContents disk disk') (file : FileId) (cursor : ℕ) :
    SameContents disk (disk'.setFile file { disk'.files file with cursor }) :=
  h.setFile (h file).1 (h file).2

/-- A file at rest is as it was after a sync. -/
theorem SameContents.step {c : FileCall} {answer : FileAnswer c} (hrest : AtRest disk)
    (h : SameContents disk disk') (hquiet : Quiet c) (step : fileEnv disk' c answer disk'') :
    SameContents disk disk'' := by
  cases c with
  | createLeaf leaf =>
      cases answer with
      | error error => exact step ▸ h
      | ok file => exact step.2.2 ▸ h
  | openLeaf leaf =>
      cases answer with
      | error error => exact step ▸ h
      | ok file => exact step.2 ▸ h.setCursor file 0
  | openExisting leaf =>
      cases answer with
      | error error => exact step.1 ▸ h
      | ok file => exact step.2 ▸ h
  | metadata file =>
      cases answer with
      | error error => exact step ▸ h
      | ok metadata => exact step.2 ▸ h
  | seekStart file position =>
      cases answer with
      | error error =>
          obtain ⟨cursor, rfl⟩ := step
          exact h.setCursor file cursor
      | ok _ => exact step ▸ h.setCursor file position
  | seekEnd file =>
      cases answer with
      | error error =>
          obtain ⟨cursor, rfl⟩ := step
          exact h.setCursor file cursor
      | ok _ => exact step ▸ h.setCursor file _
  | readToEnd file limit =>
      cases answer with
      | error error =>
          obtain ⟨cursor, rfl⟩ := step
          exact h.setCursor file cursor
      | ok bytes => exact step.2 ▸ h.setCursor file _
  | writeAll file bytes => exact hquiet.elim
  | setLen file length => exact hquiet.elim
  | syncAll file =>
      cases answer with
      | error error => exact step ▸ h
      | ok _ =>
          obtain rfl : disk'' = disk'.setFile file (disk'.files file).synced := step
          refine h.setFile (h file).1 ?_
          rw [hrest file, ← (h file).1]
          rfl
  | promoteNoReplace file candidate active =>
      cases answer with
      | error error =>
          rcases step with rfl | ⟨-, rfl⟩
          · exact h
          · exact h
      | ok _ => exact step.2 ▸ h
  | combinedIdentity | symlinkMetadata leaf | validatePrivateLeaf file | isSingleLinked file
  | cloneRoot | flush file | markDelete file =>
      cases answer <;> exact step ▸ h

theorem rests_of_reads {p : ExceptT ε FileProgram α} (hrest : AtRest disk) (h : Reads p) :
    Spec fileEnv (SameContents disk) p.run (fun _ => SameContents disk) disk :=
  (Confined.spec (I := SameContents disk) h
    (fun _ _ _ _ hquiet hsame step => SameContents.step hrest hsame hquiet step)
    (SameContents.refl disk)).mono fun _ _ hpost => hpost.1

theorem rests_opening (hrest : AtRest disk) (opening : JournalOpening) :
    Spec fileEnv (SameContents disk) opening.program (fun _ => SameContents disk) disk := by
  cases opening with
  | createNew leaf =>
      exact (Spec.map_iff _ _ _ _).2 (rests_of_reads hrest (reads_createNew leaf))
  | createCandidate candidateLeaf activeLeaf =>
      exact (Spec.map_iff _ _ _ _).2
        (rests_of_reads hrest (reads_createCandidate candidateLeaf activeLeaf))
  | openExisting leaf =>
      exact (Spec.map_iff _ _ _ _).2 (rests_of_reads hrest (reads_openExistingRetained leaf))
  | openCandidateExisting candidateLeaf activeLeaf =>
      exact (Spec.map_iff _ _ _ _).2
        (rests_of_reads hrest (reads_openCandidateExistingRetained candidateLeaf activeLeaf))

/-- An opening of files at rest, finished or cut, leaves them as they were. -/
theorem sameContents_of_opening (hrest : AtRest disk) {opening : JournalOpening}
    {trace : List FileEvent} {r : Option (Option FileJournal)}
    (run : Runs fileEnv opening.program disk trace r disk') : SameContents disk disk' :=
  ((rests_opening hrest opening).sound run).1

/-- A journal that was opened is kept. -/
theorem kept_of_opening (hrest : AtRest disk) {opening : JournalOpening} {trace : List FileEvent}
    (run : Runs fileEnv opening.program disk trace (some (some journal)) disk') :
    journal.Kept disk' ∧ Salvages journal.file (· = journal.records) disk' := by
  obtain ⟨hunpoisoned, hintact, hreplays⟩ :=
    ((JournalSession.gives_opening opening).sound run).2 _ rfl journal rfl
  have hrest' := (sameContents_of_opening hrest run).atRest hrest
  have hsalvages := hintact.salvages (hrest' journal.file) hreplays
  exact ⟨⟨fun _ => hintact, fun _ => hsalvages⟩, hsalvages⟩

end FileJournal

end DarkReNamer
