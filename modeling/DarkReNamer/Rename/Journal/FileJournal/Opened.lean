import DarkReNamer.Rename.Journal.FileJournal.Intact

/-!
# Opening a journal

A journal that was created is in step with an empty file, and one that was opened is in step
with what the inspection of its file found.
-/

namespace DarkReNamer

open Interaction

namespace FileJournal

/-- A journal as it is opened: in step with its file, with records that replay. -/
structure Opened (journal : FileJournal) (disk : Disk) : Prop where
  unpoisoned : journal.poisoned = false
  intact : journal.Intact (disk.files journal.file)
  replays : (replayJournal journal.records).isCorrupt = false

section Rules

variable {α β ε : Type} {disk : Disk} {post : β → Disk → Prop}

/-- Every value that a program over the files returns satisfies a condition. -/
abbrev Returns (p : ExceptT ε FileProgram β) (post : β → Disk → Prop) (disk : Disk) : Prop :=
  Gives p.run (fun r disk' => ∀ b, r = .ok b → post b disk') disk

theorem returns_pure {b : β} (h : post b disk) :
    Returns (pure b : ExceptT ε FileProgram β) post disk := by
  refine gives_pure ?_
  rintro _ ⟨⟩
  exact h

theorem returns_throw (error : ε) :
    Returns (throw error : ExceptT ε FileProgram β) post disk :=
  gives_pure (by simp)

theorem returns_bind {p : ExceptT ε FileProgram α} {next : α → ExceptT ε FileProgram β}
    (h : Returns p (fun a disk' => Returns (next a) post disk') disk) :
    Returns (p >>= next) post disk := by
  unfold Returns Gives
  rw [Spec.except_bind_iff]
  refine h.mono fun r disk' hr => ?_
  cases r with
  | error error => exact ⟨trivial, by simp⟩
  | ok a => exact hr a rfl

theorem returns_attempt {call : FileProgram (Except IoError α)} {failure : IoError → ε}
    {post : α → Disk → Prop}
    (h : Gives call (fun r disk' => ∀ a, r = .ok a → post a disk') disk) :
    Returns (attempt call failure) post disk := by
  unfold attempt Returns Gives
  rw [Spec.except_lift_bind_iff]
  refine h.mono fun r disk' hr => ?_
  cases r with
  | error error => exact returns_throw _
  | ok a => exact returns_pure (hr a rfl)

/-- A check that ends the program. -/
theorem returns_check {check : Prop} [Decidable check] {error : ε}
    {next : PUnit → ExceptT ε FileProgram β} (h : ¬ check → Returns (next ⟨⟩) post disk) :
    Returns (if check then throw error >>= next else next ⟨⟩) post disk := by
  split
  · exact returns_bind (returns_throw error)
  · next hpassed => exact h hpassed

theorem returns_lift {p : FileProgram β} (h : Gives p post disk) :
    Returns (liftM p : ExceptT ε FileProgram β) post disk := by
  unfold Returns Gives
  rw [Spec.except_lift_iff]
  refine h.mono fun b disk' hb => ?_
  rintro _ ⟨⟩
  exact hb

end Rules

section Create

variable {disk : Disk}

/-- A new journal is in step with its empty file. -/
theorem intact_empty {journal : FileJournal} (hrecords : journal.records = [])
    (hbytes : journal.byteLength = 0) (hsequence : journal.nextSequence = 0)
    (htorn : journal.tornPrefix = none) (hissue : journal.tailIssue = none) :
    journal.Intact .empty where
  byteLength := hbytes
  cursor := rfl
  fits := Nat.zero_le _
  few := by
    rw [hrecords]
    exact Nat.zero_le _
  nextSequence := by
    rw [hrecords]
    exact hsequence
  whole := fun _ => ⟨hissue, hrecords ▸ .nil 0⟩
  torn := by simp [htorn]

theorem returns_validateFileType (file : FileId) :
    Returns (validateFileType file) (fun _ disk' => disk' = disk) disk := by
  unfold validateFileType
  refine returns_bind (returns_attempt (gives_ask fun answer disk' step metadata hok => ?_))
  subst hok
  obtain ⟨-, rfl⟩ := step
  split
  · exact returns_throw _
  · exact returns_pure rfl

theorem returns_createIn (path : LegacyText) (phase : FileJournalPhase) :
    Returns (createIn path phase) Opened disk := by
  unfold createIn
  refine returns_bind (returns_attempt (gives_ask fun answer disk₁ step file hok => ?_))
  subst hok
  obtain ⟨-, hempty, hdisk₁⟩ := step
  refine returns_bind ((returns_validateFileType file).mono fun r disk₂ hsame _ hr => ?_)
  rw [hsame _ hr]
  refine returns_bind (returns_attempt (gives_ask fun answer disk₃ step _ hok => ?_))
  subst hok
  obtain rfl : disk₃ = disk₁ := step
  refine returns_bind (returns_attempt (gives_ask fun answer disk₄ step _ hok => ?_))
  subst hok
  obtain rfl : disk₄ = disk₃ := step
  refine returns_bind (returns_lift (gives_ask fun identity disk₅ step => ?_))
  obtain rfl : disk₅ = disk₄ := step
  refine returns_pure ⟨rfl, ?_, rfl⟩
  rw [hdisk₁, Disk.files_setLeaf, hempty]
  exact intact_empty rfl rfl rfl rfl rfl

theorem returns_createNew (leaf : LegacyText) : Returns (createNew leaf) Opened disk := by
  unfold createNew
  split
  · exact returns_throw _
  · exact returns_createIn _ _

theorem returns_createCandidate (candidateLeaf activeLeaf : LegacyText) :
    Returns (createCandidate candidateLeaf activeLeaf) Opened disk := by
  unfold createCandidate
  split
  · exact returns_throw _
  · exact returns_throw _
  · split
    · exact returns_throw _
    · exact returns_createIn _ _

end Create

section Open

variable {disk : Disk}

/-- Reading a file moves its cursor alone. -/
theorem returns_readJournal (path : LegacyText) (file : FileId) (byteLen : ℕ) :
    Returns (readJournal path file byteLen)
      (fun found disk' => inspectJournalRecords (disk.files file).content = .ok found.2 ∧
        found.1 = (disk.files file).content ∧
        (disk'.files file).content = (disk.files file).content) disk := by
  unfold readJournal
  refine returns_check fun _ => ?_
  refine returns_bind (returns_attempt (gives_ask fun answer disk₁ step _ hok => ?_))
  subst hok
  obtain rfl : disk₁ = disk.setFile file { disk.files file with cursor := 0 } := step
  refine returns_bind (returns_attempt (gives_ask fun answer disk₂ step bytes hok => ?_))
  subst hok
  obtain ⟨hbytes, hdisk₂⟩ := step
  rw [Disk.files_setFile, List.drop_zero] at hbytes
  have hcontent : (disk₂.files file).content = (disk.files file).content := by
    rw [hdisk₂]
    simp
  refine returns_check fun hfits => ?_
  have hwhole : bytes = (disk.files file).content := by
    rw [hbytes, List.length_take] at hfits
    rw [hbytes, List.take_of_length_le]
    omega
  split
  · exact returns_throw _
  · next inspection hinspect =>
      rw [hwhole] at hinspect
      exact returns_pure ⟨hinspect, hwhole, hcontent⟩

/-- What an inspection finds is in step with the file, once the cursor is at its end. -/
theorem opened_of_inspect {journal : FileJournal} {disk : Disk} (inspection : JournalInspection)
    (hinspect : inspectJournalRecords (disk.files journal.file).content = .ok inspection)
    (hcursor : (disk.files journal.file).cursor = (disk.files journal.file).content.length)
    (hrecords : journal.records = inspection.records)
    (hbytes : journal.byteLength = (disk.files journal.file).content.length)
    (hsequence : journal.nextSequence = inspection.records.length)
    (htorn : journal.tornPrefix = inspection.issue.map fun _ => inspection.validBytes)
    (hissue : journal.tailIssue = inspection.issue) (hunpoisoned : journal.poisoned = false) :
    journal.Opened disk := by
  obtain ⟨hfits, tail, hsplit, -, hframes, hfew, hwhole, hreplays⟩ :=
    exists_cut_of_inspectJournalRecords hinspect
  refine
    { unpoisoned := hunpoisoned
      replays := hrecords ▸ hreplays
      intact :=
        { byteLength := hbytes
          cursor := hcursor
          fits := hfits
          few := hrecords ▸ hfew
          nextSequence := hrecords ▸ hsequence
          whole := fun hnone => ?_
          torn := fun validBytes hsome => ?_ } }
  · rw [htorn, Option.map_eq_none_iff] at hnone
    rw [hwhole.1 hnone, List.append_nil] at hsplit
    rw [← hsplit] at hframes
    exact ⟨hissue.trans hnone, hrecords ▸ hframes⟩
  · obtain ⟨issue, hsome', rfl⟩ := Option.map_eq_some_iff.1 (htorn.symm.trans hsome)
    refine ⟨issue, hissue.trans hsome', ?_⟩
    rw [hinspect, hrecords, ← hsome']

theorem returns_openExistingRetained (leaf : LegacyText) :
    Returns (openExistingRetained leaf) Opened disk := by
  unfold openExistingRetained
  split
  · exact returns_throw _
  · next path _ =>
      refine returns_bind (returns_attempt (gives_ask fun answer disk₁ _ link _ => ?_))
      refine returns_check fun _ => ?_
      refine returns_bind (returns_attempt (gives_ask fun answer disk₂ _ file _ => ?_))
      refine returns_bind (returns_attempt (gives_ask fun answer disk₃ _ metadata _ => ?_))
      refine returns_bind (returns_attempt (gives_ask fun answer disk₄ _ _ _ => ?_))
      refine returns_bind (returns_attempt (gives_ask fun answer disk₅ _ hasOneLink _ => ?_))
      refine returns_check fun _ => ?_
      refine returns_bind ((returns_readJournal path file metadata.length).mono
        fun r disk₆ hread found hfound => ?_)
      obtain ⟨hinspect, hbytes, hcontent⟩ := hread found hfound
      refine returns_bind (returns_attempt (gives_ask fun answer disk₇ step _ hok => ?_))
      subst hok
      obtain rfl : disk₇ = disk₆.setFile file
        { disk₆.files file with cursor := (disk₆.files file).content.length } := step
      refine returns_bind (returns_attempt (gives_ask fun answer disk₈ step _ hok => ?_))
      subst hok
      obtain rfl := step
      refine returns_bind (returns_lift (gives_ask fun identity disk₉ step => ?_))
      obtain rfl := step
      refine returns_pure (opened_of_inspect found.2 ?_ ?_ rfl ?_ rfl rfl rfl rfl)
      · simpa [hcontent] using hinspect
      · simp
      · simp [hbytes, hcontent]

theorem returns_openCandidateExistingRetained (candidateLeaf activeLeaf : LegacyText) :
    Returns (openCandidateExistingRetained candidateLeaf activeLeaf) Opened disk := by
  unfold openCandidateExistingRetained
  split
  · exact returns_throw _
  · next activePath _ =>
      refine returns_bind ((returns_openExistingRetained candidateLeaf).mono
        fun r disk' hopened journal hjournal => ?_)
      obtain ⟨hunpoisoned, hintact, hreplays⟩ := hopened journal hjournal
      exact returns_check fun _ => returns_pure
        ⟨hunpoisoned, hintact.withPhase journal.path (.candidate activePath) _, hreplays⟩

end Open

end FileJournal

end DarkReNamer
