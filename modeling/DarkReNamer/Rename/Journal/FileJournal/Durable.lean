import DarkReNamer.Interaction.Confined
import DarkReNamer.Rename.Journal.FileJournal.Opened

/-!
# What a crash leaves of a journal

The records of an operation that succeeded are acknowledged. At every moment, also in the middle
of an operation, every content that a crash may leave begins with the complete frames of the
acknowledged records of its file.
-/

namespace DarkReNamer

open Interaction

section Begins

variable {index : ℕ} {bytes content : List UInt8} {records acknowledged : List JournalRecord}

/-- The content begins with complete frames of the records. -/
def Begins (records : List JournalRecord) (content : List UInt8) : Prop :=
  ∃ front tail, content = front ++ tail ∧ Frames 0 front records

theorem begins_nil (content : List UInt8) : Begins [] content := ⟨[], content, rfl, .nil 0⟩

theorem Begins.append (h : Begins records content) (more : List UInt8) :
    Begins records (content ++ more) := by
  obtain ⟨front, tail, rfl, hframes⟩ := h
  exact ⟨front, tail ++ more, List.append_assoc _ _ _, hframes⟩

/-- Frames of records split where the records do. -/
theorem Frames.split (h : Frames index bytes (acknowledged ++ records)) :
    ∃ front tail, bytes = front ++ tail ∧ Frames index front acknowledged ∧
      Frames (index + acknowledged.length) tail records := by
  induction acknowledged generalizing index bytes with
  | nil => exact ⟨[], bytes, rfl, .nil index, h⟩
  | cons record acknowledged ih =>
      generalize hall : record :: acknowledged ++ records = all at h
      cases h with
      | nil => cases hall
      | @cons _ first rest record' others hfirst hrest =>
          obtain ⟨rfl, rfl⟩ := List.cons.inj hall
          obtain ⟨front, tail, rfl, hfront, htail⟩ := ih hrest
          rw [List.length_cons, Nat.add_comm acknowledged.length, ← Nat.add_assoc]
          exact ⟨first ++ front, tail, (List.append_assoc _ _ _).symm, .cons hfirst hfront, htail⟩

theorem Frames.begins (h : Frames 0 content records) (hextends : acknowledged <+: records) :
    Begins acknowledged content := by
  obtain ⟨more, rfl⟩ := hextends
  obtain ⟨front, tail, hsplit, hfront, -⟩ := h.split
  exact ⟨front, tail, hsplit, hfront⟩

/-- An inspection finds at least the records of the frames that it begins with. -/
theorem prefix_of_inspectFrom {budget offset : ℕ} {rest : List UInt8}
    {found : List JournalRecord} {inspection : JournalInspection}
    (h : Frames found.length bytes records)
    (hinspect : inspectFrom budget found offset (bytes ++ rest) = .ok inspection) :
    found ++ records <+: inspection.records := by
  generalize hindex : found.length = index at h
  induction h generalizing found offset budget with
  | nil index =>
      obtain ⟨front, tail, rs, hcut⟩ := exists_cut_of_inspectFrom hinspect
      rw [List.append_nil, hcut.records_eq]
      exact List.prefix_append _ _
  | @cons index first bytes record records hfirst _ ih =>
      have hne : first ++ bytes ++ rest ≠ [] := by
        simp [hfirst.ne_nil]
      cases budget with
      | zero =>
          rw [inspectFrom, if_neg hne] at hinspect
          cases hinspect
      | succ budget =>
          rw [inspectFrom, if_neg hne, hindex, List.append_assoc, hfirst.read] at hinspect
          have hextends := ih hinspect (by rw [List.length_append, List.length_singleton, hindex])
          rwa [List.append_assoc, List.singleton_append] at hextends

theorem Begins.prefix_of_inspect {inspection : JournalInspection} (h : Begins acknowledged content)
    (hinspect : inspectJournalRecords content = .ok inspection) :
    acknowledged <+: inspection.records := by
  obtain ⟨front, tail, rfl, hframes⟩ := h
  rw [inspectJournalRecords] at hinspect
  split_ifs at hinspect
  have hempty : Frames ([] : List JournalRecord).length front acknowledged := hframes
  exact prefix_of_inspectFrom hempty hinspect

end Begins

/-- What the journal of each file has acknowledged. -/
abbrev Acknowledged : Type := FileId → List JournalRecord

/-- Whatever a crash leaves of the file begins with the records. -/
def FileState.Durable (state : FileState) (records : List JournalRecord) : Prop :=
  Begins records state.content ∧ ∀ content ∈ state.survivors, Begins records content

def Durable (acknowledged : Acknowledged) (disk : Disk) : Prop :=
  ∀ file, (disk.files file).Durable (acknowledged file)

/-- The calls that a durable file survives. -/
def Harmless (acknowledged : Acknowledged) (disk : Disk) : FileCall → Prop
  | .writeAll file _ => (disk.files file).cursor = (disk.files file).content.length
  | .setLen file length =>
      Begins (acknowledged file) (resize (disk.files file).content length)
  | _ => True

section Steps

variable {acknowledged : Acknowledged} {disk disk' : Disk}

theorem Durable.setFile (h : Durable acknowledged disk) {file : FileId} {state : FileState}
    (hstate : state.Durable (acknowledged file)) :
    Durable acknowledged (disk.setFile file state) := by
  intro other
  by_cases hother : other = file
  · rw [hother, Disk.files_setFile]
    exact hstate
  · have hkept : (disk.setFile file state).files other = disk.files other := if_neg hother
    rw [hkept]
    exact h other

theorem FileState.Durable.written {state : FileState} {records : List JournalRecord}
    (h : state.Durable records) (hcursor : state.cursor = state.content.length)
    (bytes left : List UInt8) : (state.written bytes left).Durable records := by
  have hfront : ∀ front, Begins records (overwrite state.content state.cursor front) := by
    intro front
    rw [hcursor, overwrite_end]
    exact h.1.append front
  refine ⟨hfront left, ?_⟩
  rintro content (hmem | ⟨front, -, rfl⟩)
  · exact h.2 content hmem
  · exact hfront front

theorem FileState.Durable.resized {state : FileState} {records : List JournalRecord}
    (h : state.Durable records) {length : ℕ}
    (hkept : Begins records (resize state.content length)) :
    (state.resized length).Durable records := by
  refine ⟨hkept, ?_⟩
  rintro content (rfl | hmem)
  · exact hkept
  · exact h.2 content hmem

theorem FileState.Durable.synced {state : FileState} {records : List JournalRecord}
    (h : state.Durable records) : state.synced.Durable records := by
  refine ⟨h.1, ?_⟩
  rintro content rfl
  exact h.1

/-- A crash leaves what is durable. -/
theorem Durable.crashed (h : Durable acknowledged disk) (crashed : Crashed disk disk') :
    Durable acknowledged disk' := by
  intro file
  obtain ⟨hmem, hsurvivors⟩ := crashed file
  have hbegins := (h file).2 _ hmem
  refine ⟨hbegins, ?_⟩
  rw [hsurvivors]
  rintro content rfl
  exact hbegins

theorem Durable.step {c : FileCall} {answer : FileAnswer c} (h : Durable acknowledged disk)
    (hharmless : Harmless acknowledged disk c) (step : fileEnv disk c answer disk') :
    Durable acknowledged disk' := by
  have hcursor : ∀ file cursor,
      Durable acknowledged (disk.setFile file { disk.files file with cursor }) :=
    fun file cursor => h.setFile (h file)
  have hleaf : ∀ leaf other, Durable acknowledged (disk.setLeaf leaf other) := fun _ _ => h
  cases c with
  | createLeaf leaf =>
      cases answer with
      | error error => exact step ▸ h
      | ok file => exact step.2.2 ▸ h
  | openLeaf leaf =>
      cases answer with
      | error error => exact step ▸ h
      | ok file => exact step.2 ▸ hcursor file 0
  | openExisting leaf =>
      cases answer with
      | error error => exact step.1 ▸ h
      | ok file => exact step.2 ▸ h
  | metadata file =>
      cases answer with
      | error error => exact step ▸ h
      | ok metadata => exact step.2 ▸ h
  | seekStart file position =>
      cases answer with
      | error error =>
          obtain ⟨cursor, rfl⟩ := step
          exact hcursor file cursor
      | ok _ => exact step ▸ hcursor file position
  | seekEnd file =>
      cases answer with
      | error error =>
          obtain ⟨cursor, rfl⟩ := step
          exact hcursor file cursor
      | ok _ => exact step ▸ hcursor file _
  | readToEnd file limit =>
      cases answer with
      | error error =>
          obtain ⟨cursor, rfl⟩ := step
          exact hcursor file cursor
      | ok bytes => exact step.2 ▸ hcursor file _
  | writeAll file bytes =>
      have hwritten : ∀ left, Durable acknowledged
          (disk.setFile file ((disk.files file).written bytes left)) :=
        fun left => h.setFile ((h file).written hharmless bytes left)
      cases answer with
      | error error =>
          obtain ⟨left, -, rfl⟩ := step
          exact hwritten left
      | ok _ => exact step ▸ hwritten bytes
  | syncAll file =>
      cases answer with
      | error error => exact step ▸ h
      | ok _ => exact step ▸ h.setFile (h file).synced
  | setLen file length =>
      have hresized := h.setFile ((h file).resized hharmless)
      cases answer with
      | error error =>
          rcases step with rfl | rfl
          · exact h
          · exact hresized
      | ok _ => exact step ▸ hresized
  | promoteNoReplace file candidate active =>
      cases answer with
      | error error =>
          rcases step with rfl | ⟨-, rfl⟩
          · exact h
          · exact h
      | ok _ => exact step.2 ▸ h
  | combinedIdentity | symlinkMetadata leaf | validatePrivateLeaf file | isSingleLinked file
  | cloneRoot | flush file | markDelete file =>
      cases answer <;> exact step ▸ h

end Steps

namespace FileJournal

section Programs

variable {acknowledged : Acknowledged} {disk : Disk} {journal : FileJournal} {α ε : Type}

/-- Wherever the program is cut, the acknowledged records are durable. -/
abbrev Keeps (acknowledged : Acknowledged) (p : FileProgram α) (disk : Disk) : Prop :=
  Spec fileEnv (Durable acknowledged) p (fun _ _ => True) disk

theorem keeps_pure (h : Durable acknowledged disk) (a : α) :
    Keeps acknowledged (pure a) disk := ⟨h, trivial⟩

theorem keeps_ask (h : Durable acknowledged disk) (c : FileCall)
    (hharmless : Harmless acknowledged disk c) :
    Spec fileEnv (Durable acknowledged) (Program.ask c)
      (fun answer disk' => fileEnv disk c answer disk' ∧ Durable acknowledged disk') disk :=
  ⟨h, fun _ _ step => ⟨h.step hharmless step, step, h.step hharmless step⟩⟩

/-- What follows a program that settles may rely on it. -/
theorem keeps_bind {β : Type} {p : FileProgram α} {next : α → FileProgram β}
    {post : α → Disk → Prop} (hkeeps : Keeps acknowledged p disk) (hgives : Gives p post disk)
    (hnext : ∀ a disk', Durable acknowledged disk' → post a disk' →
      Keeps acknowledged (next a) disk') : Keeps acknowledged (p >>= next) disk := by
  unfold Keeps
  rw [Spec.bind_iff]
  have hboth := (hkeeps.both hgives).with_crash.mono_crash fun _ h => h.1
  exact hboth.mono fun a disk' h => hnext a disk' h.1.1 h.2.2

theorem keeps_orPoisoned {call : FileProgram (Except IoError Unit)} {next : FileProgram Outcome}
    {post : Except IoError Unit → Disk → Prop}
    (hcall : Spec fileEnv (Durable acknowledged) call post disk)
    (hnext : ∀ disk', Durable acknowledged disk' → post (.ok ()) disk' →
      Keeps acknowledged next disk') : Keeps acknowledged (orPoisoned call journal next) disk := by
  unfold orPoisoned Keeps
  rw [Spec.bind_iff]
  refine hcall.with_crash.mono fun r disk' hr => ?_
  cases r with
  | error error => exact keeps_pure hr.1 _
  | ok _ => exact hnext disk' hr.1 hr.2

theorem keeps_append (h : Durable acknowledged disk) (htracks : journal.Tracks disk)
    (record : JournalRecord) : Keeps acknowledged (journal.append record) disk := by
  unfold append
  split
  · exact keeps_pure h _
  · next hunpoisoned =>
      have hintact := htracks (Bool.eq_false_iff.2 hunpoisoned)
      split
      · exact keeps_pure h _
      · split
        · exact keeps_pure h _
        · split
          · exact keeps_pure h _
          · split
            · exact keeps_pure h _
            · refine keeps_orPoisoned (keeps_ask h (.writeAll _ _) hintact.cursor)
                fun disk₁ h₁ _ => ?_
              refine keeps_orPoisoned (keeps_ask h₁ (.flush _) trivial) fun disk₂ h₂ _ => ?_
              exact keeps_orPoisoned (keeps_ask h₂ (.syncAll _) trivial)
                fun disk₃ h₃ _ => keeps_pure h₃ _

theorem keeps_repairTornTail (h : Durable acknowledged disk) (htracks : journal.Tracks disk)
    (hunpoisoned : journal.poisoned = false) {validBytes : ℕ}
    (htorn : journal.tornPrefix = some validBytes)
    (hextends : acknowledged journal.file <+: journal.records) :
    Keeps acknowledged (journal.repairTornTail validBytes) disk := by
  obtain ⟨issue, -, hinspect⟩ := (htracks hunpoisoned).torn validBytes htorn
  obtain ⟨-, -, -, hle, hframes, -, -, -⟩ := exists_cut_of_inspectJournalRecords hinspect
  have hkept : Begins (acknowledged journal.file)
      (resize (disk.files journal.file).content validBytes) := by
    rw [resize_of_le hle]
    exact hframes.begins hextends
  unfold repairTornTail
  refine keeps_orPoisoned (keeps_ask h (.setLen _ _) hkept) fun disk₁ h₁ _ => ?_
  refine keeps_orPoisoned (keeps_ask h₁ (.seekStart _ _) trivial) fun disk₂ h₂ _ => ?_
  refine keeps_orPoisoned (keeps_ask h₂ (.flush _) trivial) fun disk₃ h₃ _ => ?_
  exact keeps_orPoisoned (keeps_ask h₃ (.syncAll _) trivial) fun disk₄ h₄ _ => keeps_pure h₄ _

theorem keeps_appendActive (h : Durable acknowledged disk) (htracks : journal.Tracks disk)
    (record : JournalRecord) : Keeps acknowledged (journal.appendActive record) disk := by
  unfold appendActive
  split
  · exact keeps_pure h _
  · exact keeps_append h htracks record

theorem keeps_promoteCandidate (h : Durable acknowledged disk) :
    Keeps acknowledged journal.promoteCandidate disk := by
  unfold promoteCandidate
  split
  · unfold Keeps
    rw [Spec.bind_iff]
    refine (keeps_ask h (.promoteNoReplace _ _ _) trivial).mono fun r disk' hr => ?_
    cases r with
    | error error => exact keeps_pure hr.2 _
    | ok _ => exact keeps_pure hr.2 _
  · exact keeps_pure h _

theorem keeps_begin (h : Durable acknowledged disk) (htracks : journal.Tracks disk)
    (plan : PlanId) (steps : List JournalStep) :
    Keeps acknowledged (journal.begin plan steps) disk := by
  unfold «begin»
  split
  · exact keeps_pure h _
  · split
    · exact keeps_pure h _
    · refine keeps_bind (keeps_append h htracks _) (gives_append htracks _)
        fun outcome disk' h' _ => ?_
      obtain ⟨result, journal'⟩ := outcome
      cases result with
      | error error => exact keeps_pure h' _
      | ok _ => exact keeps_promoteCandidate h'

theorem keeps_appendAuthorized (h : Durable acknowledged disk) (htracks : journal.Tracks disk)
    (authorization : JournalAuthorization) (record : JournalRecord) :
    Keeps acknowledged (journal.appendAuthorized authorization record) disk := by
  unfold appendAuthorized
  refine keeps_bind (keeps_append h htracks _) (gives_append htracks _)
    fun outcome disk' h' _ => ?_
  obtain ⟨result, journal'⟩ := outcome
  cases result with
  | error error => exact keeps_pure h' _
  | ok _ => exact keeps_pure h' _

theorem keeps_authorizedAppend (h : Durable acknowledged disk) (htracks : journal.Tracks disk)
    (hextends : journal.poisoned = false → acknowledged journal.file <+: journal.records)
    (authorization : JournalAuthorization) (record : JournalRecord) :
    Keeps acknowledged (journal.authorizedAppend authorization record) disk := by
  unfold authorizedAppend
  split
  · exact keeps_pure h _
  · next hunpoisoned =>
      have hunpoisoned := Bool.eq_false_iff.2 hunpoisoned
      split
      · exact keeps_pure h _
      · split
        · exact keeps_pure h _
        · split
          · exact keeps_appendAuthorized h htracks authorization record
          · next validBytes htorn =>
              refine keeps_bind (keeps_repairTornTail h htracks hunpoisoned htorn
                (hextends hunpoisoned)) (gives_repairTornTail htracks hunpoisoned htorn)
                fun outcome disk' h' hrepairs => ?_
              obtain ⟨result, journal'⟩ := outcome
              cases result with
              | error error => exact keeps_pure h' _
              | ok _ => exact keeps_appendAuthorized h' hrepairs.settles.tracks _ record

end Programs

/-! ### Openings -/

/-- The calls of an opening: no write and no truncation. -/
def Quiet : FileCall → Prop
  | .writeAll _ _ => False
  | .setLen _ _ => False
  | _ => True

section Openings

variable {acknowledged : Acknowledged} {disk : Disk} {α ε : Type}

theorem harmless_of_quiet {c : FileCall} (h : Quiet c) : Harmless acknowledged disk c := by
  cases c with
  | writeAll file bytes => exact h.elim
  | setLen file length => exact h.elim
  | _ => trivial

/-- A program of quiet calls that may fail. -/
abbrev Reads (p : ExceptT ε FileProgram α) : Prop := Tries Quiet (fun _ => True) p

theorem keeps_of_reads {p : ExceptT ε FileProgram α} (h : Reads p)
    (hdurable : Durable acknowledged disk) : Keeps acknowledged p.run disk :=
  (h.spec (fun _ _ _ _ hquiet hs step => hs.step (harmless_of_quiet hquiet) step)
    hdurable).mono fun _ _ _ => trivial

theorem reads_attempt {call : FileProgram (Except IoError α)} {failure : IoError → ε}
    (h : Confined Quiet (fun _ => True) call) : Reads (attempt call failure) := by
  unfold attempt
  refine Tries.bind (Tries.lift h) fun r _ => ?_
  cases r with
  | error error => exact Tries.throw _
  | ok a => exact Tries.pure trivial

theorem reads_check {check : Prop} [Decidable check] {error : ε}
    {next : PUnit → ExceptT ε FileProgram α} (h : Reads (next ⟨⟩)) :
    Reads (if check then throw error >>= next else next ⟨⟩) := by
  split
  · exact Tries.bind (m := fun _ => True) (Tries.throw error) fun _ _ => h
  · exact h

theorem reads_validateFileType (file : FileId) : Reads (validateFileType file) := by
  unfold validateFileType
  refine Tries.bind (reads_attempt (Confined.ask trivial)) fun metadata _ => ?_
  split
  · exact Tries.throw _
  · exact Tries.pure trivial

theorem reads_createIn (path : LegacyText) (phase : FileJournalPhase) :
    Reads (createIn path phase) := by
  unfold createIn
  refine Tries.bind (reads_attempt (Confined.ask trivial)) fun file _ => ?_
  refine Tries.bind (reads_validateFileType file) fun _ _ => ?_
  refine Tries.bind (reads_attempt (Confined.ask trivial)) fun _ _ => ?_
  refine Tries.bind (reads_attempt (Confined.ask trivial)) fun _ _ => ?_
  refine Tries.bind (Tries.lift (Confined.ask trivial)) fun identity _ => ?_
  exact Tries.pure trivial

theorem reads_readJournal (path : LegacyText) (file : FileId) (byteLen : ℕ) :
    Reads (readJournal path file byteLen) := by
  unfold readJournal
  refine reads_check ?_
  refine Tries.bind (reads_attempt (Confined.ask trivial)) fun _ _ => ?_
  refine Tries.bind (reads_attempt (Confined.ask trivial)) fun bytes _ => ?_
  refine reads_check ?_
  split
  · exact Tries.throw _
  · exact Tries.pure trivial

theorem reads_openExistingRetained (leaf : LegacyText) : Reads (openExistingRetained leaf) := by
  unfold openExistingRetained
  split
  · exact Tries.throw _
  · refine Tries.bind (reads_attempt (Confined.ask trivial)) fun link _ => ?_
    refine reads_check ?_
    refine Tries.bind (reads_attempt (Confined.ask trivial)) fun file _ => ?_
    refine Tries.bind (reads_attempt (Confined.ask trivial)) fun metadata _ => ?_
    refine Tries.bind (reads_attempt (Confined.ask trivial)) fun _ _ => ?_
    refine Tries.bind (reads_attempt (Confined.ask trivial)) fun hasOneLink _ => ?_
    refine reads_check ?_
    refine Tries.bind (reads_readJournal _ _ _) fun found _ => ?_
    refine Tries.bind (reads_attempt (Confined.ask trivial)) fun _ _ => ?_
    refine Tries.bind (reads_attempt (Confined.ask trivial)) fun _ _ => ?_
    refine Tries.bind (Tries.lift (Confined.ask trivial)) fun identity _ => ?_
    exact Tries.pure trivial
theorem reads_openCandidateExistingRetained (candidateLeaf activeLeaf : LegacyText) :
    Reads (openCandidateExistingRetained candidateLeaf activeLeaf) := by
  unfold openCandidateExistingRetained
  split
  · exact Tries.throw _
  · refine Tries.bind (reads_openExistingRetained candidateLeaf) fun journal _ => ?_
    exact reads_check (Tries.pure trivial)

theorem reads_createNew (leaf : LegacyText) : Reads (createNew leaf) := by
  unfold createNew
  split
  · exact Tries.throw _
  · exact reads_createIn _ _

theorem reads_createCandidate (candidateLeaf activeLeaf : LegacyText) :
    Reads (createCandidate candidateLeaf activeLeaf) := by
  unfold createCandidate
  split
  · exact Tries.throw _
  · exact Tries.throw _
  · split
    · exact Tries.throw _
    · exact reads_createIn _ _

end Openings

section Presence

variable {disk disk' : Disk}

/-- A crash may leave every file as it is. -/
def Present (disk : Disk) : Prop :=
  ∀ file, (disk.files file).content ∈ (disk.files file).survivors

/-- The files as they are, written out. -/
def settled (disk : Disk) : Disk := { disk with files := fun file => (disk.files file).synced }

/-- A process may also end without a crash. -/
theorem Present.crashed (h : Present disk) : Crashed disk (settled disk) :=
  fun file => ⟨h file, rfl⟩

theorem Present.setFile (h : Present disk) {file : FileId} {state : FileState}
    (hstate : state.content ∈ state.survivors) : Present (disk.setFile file state) := by
  intro other
  by_cases hother : other = file
  · rw [hother, Disk.files_setFile]
    exact hstate
  · have hkept : (disk.setFile file state).files other = disk.files other := if_neg hother
    rw [hkept]
    exact h other

theorem Present.step {c : FileCall} {answer : FileAnswer c} (h : Present disk)
    (step : fileEnv disk c answer disk') : Present disk' := by
  have hcursor : ∀ file cursor, Present (disk.setFile file { disk.files file with cursor }) :=
    fun file cursor => h.setFile (h file)
  cases c with
  | createLeaf leaf =>
      cases answer with
      | error error => exact step ▸ h
      | ok file => exact step.2.2 ▸ h
  | openLeaf leaf =>
      cases answer with
      | error error => exact step ▸ h
      | ok file => exact step.2 ▸ hcursor file 0
  | openExisting leaf =>
      cases answer with
      | error error => exact step.1 ▸ h
      | ok file => exact step.2 ▸ h
  | metadata file =>
      cases answer with
      | error error => exact step ▸ h
      | ok metadata => exact step.2 ▸ h
  | seekStart file position =>
      cases answer with
      | error error =>
          obtain ⟨cursor, rfl⟩ := step
          exact hcursor file cursor
      | ok _ => exact step ▸ hcursor file position
  | seekEnd file =>
      cases answer with
      | error error =>
          obtain ⟨cursor, rfl⟩ := step
          exact hcursor file cursor
      | ok _ => exact step ▸ hcursor file _
  | readToEnd file limit =>
      cases answer with
      | error error =>
          obtain ⟨cursor, rfl⟩ := step
          exact hcursor file cursor
      | ok bytes => exact step.2 ▸ hcursor file _
  | writeAll file bytes =>
      cases answer with
      | error error =>
          obtain ⟨left, hleft, rfl⟩ := step
          exact h.setFile (.inr ⟨left, hleft, rfl⟩)
      | ok _ => exact step ▸ h.setFile (.inr ⟨bytes, List.prefix_rfl, rfl⟩)
  | syncAll file =>
      cases answer with
      | error error => exact step ▸ h
      | ok _ => exact step ▸ h.setFile rfl
  | setLen file length =>
      cases answer with
      | error error =>
          rcases step with rfl | rfl
          · exact h
          · exact h.setFile (.inl rfl)
      | ok _ => exact step ▸ h.setFile (.inl rfl)
  | promoteNoReplace file candidate active =>
      cases answer with
      | error error =>
          rcases step with rfl | ⟨-, rfl⟩
          · exact h
          · exact h
      | ok _ => exact step.2 ▸ h
  | combinedIdentity | symlinkMetadata leaf | validatePrivateLeaf file | isSingleLinked file
  | cloneRoot | flush file | markDelete file =>
      cases answer <;> exact step ▸ h

theorem Present.runs {α : Type} {p : FileProgram α} {trace : List FileEvent} {r : Option α}
    (h : Present disk) (run : Runs fileEnv p disk trace r disk') : Present disk' :=
  ((Spec.invariant (I := Present) (fun _ _ _ _ hs step => hs.step step) p h).sound run).1

end Presence

end FileJournal

end DarkReNamer
