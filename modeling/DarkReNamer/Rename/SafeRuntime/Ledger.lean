import DarkReNamer.Rename.SafeRuntime

/-!
# The journal directory

The files of the journal directory, with those that are marked for deletion. A leaf that is said
to be absent is, and a new leaf is a new file. Looking for journals changes no file and no name,
and what is found under a leaf is the file of that name.
-/

namespace DarkReNamer

open Interaction FileJournal

/-- The files, and those that go when the last handle is closed. -/
structure Ledger where
  disk : Disk
  marked : Set FileId

/-- The codes that say that there is no such file. -/
def IoError.IsNotFound (error : IoError) : Prop :=
  error.rawOsError = some 2 ∨ error.rawOsError = some 3

/-- What the names say. -/
def Honest (s : Ledger) : (c : FileCall) → FileAnswer c → Prop
  | .symlinkMetadata leaf, .error error => error.IsNotFound → s.disk.leaves leaf = none
  | .openLeaf leaf, .error error => error.IsNotFound → s.disk.leaves leaf = none
  | .createLeaf _, .ok file => file ∉ s.marked ∧ ∀ leaf, s.disk.leaves leaf ≠ some file
  | _, _ => True

def markedAfter (marked : Set FileId) : (c : FileCall) → FileAnswer c → Set FileId
  | .markDelete file, .ok _ => insert file marked
  | _, _ => marked

def ledgerEnv : Environment Ledger FileCall FileAnswer := fun s c answer t =>
  fileEnv s.disk c answer t.disk ∧ Honest s c answer ∧ t.marked = markedAfter s.marked c answer

/-- A marked file loses its name. -/
inductive Unlinks : Ledger → Ledger → Prop where
  | unlink {s : Ledger} {leaf : LegacyText} {file : FileId} (hmarked : file ∈ s.marked)
      (hleaf : s.disk.leaves leaf = some file) :
      Unlinks s ⟨s.disk.setLeaf leaf none, s.marked⟩

section Looking

variable {leaf : LegacyText} {g s t : Ledger} {α β ε : Type}

/-- Nothing but the position in the file of a leaf has changed. -/
structure Looked (leaf : LegacyText) (g s : Ledger) : Prop where
  contents : SameContents g.disk s.disk
  others : ∀ file, g.disk.leaves leaf ≠ some file → s.disk.files file = g.disk.files file
  leaves : s.disk.leaves = g.disk.leaves
  marked : s.marked = g.marked

theorem Looked.refl (leaf : LegacyText) (g : Ledger) : Looked leaf g g :=
  ⟨SameContents.refl _, fun _ _ => rfl, rfl, rfl⟩

theorem Looked.setCursor (h : Looked leaf g s) {file : FileId}
    (hfile : g.disk.leaves leaf = some file) {cursor : ℕ}
    (hdisk : t.disk = s.disk.setFile file { s.disk.files file with cursor })
    (hmarked : t.marked = s.marked) : Looked leaf g t := by
  refine ⟨hdisk ▸ h.contents.setCursor file cursor, fun other hother => ?_, hdisk ▸ h.leaves,
    hmarked.trans h.marked⟩
  rw [hdisk, ← h.others other hother]
  refine if_neg ?_
  rintro rfl
  exact hother hfile

/-- The calls that look for the file of a leaf. -/
def Looks (g : Ledger) (leaf : LegacyText) : FileCall → Prop
  | .writeAll _ _ => False
  | .setLen _ _ => False
  | .syncAll _ => False
  | .createLeaf _ => False
  | .promoteNoReplace _ _ _ => False
  | .markDelete _ => False
  | .openLeaf other => other = leaf
  | .seekStart file _ => g.disk.leaves leaf = some file
  | .seekEnd file => g.disk.leaves leaf = some file
  | .readToEnd file _ => g.disk.leaves leaf = some file
  | _ => True

theorem Looked.step {c : FileCall} {answer : FileAnswer c} (h : Looked leaf g s)
    (hlooks : Looks g leaf c) (step : ledgerEnv s c answer t) : Looked leaf g t := by
  obtain ⟨hfile, -, hmarked⟩ := step
  have hstay : t.disk = s.disk → t.marked = s.marked → Looked leaf g t := fun hdisk hmarked =>
    ⟨hdisk ▸ h.contents, hdisk ▸ h.others, hdisk ▸ h.leaves, hmarked.trans h.marked⟩
  cases c with
  | writeAll | setLen | syncAll | createLeaf | promoteNoReplace | markDelete => exact hlooks.elim
  | openLeaf other =>
      obtain rfl : other = leaf := hlooks
      cases answer with
      | error error => exact hstay hfile hmarked
      | ok file => exact h.setCursor (h.leaves ▸ hfile.1) hfile.2 hmarked
  | openExisting other =>
      cases answer with
      | error error => exact hstay hfile.1 hmarked
      | ok file => exact hstay hfile.2 hmarked
  | metadata file =>
      cases answer with
      | error error => exact hstay hfile hmarked
      | ok metadata => exact hstay hfile.2 hmarked
  | seekStart file position =>
      cases answer with
      | error error =>
          obtain ⟨cursor, hcut⟩ := hfile
          exact h.setCursor hlooks hcut hmarked
      | ok _ => exact h.setCursor hlooks hfile hmarked
  | seekEnd file =>
      cases answer with
      | error error =>
          obtain ⟨cursor, hcut⟩ := hfile
          exact h.setCursor hlooks hcut hmarked
      | ok _ => exact h.setCursor hlooks hfile hmarked
  | readToEnd file limit =>
      cases answer with
      | error error =>
          obtain ⟨cursor, hcut⟩ := hfile
          exact h.setCursor hlooks hcut hmarked
      | ok bytes => exact h.setCursor hlooks hfile.2 hmarked
  | combinedIdentity | symlinkMetadata leaf | validatePrivateLeaf file | isSingleLinked file
  | cloneRoot | flush file =>
      cases answer <;> exact hstay hfile hmarked

/-- The program looks around, its values satisfy `ok` and its errors `err`. -/
abbrev LooksFor (leaf : LegacyText) (g : Ledger) (p : ExceptT ε FileProgram α)
    (ok : α → Prop) (err : ε → Prop)
    (s : Ledger) : Prop :=
  Spec ledgerEnv (Looked leaf g) p.run (fun r t => Looked leaf g t ∧ ExceptPost ok err r) s

section Rules

variable {ok : α → Prop} {err : ε → Prop}

theorem looks_pure {a : α} (hs : Looked leaf g s) (h : ok a) :
    LooksFor leaf g (pure a : ExceptT ε FileProgram α) ok err s := ⟨hs, hs, h⟩

theorem looks_throw {error : ε} (hs : Looked leaf g s) (h : err error) :
    LooksFor leaf g (throw error : ExceptT ε FileProgram α) ok err s := ⟨hs, hs, h⟩

theorem looks_bind {p : ExceptT ε FileProgram α} {next : α → ExceptT ε FileProgram β}
    {post : β → Prop} (h : LooksFor leaf g p ok err s)
    (rest : ∀ a t, Looked leaf g t → ok a → LooksFor leaf g (next a) post err t) :
    LooksFor leaf g (p >>= next) post err s := by
  unfold LooksFor
  rw [Spec.except_bind_iff]
  refine Spec.mono h fun r t ht => ?_
  cases r with
  | ok a => exact rest a t ht.1 ht.2
  | error error => exact ⟨ht.1, ht⟩

/-- A call whose errors are reported. -/
theorem looks_attempt {call : FileProgram (Except IoError α)} {failure : IoError → ε}
    (h : Spec ledgerEnv (Looked leaf g) call
      (fun r t => Looked leaf g t ∧ ExceptPost ok (fun error => err (failure error)) r) s) :
    LooksFor leaf g (attempt call failure) ok err s := by
  unfold attempt LooksFor
  rw [Spec.except_lift_bind_iff]
  refine h.mono fun r t ht => ?_
  cases r with
  | ok a => exact looks_pure ht.1 ht.2
  | error error => exact looks_throw ht.1 ht.2

theorem looks_ask {c : FileCall} {post : FileAnswer c → Prop} (hs : Looked leaf g s)
    (hlooks : Looks g leaf c)
    (h : ∀ answer t, ledgerEnv s c answer t → post answer) :
    Spec ledgerEnv (Looked leaf g) (Program.ask c) (fun answer t => Looked leaf g t ∧ post answer)
      s :=
  ⟨hs, fun answer t step => ⟨hs.step hlooks step, hs.step hlooks step, h answer t step⟩⟩

/-- A call whose errors all satisfy the condition, and of whose values nothing is used. -/
theorem looks_try {call : FileProgram (Except IoError α)} {failure : IoError → ε}
    (hs : Looked leaf g s) (hcall : Confined (Looks g leaf) (fun _ => True) call)
    (herr : ∀ error, err (failure error)) :
    LooksFor leaf g (attempt call failure) (fun _ => True) err s := by
  refine looks_attempt ((Confined.spec (I := Looked leaf g) hcall
    (fun _ _ _ _ hlooks hlooked step => hlooked.step hlooks step) hs).mono fun r t ht => ?_)
  refine ⟨ht.1, ?_⟩
  cases r with
  | ok a => trivial
  | error error => exact herr error

theorem looks_check {check : Prop} [Decidable check] {error : ε}
    {next : PUnit → ExceptT ε FileProgram α} (hs : Looked leaf g s) (herror : err error)
    (h : LooksFor leaf g (next ⟨⟩) ok err s) :
    LooksFor leaf g (if check then throw error >>= next else next ⟨⟩) ok err s := by
  split
  · have hthrow :
        LooksFor leaf g (throw error : ExceptT ε FileProgram PUnit) (fun _ => False) err s :=
      looks_throw hs herror
    exact looks_bind hthrow fun _ _ _ hfalse => hfalse.elim
  · exact h

end Rules

/-! ### What is found -/

theorem child_eq_ok {leaf path : LegacyText} (h : child leaf = .ok path) : path = leaf := by
  unfold child at h
  split at h
  · cases h
  · exact (Except.ok.inj h).symm

theorem osCode_of_child {leaf : LegacyText} {error : FileJournalError}
    (h : child leaf = .error error) : error.osCode = none := by
  unfold child at h
  split at h
  · rw [← Except.error.inj h]
  · cases h

theorem isNotFound_openError {path : LegacyText} {stage : JournalOpenStage}
    {error : FileJournalError} (h : (openError path stage error).isNotFound = true) :
    error.osCode = some 2 ∨ error.osCode = some 3 := by
  simpa [openError, ExistingJournalOpenError.isNotFound, JournalOpenFailure.fromFileError] using h

/-- The condition on the errors: what is not found is not there. -/
def Absent (g : Ledger) (leaf : LegacyText) (error : ExistingJournalOpenError) : Prop :=
  error.isNotFound = true → g.disk.leaves leaf = none

theorem absent_evidence (path : LegacyText) (file : FileId) (byteLen : ℕ)
    (failure : JournalOpenFailure) :
    Absent g leaf (existingEvidenceError path file byteLen failure) := by
  intro h
  cases h

theorem looks_readJournal (hs : Looked leaf g s) (path : LegacyText) {file : FileId}
    (hfile : g.disk.leaves leaf = some file) (byteLen : ℕ) :
    LooksFor leaf g (readJournal path file byteLen) (fun _ => True) (Absent g leaf) s := by
  have hread : ∀ error, Absent g leaf (retainedIoError path file byteLen .read error) :=
    fun _ => absent_evidence path file byteLen _
  unfold readJournal
  refine looks_check hs (absent_evidence path file byteLen _) ?_
  refine looks_bind (looks_try hs (Confined.ask hfile) hread) fun _ t ht _ => ?_
  refine looks_bind (looks_try ht (Confined.ask hfile) hread) fun bytes u hu _ => ?_
  refine looks_check hu (absent_evidence path file byteLen _) ?_
  split
  · exact looks_throw hu (absent_evidence path file byteLen _)
  · exact looks_pure hu trivial

theorem found_openExistingRetained (hs : Looked leaf g s) :
    LooksFor leaf g (openExistingRetained leaf)
      (fun journal => g.disk.leaves leaf = some journal.file ∧ journal.phase = .active)
      (Absent g leaf) s := by
  unfold openExistingRetained
  split
  · next error herror =>
      refine looks_throw hs fun h => ?_
      have hcode := isNotFound_openError h
      rw [osCode_of_child herror] at hcode
      simp at hcode
  · next path hpath =>
      obtain rfl := child_eq_ok hpath
      have hlink : Spec ledgerEnv (Looked path g) (Disk.symlinkMetadata path)
          (fun r t => Looked path g t ∧ ExceptPost (fun _ => True) (fun error =>
            Absent g path (openError path .validate (.ofIo error))) r) s := by
        refine looks_ask (c := .symlinkMetadata path) hs trivial fun answer t step => ?_
        cases answer with
        | ok link => trivial
        | error error => exact fun h => hs.leaves ▸ step.2.1 (isNotFound_openError h)
      refine looks_bind (looks_attempt hlink) fun link t ht _ => ?_
      refine looks_check ht (fun h => by cases h) ?_
      have hopen : Spec ledgerEnv (Looked path g) (Disk.openLeaf path)
          (fun r t => Looked path g t ∧ ExceptPost (fun file => g.disk.leaves path = some file)
            (fun error => Absent g path (openError path .open (.ofIo error))) r) t := by
        refine looks_ask (c := .openLeaf path) ht rfl fun answer u step => ?_
        cases answer with
        | ok file => exact ht.leaves ▸ step.1.1
        | error error => exact fun h => ht.leaves ▸ step.2.1 (isNotFound_openError h)
      refine looks_bind (looks_attempt hopen) fun file u hu hfile => ?_
      have hretained : ∀ byteLen stage error,
          Absent g path (retainedIoError path file byteLen stage error) :=
        fun byteLen stage error => absent_evidence path file byteLen _
      refine looks_bind (looks_try hu (Confined.ask trivial) (hretained _ _))
        fun metadata u hu _ => ?_
      refine looks_bind (looks_try hu (Confined.ask trivial) (hretained _ _)) fun _ u hu _ => ?_
      refine looks_bind (looks_try hu (Confined.ask trivial) (hretained _ _))
        fun hasOneLink u hu _ => ?_
      refine looks_check hu (absent_evidence path file _ _) ?_
      refine looks_bind (looks_readJournal hu path hfile _) fun found u hu _ => ?_
      refine looks_bind (looks_try hu (Confined.ask hfile) (hretained _ _)) fun _ u hu _ => ?_
      refine looks_bind (looks_try hu (Confined.ask trivial) (hretained _ _)) fun _ u hu _ => ?_
      unfold LooksFor
      rw [Spec.except_lift_bind_iff]
      exact (looks_ask (c := .combinedIdentity) hu trivial fun _ _ _ => hfile).mono
        fun identity v hv => ⟨hv.1, hv.1, hv.2, rfl⟩

theorem found_openCandidateExistingRetained (hs : Looked leaf g s) (activeLeaf : LegacyText) :
    LooksFor leaf g (openCandidateExistingRetained leaf activeLeaf)
      (fun journal => g.disk.leaves leaf = some journal.file ∧
        journal.phase = .candidate activeLeaf) (Absent g leaf) s := by
  unfold openCandidateExistingRetained
  split
  · next error herror =>
      refine looks_throw hs fun h => ?_
      have hcode := isNotFound_openError h
      rw [osCode_of_child herror] at hcode
      simp at hcode
  · next path hpath =>
      obtain rfl := child_eq_ok hpath
      refine looks_bind (found_openExistingRetained hs) fun journal t ht hfound => ?_
      exact looks_check ht (absent_evidence _ _ _ _) (looks_pure ht ⟨hfound.1, rfl⟩)

end Looking

/-! ### Discovery -/

section Discovery

variable {g s t u : Ledger} {leaf : LegacyText}

/-- No file, no name and no mark has changed. -/
structure Calm (g s : Ledger) : Prop where
  contents : SameContents g.disk s.disk
  leaves : s.disk.leaves = g.disk.leaves
  marked : s.marked = g.marked

theorem Looked.calm (h : Looked leaf g s) : Calm g s := ⟨h.contents, h.leaves, h.marked⟩

theorem Calm.trans (h : Calm g s) (h' : Calm s t) : Calm g t where
  contents file := ⟨(h'.contents file).1.trans (h.contents file).1,
    (h'.contents file).2.trans (h.contents file).2⟩
  leaves := h'.leaves.trans h.leaves
  marked := h'.marked.trans h.marked

/-- What the opening of a leaf tells. -/
structure Opens (g : Ledger) (role : JournalRole) (leaf : LegacyText) (phase : FileJournalPhase)
    (r : Option FileJournal × List StartupJournalBlock) (t : Ledger) : Prop where
  looked : Looked leaf g t
  journal : ∀ journal, r.1 = some journal → g.disk.leaves leaf = some journal.file ∧
    journal.phase = phase ∧ journal.Opened t.disk
  absent : r.1 = none → r.2 = [] → g.disk.leaves leaf = none
  roles : ∀ blocked ∈ r.2, blocked.role = role

theorem role_of_fromOpenError {role : JournalRole} {error : ExistingJournalOpenError}
    {blocked : StartupJournalBlock}
    (h : blocked ∈ (StartupJournalBlock.fromOpenError role error).toList) :
    blocked.role = role := by
  rw [Option.mem_toList] at h
  unfold StartupJournalBlock.fromOpenError at h
  split at h
  · cases h
  · split at h
    · rw [← Option.some.inj h]
      rfl
    · rw [← Option.some.inj h]
      rfl

theorem isNotFound_of_fromOpenError {role : JournalRole} {error : ExistingJournalOpenError}
    (h : (StartupJournalBlock.fromOpenError role error).toList = []) : error.isNotFound = true := by
  unfold StartupJournalBlock.fromOpenError at h
  by_contra hfound
  rw [if_neg hfound] at h
  cases herror : error.evidence <;> simp [herror] at h

theorem opens_openRole (role : JournalRole) {phase : FileJournalPhase}
    {opening : ExceptT ExistingJournalOpenError FileProgram FileJournal}
    (hlooks : LooksFor leaf g opening
      (fun journal => g.disk.leaves leaf = some journal.file ∧ journal.phase = phase)
      (Absent g leaf) g) (hopened : Returns opening Opened g.disk) :
    Spec ledgerEnv (Looked leaf g) (openRole role opening) (Opens g role leaf phase) g := by
  have hreturns : Spec ledgerEnv (fun _ => True) opening.run
      (fun r t => ∀ journal, r = .ok journal → journal.Opened t.disk) g :=
    Spec.comap (fun _ _ _ _ step => step.1) hopened
  have hboth := hlooks.both hreturns
  unfold openRole
  rw [Spec.bind_iff]
  refine (hboth.mono_crash fun t ht => ht.1).mono fun r t hr => ?_
  obtain ⟨⟨hlooked, hpost⟩, hreturns⟩ := hr
  cases r with
  | ok journal =>
      refine ⟨hlooked, hlooked, ?_, by simp, by simp⟩
      rintro _ ⟨⟩
      exact ⟨hpost.1, hpost.2, hreturns journal rfl⟩
  | error error =>
      exact ⟨hlooked, hlooked, by simp,
        fun _ hnone => hpost (isNotFound_of_fromOpenError hnone),
        fun blocked hblocked => role_of_fromOpenError hblocked⟩

/-- What a discovery tells. -/
structure Discovers (g : Ledger) (found : Discovery) (t : Ledger) : Prop where
  calm : Calm g t
  active : ∀ journal, found.active = some journal →
    g.disk.leaves activeJournalLeaf = some journal.file ∧ journal.phase = .active ∧
      journal.Opened t.disk
  staged : ∀ journal, found.staged = some journal →
    g.disk.leaves candidateJournalLeaf = some journal.file ∧
      journal.phase = .candidate activeJournalLeaf ∧ journal.Opened t.disk
  activeAbsent : found.activeObserved = false → g.disk.leaves activeJournalLeaf = none
  candidateAbsent : found.candidateObserved = false → g.disk.leaves candidateJournalLeaf = none

/-- No file has both names. -/
def Distinct (disk : Disk) : Prop :=
  ∀ file, disk.leaves activeJournalLeaf = some file → disk.leaves candidateJournalLeaf ≠ some file

/-- A leaf of which no block is found has none. -/
theorem eq_nil_of_roles {role : JournalRole} {blocked : List StartupJournalBlock}
    (hroles : ∀ b ∈ blocked, b.role = role) (hnone : ∀ b ∈ blocked, b.role ≠ role) :
    blocked = [] :=
  List.eq_nil_iff_forall_not_mem.2 fun b hb => hnone b hb (hroles b hb)

theorem Opens.absent_of_unobserved {role : JournalRole} {phase : FileJournalPhase}
    {r : Option FileJournal × List StartupJournalBlock} (h : Opens g role leaf phase r t)
    {blocked : List StartupJournalBlock} (hsub : r.2 ⊆ blocked)
    (hnone : (r.1.isSome || blocked.any fun b => b.role == role) = false) :
    g.disk.leaves leaf = none := by
  rw [Bool.or_eq_false_iff, Option.isSome_eq_false_iff, Option.isNone_iff_eq_none,
    List.any_eq_false] at hnone
  refine h.absent hnone.1 (eq_nil_of_roles h.roles fun b hb hrole => ?_)
  exact hnone.2 b (hsub hb) (by simp [hrole])

theorem discovers_discoverJournals (hdistinct : Distinct g.disk) :
    Spec ledgerEnv (Calm g) discoverJournals (Discovers g) g := by
  unfold discoverJournals
  rw [Spec.bind_iff]
  refine ((opens_openRole .active (found_openExistingRetained (Looked.refl _ g))
    (returns_openExistingRetained _)).mono_crash fun t ht => ht.calm).mono
    fun active t hactive => ?_
  rw [Spec.bind_iff]
  have hcandidate := opens_openRole .candidate
    (found_openCandidateExistingRetained (Looked.refl candidateJournalLeaf t) activeJournalLeaf)
    (returns_openCandidateExistingRetained _ _)
  refine (hcandidate.mono_crash fun u hu => hactive.looked.calm.trans hu.calm).mono
    fun staged u hstaged => ?_
  have hcalm := hactive.looked.calm.trans hstaged.looked.calm
  refine ⟨hcalm, hcalm, fun journal hjournal => ?_, fun journal hjournal => ?_,
    hactive.absent_of_unobserved (List.subset_append_left ..), fun hnone => ?_⟩
  · obtain ⟨hleaf, hphase, hopened⟩ := hactive.journal journal hjournal
    have hkept : u.disk.files journal.file = t.disk.files journal.file := by
      refine hstaged.looked.others _ ?_
      rw [hactive.looked.leaves]
      exact hdistinct _ hleaf
    exact ⟨hleaf, hphase, hopened.unpoisoned, hkept ▸ hopened.intact, hopened.replays⟩
  · obtain ⟨hleaf, hphase, hopened⟩ := hstaged.journal journal hjournal
    exact ⟨hactive.looked.leaves ▸ hleaf, hphase, hopened⟩
  · rw [← hactive.looked.leaves]
    exact hstaged.absent_of_unobserved (List.subset_append_right ..) hnone

end Discovery

/-! ### Deletion -/

section Deletion

variable {g t : Ledger} {journal : FileJournal}

def Ledger.mark (g : Ledger) (file : FileId) : Ledger := ⟨g.disk, insert file g.marked⟩

/-- Nothing has happened, or the file was marked, which it may be. -/
def MayMark (file : FileId) (allowed : Prop) (g t : Ledger) : Prop :=
  t = g ∨ allowed ∧ t = g.mark file

/-- The file is marked exactly if the call succeeds. -/
theorem spec_markRetainedFileDelete (file : FileId) {allowed : Prop} (hallowed : allowed) :
    Spec ledgerEnv (MayMark file allowed g) (markRetainedFileDelete file)
      (fun r t => (r = .ok () → allowed ∧ t = g.mark file) ∧ ∀ error, r = .error error → t = g)
      g := by
  unfold markRetainedFileDelete
  rw [Spec.bind_iff]
  refine ⟨.inl rfl, fun answer t step => ?_⟩
  obtain ⟨hdisk, -, hmarked⟩ := step
  obtain ⟨disk, marked⟩ := t
  cases answer with
  | error error =>
      obtain rfl : disk = g.disk := hdisk
      obtain rfl : marked = g.marked := hmarked
      exact ⟨.inl rfl, .inl rfl, by simp, fun _ _ => rfl⟩
  | ok _ =>
      obtain rfl : disk = g.disk := hdisk
      obtain rfl : marked = insert file g.marked := hmarked
      exact ⟨.inr ⟨hallowed, rfl⟩, .inr ⟨hallowed, rfl⟩, fun _ => ⟨hallowed, rfl⟩, by simp⟩

theorem spec_refusedDelete (file : FileId) (allowed : Prop) (error : FileJournalError) :
    Spec ledgerEnv (MayMark file allowed g)
      (pure (.error error) : FileProgram (Except FileJournalError Unit))
      (fun r t => (r = .ok () → allowed ∧ t = g.mark file) ∧ ∀ error, r = .error error → t = g)
      g :=
  ⟨.inl rfl, by simp, fun _ _ => rfl⟩

theorem spec_markDeleteIfSafe :
    Spec ledgerEnv (MayMark journal.file (journal.safeToDelete = true) g) journal.markDeleteIfSafe
      (fun r t => (r = .ok () → journal.safeToDelete = true ∧ t = g.mark journal.file) ∧
        ∀ error, r = .error error → t = g) g := by
  unfold markDeleteIfSafe
  split
  · next hsafe => exact spec_markRetainedFileDelete journal.file hsafe
  · exact spec_refusedDelete journal.file _ _

/-- A complete intent whose active leaf is not there. -/
def Discardable (journal : FileJournal) (disk : Disk) : Prop :=
  journal.isCompleteIntentCandidate = true ∧
    ∃ leaf, journal.phase = .candidate leaf ∧ disk.leaves leaf = none

theorem spec_markUnactivatedIntentDelete :
    Spec ledgerEnv (MayMark journal.file (Discardable journal g.disk) g)
      journal.markUnactivatedIntentDelete
      (fun r t => (r = .ok () → Discardable journal g.disk ∧ t = g.mark journal.file) ∧
        ∀ error, r = .error error → t = g) g := by
  unfold markUnactivatedIntentDelete
  split
  · next activeLeaf hphase =>
      split
      · next hcomplete =>
          rw [Spec.bind_iff]
          refine ⟨.inl rfl, fun answer t step => ?_⟩
          obtain ⟨hdisk, -, hmarked⟩ := step
          have hsame : t = g := by
            obtain ⟨disk, marked⟩ := t
            cases answer with
            | error error =>
                obtain ⟨rfl, -⟩ : disk = g.disk ∧ _ := hdisk
                obtain rfl : marked = g.marked := hmarked
                rfl
            | ok file =>
                obtain ⟨-, rfl⟩ : _ ∧ disk = g.disk := hdisk
                obtain rfl : marked = g.marked := hmarked
                rfl
          subst hsame
          refine ⟨.inl rfl, ?_⟩
          cases answer with
          | ok file => exact spec_refusedDelete journal.file _ _
          | error error =>
              dsimp only
              split
              · next hcode =>
                  exact spec_markRetainedFileDelete journal.file
                    ⟨hcomplete, activeLeaf, hphase, hdisk.2 hcode⟩
              · split
                · exact spec_refusedDelete journal.file _ _
                · exact spec_refusedDelete journal.file _ _
      · exact spec_refusedDelete journal.file _ _
  · exact spec_refusedDelete journal.file _ _

/-- What a cleanup tells: the journal is gone, which it may be, or it is retained. -/
structure Cleans (journal : FileJournal) (g : Ledger) (cleanup : JournalCleanup) (t : Ledger) :
    Prop where
  gone : cleanup.retained = none →
    cleanup.error = none ∧ journal.safeToDelete = true ∧ t = g.mark journal.file
  retained : ∀ kept, cleanup.retained = some kept → kept = journal ∧ t = g

theorem cleans_cleanupFileJournal :
    Spec ledgerEnv (MayMark journal.file (journal.safeToDelete = true) g)
      (cleanupFileJournal journal) (Cleans journal g) g := by
  have hkept : ∀ error, Cleans journal g ⟨some journal, error⟩ g := by
    refine fun error => ⟨by simp, ?_⟩
    rintro _ ⟨⟩
    exact ⟨rfl, rfl⟩
  unfold cleanupFileJournal
  split
  · exact ⟨.inl rfl, hkept none⟩
  · rw [Spec.bind_iff]
    refine spec_markDeleteIfSafe.with_crash.mono fun r t hr => ?_
    obtain ⟨hcrash, hok, herror⟩ := hr
    cases r with
    | error error =>
        obtain rfl := herror error rfl
        exact ⟨hcrash, hkept (some error)⟩
    | ok _ =>
        obtain ⟨hsafe, hmarked⟩ := hok rfl
        exact ⟨hcrash, fun _ => ⟨rfl, hsafe, hmarked⟩, by simp⟩

end Deletion

end DarkReNamer
