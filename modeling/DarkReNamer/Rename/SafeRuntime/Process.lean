import DarkReNamer.Rename.SafeRuntime.Ledger

/-!
# A process at work on its journal

A program of the engine over the native functions and the journal directory. While it runs, the
process touches no file but that of its journal, which it moves from the candidate leaf to the
active one at most, and what is found afterwards is what the host may have made of it.
-/

namespace DarkReNamer

open Interaction Occupancy UndoLog FileJournal

/-- The native functions and the journal directory. -/
structure Life where
  native : NativeState
  ledger : Ledger

def Life.os (l : Life) : OsWorld := ⟨l.native, l.ledger.disk⟩

variable {N : NativeVolume} {file : FileId} {journal : FileJournal}

variable (N) in
def NativeVolume.lifeEnv : Environment Life OsCall OsAnswer
  | s, .native call, answer, t => N.nativeRel s.native call answer t.native ∧ t.ledger = s.ledger
  | s, .file call, answer, t => ledgerEnv s.ledger call answer t.ledger ∧ t.native = s.native
  | s, .control _, _, t => t = s

theorem osEnv_of_lifeEnv (s : Life) (c : OsCall) (answer : OsAnswer c) (t : Life)
    (step : N.lifeEnv s c answer t) : N.osEnv s.os c answer t.os := by
  cases c with
  | native call => exact ⟨step.1, congrArg Ledger.disk step.2⟩
  | file call => exact ⟨step.1.1, step.2⟩
  | control call => exact congrArg Life.os step

theorem refines_osFile_lifeEnv (native : NativeState) :
    Refines N.lifeEnv (fun g l => l.ledger = g ∧ l.native = native) osFile ledgerEnv := by
  rintro call s w ⟨rfl, rfl⟩
  refine ⟨⟨_, .inl rfl, rfl, rfl⟩, fun answer u step => ?_⟩
  exact ⟨⟨_, .inr ⟨answer, step.1⟩, rfl, step.2⟩, _, step.1, rfl, step.2⟩

/-- A program over the files as a part of one over the operating system. -/
theorem spec_osFile {α : Type} {crash : Ledger → Prop} {post : α → Ledger → Prop}
    {p : FileProgram α} {l : Life} (h : Spec ledgerEnv crash p post l.ledger) :
    Spec N.lifeEnv (fun t => crash t.ledger ∧ t.native = l.native) (interpret osFile p)
      (fun a t => post a t.ledger ∧ t.native = l.native) l := by
  refine (((refines_osFile_lifeEnv l.native).spec h ⟨rfl, rfl⟩).mono_crash ?_).mono ?_
  · rintro t ⟨_, hcrash, rfl, hnative⟩
    exact ⟨hcrash, hnative⟩
  · rintro a t ⟨_, hpost, rfl, hnative⟩
    exact ⟨hpost, hnative⟩

/-! ### The calls of a process -/

/-- The calls on the file of the journal. -/
def Touches (file : FileId) : FileCall → Prop
  | .seekStart other _ => other = file
  | .writeAll other _ => other = file
  | .flush other => other = file
  | .syncAll other => other = file
  | .setLen other _ => other = file
  | .promoteNoReplace other candidate active =>
      other = file ∧ candidate = candidateJournalLeaf ∧ active = activeJournalLeaf
  | _ => False

/-- The journal has the file, and a candidate is promoted to the active leaf. -/
structure Manages (file : FileId) (journal : FileJournal) : Prop where
  file_eq : journal.file = file
  promotes : ∀ leaf, journal.phase = .candidate leaf →
    journal.path = candidateJournalLeaf ∧ leaf = activeJournalLeaf

/-- The file has one of the two names. -/
def Named (file : FileId) (disk : Disk) : Prop :=
  disk.leaves activeJournalLeaf = some file ∨ disk.leaves candidateJournalLeaf = some file

/-- All that may have changed is the file, and its name. -/
structure Elsewhere (file : FileId) (g t : Ledger) : Prop where
  files : ∀ other, other ≠ file → t.disk.files other = g.disk.files other
  marked : t.marked = g.marked
  names : ∀ leaf other, t.disk.leaves leaf = some other →
    other = file ∨ g.disk.leaves leaf = some other
  named : Named file g.disk → Named file t.disk
  distinct : Distinct g.disk → Distinct t.disk

section Touching

variable {g s t : Ledger}

theorem Elsewhere.refl (file : FileId) (g : Ledger) : Elsewhere file g g :=
  ⟨fun _ _ => rfl, rfl, fun _ _ => .inr, id, id⟩

theorem activeJournalLeaf_ne : activeJournalLeaf ≠ candidateJournalLeaf := by decide

theorem Elsewhere.setFile (h : Elsewhere file g s) {state : FileState}
    (hdisk : t.disk = s.disk.setFile file state) (hmarked : t.marked = s.marked) :
    Elsewhere file g t := by
  obtain ⟨hfiles, hmark, hnames, hnamed, hdistinct⟩ := h
  obtain ⟨disk, marked⟩ := t
  obtain rfl : disk = _ := hdisk
  refine ⟨fun other hother => ?_, hmarked.trans hmark, hnames, hnamed, hdistinct⟩
  exact (if_neg hother).trans (hfiles other hother)

theorem Elsewhere.same (h : Elsewhere file g s) (hdisk : t.disk = s.disk)
    (hmarked : t.marked = s.marked) : Elsewhere file g t := by
  obtain ⟨disk, marked⟩ := s
  obtain ⟨_, _⟩ := t
  cases hdisk
  cases hmarked
  exact h

theorem leaves_setLeaf_self (disk : Disk) (leaf : LegacyText) (file : Option FileId) :
    (disk.setLeaf leaf file).leaves leaf = file := if_pos rfl

theorem leaves_setLeaf_of_ne (disk : Disk) {leaf other : LegacyText} (h : other ≠ leaf)
    (file : Option FileId) : (disk.setLeaf leaf file).leaves other = disk.leaves other := if_neg h

/-- The candidate becomes the active journal. -/
theorem Elsewhere.promote (h : Elsewhere file g s)
    (hdisk : t.disk = (s.disk.setLeaf candidateJournalLeaf none).setLeaf
      activeJournalLeaf (some file))
    (hmarked : t.marked = s.marked) : Elsewhere file g t := by
  obtain ⟨disk, marked⟩ := t
  obtain rfl : disk = _ := hdisk
  refine ⟨h.files, hmarked.trans h.marked, fun leaf other hleaf => ?_,
    fun _ => .inl (leaves_setLeaf_self _ _ _), fun _ other _ hcandidate => ?_⟩
  · change (if leaf = activeJournalLeaf then some file else if leaf = candidateJournalLeaf then none
      else s.disk.leaves leaf) = some other at hleaf
    split_ifs at hleaf
    · exact .inl (Option.some.inj hleaf).symm
    · exact h.names leaf other hleaf
  · change (if candidateJournalLeaf = activeJournalLeaf then some file else
      if candidateJournalLeaf = candidateJournalLeaf then none
      else s.disk.leaves candidateJournalLeaf) = some other at hcandidate
    rw [if_neg activeJournalLeaf_ne.symm, if_pos rfl] at hcandidate
    cases hcandidate

theorem Elsewhere.step {c : FileCall} {answer : FileAnswer c} (h : Elsewhere file g s)
    (htouches : Touches file c) (step : ledgerEnv s c answer t) : Elsewhere file g t := by
  obtain ⟨hfile, -, hmarked⟩ := step
  cases c with
  | seekStart other position =>
      obtain rfl : other = file := htouches
      cases answer with
      | error error =>
          obtain ⟨cursor, hcut⟩ := hfile
          exact h.setFile hcut hmarked
      | ok _ => exact h.setFile hfile hmarked
  | writeAll other bytes =>
      obtain rfl : other = file := htouches
      cases answer with
      | error error =>
          obtain ⟨left, -, hcut⟩ := hfile
          exact h.setFile hcut hmarked
      | ok _ => exact h.setFile hfile hmarked
  | flush other => cases answer <;> exact h.same hfile hmarked
  | syncAll other =>
      obtain rfl : other = file := htouches
      cases answer with
      | error error => exact h.same hfile hmarked
      | ok _ => exact h.setFile hfile hmarked
  | setLen other length =>
      obtain rfl : other = file := htouches
      cases answer with
      | error error =>
          rcases hfile with hsame | hcut
          · exact h.same hsame hmarked
          · exact h.setFile hcut hmarked
      | ok _ => exact h.setFile hfile hmarked
  | promoteNoReplace other candidate active =>
      obtain ⟨rfl, rfl, rfl⟩ := htouches
      cases answer with
      | error error =>
          rcases hfile with hsame | ⟨-, hmoved⟩
          · exact h.same hsame hmarked
          · exact h.promote hmoved hmarked
      | ok _ => exact h.promote hfile.2 hmarked
  | combinedIdentity | createLeaf | symlinkMetadata | openLeaf | openExisting | metadata
  | validatePrivateLeaf | isSingleLinked | cloneRoot | seekEnd | readToEnd | markDelete =>
      exact htouches.elim

end Touching

section Confined

/-- The operation touches the file alone and leaves a journal that manages it. -/
abbrev Minds (file : FileId) (p : FileProgram Outcome) : Prop :=
  Confined (Touches file) (fun outcome => Manages file outcome.2) p

theorem minds_orPoisoned {call : FileProgram (Except IoError Unit)} {next : FileProgram Outcome}
    (hcall : Confined (Touches file) (fun _ => True) call) (hjournal : Manages file journal)
    (hnext : Minds file next) : Minds file (orPoisoned call journal next) := by
  refine hcall.bind fun r _ => ?_
  cases r with
  | error error => exact hjournal
  | ok _ => exact hnext

theorem minds_append (h : Manages file journal) (record : JournalRecord) :
    Minds file (journal.append record) := by
  unfold FileJournal.append
  split
  · exact h
  split
  · exact h
  split
  · exact h
  split
  · exact h
  split
  · exact h
  have hstarted : Manages file { journal with poisoned := true } := ⟨h.file_eq, h.promotes⟩
  refine minds_orPoisoned (Confined.ask h.file_eq) hstarted ?_
  refine minds_orPoisoned (Confined.ask h.file_eq) hstarted ?_
  exact minds_orPoisoned (Confined.ask h.file_eq) hstarted ⟨h.file_eq, h.promotes⟩

theorem minds_promoteCandidate (h : Manages file journal) :
    Minds file journal.promoteCandidate := by
  unfold promoteCandidate
  split
  · next activeLeaf hphase =>
      obtain ⟨hpath, hleaf⟩ := h.promotes activeLeaf hphase
      refine (Confined.ask (c := FileCall.promoteNoReplace _ _ _)
        ⟨h.file_eq, hpath, hleaf⟩).bind fun r _ => ?_
      cases r with
      | error error => exact ⟨h.file_eq, fun _ => by simp⟩
      | ok _ => exact ⟨h.file_eq, fun _ => by simp⟩
  · exact h

theorem minds_begin (h : Manages file journal) (plan : PlanId) (steps : List JournalStep) :
    Minds file (journal.begin plan steps) := by
  unfold «begin»
  split
  · exact h
  split
  · exact h
  refine (minds_append h _).bind fun outcome houtcome => ?_
  obtain ⟨result, journal'⟩ := outcome
  cases result with
  | error error => exact houtcome
  | ok _ => exact minds_promoteCandidate houtcome

theorem minds_store (h : Manages file journal) (record : JournalRecord) :
    Minds file (journal.store record) := by
  have hactive : Minds file (journal.appendActive record) := by
    unfold appendActive
    split
    · exact h
    · exact minds_append h record
  cases record with
  | intent plan steps => exact minds_begin h plan steps
  | prepared | completed | notApplied | terminal => exact hactive

theorem minds_repairTornTail (h : Manages file journal) (validBytes : ℕ) :
    Minds file (journal.repairTornTail validBytes) := by
  have hstarted : Manages file { journal with poisoned := true } := ⟨h.file_eq, h.promotes⟩
  unfold repairTornTail
  refine minds_orPoisoned (Confined.ask h.file_eq) hstarted ?_
  refine minds_orPoisoned (Confined.ask h.file_eq) hstarted ?_
  refine minds_orPoisoned (Confined.ask h.file_eq) hstarted ?_
  exact minds_orPoisoned (Confined.ask h.file_eq) hstarted ⟨h.file_eq, h.promotes⟩

theorem minds_authorizedAppend (h : Manages file journal) (authorization : JournalAuthorization)
    (record : JournalRecord) :
    Confined (Touches file) (fun outcome => Manages file outcome.1.2)
      (journal.authorizedAppend authorization record) := by
  have happend : ∀ (journal : FileJournal) authorization, Manages file journal →
      Confined (Touches file) (fun outcome => Manages file outcome.1.2)
        (journal.appendAuthorized authorization record) := by
    intro journal authorization h
    refine (minds_append h record).bind fun outcome houtcome => ?_
    obtain ⟨result, journal'⟩ := outcome
    cases result <;> exact houtcome
  unfold authorizedAppend
  split
  · exact h
  split
  · exact h
  split
  · exact h
  split
  · exact happend journal authorization h
  · refine (minds_repairTornTail h _).bind fun outcome houtcome => ?_
    obtain ⟨result, journal'⟩ := outcome
    cases result with
    | error error => exact houtcome
    | ok _ => exact happend journal' _ houtcome

theorem minds_write (h : Manages file journal) (authorization : Option JournalAuthorization)
    (record : JournalRecord) :
    Confined (Touches file) (fun r => Manages file r.1.2) (journal.write authorization record) := by
  cases authorization with
  | none =>
      rw [write, map_eq_pure_bind]
      exact (minds_store h record).bind fun outcome houtcome => houtcome
  | some authorization =>
      rw [write, map_eq_pure_bind]
      exact (minds_authorizedAppend h authorization record).bind fun outcome houtcome => houtcome

/-- The calls of a process that works on the file. -/
def Works (file : FileId) : OsCall → Prop
  | .file call => Touches file call
  | _ => True

theorem works_carryHost (held : Held) (c : HostCall) (h : Manages file held.journal) :
    Confined (Works file) (fun r => Manages file r.2.journal) (carryHost held c) := by
  cases c with
  | native call => exact ⟨trivial, fun _ => h⟩
  | control call => exact ⟨trivial, fun _ => h⟩
  | journal call =>
      cases call with
      | snapshot =>
          show Manages file (holdSnapshot held).2.journal
          unfold holdSnapshot
          split <;> exact h
      | append record =>
          have hwrite : Confined (Works file) (fun r => Manages file r.1.2)
              (interpret osFile (held.journal.write held.authorization record)) :=
            (minds_write h held.authorization record).interpret fun call hcall => Confined.ask hcall
          simp only [carryHost, map_eq_pure_bind]
          exact hwrite.bind fun r hr => hr

theorem works_osProgram {α : Type} (p : Engine α) (h : Manages file journal) :
    Confined (Works file) (fun r => Manages file r.2.journal) (osProgram p journal) := by
  have hkept : ∀ held c, Manages file held.journal →
      Confined (Works file) (fun r => Manages file r.2.journal) (carryHost held c) :=
    works_carryHost
  refine Confined.interpretWith ?_ hkept
  exact h

end Confined

theorem elsewhere_step (g : Ledger) (s : Life) (c : OsCall) (answer : OsAnswer c) (t : Life)
    (hworks : Works file c) (h : Elsewhere file g s.ledger) (step : N.lifeEnv s c answer t) :
    Elsewhere file g t.ledger := by
  cases c with
  | native call => exact h.same (congrArg Ledger.disk step.2) (congrArg Ledger.marked step.2)
  | file call => exact h.step hworks step.1
  | control call =>
      obtain rfl : t = s := step
      exact h

/-- What is found of the file after a program of the engine, finished or cut. -/
def Ran (N : NativeVolume) (file : FileId) {α : Type} (p : Engine α) (l t : Life)
    (r : Option α) : Prop :=
  ∀ s' ∈ t.os.found file, ∃ s ∈ l.os.found file, ∃ trace,
    Runs N.hostEnv (interpret carryCall p) s trace r s'

theorem spec_process {α : Type} {p : Engine α} {l : Life}
    (hretains : Retains file ⟨journal, none⟩ l.os) (hmanages : Manages file journal)
    (hstarts : ∀ s ∈ l.os.found file,
      Spec N.hostEnv HostWorld.Replays (interpret carryCall p) (fun _ _ => True) s) :
    Spec N.lifeEnv
      (fun t => Elsewhere file l.ledger t.ledger ∧ Ran N file p l t none) (osProgram p journal)
      (fun r t => (Elsewhere file l.ledger t.ledger ∧ Manages file r.2.journal) ∧
        Retains file r.2 t.os ∧ Ran N file p l t (some r.1)) l := by
  have hran : Spec N.lifeEnv (fun t => Ran N file p l t none) (osProgram p journal)
      (fun r t => Retains file r.2 t.os ∧ Ran N file p l t (some r.1)) l :=
    Spec.comap osEnv_of_lifeEnv ((retraces_host N file).spec_runs hretains hstarts)
  exact ((works_osProgram p hmanages).spec (elsewhere_step l.ledger)
    (Elsewhere.refl file l.ledger)).both hran

end DarkReNamer
