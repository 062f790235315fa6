import DarkReNamer.Rename.SafeRuntime.Steady

/-!
# A new journal

The worker that applies a plan creates its journal at the candidate leaf, in a new file. Whatever
becomes of the creation, the plan is underway from then on, and nothing has moved yet.
-/

namespace DarkReNamer

open Interaction Occupancy UndoLog FileJournal

section Creation

variable {g s t : Ledger} {file : FileId} {journal : FileJournal}

/-- The candidate leaf is vacant, and the file is a new one. -/
structure Fresh (g : Ledger) (file : FileId) : Prop where
  vacant : g.disk.leaves candidateJournalLeaf = none
  empty : g.disk.files file = .empty
  unmarked : file ∉ g.marked
  unnamed : ∀ leaf, g.disk.leaves leaf ≠ some file

def Ledger.create (g : Ledger) (file : FileId) : Ledger :=
  ⟨g.disk.setLeaf candidateJournalLeaf (some file), g.marked⟩

/-- Nothing has happened, or the candidate leaf is the name of a new file. -/
def MayCreate (g t : Ledger) : Prop := t = g ∨ ∃ file, Fresh g file ∧ t = g.create file

/-- The journal of a creation. -/
structure Starts (g : Ledger) (journal : FileJournal) (t : Ledger) : Prop where
  fresh : Fresh g journal.file
  ledger : t = g.create journal.file
  records : journal.records = []
  path : journal.path = candidateJournalLeaf
  phase : journal.phase = .candidate activeJournalLeaf

/-- The calls that only ask. -/
def Asks : FileCall → Prop
  | .metadata _ => True
  | .validatePrivateLeaf _ => True
  | .cloneRoot => True
  | .combinedIdentity => True
  | _ => False

theorem Asks.eq {c : FileCall} {answer : FileAnswer c} (h : Asks c)
    (step : ledgerEnv s c answer t) : t = s := by
  obtain ⟨hdisk, -, hmarked⟩ := step
  obtain ⟨disk, marked⟩ := t
  have hsame : disk = s.disk → marked = s.marked → (⟨disk, marked⟩ : Ledger) = s := by
    rintro rfl rfl
    rfl
  cases c with
  | metadata other =>
      cases answer with
      | error error => exact hsame hdisk hmarked
      | ok metadata => exact hsame hdisk.2 hmarked
  | validatePrivateLeaf | cloneRoot | combinedIdentity => cases answer <;> exact hsame hdisk hmarked
  | createLeaf | symlinkMetadata | openLeaf | openExisting | isSingleLinked | seekStart | seekEnd
  | readToEnd | writeAll | flush | syncAll | setLen | promoteNoReplace | markDelete => exact h.elim

theorem asks_attempt {α ε : Type} {call : FileProgram (Except IoError α)} {failure : IoError → ε}
    (h : Confined Asks (fun _ => True) call) :
    Tries Asks (fun _ => True) (attempt call failure) := by
  unfold attempt
  refine Tries.bind (Tries.lift h) fun r _ => ?_
  cases r with
  | error error => exact Tries.throw _
  | ok a => exact Tries.pure trivial

/-- What becomes of the file that was created. -/
theorem asks_created (path : LegacyText) (phase : FileJournalPhase) (file : FileId) :
    Tries Asks (fun journal : FileJournal => journal.file = file ∧ journal.records = [] ∧
        journal.path = path ∧ journal.phase = phase)
      (do
        validateFileType file
        attempt (Disk.validatePrivateLeaf file) FileJournalError.ofIo
        attempt Disk.cloneRoot FileJournalError.ofIo
        let identity ← Disk.combinedIdentity
        pure ⟨path, file, [], identity, 0, 0, 0, none, none, false, phase⟩) := by
  have htype : Tries Asks (fun _ => True) (validateFileType file) := by
    unfold validateFileType
    refine Tries.bind (asks_attempt (Confined.ask trivial)) fun metadata _ => ?_
    split
    · exact Tries.throw _
    · exact Tries.pure trivial
  refine Tries.bind htype fun _ _ => ?_
  refine Tries.bind (asks_attempt (Confined.ask trivial)) fun _ _ => ?_
  refine Tries.bind (asks_attempt (Confined.ask trivial)) fun _ _ => ?_
  refine Tries.bind (Tries.lift (Confined.ask trivial)) fun identity _ => ?_
  exact Tries.pure ⟨rfl, rfl, rfl, rfl⟩

theorem created_createLeaf :
    Spec ledgerEnv (MayCreate g)
      (attempt (Disk.createLeaf candidateJournalLeaf) FileJournalError.ofIo).run
      (fun r t => MayCreate g t ∧ ∀ file, r = .ok file → Fresh g file ∧ t = g.create file) g := by
  unfold attempt
  rw [Spec.except_lift_bind_iff]
  refine ⟨.inl rfl, fun answer t step => ?_⟩
  obtain ⟨hdisk, hhonest, hmarked⟩ := step
  obtain ⟨disk, marked⟩ := t
  obtain rfl : marked = g.marked := hmarked
  cases answer with
  | error error =>
      obtain rfl : disk = g.disk := hdisk
      exact ⟨.inl rfl, .inl rfl, .inl rfl, by rintro _ ⟨⟩⟩
  | ok file =>
      obtain ⟨hvacant, hempty, rfl⟩ := hdisk
      have hfresh : Fresh g file := ⟨hvacant, hempty, hhonest.1, hhonest.2⟩
      have hcreated : MayCreate g (g.create file) := .inr ⟨file, hfresh, rfl⟩
      refine ⟨hcreated, hcreated, hcreated, ?_⟩
      rintro _ ⟨⟩
      exact ⟨hfresh, rfl⟩

theorem starts_createIn :
    Spec ledgerEnv (MayCreate g) (createIn candidateJournalLeaf (.candidate activeJournalLeaf)).run
      (fun r t => MayCreate g t ∧ ∀ journal, r = .ok journal → Starts g journal t) g := by
  unfold createIn
  rw [Spec.except_bind_iff]
  refine created_createLeaf.mono fun r t hr => ?_
  obtain ⟨hcreated, hok⟩ := hr
  cases r with
  | error error => exact ⟨hcreated, hcreated, by rintro _ ⟨⟩⟩
  | ok file =>
      obtain ⟨hfresh, rfl⟩ := hok file rfl
      have hkept : ∀ s c answer t, Asks c → s = g.create file → ledgerEnv s c answer t →
          t = g.create file := fun s c answer t hasks hs step => (hasks.eq step).trans hs
      have hrest := Confined.spec
        (asks_created candidateJournalLeaf (.candidate activeJournalLeaf) file) hkept rfl
      refine (hrest.mono_crash fun t ht => ht ▸ hcreated).mono fun r t hr => ?_
      obtain ⟨rfl, hjournal⟩ := hr
      refine ⟨hcreated, fun journal hok => ?_⟩
      obtain ⟨rfl, hrecords, hpath, hphase⟩ := hjournal journal hok
      exact ⟨hfresh, rfl, hrecords, hpath, hphase⟩

theorem starts_createCandidate :
    Spec ledgerEnv (MayCreate g) (createCandidate candidateJournalLeaf activeJournalLeaf).run
      (fun r t => MayCreate g t ∧ ∀ journal, r = .ok journal → Starts g journal t) g := by
  have hthrow : ∀ error, Spec ledgerEnv (MayCreate g)
      (throw error : ExceptT FileJournalError FileProgram FileJournal).run
      (fun r t => MayCreate g t ∧ ∀ journal, r = .ok journal → Starts g journal t) g :=
    fun error => ⟨.inl rfl, .inl rfl, by rintro _ ⟨⟩⟩
  unfold createCandidate
  split
  · exact hthrow _
  · exact hthrow _
  · next candidatePath activePath hcandidate hactive =>
      obtain rfl := child_eq_ok hcandidate
      obtain rfl := child_eq_ok hactive
      split
      · exact hthrow _
      · exact starts_createIn

/-- A new journal is in step with its file, which is empty. -/
theorem Starts.kept (h : Starts g journal t) (hopened : journal.Opened t.disk) :
    journal.Kept t.disk := by
  have hsynced : journal.Synced t.disk := by
    have hempty : t.disk.files journal.file = .empty := by
      rw [h.ledger]
      exact h.fresh.empty
    unfold Synced
    rw [hempty]
    rfl
  exact ⟨fun _ => hopened.intact,
    fun _ => hopened.intact.salvages hsynced hopened.replays⟩

/-- Nothing is read back of a new file. -/
theorem Fresh.salvages (h : Fresh g file) : Salvages file (· = []) (g.create file).disk := by
  unfold Salvages leavings
  rw [show (g.create file).disk.files file = .empty from h.empty]
  rintro content (rfl | rfl)
  · rfl
  · rfl

theorem opened_createCandidate :
    Spec ledgerEnv (MayCreate g) (createCandidate candidateJournalLeaf activeJournalLeaf).run
      (fun r t => MayCreate g t ∧
        ∀ journal, r = .ok journal → Starts g journal t ∧ journal.Kept t.disk) g := by
  have hopened : Spec ledgerEnv (fun _ => True)
      (createCandidate candidateJournalLeaf activeJournalLeaf).run
      (fun r t => ∀ journal, r = .ok journal → journal.Opened t.disk) g :=
    Spec.comap (fun _ _ _ _ step => step.1)
      (returns_createCandidate candidateJournalLeaf activeJournalLeaf)
  refine ((starts_createCandidate.both hopened).mono_crash fun t ht => ht.1).mono fun r t hr => ?_
  obtain ⟨⟨hcreated, hstarts⟩, hopens⟩ := hr
  refine ⟨hcreated, fun journal hjournal => ?_⟩
  exact ⟨hstarts journal hjournal, (hstarts journal hjournal).kept (hopens journal hjournal)⟩

end Creation

section Steady

variable {N : NativeVolume} {b : VolumeState} {plan : RenamePlan} {file : FileId} {l : Life}

/-- With its journal, the plan is underway. -/
theorem Steady.create (h : Steady N b none l) (planned : PlannedBy N plan)
    (fresh : Fresh l.ledger file) :
    Steady N b (some (plan, file)) ⟨l.native, l.ledger.create file⟩ := by
  have hactive : (l.ledger.create file).disk.leaves activeJournalLeaf =
      l.ledger.disk.leaves activeJournalLeaf :=
    leaves_setLeaf_of_ne _ activeJournalLeaf_ne _
  have hcandidate : (l.ledger.create file).disk.leaves candidateJournalLeaf = some file :=
    leaves_setLeaf_self _ _ _
  refine ⟨by simp, ?_, ?_, ?_, ?_, fun other hother hleaf => ?_, fun leaf other hleaf hother => ?_,
    fun other hother => ?_⟩
  · rintro _ _ ⟨⟩
    exact planned
  · rintro _ _ ⟨⟩ s ⟨hnative, content, hcontent, hrecords⟩
    refine ⟨[], ?_⟩
    have hview : s.view = ⟨b, []⟩ := by
      rw [HostWorld.view, hrecords, fresh.salvages content hcontent, hnative]
      exact congrArg (World.mk · []) (h.idle rfl)
    exact hview ▸ underway_initial N.volume plan b
  · rintro _ _ ⟨⟩
    exact .inr hcandidate
  · rintro _ _ ⟨⟩
    exact fresh.unmarked
  · exact h.closed other hother (hactive ▸ hleaf)
  · rcases hleaf with rfl | rfl
    · rcases h.others _ other (.inl rfl) (hactive ▸ hother) with hmarked | ⟨_, ⟨⟩⟩
      exact .inl hmarked
    · exact .inr ⟨plan, by rw [Option.some.inj (hcandidate.symm.trans hother)]⟩
  · intro hboth
    rw [hactive] at hother
    rw [hcandidate] at hboth
    obtain rfl := Option.some.inj hboth
    exact fresh.unnamed _ hother

end Steady

end DarkReNamer
