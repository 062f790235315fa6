import DarkReNamer.Interaction.Retrace
import DarkReNamer.Rename.Journal.FileJournal.Reopened
import DarkReNamer.Rename.WindowsBackend.Host

/-!
# Processes that restart

A process holds its journal in memory and its file on a disk. The calls of the executor and of
recovery become native functions and calls on the journal file, and the process can end between
any two of them, in the middle of a frame too. What it held is lost then, the disk keeps of the
file what a crash leaves, and the next process starts from what it reads there. For the
transaction all this is a session of the host: the records are those that are read back.
-/

namespace DarkReNamer

open Interaction Occupancy UndoLog FileJournal

inductive OsCall where
  | native (call : NativeCall)
  | file (call : FileCall)
  | control (call : ControlCall)
  deriving DecidableEq

abbrev OsAnswer : OsCall → Type
  | .native call => NativeAnswer call
  | .file call => FileAnswer call
  | .control call => ControlAnswer call

abbrev OsProgram (α : Type) : Type := Program OsCall OsAnswer α

abbrev OsEvent : Type := Event OsCall OsAnswer

structure OsWorld where
  native : NativeState
  disk : Disk

/-- What a process holds of its journal: the open journal, and the authorization behind the
snapshot of a recovery. -/
structure Held where
  journal : FileJournal
  authorization : Option JournalAuthorization

def osFile (call : FileCall) : OsProgram (FileAnswer call) := Program.ask (OsCall.file call)

/-- The answer of a call that leaves the journal alone. -/
def keepHeld (held : Held) {c : HostCall} (p : OsProgram (HostAnswer c)) :
    OsProgram (HostAnswer c × Held) :=
  (fun answer => (answer, held)) <$> p

def holdSnapshot (held : Held) : Except JournalError (List JournalRecord) × Held :=
  match held.journal.authorizedSnapshot with
  | .error error => (.error error, held)
  | .ok (records, authorization) => (.ok records, { held with authorization := some authorization })

/-- The calls of the host, carried out by a process. -/
def carryHost (held : Held) : (c : HostCall) → OsProgram (HostAnswer c × Held)
  | .native call => keepHeld held (c := .native call) (Program.ask (OsCall.native call))
  | .journal .snapshot => pure (holdSnapshot held)
  | .journal (.append record) =>
      (fun r => (r.1.1, ⟨r.1.2, r.2⟩)) <$>
        interpret osFile (held.journal.write held.authorization record)
  | .control call => keepHeld held (c := .control call) (Program.ask (OsCall.control call))

/-- A program of the engine as a process runs it. -/
def osProgram {α : Type} (p : Engine α) (journal : FileJournal) : OsProgram (α × Held) :=
  interpretWith (fun held => carryHost held) (interpret carryCall p) ⟨journal, none⟩

variable {N : NativeVolume} {confirmed : ConfirmedPlan} {b : VolumeState} {w : OsWorld}
  {file : FileId}

namespace NativeVolume

variable (N) in
def osEnv : Environment OsWorld OsCall OsAnswer
  | s, .native call, answer, t => N.nativeRel s.native call answer t.native ∧ t.disk = s.disk
  | s, .file call, answer, t => fileEnv s.disk call answer t.disk ∧ t.native = s.native
  | s, .control _, _, t => t = s

theorem refines_osFile (native : NativeState) :
    Refines N.osEnv (fun disk w => w.disk = disk ∧ w.native = native) osFile fileEnv := by
  rintro call s w ⟨rfl, rfl⟩
  refine ⟨⟨_, .inl rfl, rfl, rfl⟩, fun answer u step => ?_⟩
  exact ⟨⟨_, .inr ⟨answer, step.1⟩, rfl, step.2⟩, _, step.1, rfl, step.2⟩

end NativeVolume

/-- The worlds of the host that may be found: their records are read back. -/
def OsWorld.found (file : FileId) (w : OsWorld) : Set HostWorld :=
  { s | s.native = w.native ∧ ∃ content ∈ leavings w.disk file, s.records = salvaged content }

/-- The process retains the file with its journal. -/
structure Retains (file : FileId) (held : Held) (w : OsWorld) : Prop where
  file_eq : held.journal.file = file
  kept : held.journal.Kept w.disk

/-- The replay accepts the records. -/
def HostWorld.Replays (s : HostWorld) : Prop := (replayJournal s.records).isCorrupt = false

section Retrace

variable {held : Held} {u : OsWorld} {s : HostWorld}

theorem found_of_disk (hdisk : u.disk = w.disk) (hs : s ∈ u.found file) :
    (⟨w.native, s.records⟩ : HostWorld) ∈ w.found file := by
  obtain ⟨-, content, hcontent, hrecords⟩ := hs
  rw [hdisk] at hcontent
  exact ⟨rfl, content, hcontent, hrecords⟩

theorem Retains.salvages (h : Retains file held w) (hunpoisoned : held.journal.poisoned = false) :
    Salvages file (· = held.journal.records) w.disk :=
  h.file_eq ▸ h.kept.salvages hunpoisoned

/-- An unpoisoned journal has the records of every world that may be found. -/
theorem Retains.records_eq (h : Retains file held w) (hunpoisoned : held.journal.poisoned = false)
    (hs : s ∈ w.found file) : s.records = held.journal.records := by
  obtain ⟨-, content, hcontent, hrecords⟩ := hs
  exact hrecords.trans (h.salvages hunpoisoned content hcontent)

theorem Retains.found (h : Retains file held w) (hunpoisoned : held.journal.poisoned = false) :
    (⟨w.native, held.journal.records⟩ : HostWorld) ∈ w.found file :=
  ⟨rfl, _, .inl rfl, (h.salvages hunpoisoned _ (.inl rfl)).symm⟩

theorem unpoisoned_of_authorizedSnapshot {journal : FileJournal} {records : List JournalRecord}
    {authorization : JournalAuthorization}
    (h : journal.authorizedSnapshot = .ok (records, authorization)) :
    journal.poisoned = false ∧ records = journal.records := by
  unfold authorizedSnapshot requireActive at h
  split at h
  · cases h
  · next hactive =>
      split_ifs at hactive with hpoisoned
      cases h
      exact ⟨Bool.eq_false_iff.2 hpoisoned, rfl⟩

/-- A snapshot shows the records of every world that may be found. -/
theorem Retains.holdSnapshot (h : Retains file held w) :
    Retains file (holdSnapshot held).2 w ∧ ∀ s ∈ w.found file,
      N.hostEnv s (.journal .snapshot) (DarkReNamer.holdSnapshot held).1 s := by
  unfold DarkReNamer.holdSnapshot
  cases hsnapshot : held.journal.authorizedSnapshot with
  | error error => exact ⟨h, fun s _ => ⟨rfl, rfl⟩⟩
  | ok r =>
      obtain ⟨records, authorization⟩ := r
      obtain ⟨hunpoisoned, rfl⟩ := unpoisoned_of_authorizedSnapshot hsnapshot
      exact ⟨⟨h.file_eq, h.kept⟩, fun s hs => ⟨⟨(h.records_eq hunpoisoned hs).symm, rfl⟩, rfl⟩⟩

/-- What a file leads to is found in the worlds that the host may have reached. -/
theorem found_of_leads {rel : List JournalRecord → List JournalRecord → Prop}
    (hleads : Leads file rel w.disk u.disk) (hs : s ∈ u.found file) :
    ∃ records, (⟨w.native, records⟩ : HostWorld) ∈ w.found file ∧ rel records s.records := by
  obtain ⟨-, content', hcontent', hrecords'⟩ := hs
  obtain ⟨content, hcontent, hled⟩ := hleads content' hcontent'
  exact ⟨_, ⟨rfl, content, hcontent, rfl⟩, hrecords' ▸ hled⟩

theorem reaches_of_grown {records : List JournalRecord} {record : JournalRecord}
    {native : NativeState} (hnative : s.native = native)
    (hgrown : Grown records record s.records) :
    Reaches N.hostEnv ⟨native, records⟩ (.journal (.append record)) s := by
  obtain ⟨native', records'⟩ := s
  subst hnative
  rcases hgrown with heq | heq
  · exact .inl (congrArg _ heq)
  · exact .inr ⟨.ok (), heq, rfl⟩

/-- What is found after a call of a process is what the host may have made of what was found
before it. -/
theorem retraces_host (N : NativeVolume) (file : FileId) :
    Retraces N.osEnv (Retains file) (OsWorld.found file) HostWorld.Replays
      (fun held => carryHost held) N.hostEnv where
  call c held w h hreplays := by
    have hstays : ∀ s' ∈ w.found file, ∃ s ∈ w.found file, Reaches N.hostEnv s c s' :=
      fun s' hs' => ⟨s', hs', .inl rfl⟩
    cases c with
    | native call =>
        refine (Spec.map_iff _ _ _ _).2 ⟨hstays, fun answer u step => ?_⟩
        obtain ⟨hnative, hdisk⟩ := step
        have hback : ∀ s' ∈ u.found file,
            N.hostEnv ⟨w.native, s'.records⟩ (.native call) answer s' :=
          fun s' hs' => ⟨hs'.1 ▸ hnative, rfl⟩
        exact ⟨fun s' hs' => ⟨_, found_of_disk hdisk hs', .inr ⟨answer, hback s' hs'⟩⟩,
          ⟨h.file_eq, hdisk ▸ h.kept⟩, fun s' hs' => ⟨_, found_of_disk hdisk hs', hback s' hs'⟩⟩
    | control call =>
        refine (Spec.map_iff _ _ _ _).2 ⟨hstays, ?_⟩
        rintro answer _ rfl
        exact ⟨hstays, h, fun s' hs' => ⟨s', hs', rfl⟩⟩
    | journal call =>
        cases call with
        | snapshot =>
            obtain ⟨hretains, hshows⟩ := h.holdSnapshot (N := N)
            exact ⟨hstays, hretains, fun s' hs' => ⟨s', hs', hshows s' hs'⟩⟩
        | append record =>
            have haccepted : held.journal.poisoned = false →
                (replayJournal (held.journal.records ++ [record])).isCorrupt = false :=
              fun hunpoisoned => hreplays _ (h.found hunpoisoned)
                ⟨w.native, held.journal.records ++ [record]⟩ (reaches_of_grown rfl (.inr rfl))
            have hwrite := (NativeVolume.refines_osFile (N := N) w.native).spec
              (h.kept.spec_write held.authorization haccepted) ⟨rfl, rfl⟩
            rw [h.file_eq] at hwrite
            refine (Spec.map_iff _ _ _ _).2 ((hwrite.mono_crash ?_).mono ?_)
            · rintro u ⟨_, hleads, rfl, hnative⟩ s' hs'
              obtain ⟨records, hfound, hgrown⟩ := found_of_leads hleads hs'
              exact ⟨_, hfound, reaches_of_grown (hs'.1.trans hnative) hgrown⟩
            · rintro r u ⟨_, ⟨hkept, hfile, hleads⟩, rfl, hnative⟩
              refine ⟨⟨hfile, hkept⟩, fun s' hs' => ?_⟩
              obtain ⟨records, hfound, hrel⟩ := found_of_leads hleads hs'
              exact ⟨_, hfound, hrel, hs'.1.trans hnative⟩

end Retrace

/-- A process that starts after a crash, opens the journal of the file and runs a program. -/
inductive Restart (N : NativeVolume) (file : FileId) {α : Type} (p : Engine α) (w : OsWorld) :
    Option α → OsWorld → Prop where
  | mk {disk disk' : Disk} {native : NativeState} {opening : JournalOpening}
      {files : List FileEvent} {journal : FileJournal} {trace : List OsEvent}
      {r : Option (α × Held)} {t : OsWorld} (crashed : Crashed w.disk disk)
      (hsame : native.occupancy = w.native.occupancy)
      (opened : Runs fileEnv opening.program disk files (some (some journal)) disk')
      (hfile : journal.file = file)
      (run : Runs N.osEnv (osProgram p journal) ⟨native, disk'⟩ trace r t) :
      Restart N file p w (r.map Prod.fst) t

/-- What the processes of a transaction leave: one executes the plan with a journal that has no
records yet, and the ones behind it recover, or get no further than the opening. -/
inductive OsSession (N : NativeVolume) (confirmed : ConfirmedPlan) (b : VolumeState)
    (file : FileId) : OsWorld → Prop where
  | execute {disk disk' : Disk} {native : NativeState} {opening : JournalOpening}
      {files : List FileEvent} {journal : FileJournal} {trace : List OsEvent}
      {r : Option (Except ExecuteError ExecutionReport × Held)} {t : OsWorld}
      (hrest : AtRest disk) (hstart : native.occupancy = b)
      (opened : Runs fileEnv opening.program disk files (some (some journal)) disk')
      (hfile : journal.file = file) (hempty : journal.records = [])
      (run : Runs N.osEnv (osProgram (Executor.executeWithControl confirmed).run journal)
        ⟨native, disk'⟩ trace r t) : OsSession N confirmed b file t
  | recover {w t : OsWorld} {r : Option RecoveryOutcome} (past : OsSession N confirmed b file w)
      (restart : Restart N file Recovery.rollback w r t) : OsSession N confirmed b file t
  | unopened {w : OsWorld} {disk disk' : Disk} {opening : JournalOpening} {files : List FileEvent}
      {r : Option (Option FileJournal)} (past : OsSession N confirmed b file w)
      (crashed : Crashed w.disk disk) (run : Runs fileEnv opening.program disk files r disk') :
      OsSession N confirmed b file ⟨w.native, disk'⟩

section Sessions

variable {disk disk' : Disk} {opening : JournalOpening} {files : List FileEvent}
  {journal : FileJournal} {native : NativeState}

/-- A process that has opened the journal retains it, and finds its records. -/
theorem retains_of_opening (native : NativeState) (hrest : AtRest disk)
    (opened : Runs fileEnv opening.program disk files (some (some journal)) disk')
    (hfile : journal.file = file) :
    Retains file ⟨journal, none⟩ ⟨native, disk'⟩ ∧
      ∀ s ∈ OsWorld.found file ⟨native, disk'⟩, s = ⟨native, journal.records⟩ := by
  obtain ⟨hkept, hsalvages⟩ := kept_of_opening hrest opened
  rw [hfile] at hsalvages
  refine ⟨⟨hfile, hkept⟩, ?_⟩
  rintro ⟨_, records⟩ ⟨rfl, content, hcontent, hrecords⟩
  exact congrArg _ (hrecords.trans (hsalvages content hcontent))

/-- The worlds found behind a crash and an opening were there before. -/
theorem found_of_crashed (crashed : Crashed w.disk disk)
    {r : Option (Option FileJournal)} (run : Runs fileEnv opening.program disk files r disk')
    {s : HostWorld} (hs : s ∈ OsWorld.found file ⟨native, disk'⟩) :
    (⟨w.native, s.records⟩ : HostWorld) ∈ w.found file := by
  obtain ⟨-, content, hcontent, hrecords⟩ := hs
  rw [(sameContents_of_opening (atRest_of_crashed crashed) run).leavings file] at hcontent
  exact ⟨rfl, content, leavings_of_crashed crashed file hcontent, hrecords⟩

theorem spec_executeHost {s : HostWorld} (hempty : s.records = []) :
    Spec N.hostEnv HostWorld.Replays
      (interpret carryCall (Executor.executeWithControl confirmed).run) (fun _ _ => True) s := by
  refine ((N.refines_host.spec (Executor.spec_execute_consistent N.volume.backendRel confirmed
    (s := s.view) hempty) rfl).mono_crash ?_).mono fun _ _ _ => trivial
  rintro u ⟨_, ⟨steps, hconsistent⟩, rfl⟩
  exact hconsistent.isCorrupt_eq_false

theorem HostSession.spec_rollbackHost {r s : HostWorld} (h : HostSession N confirmed b r)
    (hsame : s.view = r.view) :
    Spec N.hostEnv HostWorld.Replays (interpret carryCall Recovery.rollback) (fun _ _ => True)
      s := by
  obtain ⟨steps, hconsistent⟩ := h.session.consistent
  have hspec := Recovery.spec_rollback within_engineEnv
    (carries_true N.volume.backendRel steps)
    (Recovery.settles_true N.volume.backendRel _ steps) (fun _ => trivial) hconsistent
  refine ((N.refines_host.spec hspec hsame).mono_crash ?_).mono fun _ _ _ => trivial
  rintro u ⟨_, hconsistent, rfl⟩
  exact hconsistent.isCorrupt_eq_false

/-- What is found after a process that started behind a crash is what the host made of what was
found before it. -/
theorem Restart.simulates {α : Type} {p : Engine α} {r : Option α} {t : OsWorld}
    (restart : Restart N file p w r t)
    (hspec : ∀ v ∈ w.found file, ∀ s : HostWorld, s.view = v.view →
      Spec N.hostEnv HostWorld.Replays (interpret carryCall p) (fun _ _ => True) s) :
    ∀ s' ∈ t.found file, ∃ v ∈ w.found file, ∃ s : HostWorld, s.view = v.view ∧
      ∃ trace, Runs N.hostEnv (interpret carryCall p) s trace r s' := by
  cases restart with
  | @mk disk disk' native opening files journal _ _ _ crashed hsame opened hfile run =>
      obtain ⟨hretains, -⟩ := retains_of_opening native
        (atRest_of_crashed crashed) opened hfile
      have hbefore : ∀ s ∈ OsWorld.found file ⟨native, disk'⟩,
          ∃ v ∈ w.found file, s.view = v.view := by
        intro s hs
        refine ⟨_, found_of_crashed crashed opened hs, ?_⟩
        rw [HostWorld.view, hs.1, HostWorld.view, hsame]
      have hstarts : ∀ s ∈ OsWorld.found file ⟨native, disk'⟩,
          Spec N.hostEnv HostWorld.Replays (interpret carryCall p) (fun _ _ => True) s := by
        intro s hs
        obtain ⟨v, hv, hview⟩ := hbefore s hs
        exact hspec v hv s hview
      have hback := (retraces_host N file).simulates hretains hstarts run
      intro s' hs'
      obtain ⟨s, hs, above, hruns⟩ := hback s' hs'
      obtain ⟨v, hv, hview⟩ := hbefore s hs
      exact ⟨v, hv, s, hview, above, hruns⟩

/-- Whatever is read back after the processes of a transaction is what a session of the host
leaves. -/
theorem OsSession.hostSession (h : OsSession N confirmed b file w) :
    ∀ s ∈ w.found file, HostSession N confirmed b s := by
  induction h with
  | @execute disk disk' native opening files journal _ _ _ hrest hstart opened hfile hempty run =>
      obtain ⟨hretains, hfound⟩ := retains_of_opening native hrest opened hfile
      have hback := (retraces_host N file).simulates hretains
        (fun s hs => spec_executeHost (hfound s hs ▸ hempty)) run
      intro s hs
      obtain ⟨start, hfresh, above, hruns⟩ := hback s hs
      refine .execute ?_ hruns
      rw [hfound start hfresh, HostWorld.view, hstart, hempty]
  | recover past restart ih =>
      intro s hs
      obtain ⟨r, hr, start, hsame, above, hruns⟩ := restart.simulates
        (fun r hr start hsame => (ih r hr).spec_rollbackHost hsame) s hs
      exact .recover (ih r hr) hsame hruns
  | unopened past crashed run ih =>
      intro s hs
      have hbefore := ih _ (found_of_crashed crashed run hs)
      obtain ⟨native, records⟩ := s
      obtain rfl : native = _ := hs.1
      exact hbefore

theorem Logs.ne_nil {plan : PlanId} {steps : List JournalStep} {records : List JournalRecord}
    {phase : Phase} (h : Logs records plan steps phase) : records ≠ [] := by
  obtain ⟨log, rfl, -⟩ := h
  exact List.cons_ne_nil _ _

/-- Before the first record nothing has moved. -/
theorem Underway.unstarted {V : Volume} {plan : RenamePlan} {steps : List JournalStep}
    {s : World VolumeState} (h : Underway V plan b steps s) (hempty : s.records = []) :
    s.backend = b := by
  rcases h.consistent with ⟨-, hat⟩ | ⟨phase, hlogs, -⟩
  · exact hat
  · exact absurd hempty hlogs.ne_nil

/-- What is read off the content tells what has become of the volume. -/
inductive ReadsBack (plan : RenamePlan) (b o : VolumeState) (content : List UInt8) : Prop where
  | unstarted (hnone : salvaged content = []) (hback : o = b)
  | ended {inspection : JournalInspection}
      (hinspect : inspectJournalRecords content = .ok inspection)
      (hclean : replayJournal inspection.records = .clean)
      (hwhole : o = b ∨ o = plan.simultaneous b)
  | interrupted {inspection : JournalInspection}
      (hinspect : inspectJournalRecords content = .ok inspection)
      (hrequired : ∃ total completed reason, replayJournal inspection.records =
        .recoveryRequired plan.id total completed reason)

theorem Underway.readsBack {V : Volume} {plan : RenamePlan} {steps : List JournalStep}
    {o : VolumeState} {content : List UInt8}
    (h : Underway V plan b steps ⟨o, salvaged content⟩) : ReadsBack plan b o content := by
  by_cases hnone : salvaged content = []
  · exact .unstarted hnone (h.unstarted hnone)
  cases hinspect : inspectJournalRecords content with
  | error error => exact absurd (salvaged_of_error hinspect) hnone
  | ok inspection =>
      have hrecords := salvaged_of_ok hinspect
      by_cases hclean : replayJournal (salvaged content) = .clean
      · exact .ended hinspect (hrecords ▸ hclean) (h.ended hclean)
      · exact .interrupted hinspect (hrecords ▸ (h.recoverable hclean).required)

/-- A recovery that reports so has taken the session back. -/
theorem Underway.recovered {V : Volume} {plan : RenamePlan} {steps : List JournalStep}
    {s t : World VolumeState} (h : Underway V plan b steps s) {trace : List EngineEvent}
    {recovered : PlanId} {restored : ℕ} (run : Runs (engineEnv V.backendRel) Recovery.rollback s
      trace (some (.recovered recovered restored)) t) : recovered = plan.id ∧ RolledBack b t :=
  (((h.spec_rollback within_engineEnv Recovery.reading_engineEnv).sound run).2 _ rfl).rolledBack

/-- The processes of a transaction, cut between any two calls of the operating system, in the
middle of a frame of the journal too: whatever a crash leaves of the journal tells whether nothing
or everything was moved or recovery is called for, and a recovery that a later process reports has
taken everything back and has closed the journal for every process behind it. -/
theorem OsSession.survives_crashes {request : PlanRequest} {plan : RenamePlan} {s t : HostWorld}
    {trace : List HostEvent}
    (planning : Runs N.hostEnv (interpret carryCall (Planner.planCancellable request).run) s trace
      (some (.ok plan)) t) (h : OsSession N ⟨plan⟩ s.native.occupancy file w) :
    (∀ content ∈ leavings w.disk file,
      ReadsBack plan s.native.occupancy w.native.occupancy content) ∧
    ∀ recovered restored u,
      Restart N file Recovery.rollback w (some (.recovered recovered restored)) u →
      recovered = plan.id ∧ u.native.occupancy = s.native.occupancy ∧
        ∀ content ∈ leavings u.disk file, replayJournal (salvaged content) = .clean := by
  obtain ⟨_, above, hruns, rfl⟩ := N.refines_host.simulates planning rfl
  obtain ⟨-, hpost⟩ :=
    Spec.sound (Planner.checks_planCancellable (N.volume.admits_self s.view) request) hruns
  obtain ⟨-, hplanned⟩ := hpost _ rfl
  have hunderway : ∀ v ∈ w.found file,
      ∃ steps, Underway N.volume plan s.native.occupancy steps v.view :=
    fun v hv => (h.hostSession v hv).session.exists_underway hplanned.checked
  refine ⟨fun content hcontent => ?_, ?_⟩
  · obtain ⟨steps, hsteps⟩ :=
      hunderway ⟨w.native, salvaged content⟩ ⟨rfl, content, hcontent, rfl⟩
    exact hsteps.readsBack
  · intro recovered restored u restart
    have hback : ∀ s' ∈ u.found file,
        recovered = plan.id ∧ RolledBack s.native.occupancy s'.view := by
      intro s' hs'
      obtain ⟨v, hv, start, hview, above, hruns⟩ := restart.simulates
        (fun v hv start hview => (h.hostSession v hv).spec_rollbackHost hview) s' hs'
      obtain ⟨_, events, hrecovers, rfl⟩ := N.refines_host.simulates hruns hview
      obtain ⟨steps, hsteps⟩ := hunderway v hv
      exact hsteps.recovered hrecovers
    obtain ⟨hplan, hnow⟩ := hback ⟨u.native, _⟩ ⟨rfl, _, .inl rfl, rfl⟩
    refine ⟨hplan, hnow.backend, fun content hcontent => ?_⟩
    exact (hback ⟨u.native, salvaged content⟩ ⟨rfl, content, hcontent, rfl⟩).2.clean

/-- A process can end at any time without a crash. -/
theorem present_of_runs {α : Type} {p : OsProgram α} {trace : List OsEvent} {r : Option α}
    {u : OsWorld} (hpresent : Present w.disk) (run : Runs N.osEnv p w trace r u) :
    Present u.disk := by
  refine ((Spec.invariant (I := fun w : OsWorld => Present w.disk) ?_ p hpresent).sound run).1
  intro s c answer t h step
  cases c with
  | native call => exact step.2 ▸ h
  | file call => exact h.step step.1
  | control call =>
      obtain rfl : t = s := step
      exact h

end Sessions

section Sample

/-! A disk on which the journal may have so many bytes. -/

def serveOs (room : ℕ) (w : OsWorld) : (c : OsCall) → OsAnswer c × OsWorld
  | .native call => ((serveNative w.native call).1, ⟨(serveNative w.native call).2, w.disk⟩)
  | .file call => ((JournalSession.serveFile room w.disk call).1,
      ⟨w.native, (JournalSession.serveFile room w.disk call).2⟩)
  | .control call => (serveControl call, w)

theorem serveOs_allowed (room : ℕ) (w : OsWorld) (c : OsCall) :
    sampleNative.osEnv w c (serveOs room w c).1 (serveOs room w c).2 := by
  cases c with
  | native call => exact ⟨serveNative_allowed w.native call, rfl⟩
  | file call => exact ⟨JournalSession.serveFile_allowed room w.disk call, rfl⟩
  | control call => rfl

def sampleOpening : JournalOpening := .openExisting (.ofAscii "journal")

def openSample (disk : Disk) : Option FileJournal × Disk :=
  sampleOpening.program.run JournalSession.faultless disk

/-- The execution of a plan that the disk has no room for. -/
def executeSample (plan : RenamePlan) : OsWorld :=
  ((osProgram (Executor.executeWithControl ⟨plan⟩).run JournalSession.emptyJournal).run
    (serveOs 350) ⟨sampleHost.native, (openSample JournalSession.emptyJournalDisk).2⟩).2

/-- The next process. -/
def reopenSample (plan : RenamePlan) : Option FileJournal × Disk :=
  openSample (settled (executeSample plan).disk)

def recoverSample (plan : RenamePlan) (journal : FileJournal) :
    (RecoveryOutcome × Held) × OsWorld :=
  (osProgram Recovery.rollback journal).run (serveOs 1000)
    ⟨(executeSample plan).native, (reopenSample plan).2⟩

/-- What the next process finds, and how its recovery ends. -/
def tornSample (plan : RenamePlan) : Option (FileId × ℕ × Option ℕ × RecoveryOutcome) :=
  (reopenSample plan).1.map fun journal =>
    (journal.file, journal.records.length, journal.tornPrefix, (recoverSample plan journal).1.1)

/-- Both files are moved, the last frame is torn, and recovery takes both moves back. -/
theorem OsSession.survives_crashes_tornShift : ∃ plan w recovered restored u,
    OsSession sampleNative ⟨plan⟩ sampleHost.native.occupancy 0 w ∧
      (reopenSample plan).1.map FileJournal.tornPrefix = some (some 345) ∧
      Restart sampleNative 0 Recovery.rollback w (some (.recovered recovered restored)) u ∧
      u.native.occupancy = sampleHost.native.occupancy ∧
      ∀ content ∈ leavings u.disk 0, replayJournal (salvaged content) = .clean := by
  have hplan : ((interpret carryCall (Planner.planCancellable shiftRequest).run).run
      (serveHost 100) sampleHost).1.toOption.map tornSample =
        some (some (0, 4, some 345, .recovered ⟨13855075543445109391⟩ 2)) := by
    decide +kernel
  have hopened : (openSample JournalSession.emptyJournalDisk).1 =
      some JournalSession.emptyJournal := by
    decide +kernel
  obtain ⟨plan, trace, htorn, planning⟩ := Runs.of_toOption (serveHost_allowed 100)
    (p := ExceptT.mk (interpret carryCall (Planner.planCancellable shiftRequest).run)) hplan
  obtain ⟨journal, hjournal, hfound⟩ := Option.map_eq_some_iff.1 htorn
  obtain ⟨hfile, hfound⟩ := Prod.mk.inj hfound
  obtain ⟨-, hfound⟩ := Prod.mk.inj hfound
  obtain ⟨htail, houtcome⟩ := Prod.mk.inj hfound
  have hrest : AtRest JournalSession.emptyJournalDisk := fun _ => rfl
  have opening : Runs fileEnv sampleOpening.program JournalSession.emptyJournalDisk _
      (some (openSample JournalSession.emptyJournalDisk).1) _ :=
    Runs.of_run JournalSession.fileEnv_faultless _ _
  rw [hopened] at opening
  have run := Runs.of_run (serveOs_allowed 350)
    (osProgram (Executor.executeWithControl ⟨plan⟩).run JournalSession.emptyJournal)
    ⟨sampleHost.native, (openSample JournalSession.emptyJournalDisk).2⟩
  have session : OsSession sampleNative ⟨plan⟩ sampleHost.native.occupancy 0
      (executeSample plan) := .execute hrest rfl opening rfl rfl run
  have hpresent : Present (executeSample plan).disk := present_of_runs
    ((sameContents_of_opening hrest opening).atRest hrest).present run
  have reopening : Runs fileEnv sampleOpening.program (settled (executeSample plan).disk) _
      (some (reopenSample plan).1) _ :=
    Runs.of_run JournalSession.fileEnv_faultless _ _
  rw [hjournal] at reopening
  have recovering := Restart.mk hpresent.crashed rfl reopening hfile (Runs.of_run
    (serveOs_allowed 1000) (osProgram Recovery.rollback journal)
    ⟨(executeSample plan).native, (reopenSample plan).2⟩)
  have hanswer : (some ((osProgram Recovery.rollback journal).run (serveOs 1000)
      ⟨(executeSample plan).native, (reopenSample plan).2⟩).1).map Prod.fst =
        some (.recovered ⟨13855075543445109391⟩ 2) := congrArg some houtcome
  rw [hanswer] at recovering
  obtain ⟨-, hback, hclean⟩ := (OsSession.survives_crashes planning session).2 _ _ _ recovering
  exact ⟨plan, _, _, _, _, session, by rw [hjournal]; exact congrArg some htail, recovering, hback,
    hclean⟩

end Sample

end DarkReNamer
