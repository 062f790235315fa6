import DarkReNamer.Rename.Atomicity
import DarkReNamer.Rename.WindowsBackend.Refinement

/-!
# Transactions of a host

A host carries out the calls of the planner, the executor and recovery: those of the backend by
the Windows backend over the native functions, those of the journal and of the control as they
are. A process can end between any two native calls, and the next one has other handles. What the
host leaves behind is what a session on the volume leaves.
-/

namespace DarkReNamer

open Interaction Occupancy UndoLog

inductive HostCall where
  | native (call : NativeCall)
  | journal (call : JournalCall)
  | control (call : ControlCall)
  deriving DecidableEq

abbrev HostAnswer : HostCall → Type
  | .native call => NativeAnswer call
  | .journal call => JournalAnswer call
  | .control call => ControlAnswer call

abbrev HostProgram (α : Type) : Type := Program HostCall HostAnswer α

abbrev HostEvent : Type := Event HostCall HostAnswer

structure HostWorld where
  native : NativeState
  records : List JournalRecord

def HostWorld.view (w : HostWorld) : World VolumeState := ⟨w.native.occupancy, w.records⟩

/-- A native call of the host. -/
def hostNative (call : NativeCall) : HostProgram (NativeAnswer call) :=
  Program.ask (HostCall.native call)

/-- The calls of the engine, carried out by the host. -/
def carryCall : (call : Call) → HostProgram (Answer call)
  | .backend call => interpret hostNative (WindowsBackend.carry call)
  | .journal call => Program.ask (HostCall.journal call)
  | .control call => Program.ask (HostCall.control call)

variable {N : NativeVolume} {confirmed : ConfirmedPlan} {b : VolumeState} {w : HostWorld}

namespace NativeVolume

variable (N) in
def hostEnv : Environment HostWorld HostCall HostAnswer
  | s, .native call, answer, t =>
      N.nativeRel s.native call answer t.native ∧ t.records = s.records
  | s, .journal call, answer, t =>
      journalRel s.records call answer t.records ∧ t.native = s.native
  | s, .control _, _, t => t = s

/-- The host makes the native calls as they are. -/
theorem refines_hostNative (records : List JournalRecord) :
    Refines N.hostEnv (fun s w => w.native = s ∧ w.records = records) hostNative N.nativeRel := by
  rintro call s w ⟨rfl, rfl⟩
  refine ⟨⟨_, .inl rfl, rfl, rfl⟩, fun answer u step => ?_⟩
  exact ⟨⟨_, .inr ⟨answer, step.1⟩, rfl, step.2⟩, _, step.1, rfl, step.2⟩

/-- Every call of the engine has the effect on the host that it may have on the volume. -/
theorem refines_host (N : NativeVolume) :
    Refines N.hostEnv (fun s w => w.view = s) carryCall (engineEnv N.volume.backendRel) := by
  refine Refines.of_view fun call w => ?_
  cases call with
  | backend call =>
      have hspec := (refines_hostNative (N := N) w.records).spec
        (WindowsBackend.refines_backend N call _ w.native rfl) ⟨rfl, rfl⟩
      refine (hspec.mono_crash ?_).mono ?_
      · rintro u ⟨_, ⟨_, hreaches, rfl⟩, rfl, hrecords⟩
        rcases hreaches with heq | ⟨answer, step⟩
        · refine .inl ?_
          rw [HostWorld.view, heq, hrecords]
          rfl
        · exact .inr ⟨answer, step, hrecords⟩
      · rintro answer u ⟨_, ⟨_, step, rfl⟩, rfl, hrecords⟩
        exact ⟨step, hrecords⟩
  | journal call =>
      refine ⟨.inl rfl, fun answer u step => ?_⟩
      have hstep : engineEnv N.volume.backendRel w.view (.journal call) answer u.view :=
        ⟨step.1, congrArg NativeState.occupancy step.2⟩
      exact ⟨.inr ⟨answer, hstep⟩, hstep⟩
  | control call =>
      refine ⟨.inl rfl, ?_⟩
      rintro answer _ rfl
      exact ⟨.inl rfl, rfl⟩

end NativeVolume

/-- The worlds that the transactions of a host can leave. The process that recovers has its own
handles. -/
inductive HostSession (N : NativeVolume) (confirmed : ConfirmedPlan) (b : VolumeState) :
    HostWorld → Prop where
  | execute {s : HostWorld} (hstart : s.view = ⟨b, []⟩) {trace : List HostEvent}
      {result : Option (Except ExecuteError ExecutionReport)} {t : HostWorld}
      (run : Runs N.hostEnv (interpret carryCall (Executor.executeWithControl confirmed).run)
        s trace result t) : HostSession N confirmed b t
  | recover {r s : HostWorld} (past : HostSession N confirmed b r) (hsame : s.view = r.view)
      {trace : List HostEvent} {result : Option RecoveryOutcome} {t : HostWorld}
      (run : Runs N.hostEnv (interpret carryCall Recovery.rollback) s trace result t) :
      HostSession N confirmed b t

/-- What a host leaves is what a session on the volume leaves. -/
theorem HostSession.session (h : HostSession N confirmed b w) :
    Session N.volume.backendRel confirmed b w.view := by
  induction h with
  | execute hstart run =>
      obtain ⟨_, above, hruns, rfl⟩ := N.refines_host.simulates run hstart
      exact .execute hruns
  | recover past hsame run ih =>
      obtain ⟨_, above, hruns, rfl⟩ := N.refines_host.simulates run hsame
      exact .recover ih hruns

/-- The transaction ended, with all or none of its moves made, and its journal is closed. -/
structure Ended (plan : RenamePlan) (b : VolumeState) (w : HostWorld) : Prop where
  clean : replayJournal w.records = .clean
  occupancy : w.native.occupancy = b ∨ w.native.occupancy = plan.simultaneous b

/-- The journal asks for the recovery of the plan, and a recovery of the host that reports it made
has undone every move and closed the journal. -/
structure Interrupted (N : NativeVolume) (plan : RenamePlan) (b : VolumeState) (w : HostWorld) :
    Prop where
  required : ∃ total completed reason,
    replayJournal w.records = .recoveryRequired plan.id total completed reason
  truthful : ∀ s trace recovered restored t, s.view = w.view →
    Runs N.hostEnv (interpret carryCall Recovery.rollback) s trace
      (some (.recovered recovered restored)) t →
    recovered = plan.id ∧ replayJournal t.records = .clean ∧ t.native.occupancy = b

/-- Where the journal is closed, all or none of the moves were made. -/
theorem Underway.ended {V : Volume} {plan : RenamePlan} {steps : List JournalStep}
    {s : World VolumeState} (h : Underway V plan b steps s)
    (hclean : replayJournal s.records = .clean) :
    s.backend = b ∨ s.backend = plan.simultaneous b := by
  rcases h.consistent with ⟨-, hat⟩ | ⟨phase, hlogs, hholds⟩
  · exact .inl hat
  · rw [hlogs.replayJournal] at hclean
    cases phase with
    | ended value =>
        cases value with
        | committed =>
            rw [show s.backend = _ from hholds]
            exact h.final
        | rolledBack => exact .inl hholds
    | _ => cases hclean

/-- A plan that the host makes and carries out over the native functions, cut between any two
native calls, in its execution or in any recovery. -/
theorem HostSession.ended_or_interrupted {request : PlanRequest} {plan : RenamePlan}
    {s t : HostWorld} {trace : List HostEvent}
    (planning : Runs N.hostEnv (interpret carryCall (Planner.planCancellable request).run) s trace
      (some (.ok plan)) t) (h : HostSession N ⟨plan⟩ s.native.occupancy w) :
    t.native.occupancy = s.native.occupancy ∧
      (Ended plan s.native.occupancy w ∨ Interrupted N plan s.native.occupancy w) := by
  obtain ⟨_, above, hruns, rfl⟩ := N.refines_host.simulates planning rfl
  obtain ⟨-, hpost⟩ :=
    Spec.sound (Planner.checks_planCancellable (N.volume.admits_self s.view) request) hruns
  obtain ⟨hview, hplanned⟩ := hpost _ rfl
  refine ⟨congrArg World.backend hview, ?_⟩
  obtain ⟨steps, hunderway⟩ := h.session.exists_underway hplanned.checked
  by_cases hclean : replayJournal w.records = .clean
  · exact .inl ⟨hclean, hunderway.ended hclean⟩
  · have hrecoverable := hunderway.recoverable hclean
    refine .inr ⟨hrecoverable.required, ?_⟩
    intro u events recovered restored v hsame run
    obtain ⟨_, above, hruns, rfl⟩ := N.refines_host.simulates run hsame
    obtain ⟨hplan, hback⟩ := hrecoverable.truthful _ _ _ _ hruns
    exact ⟨hplan, hback.clean, hback.backend⟩

section Sample

/-! One directory of plain files, whose names are compared without the case of their letters. -/

def sampleNative : NativeVolume where
  uppercase units := units.map fun unit => if 97 ≤ unit ∧ unit ≤ 122 then unit - 32 else unit
  directory _ := sampleParent
  kind _ := .file
  isReparsePoint _ := false

/-- The name under a key of the directory. -/
def sampleLeaf (key : PathKey) : List UInt16 := key.units.drop 12

/-- The native functions without faults. A name is spelled as its key is. -/
def serveNative (s : NativeState) : (call : NativeCall) → NativeAnswer call × NativeState
  | .openParent path => (.ok ⟨⟨0⟩, sampleNative.directory path⟩, s)
  | .openParentChain path => (.ok ⟨⟨0⟩, sampleNative.directory path⟩, s)
  | .openEntry parent leaf _ =>
      if s.occupancy (sampleNative.key parent.identity leaf) ≠ none then
        (.ok ⟨1⟩, ⟨s.occupancy,
          Function.update s.opened ⟨1⟩ (some (sampleNative.key parent.identity leaf))⟩)
      else (.error ⟨some 2⟩, s)
  | .metadata file => if s.occupant file ≠ none then (.ok 32, s) else (.error ⟨some 6⟩, s)
  | .fileIdentity file =>
      match s.occupant file with
      | some identity => (.ok identity, s)
      | none => (.error ⟨some 6⟩, s)
  | .normalizedFinalLeaf file =>
      match s.opened file with
      | some key =>
          if sampleNative.key sampleParent (sampleLeaf key) = key then (.ok (sampleLeaf key), s)
          else (.error ⟨some 6⟩, s)
      | none => (.error ⟨some 6⟩, s)
  | .renameNoreplace source parent leaf =>
      match s.opened source with
      | some key =>
          match s.occupancy key with
          | some identity =>
              if s.occupancy (sampleNative.key parent.identity leaf) = none then
                (.ok (), ⟨(⟨key, sampleNative.key parent.identity leaf, identity⟩ : KeyMove).apply
                  s.occupancy, Function.update s.opened source
                    (some (sampleNative.key parent.identity leaf))⟩)
              else (.error ⟨some 183⟩, s)
          | none => (.error ⟨some 6⟩, s)
      | none => (.error ⟨some 6⟩, s)
  | .invariantUppercase units => (.ok (sampleNative.uppercase units), s)
  | .counter => (1, s)
  | .systemTime => (some 7, s)
  | .processId => (3, s)

theorem serveNative_allowed (s : NativeState) (call : NativeCall) :
    sampleNative.nativeRel s call (serveNative s call).1 (serveNative s call).2 := by
  cases call with
  | openParent path => exact ⟨rfl, rfl⟩
  | openParentChain path => exact ⟨rfl, rfl⟩
  | openEntry parent leaf deleteAccess =>
      by_cases hoccupied : s.occupancy (sampleNative.key parent.identity leaf) ≠ none
      · simp only [serveNative, if_pos hoccupied]
        exact ⟨hoccupied, rfl⟩
      · simp only [serveNative, if_neg hoccupied]
        exact ⟨fun _ => not_not.1 hoccupied, rfl⟩
  | metadata file =>
      cases hoccupant : s.occupant file with
      | some identity =>
          simp only [serveNative, hoccupant, if_pos (Option.some_ne_none identity)]
          exact ⟨⟨identity, hoccupant, rfl, rfl⟩, rfl⟩
      | none =>
          simp only [serveNative, hoccupant]
          rfl
  | fileIdentity file =>
      cases hoccupant : s.occupant file with
      | some identity =>
          simp only [serveNative, hoccupant]
          exact ⟨hoccupant, rfl⟩
      | none =>
          simp only [serveNative, hoccupant]
          rfl
  | normalizedFinalLeaf file =>
      cases hopened : s.opened file with
      | none =>
          simp only [serveNative, hopened]
          rfl
      | some key =>
          by_cases hspelled : sampleNative.key sampleParent (sampleLeaf key) = key
          · simp only [serveNative, hopened, if_pos hspelled]
            exact ⟨⟨sampleParent, hopened.trans (congrArg some hspelled.symm)⟩, rfl⟩
          · simp only [serveNative, hopened, if_neg hspelled]
            rfl
  | renameNoreplace source parent leaf =>
      cases hopened : s.opened source with
      | none =>
          simp only [serveNative, hopened]
          rfl
      | some key =>
          cases hoccupant : s.occupancy key with
          | none =>
              simp only [serveNative, hopened, hoccupant]
              rfl
          | some identity =>
              by_cases hfree : s.occupancy (sampleNative.key parent.identity leaf) = none
              · simp only [serveNative, hopened, hoccupant, if_pos hfree]
                exact ⟨key, identity, hopened, hoccupant, hfree, rfl⟩
              · simp only [serveNative, hopened, hoccupant, if_neg hfree]
                rfl
  | invariantUppercase units => exact ⟨rfl, rfl⟩
  | counter => rfl
  | systemTime => rfl
  | processId => rfl

/-- The host whose journal fails for good once it holds `limit` records. -/
def serveHost (limit : ℕ) (w : HostWorld) : (call : HostCall) → HostAnswer call × HostWorld
  | .native call => ((serveNative w.native call).1, ⟨(serveNative w.native call).2, w.records⟩)
  | .journal call =>
      (((brokenPorts (flatVolume sampleParent) limit).journal w.records call).1,
        ⟨w.native, ((brokenPorts (flatVolume sampleParent) limit).journal w.records call).2⟩)
  | .control call => (serveControl call, w)

theorem serveHost_allowed (limit : ℕ) (w : HostWorld) (call : HostCall) :
    sampleNative.hostEnv w call (serveHost limit w call).1 (serveHost limit w call).2 := by
  cases call with
  | native call => exact ⟨serveNative_allowed w.native call, rfl⟩
  | journal call =>
      have hallowed := brokenPorts_allowed (flatVolume sampleParent) limit
        ⟨fun _ => none, w.records⟩ (.journal call)
      exact ⟨hallowed.1, rfl⟩
  | control call => rfl

/-- Two files, and nobody holds a handle. -/
def sampleHost : HostWorld :=
  ⟨⟨fun key => if key = sampleNative.key sampleParent (LegacyText.ofAscii "1").units then
      some ⟨1, 2⟩
    else if key = sampleNative.key sampleParent (LegacyText.ofAscii "2").units then some ⟨1, 3⟩
    else none, fun _ => none⟩, []⟩

/-- The names move up by one. -/
def shiftRequest : PlanRequest :=
  ⟨⟨1⟩, [Planner.sampleIntent 0 "1" "2", Planner.sampleIntent 1 "2" "3"], .sameParent⟩

/-- What becomes of the plan when the journal fails after four records: whether that closes the
journal, and how the recovery ends. -/
def interruptedShift (plan : RenamePlan) : ℕ × Bool × RecoveryOutcome :=
  let cut := ((interpret carryCall (Executor.executeWithControl ⟨plan⟩).run).run
    (serveHost 4) sampleHost).2
  (cut.records.length, replayJournal cut.records == .clean,
    ((interpret carryCall Recovery.rollback).run (serveHost 100) cut).1)

/-- The second move was in doubt when the journal failed, and recovery takes back the first. -/
theorem HostSession.ended_or_interrupted_shift : ∃ plan w trace recovered restored t,
    HostSession sampleNative ⟨plan⟩ sampleHost.native.occupancy w ∧ w.records.length = 4 ∧
      Runs sampleNative.hostEnv (interpret carryCall Recovery.rollback) w trace
        (some (.recovered recovered restored)) t ∧
      replayJournal t.records = .clean ∧ t.native.occupancy = sampleHost.native.occupancy := by
  have hplan : ((interpret carryCall (Planner.planCancellable shiftRequest).run).run
      (serveHost 100) sampleHost).1.toOption.map interruptedShift =
        some (4, false, .recovered ⟨13855075543445109391⟩ 2) := by
    decide +kernel
  obtain ⟨plan, trace, hcut, planning⟩ := Runs.of_toOption (serveHost_allowed 100)
    (p := ExceptT.mk (interpret carryCall (Planner.planCancellable shiftRequest).run)) hplan
  have session := HostSession.execute (N := sampleNative) rfl (Runs.of_run (serveHost_allowed 4)
    (interpret carryCall (Executor.executeWithControl ⟨plan⟩).run) sampleHost)
  have recovering := Runs.of_run (serveHost_allowed 100) (interpret carryCall Recovery.rollback)
    ((interpret carryCall (Executor.executeWithControl ⟨plan⟩).run).run (serveHost 4) sampleHost).2
  obtain ⟨hlength, hrest⟩ := Prod.mk.inj hcut
  obtain ⟨hopen, houtcome⟩ := Prod.mk.inj hrest
  rw [houtcome] at recovering
  rcases (HostSession.ended_or_interrupted planning session).2 with hended | hinterrupted
  · exact absurd hended.clean (beq_eq_false_iff_ne.1 hopen)
  · obtain ⟨-, hclean, hback⟩ := hinterrupted.truthful _ _ _ _ _ rfl recovering
    exact ⟨plan, _, _, _, _, _, session, hlength, recovering, hclean, hback⟩

end Sample

end DarkReNamer
