import DarkReNamer.Rename.Recovery.Evidence

/-!
# Recovery is fail-closed

Whatever the journal holds and whatever the backend answers, recovery that is blocked or not
required has neither appended a record nor moved anything. Recovery that changes something has
first read what the records lead to; what it moves are the steps that the settled records have
completed and not rolled back, the last one first, each reversed and right behind its prepared
record.
-/

namespace DarkReNamer

open Std Interaction Occupancy UndoLog

/-- The move that a call asks for. -/
def Call.move? : Call → Option RenameOperation
  | .backend (.renameNoReplace op) => some op
  | _ => none

theorem Call.IsRead.move?_eq_none {call : Call} (h : call.IsRead) : call.move? = none := by
  cases call with
  | backend call =>
      cases call with
      | renameNoReplace op => exact h.elim
      | _ => rfl
  | journal call => rfl
  | control call => rfl

namespace Recovery

variable {key : EntryIdentity → LegacyText → PathKey} {steps : List JournalStep}
  {records : List JournalRecord} {events : List EngineEvent}

/-- The moves among the events, each with the event right before it. -/
def movesAfter : Option EngineEvent → List EngineEvent →
    List (Option EngineEvent × RenameOperation)
  | _, [] => []
  | before, event :: events =>
      (event.call.move?.toList.map fun op => (before, op)) ++ movesAfter (some event) events

theorem movesAfter_append (before : Option EngineEvent) (front back : List EngineEvent) :
    movesAfter before (front ++ back) =
      movesAfter before front ++ movesAfter (front.getLast?.or before) back := by
  induction front generalizing before with
  | nil => rfl
  | cons event front ih =>
      have hlast : (event :: front).getLast?.or before = front.getLast?.or (some event) := by
        rw [List.getLast?_cons]
        cases front.getLast? <;> rfl
      rw [hlast, List.cons_append, movesAfter, movesAfter, ih, List.append_assoc]

theorem movesAfter_eq_nil {before : Option EngineEvent}
    (h : ∀ event ∈ events, event.call.move? = none) : movesAfter before events = [] := by
  induction events generalizing before with
  | nil => rfl
  | cons event events ih =>
      rw [movesAfter, h event List.mem_cons_self,
        ih fun later hlater => h later (List.mem_cons_of_mem _ hlater)]
      rfl

/-- The move that takes a step back, as the record of the intent has it. -/
def reversed (step : JournalStep) : RenameOperation :=
  ⟨step.destination, step.source, step.expectedSource, step.expectedDestinationParent,
    step.expectedSourceParent, step.kind, step.scope⟩

theorem reverseOperation_eq (step : JournalStep) : reverseOperation step = reversed step := by
  unfold reverseOperation operation reversed
  cases hkind : step.kind with
  | none => simp [RenameOperation.withLegacySameParentAuthorization, step.legacy_scope hkind]
  | some kind => rfl

/-- A step taken back: its number, and what the intent says of it. -/
abbrev Undone : Type := ℕ × JournalStep

/-- The reverse move of a step, right behind the record that prepares it. -/
def Undone.move (undone : Undone) : Option EngineEvent × RenameOperation :=
  (some ⟨.journal (.append (.prepared undone.1 .rollback)), .ok ()⟩, reversed undone.2)

/-- The calls that take a step back move it, or nothing; only then others follow. -/
theorem movesAfter_undoStep {step : JournalStep} {i : ℕ} {script : List Call}
    (h : Follows Succeeds (undoStep step i ++ script) events) (before : Option EngineEvent) :
    movesAfter before events = [] ∨ ∃ rest last, Follows Succeeds script rest ∧
      movesAfter before events = Undone.move (i, step) :: movesAfter last rest := by
  have hmove : ∀ answer rest, movesAfter before
      (⟨.journal (.append (.prepared i .rollback)), .ok ()⟩ ::
        ⟨.backend (.renameNoReplace (reverseOperation step)), answer⟩ :: rest) =
      Undone.move (i, step) ::
        movesAfter (some ⟨.backend (.renameNoReplace (reverseOperation step)), answer⟩) rest := by
    intro answer rest
    simp [movesAfter, Call.move?, Undone.move, reverseOperation_eq]
  cases h with
  | cut => exact .inl rfl
  | stopped _ => exact .inl rfl
  | @next _ answer _ _ hgood rest =>
      cases answer with
      | error error => exact absurd trivial hgood
      | ok answer =>
          cases rest with
          | cut => exact .inl rfl
          | stopped _ => exact .inr ⟨[], _, .cut script, hmove _ []⟩
          | next _ rest =>
              right
              cases rest with
              | cut => exact ⟨[], _, .cut script, hmove _ []⟩
              | stopped _ => exact ⟨[], none, .cut script, hmove _ _⟩
              | next _ rest => exact ⟨_, _, rest, hmove _ _⟩

/-- The moves of a trace that takes the steps below `j` back. -/
theorem movesAfter_undoCalls {j : ℕ} (hj : j ≤ steps.length)
    (h : Follows Succeeds (undoCalls steps j) events) (before : Option EngineEvent) :
    ∃ undone : List Undone, (undone.Pairwise fun p q => q.1 < p.1) ∧
      (∀ p ∈ undone, p.1 < j ∧ steps[p.1]? = some p.2) ∧
      movesAfter before events = undone.map Undone.move := by
  induction j generalizing events before with
  | zero =>
      refine ⟨[], .nil, by simp, movesAfter_eq_nil fun event hevent => ?_⟩
      rw [undoCalls] at h
      cases h with
      | cut => simp at hevent
      | stopped _ =>
          obtain rfl := List.mem_singleton.1 hevent
          rfl
      | next _ rest =>
          cases rest
          obtain rfl := List.mem_singleton.1 hevent
          rfl
  | succ j ih =>
      have hstep : steps[j]? = some steps[j] := List.getElem?_eq_getElem hj
      rw [undoCalls, hstep] at h
      rcases movesAfter_undoStep h before with hnone | ⟨rest, last, hrest, hmoves⟩
      · exact ⟨[], .nil, by simp, hnone⟩
      · obtain ⟨undone, hdescending, hbelow, hundone⟩ := ih (Nat.le_of_lt hj) hrest last
        refine ⟨(j, steps[j]) :: undone, .cons (fun p hp => (hbelow p hp).1) hdescending,
          List.forall_mem_cons.2 ⟨⟨Nat.lt_succ_self j, hstep⟩, fun p hp => ?_⟩, ?_⟩
        · exact ⟨Nat.lt_succ_of_lt (hbelow p hp).1, (hbelow p hp).2⟩
        · rw [hmoves, hundone, List.map_cons]

/-- The moves in effect are those that the settled records complete and do not roll back. -/
theorem lt_left_iff {plan : PlanId} {phase : Phase} (hlogs : Logs records plan steps phase)
    (hopen : ∀ value, phase ≠ .ended value) (applied : Bool) (i : ℕ) :
    i < phase.left applied ↔ .completed i .forward ∈ settled records applied ∧
      .completed i .rollback ∉ settled records applied := by
  obtain ⟨k, phase', hsettled, hready⟩ := logs_settled hlogs hopen applied
  obtain ⟨st, -, hst, hagrees⟩ := exists_agrees hsettled
  have hprepared := (prepared_eq_pending hst hagrees hready.ne_ended).trans hready.pending
  obtain ⟨k', -, hle, hspans⟩ :=
    ready_of_prepared_none hst hagrees hsettled.bounded hready.ne_ended hprepared false
  have hspans := hspans ((transitionSets (settled records applied)).resolved false) rfl rfl
  have hforward : .completed i .forward ∈ settled records applied ↔ i < k' := by
    rw [← (mem_transitionSets hsettled i).1, ← hspans.forward i]
    rfl
  have hrollback : .completed i .rollback ∈ settled records applied ↔
      phase.left applied ≤ i ∧ i < k' := by
    rw [← (mem_transitionSets hsettled i).2, ← hready.left false, ← hspans.rollback i]
    rfl
  rw [hforward, hrollback]
  rw [hready.left] at hle
  omega

/-- A recovery that changes something: what it has read before, and what it moves. -/
structure Justified (key : EntryIdentity → LegacyText → PathKey) (trace : List EngineEvent) where
  records : List JournalRecord
  plan : PlanId
  steps : List JournalStep
  applied : Bool
  initial : State PathKey EntryIdentity
  observed : State PathKey EntryIdentity
  reads : List EngineEvent
  changes : List EngineEvent
  undone : List Undone
  split : trace = ⟨.journal .snapshot, .ok records⟩ :: reads ++ changes
  isRead : ∀ event ∈ reads, event.call.IsRead
  intent : records.head? = some (.intent plan steps)
  matched : Matched key records steps applied reads initial observed
  settles : ∀ record ∈ settlement records applied, ∀ first ∈ changes.head?,
    first.call = .journal (.append record)
  descending : undone.Pairwise fun p q => q.1 < p.1
  inEffect : ∀ p ∈ undone, steps[p.1]? = some p.2 ∧
    .completed p.1 .forward ∈ settled records applied ∧
    .completed p.1 .rollback ∉ settled records applied
  moves : movesAfter none trace = undone.map Undone.move

/-- The first change settles the step in doubt. -/
theorem resolutionCalls_eq {plan : PlanId} {phase : Phase} (hlogs : Logs records plan steps phase)
    (applied : Bool) : resolutionCalls phase applied =
      (settlement records applied).map fun record => .journal (.append record) := by
  unfold resolutionCalls settlement
  cases hpending : phase.pending with
  | none =>
      split
      · next i direction hlast =>
          rw [(pending_eq_some_iff hlogs).2 hlast] at hpending
          cases hpending
      · rfl
  | some pending =>
      rw [(pending_eq_some_iff hlogs).1 hpending]
      rfl

/-- The moves of a trace that follows the script of recovery. -/
theorem movesAfter_rollbackScript {phase : Phase} {applied : Bool}
    (hb : phase.Bounded steps.length)
    (h : Follows Succeeds (rollbackScript steps phase applied) events)
    (before : Option EngineEvent) :
    ∃ undone : List Undone, (undone.Pairwise fun p q => q.1 < p.1) ∧
      (∀ p ∈ undone, p.1 < phase.left applied ∧ steps[p.1]? = some p.2) ∧
      movesAfter before events = undone.map Undone.move := by
  have hle := hb.left_le applied
  unfold rollbackScript resolutionCalls at h
  cases hpending : phase.pending with
  | none =>
      rw [hpending] at h
      exact movesAfter_undoCalls hle h before
  | some pending =>
      rw [hpending] at h
      cases h with
      | cut => exact ⟨[], .nil, by simp, rfl⟩
      | stopped _ => exact ⟨[], .nil, by simp, rfl⟩
      | next _ rest => exact movesAfter_undoCalls hle rest _

/-- With a step in doubt the first change settles it. -/
theorem call_of_head?_rollbackScript {plan : PlanId} {phase : Phase} {applied : Bool}
    {record : JournalRecord} {first : EngineEvent} (hlogs : Logs records plan steps phase)
    (h : Follows Succeeds (rollbackScript steps phase applied) events)
    (hrecord : record ∈ settlement records applied) (hfirst : events.head? = some first) :
    first.call = .journal (.append record) := by
  have hone : settlement records applied = [record] := by
    unfold settlement at hrecord ⊢
    split at hrecord
    · rw [List.mem_singleton.1 hrecord]
    · cases hrecord
  unfold rollbackScript at h
  rw [resolutionCalls_eq hlogs, hone] at h
  exact h.call_of_head? hfirst

/-- A change of recovery moves what the settled records have in effect. -/
theorem Changed.justified {r : Option RecoveryOutcome} {trace : List EngineEvent}
    (changed : Changed (fun _ _ _ _ => True) r trace) {o b : State PathKey EntryIdentity}
    (hmatched : Matched key changed.records changed.steps changed.applied changed.reads o b) :
    Nonempty (Justified key trace) := by
  obtain ⟨done, tail, hchanges, hfollows, htail, -⟩ := changed.undoes
  obtain ⟨undone, hdescending, hbelow, hmoves⟩ :=
    movesAfter_rollbackScript changed.logs.bounded hfollows
      (changed.reads.getLast?.or (some ⟨.journal .snapshot, .ok changed.records⟩))
  have hnone : ∀ before, movesAfter before tail = [] := fun before => by
    refine movesAfter_eq_nil fun event hevent => ?_
    rcases htail with rfl | ⟨i, step, error, answer, -, -, -, rfl⟩
    · simp at hevent
    · obtain rfl := List.mem_singleton.1 hevent
      rfl
  refine ⟨⟨changed.records, changed.plan, changed.steps, changed.applied, o, b, changed.reads,
    changed.changes, undone, changed.split, changed.isRead, ?_, hmatched, ?_, hdescending, ?_, ?_⟩⟩
  · obtain ⟨log, hrecords, -⟩ := changed.logs
    rw [hrecords]
    rfl
  · intro record hrecord first hfirst
    refine call_of_head?_rollbackScript changed.logs hfollows hrecord ?_
    rw [hchanges] at hfirst
    cases done with
    | nil =>
        rcases htail with rfl | ⟨i, step, error, answer, -, hlast, -, -⟩
        · simp at hfirst
        · simp at hlast
    | cons event done => exact hfirst
  · intro p hp
    obtain ⟨hlt, hstep⟩ := hbelow p hp
    exact ⟨hstep, (lt_left_iff changed.logs changed.unfinished changed.applied p.1).1 hlt⟩
  · rw [changed.split, hchanges, List.cons_append, movesAfter, movesAfter_append,
      movesAfter_append, hnone, hmoves,
      movesAfter_eq_nil fun event hevent => (changed.isRead event hevent).move?_eq_none]
    simp [Call.move?]

/-- Recovery that is blocked or not required leaves everything as it is; recovery that changes
something has read what the records lead to, and moves back the steps in effect. -/
theorem rollback_failClosed {σ : Type} {env : Environment σ Call Answer} {s t : σ}
    {trace : List EngineEvent} {r : Option RecoveryOutcome} (run : Runs env rollback s trace r t)
    (hkeyed : ∀ event ∈ trace, Keyed key event.call event.answer) :
    ((r = some .notRequired ∨ ∃ plan reason, r = some (.blocked plan reason)) →
      ∀ event ∈ trace, event.call.IsRead) ∧
    (Untouched r trace ∨ Nonempty (Justified key trace)) := by
  rcases (leaves_rollback (finds_matched key)).sound run hkeyed with
    huntouched | ⟨changed, o, b, hmatched⟩
  · exact ⟨fun _ => huntouched.1, .inl huntouched⟩
  · refine ⟨fun hr => ?_, .inr (changed.justified hmatched)⟩
    obtain ⟨done, tail, -, -, -, houtcome⟩ := changed.undoes
    rcases hr with rfl | ⟨plan, reason, rfl⟩ <;> exact houtcome.elim

section Sample

def swapStep (entry : UInt32) (source destination : String) (file : BitVec 128)
    (temporaryPhase : TemporaryPhase) : JournalStep :=
  .new ⟨entry⟩ (.ofAscii ("C:\\w\\" ++ source)) (.ofAscii ("C:\\w\\" ++ destination)) ⟨1, file⟩
    sampleParent sampleParent temporaryPhase

/-- Two files swapped over a temporary name, stopped before the last of the three moves was
recorded as completed. -/
def interruptedSwap : World VolumeState where
  backend key :=
    if key = flatKey sampleParent (.ofAscii "a") then some ⟨1, 3⟩
    else if key = flatKey sampleParent (.ofAscii "b") then some ⟨1, 2⟩
    else none
  records := [.intent ⟨7⟩ [swapStep 0 "a" "t" 2 .intoTemporary, swapStep 1 "b" "a" 3 .none,
      swapStep 0 "t" "b" 2 .fromTemporary],
    .prepared 0 .forward, .completed 0 .forward, .prepared 1 .forward, .completed 1 .forward,
    .prepared 2 .forward]

/-- Recovery sees that the last move was made and takes all three back. -/
theorem rollback_failClosed_interruptedSwap : ∃ trace t,
    Runs (engineEnv (flatVolume sampleParent).backendRel) rollback interruptedSwap trace
      (some (.recovered ⟨7⟩ 3)) t ∧ Nonempty (Justified flatKey trace) := by
  have hrun := Runs.of_run ((flatVolume sampleParent).ports_allowed 5) rollback interruptedSwap
  have hvalue : (rollback.run ((flatVolume sampleParent).ports 5).handler interruptedSwap).1 =
      .recovered ⟨7⟩ 3 := by
    decide +kernel
  rw [hvalue] at hrun
  refine ⟨_, _, hrun, ?_⟩
  rcases (rollback_failClosed hrun (hrun.forall_event fun _ _ _ _ => keyed_of_backendRel)).2 with
    ⟨-, hfalse⟩ | hjustified
  · exact hfalse.elim
  · exact hjustified

end Sample

end Recovery

end DarkReNamer
