import DarkReNamer.Rename.Recovery.Matching

/-!
# What recovery has seen before it changes anything

Of the backend only this is asked: the entry key of a leaf in a parent is always the same. Then
the steps of any accepted journal are moves between entry keys, and before its first change
recovery has observed every endpoint of every step, each in the parent that the step expects, with
the occupants that the first `left` moves lead to from the initial ones. When a step is in doubt,
the other resolution does not agree with what was observed.
-/

namespace DarkReNamer

open Std Interaction Occupancy UndoLog

namespace Recovery

variable {key : EntryIdentity → LegacyText → PathKey} {steps : List JournalStep}
  {o b : State PathKey EntryIdentity}

def plannedMoves (key : EntryIdentity → LegacyText → PathKey) (steps : List JournalStep) :
    List KeyMove :=
  steps.map (plannedMove key)

/-- The occupants after the first `k` steps. -/
def occupantsAfter (key : EntryIdentity → LegacyText → PathKey) (o : State PathKey EntryIdentity)
    (steps : List JournalStep) (k : ℕ) : State PathKey EntryIdentity :=
  afterMoves o ((plannedMoves key steps).take k)

/-- What the reads of recovery show of the steps. -/
structure Evidence (key : EntryIdentity → LegacyText → PathKey) (steps : List JournalStep)
    (phase : Phase) (applied : Bool) (events : List EngineEvent)
    (o : State PathKey EntryIdentity) : Prop where
  initial : Initial key steps o
  executable : Executable o ((plannedMoves key steps).take (phase.left applied))
  source : ∀ step ∈ steps, Observed key (occupantsAfter key o steps (phase.left applied)) step
    step.source step.expectedSourceParent events
  destination : ∀ step ∈ steps, Observed key (occupantsAfter key o steps (phase.left applied)) step
    step.destination step.expectedDestinationParent events
  unambiguous : phase.pending ≠ none → ∃ k ∈ endpointKeys key steps,
    occupantsAfter key o steps (phase.left !applied) k ≠
      occupantsAfter key o steps (phase.left applied) k

theorem getElem?_plannedMoves {i : ℕ} {step : JournalStep} (h : steps[i]? = some step) :
    (plannedMoves key steps)[i]? = some (plannedMove key step) := by
  rw [plannedMoves, List.getElem?_map, h]
  rfl

/-- A step that is possible extends the moves that can be executed. -/
theorem executable_take_succ {i : ℕ} {step : JournalStep} (hstep : steps[i]? = some step)
    (h : Executable o ((plannedMoves key steps).take i))
    (henabled : (plannedMove key step).Enabled (occupantsAfter key o steps i)) :
    Executable o ((plannedMoves key steps).take (i + 1)) := by
  rw [List.take_add_one, getElem?_plannedMoves hstep]
  exact executable_append.2 ⟨h, henabled, trivial⟩

theorem occupantsAfter_succ {i : ℕ} {step : JournalStep} (hstep : steps[i]? = some step) :
    occupantsAfter key o steps (i + 1) =
      (plannedMove key step).apply (occupantsAfter key o steps i) :=
  afterMoves_take_succ (getElem?_plannedMoves hstep)

theorem executable_take_le {i j : ℕ} (hij : i ≤ j)
    (h : Executable o ((plannedMoves key steps).take j)) :
    Executable o ((plannedMoves key steps).take i) := by
  rw [← List.take_append_drop i ((plannedMoves key steps).take j), executable_append,
    List.take_take, Nat.min_eq_left hij] at h
  exact h.1

/-- The last of the moves that were executed can be taken back. -/
theorem reverse_occupantsAfter {i : ℕ} {step : JournalStep} (hstep : steps[i]? = some step)
    (h : Executable o ((plannedMoves key steps).take (i + 1))) :
    (plannedMove key step).reverse.Enabled (occupantsAfter key o steps (i + 1)) ∧
      (plannedMove key step).reverse.apply (occupantsAfter key o steps (i + 1)) =
        occupantsAfter key o steps i := by
  have hmove : ((plannedMoves key steps).take (i + 1))[i]? = some (plannedMove key step) := by
    rw [List.getElem?_take_of_lt (Nat.lt_succ_self i), getElem?_plannedMoves hstep]
  have henabled := h.enabled hmove
  rw [List.take_take, Nat.min_eq_left (Nat.le_succ i)] at henabled
  rw [occupantsAfter_succ hstep]
  exact ⟨Move.Enabled.reverse_enabled henabled, Move.Enabled.reverse_apply henabled⟩

/-- The completed moves of an accepted log lead to the moves in effect. -/
theorem Replays.eq_occupantsAfter {log : List UndoLog.Record} {phase phase' : Phase}
    (hb : phase.Bounded steps.length) (hlog : phase.run steps.length log = some phase')
    (hopen : ∀ value, phase' ≠ .ended value)
    (hexecutable : Executable o ((plannedMoves key steps).take (phase.left false)))
    (h : Replays key steps (log.map .ofLog) (occupantsAfter key o steps (phase.left false)) b) :
    b = occupantsAfter key o steps (phase'.left false) ∧
      Executable o ((plannedMoves key steps).take (phase'.left false)) := by
  induction log generalizing phase with
  | nil =>
      obtain rfl := Option.some.inj hlog
      exact ⟨h, hexecutable⟩
  | cons r log ih =>
      obtain ⟨next, hnext, hrest⟩ := Option.bind_eq_some_iff.1 hlog
      have hb' := hb.next hnext
      cases r with
      | prepared i direction =>
          rw [← Phase.left_of_next_prepared hnext] at hexecutable h
          exact ih hb' hrest hexecutable h
      | notApplied i direction =>
          rw [← Phase.left_of_next_notApplied hnext] at hexecutable h
          exact ih hb' hrest hexecutable h
      | terminal value =>
          rw [Phase.next_terminal hnext] at hrest
          exact absurd (Phase.run_ended hrest) (hopen value)
      | completed i direction =>
          obtain ⟨step, hstep, henabled, hreplays⟩ := h
          cases direction with
          | forward =>
              obtain ⟨rfl, rfl⟩ := Phase.next_completed_forward hnext
              refine ih hb' hrest (executable_take_succ hstep hexecutable henabled) ?_
              rw [Phase.left, occupantsAfter_succ hstep]
              exact hreplays
          | rollback =>
              obtain ⟨k, rfl, rfl⟩ := Phase.next_completed_rollback hnext
              refine ih hb' hrest (executable_take_le (Nat.le_succ i) hexecutable) ?_
              rw [Phase.left, ← (reverse_occupantsAfter hstep hexecutable).2]
              exact hreplays

/-- The settled records lead to the moves in effect. -/
theorem Replays.settled_eq {records : List JournalRecord} {plan : PlanId} {phase : Phase}
    {applied : Bool} (hlogs : Logs records plan steps phase)
    (hopen : ∀ value, phase ≠ .ended value) (h : Replays key steps (settled records applied) o b) :
    b = occupantsAfter key o steps (phase.left applied) ∧
      Executable o ((plannedMoves key steps).take (phase.left applied)) := by
  obtain ⟨k, phase', ⟨log, hsettled, hlog⟩, hready⟩ := logs_settled hlogs hopen applied
  rw [hsettled] at h
  rw [← hready.left false]
  exact Replays.eq_occupantsAfter (Nat.zero_le _) hlog hready.ne_ended trivial h

/-- What recovery has read is evidence of the moves in effect. -/
theorem Matched.evidence {records : List JournalRecord} {plan : PlanId} {phase : Phase}
    {applied : Bool} {events : List EngineEvent} (hlogs : Logs records plan steps phase)
    (hopen : ∀ value, phase ≠ .ended value) (h : Matched key records steps applied events o b) :
    Evidence key steps phase applied events o := by
  obtain ⟨rfl, hexecutable⟩ := h.replays.settled_eq hlogs hopen
  refine ⟨h.initial, hexecutable, h.source, h.destination, fun hpending => ?_⟩
  obtain ⟨⟨i, direction⟩, hpending⟩ := Option.ne_none_iff_exists'.1 hpending
  obtain ⟨b', hreplays, k, hk, hne⟩ :=
    h.unambiguous i direction ((pending_eq_some_iff hlogs).1 hpending)
  obtain ⟨rfl, -⟩ := hreplays.settled_eq hlogs hopen
  exact ⟨k, hk, hne⟩

/-- Recovery changes nothing, or it has seen the moves in effect before it takes them back. -/
theorem rollback_evidence {σ : Type} {env : Environment σ Call Answer} {s t : σ}
    {trace : List EngineEvent} {r : Option RecoveryOutcome} (run : Runs env rollback s trace r t)
    (hkeyed : ∀ event ∈ trace, Keyed key event.call event.answer) :
    Untouched r trace ∨ Nonempty (Changed (fun steps phase applied reads =>
      ∃ o, Evidence key steps phase applied reads o) r trace) := by
  rcases (leaves_rollback (finds_matched key)).sound run hkeyed with
    huntouched | ⟨changed, o, b, hmatched⟩
  · exact .inl huntouched
  · exact .inr ⟨{ changed with
      finding := ⟨o, hmatched.evidence changed.logs changed.unfinished⟩ }⟩

section Sample

/-- Over a volume the entry keys are those of the volume. -/
theorem keyed_of_backendRel {V : Volume} {s t : World VolumeState} {call : Call}
    {answer : Answer call} (h : engineEnv V.backendRel s call answer t) :
    Keyed V.entryKey call answer := by
  cases call with
  | journal call => trivial
  | control call => trivial
  | backend call =>
      cases call with
      | plannedEntryKey parent leaf =>
          rintro k rfl
          exact h.1.1
      | _ => trivial

/-- Recovery sees that the move was made and takes it back. -/
theorem rollback_evidence_unrecordedMove : ∃ trace t,
    Runs (engineEnv (flatVolume sampleParent).backendRel) rollback unrecordedMove trace
      (some (.recovered ⟨7⟩ 1)) t ∧
    Nonempty (Changed (fun steps phase applied reads =>
      ∃ o, Evidence flatKey steps phase applied reads o) (some (.recovered ⟨7⟩ 1)) trace) := by
  obtain ⟨trace, t, hrun⟩ := exists_rollback_unrecordedMove
  refine ⟨trace, t, hrun, ?_⟩
  rcases rollback_evidence hrun (hrun.forall_event fun _ _ _ _ => keyed_of_backendRel) with
    ⟨-, hfalse⟩ | hchanged
  · exact hfalse.elim
  · exact hchanged

end Sample

end Recovery

end DarkReNamer
