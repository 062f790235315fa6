import DarkReNamer.Interaction.Leaves
import DarkReNamer.Rename.Recovery.Restore
import DarkReNamer.Rename.Schedule.Execution

/-!
# What recovery changes

The calls that change something are fixed by the records before the first of them is made: the
record that resolves a step in doubt, then for every step in effect, the last one first, its
prepared record, the reverse move and its completed record, and at last the terminal record. A
run makes them in this order and stops at the first that fails; only a reverse move that was
refused is still recorded as not applied. A recovery that is blocked or not required makes none
of them. Nothing is asked of the environment or of the journal here.
-/

namespace DarkReNamer

open Interaction UndoLog

namespace Recovery

variable {plan : PlanId} {steps : List JournalStep} {script : List Call} {restored : ℕ}
  {allowed : (call : Call) → Answer call → Prop}

def Succeeds (call : Call) (answer : Answer call) : Prop := ¬ Fails call answer

/-- The calls that take one step back. -/
def undoStep (step : JournalStep) (i : ℕ) : List Call :=
  [.journal (.append (.prepared i .rollback)), .backend (.renameNoReplace (reverseOperation step)),
    .journal (.append (.completed i .rollback))]

/-- The calls that take the steps below `left` back, the last one first, and end the journal. -/
def undoCalls (steps : List JournalStep) : ℕ → List Call
  | 0 => [.journal (.append (.terminal .rolledBack))]
  | i + 1 => (steps[i]?.elim [] fun step => undoStep step i) ++ undoCalls steps i

/-- The record of how a step in doubt ended. -/
def resolutionCalls (phase : Phase) (applied : Bool) : List Call :=
  phase.pending.toList.map fun pending =>
    .journal (.append (.ofLog (resolution pending.1 pending.2 applied)))

/-- Everything that recovery changes, when nothing fails. -/
def rollbackScript (steps : List JournalStep) (phase : Phase) (applied : Bool) : List Call :=
  resolutionCalls phase applied ++ undoCalls steps (phase.left applied)

/-- A reverse move that was not applied is recorded as such. -/
def Refused (steps : List JournalStep) (undone tail : List EngineEvent) : Prop :=
  ∃ i step error answer, steps[i]? = some step ∧
    undone.getLast? =
      some ⟨.backend (.renameNoReplace (reverseOperation step)), .error error⟩ ∧
    error.certainty = .notApplied ∧
    tail = [⟨.journal (.append (.notApplied i .rollback)), answer⟩]

/-- The failure is that of the last event, or of the reverse move before its record. -/
def Reports (undone tail : List EngineEvent) : RecoveryFailure → Prop
  | .journal error => ∃ record,
      (undone ++ tail).getLast? = some ⟨.journal (.append record), .error error⟩
  | .backend error => (tail = [] ↔ error.certainty ≠ .notApplied) ∧
      ∃ op, undone.getLast? = some ⟨.backend (.renameNoReplace op), .error error⟩

/-- The changes of recovery and its outcome. -/
def Undoes (plan : PlanId) (steps : List JournalStep) (script : List Call) (restored : ℕ)
    (r : Option RecoveryOutcome) (events : List EngineEvent) : Prop :=
  ∃ undone tail, events = undone ++ tail ∧ Follows Succeeds script undone ∧
    (tail = [] ∨ Refused steps undone tail) ∧
    match r with
    | none => True
    | some (.recovered recovered count) => recovered = plan ∧ count = restored ∧ tail = [] ∧
        undone.map Event.call = script ∧ ∀ event ∈ undone, Succeeds event.call event.answer
    | some (.recoveryRequired required failure) => required = plan ∧ Reports undone tail failure
    | some .notRequired => False
    | some (.blocked _ _) => False

theorem undoes_cut : Undoes plan steps script restored none [] :=
  ⟨[], [], rfl, .cut script, .inl rfl, trivial⟩

theorem getLast?_cons_of_some {events : List EngineEvent} {first last : EngineEvent}
    (h : events.getLast? = some last) : (first :: events).getLast? = some last := by
  rw [List.getLast?_cons, h]
  rfl

/-- A call of the script that succeeded comes first. -/
theorem Undoes.cons {r : Option RecoveryOutcome} {events : List EngineEvent} {call : Call}
    {answer : Answer call} (h : Undoes plan steps script restored r events)
    (hgood : Succeeds call answer) :
    Undoes plan steps (call :: script) restored r (⟨call, answer⟩ :: events) := by
  obtain ⟨undone, tail, rfl, hfollows, htail, hr⟩ := h
  refine ⟨⟨call, answer⟩ :: undone, tail, rfl, .next hgood hfollows, ?_, ?_⟩
  · rcases htail with htail | ⟨i, step, error, later, hstep, hlast, hrest⟩
    · exact .inl htail
    · exact .inr ⟨i, step, error, later, hstep, getLast?_cons_of_some hlast, hrest⟩
  · cases r with
    | none => trivial
    | some outcome =>
        cases outcome with
        | notRequired => exact hr
        | blocked plan reason => exact hr
        | recovered recovered count =>
            obtain ⟨hplan, hcount, htail, hcalls, hall⟩ := hr
            exact ⟨hplan, hcount, htail, by rw [List.map_cons, hcalls],
              List.forall_mem_cons.2 ⟨hgood, hall⟩⟩
        | recoveryRequired required failure =>
            obtain ⟨hplan, hreports⟩ := hr
            refine ⟨hplan, ?_⟩
            cases failure with
            | journal error =>
                obtain ⟨record, hlast⟩ := hreports
                exact ⟨record, getLast?_cons_of_some hlast⟩
            | backend error =>
                obtain ⟨hiff, op, hlast⟩ := hreports
                exact ⟨hiff, op, getLast?_cons_of_some hlast⟩

/-- An append of the script that failed comes last. -/
theorem undoes_append_error {record : JournalRecord} {error : JournalError} :
    Leaves allowed (Program.pure (RecoveryOutcome.recoveryRequired plan (.journal error)))
      fun r later => Undoes plan steps (.journal (.append record) :: script) restored r
        (⟨.journal (.append record), .error error⟩ :: later) := by
  have hstopped : Follows Succeeds (.journal (.append record) :: script)
      [⟨.journal (.append record), .error error⟩] := .stopped fun hgood => hgood trivial
  exact ⟨⟨_, [], rfl, hstopped, .inl rfl, trivial⟩,
    ⟨_, [], rfl, hstopped, .inl rfl, rfl, record, rfl⟩⟩

/-- A reverse move that failed is the last of the script. -/
theorem undoes_rename_error {i : ℕ} {step : JournalStep} {error : BackendError}
    (hstep : steps[i]? = some step) :
    Leaves allowed
      (if error.certainty = .notApplied then do
        match ← notApplied i .rollback with
        | .error journalError => pure (.recoveryRequired plan (.journal journalError))
        | .ok _ => pure (.recoveryRequired plan (.backend error))
      else pure (.recoveryRequired plan (.backend error)))
      fun r later => Undoes plan steps
        (.backend (.renameNoReplace (reverseOperation step)) :: script) restored r
        (⟨.backend (.renameNoReplace (reverseOperation step)), .error error⟩ :: later) := by
  have hstopped : Follows Succeeds
      (.backend (.renameNoReplace (reverseOperation step)) :: script)
      [⟨.backend (.renameNoReplace (reverseOperation step)), .error error⟩] :=
    .stopped fun hgood => hgood trivial
  split
  · next hcertain =>
      have hrefused : ∀ answer, Refused steps
          [⟨.backend (.renameNoReplace (reverseOperation step)), .error error⟩]
          [⟨.journal (.append (.notApplied i .rollback)), answer⟩] := fun answer =>
        ⟨i, step, error, answer, hstep, rfl, hcertain, rfl⟩
      refine ⟨⟨_, [], rfl, hstopped, .inl rfl, trivial⟩, fun answer _ => ?_⟩
      cases answer with
      | error journalError =>
          exact ⟨⟨_, _, rfl, hstopped, .inr (hrefused _), trivial⟩,
            ⟨_, _, rfl, hstopped, .inr (hrefused _), rfl, _, rfl⟩⟩
      | ok answer =>
          refine ⟨⟨_, _, rfl, hstopped, .inr (hrefused _), trivial⟩,
            ⟨_, _, rfl, hstopped, .inr (hrefused (.ok answer)), rfl, ?_, _, rfl⟩⟩
          simp [hcertain]
  · next hcertain =>
      refine ⟨⟨_, [], rfl, hstopped, .inl rfl, trivial⟩,
        ⟨_, [], rfl, hstopped, .inl rfl, rfl, ?_, _, rfl⟩⟩
      simp [hcertain]

/-- The reverse loop makes the calls of the script. -/
theorem leaves_restore {j : ℕ} (hj : j ≤ steps.length) :
    Leaves allowed (restore plan steps restored (List.range j).reverse)
      (Undoes plan steps (undoCalls steps j) restored) := by
  induction j with
  | zero =>
      refine ⟨undoes_cut, fun answer _ => ?_⟩
      cases answer with
      | error error => exact undoes_append_error
      | ok answer =>
          have hgood : Succeeds (.journal (.append (.terminal .rolledBack))) (.ok answer) := id
          exact ⟨undoes_cut.cons hgood, ⟨_, [], rfl, .next hgood (.cut []), .inl rfl, rfl, rfl,
            rfl, rfl, List.forall_mem_cons.2 ⟨hgood, by simp⟩⟩⟩
  | succ j ih =>
      have hstep : steps[j]? = some steps[j] := List.getElem?_eq_getElem hj
      rw [List.range_succ, List.reverse_append, List.reverse_singleton, List.singleton_append,
        restore, hstep, undoCalls, hstep]
      refine ⟨undoes_cut, fun answer _ => ?_⟩
      cases answer with
      | error error => exact undoes_append_error
      | ok answer =>
          have hprepared : Succeeds (.journal (.append (.prepared j .rollback))) (.ok answer) := id
          refine Leaves.mono ?_ fun r events (h : Undoes _ _ _ _ r events) =>
            h.cons hprepared
          refine ⟨undoes_cut, fun answer _ => ?_⟩
          cases answer with
          | error error => exact undoes_rename_error hstep
          | ok answer =>
              have hrename : Succeeds
                  (.backend (.renameNoReplace (reverseOperation steps[j]))) (.ok answer) := id
              refine Leaves.mono ?_ fun r events (h : Undoes _ _ _ _ r events) =>
                h.cons hrename
              refine ⟨undoes_cut, fun answer _ => ?_⟩
              cases answer with
              | error error => exact undoes_append_error
              | ok answer =>
                  have hcompleted : Succeeds
                      (.journal (.append (.completed j .rollback))) (.ok answer) := id
                  exact (ih (Nat.le_of_lt hj)).mono fun r events h => h.cons hcompleted

/-- From the sets of the records, resolved some way, recovery makes the calls of its script. -/
theorem leaves_reconcile {records : List JournalRecord} {phase : Phase}
    (hlogs : Logs records plan steps phase) (hopen : ∀ value, phase ≠ .ended value)
    (applied : Bool) :
    Leaves allowed (reconcile plan steps ((transitionSets records).resolved applied))
      (Undoes plan steps (rollbackScript steps phase applied) (phase.left applied)) := by
  obtain ⟨st, -, hst, hagrees⟩ := exists_agrees hlogs
  have hb := hlogs.bounded
  have hpending := prepared_eq_pending hst hagrees hopen
  have hle := hb.left_le applied
  cases hprepared : (transitionSets records).prepared with
  | none =>
      obtain ⟨k, -, hj, hspans⟩ := ready_of_prepared_none hst hagrees hb hopen hprepared applied
      have hremaining := (hspans ((transitionSets records).resolved applied) rfl rfl).remaining hj
      simp only [reconcile, TransitionSets.resolved, hprepared, Option.map_none,
        restoreRemaining] at hremaining ⊢
      rw [hremaining, List.length_reverse, List.length_range, rollbackScript, resolutionCalls,
        ← hpending, hprepared]
      exact leaves_restore hle
  | some prepared =>
      obtain ⟨step, direction⟩ := prepared
      obtain ⟨k, phase', -, -, hj, hspans⟩ :=
        ready_of_prepared_some hst hagrees hb hopen hprepared applied
      have hremaining := (hspans ((transitionSets records).resolved applied) rfl rfl).remaining hj
      have hrecord : (if applied then completed step direction else notApplied step direction) =
          append (.ofLog (resolution step direction applied)) := by
        cases applied <;> rfl
      simp only [reconcile, TransitionSets.resolved, hprepared, Option.map_some,
        restoreRemaining, hrecord] at hremaining ⊢
      rw [hremaining, List.length_reverse, List.length_range, rollbackScript, resolutionCalls,
        ← hpending, hprepared]
      refine ⟨undoes_cut, fun answer _ => ?_⟩
      cases answer with
      | error error => exact undoes_append_error
      | ok answer =>
          have hresolved : Succeeds
              (.journal (.append (.ofLog (resolution step direction applied)))) (.ok answer) := id
          exact (leaves_restore hle).mono fun r events h => h.cons hresolved

/-- Recovery that changes nothing has not recovered anything. -/
def Untouched (r : Option RecoveryOutcome) (events : List EngineEvent) : Prop :=
  (∀ event ∈ events, event.call.IsRead) ∧
    match r with
    | some (.recovered _ _) => False
    | some (.recoveryRequired _ _) => False
    | _ => True

/-- What the reads of recovery show, before it goes on with `applied`. -/
abbrev Finding : Type := List JournalStep → Phase → Bool → List EngineEvent → Prop

/-- The reads of recovery find out how the step in doubt ended, and show `E` with that. -/
def Finds (allowed : (call : Call) → Answer call → Prop) (E : List JournalRecord → Finding) :
    Prop :=
  ∀ (records : List JournalRecord) (plan : PlanId) (steps : List JournalStep) (phase : Phase),
    Logs records plan steps phase → (∀ value, phase ≠ .ended value) →
      Shows allowed (transitionState records steps) fun transitions events =>
        ∃ applied, transitions = (transitionSets records).resolved applied ∧
          E records steps phase applied events

/-- A recovery that changes something: what it read before, and what it changed. -/
structure Changed (E : Finding) (r : Option RecoveryOutcome) (events : List EngineEvent) where
  records : List JournalRecord
  plan : PlanId
  steps : List JournalStep
  phase : Phase
  applied : Bool
  reads : List EngineEvent
  changes : List EngineEvent
  split : events = ⟨.journal .snapshot, .ok records⟩ :: reads ++ changes
  isRead : ∀ event ∈ reads, event.call.IsRead
  logs : Logs records plan steps phase
  unfinished : ∀ value, phase ≠ .ended value
  authorized : ∀ step ∈ steps, (forwardOperation step).authorizationError = none
  finding : E steps phase applied reads
  undoes : Undoes plan steps (rollbackScript steps phase applied) (phase.left applied) r changes

theorem untouched_pure (outcome : RecoveryOutcome) {records : List JournalRecord}
    {P : Option RecoveryOutcome → List EngineEvent → Prop} (h : Untouched (some outcome) []) :
    Leaves allowed (Program.pure outcome) fun r later =>
      Untouched r (⟨.journal .snapshot, .ok records⟩ :: later) ∨ P r later :=
  ⟨.inl ⟨by simp [Call.IsRead], trivial⟩, .inl ⟨by simp [Call.IsRead], h.2⟩⟩

/-- A journal that is corrupt blocks recovery. -/
theorem recoverRecords_of_corrupt {records : List JournalRecord}
    (h : (replayJournal records).isCorrupt ≠ false) :
    ∃ plan reason, recoverRecords records = pure (.blocked plan reason) := by
  unfold recoverRecords
  cases hreplay : replayJournal records with
  | clean => simp [hreplay, RecoveryState.isCorrupt] at h
  | recoveryRequired plan done direction reason =>
      cases reason with
      | corrupt violation => exact ⟨_, _, rfl⟩
      | _ => simp [hreplay, RecoveryState.isCorrupt] at h

/-- Recovery over the records of a transaction that has not ended. -/
theorem leaves_recoverRecords {E : List JournalRecord → Finding} (hfinds : Finds allowed E)
    {records : List JournalRecord} {plan : PlanId} {steps : List JournalStep} {phase : Phase}
    (hlogs : Logs records plan steps phase) (hopen : ∀ value, phase ≠ .ended value) :
    Leaves allowed (recoverRecords records) fun r events =>
      Untouched r (⟨.journal .snapshot, .ok records⟩ :: events) ∨
        ∃ changed : Changed (fun _ _ _ _ => True) r (⟨.journal .snapshot, .ok records⟩ :: events),
          E changed.records changed.steps changed.phase changed.applied changed.reads := by
  rw [recoverRecords_of_required hlogs hopen]
  split
  · exact untouched_pure (.blocked _ _) ⟨by simp, trivial⟩
  · next hauthorized =>
      have hsteps : ∀ step ∈ steps, (forwardOperation step).authorizationError = none := by
        intro step hstep
        by_contra hsome
        exact hauthorized (List.any_eq_true.2 ⟨step, hstep, Option.isSome_iff_ne_none.2 hsome⟩)
      have hreads := (hfinds records plan steps phase hlogs hopen).both
        (Leaves.of_confined (tries_transitionState records steps))
      refine Leaves.bind hreads ?_ fun result reads hresult => ?_
      · rintro events ⟨-, hread, -⟩
        exact .inl ⟨List.forall_mem_cons.2 ⟨trivial, hread⟩, trivial⟩
      · obtain ⟨hfound, hread, -⟩ := hresult
        cases result with
        | error reason =>
            refine ⟨.inl ⟨?_, trivial⟩, .inl ⟨?_, trivial⟩⟩ <;>
              exact List.forall_mem_cons.2 ⟨trivial, by simpa using hread⟩
        | ok transitions =>
            obtain ⟨applied, rfl, hE⟩ := hfound transitions rfl
            refine (leaves_reconcile hlogs hopen applied).mono fun r changes h => ?_
            exact .inr ⟨⟨records, plan, steps, phase, applied, reads, changes, rfl, hread,
              hlogs, hopen, hsteps, trivial, h⟩, hE⟩

/-- Recovery leaves everything as it is or makes the calls of its script. -/
theorem leaves_rollback {E : List JournalRecord → Finding} (hfinds : Finds allowed E) :
    Leaves allowed rollback fun r events => Untouched r events ∨
      ∃ changed : Changed (fun _ _ _ _ => True) r events,
        E changed.records changed.steps changed.phase changed.applied changed.reads := by
  refine ⟨.inl ⟨by simp, trivial⟩, fun answer _ => ?_⟩
  cases answer with
  | error error =>
      exact ⟨.inl ⟨by simp [Call.IsRead], trivial⟩, .inl ⟨by simp [Call.IsRead], trivial⟩⟩
  | ok records =>
      change Leaves allowed (recoverRecords records) _
      by_cases hcorrupt : (replayJournal records).isCorrupt = false
      · rcases isCorrupt_replayJournal_eq_false_iff.1 hcorrupt with
          rfl | ⟨plan, steps, phase, hlogs⟩
        · exact untouched_pure .notRequired ⟨by simp, trivial⟩
        · by_cases hended : ∃ value, phase = .ended value
          · obtain ⟨value, rfl⟩ := hended
            have hclean : replayJournal records = .clean := hlogs.replayJournal
            unfold recoverRecords
            rw [hclean]
            exact untouched_pure .notRequired ⟨by simp, trivial⟩
          · exact leaves_recoverRecords hfinds hlogs fun value heq => hended ⟨value, heq⟩
      · obtain ⟨plan, reason, hblocked⟩ := recoverRecords_of_corrupt hcorrupt
        rw [hblocked]
        exact untouched_pure (.blocked _ _) ⟨by simp, trivial⟩

/-- Over any environment, a run of recovery leaves everything as it is or makes the calls that
the records fix, up to the first that fails. -/
theorem rollback_undoes {σ : Type} {env : Environment σ Call Answer} {s t : σ}
    {trace : List EngineEvent} {r : Option RecoveryOutcome} (run : Runs env rollback s trace r t) :
    Untouched r trace ∨ Nonempty (Changed (fun _ _ _ _ => True) r trace) := by
  have hfinds : Finds (fun _ _ => True) fun _ _ _ _ _ => True := by
    intro records plan steps phase _ _
    refine (Leaves.of_confined (tries_transitionState records steps)).mono ?_
    rintro r events ⟨-, hvalue⟩ transitions rfl
    obtain ⟨applied, happlied⟩ := hvalue _ rfl transitions rfl
    exact ⟨applied, happlied, trivial⟩
  rcases (leaves_rollback hfinds).sound run fun _ _ => trivial with huntouched | ⟨changed, -⟩
  · exact .inl huntouched
  · exact .inr ⟨changed⟩

section Sample

/-- A move from `a` to `b` that was made, but not recorded as completed. -/
def unrecordedMove : World VolumeState where
  backend key := if key = flatKey sampleParent (.ofAscii "b") then some ⟨1, 2⟩ else none
  records := [.intent ⟨7⟩ [.new ⟨0⟩ (.ofAscii "C:\\w\\a") (.ofAscii "C:\\w\\b") ⟨1, 2⟩ sampleParent
    sampleParent .none], .prepared 0 .forward]

theorem exists_rollback_unrecordedMove : ∃ trace t,
    Runs (engineEnv (flatVolume sampleParent).backendRel) rollback unrecordedMove trace
      (some (.recovered ⟨7⟩ 1)) t := by
  have hrun := Runs.of_run ((flatVolume sampleParent).ports_allowed 5) rollback unrecordedMove
  have hvalue : (rollback.run ((flatVolume sampleParent).ports 5).handler unrecordedMove).1 =
      .recovered ⟨7⟩ 1 := by
    decide +kernel
  rw [hvalue] at hrun
  exact ⟨_, _, hrun⟩

/-- Recovery records that the move was made and takes it back. -/
theorem rollback_undoes_unrecordedMove : ∃ trace t,
    Runs (engineEnv (flatVolume sampleParent).backendRel) rollback unrecordedMove trace
      (some (.recovered ⟨7⟩ 1)) t ∧
    Nonempty (Changed (fun _ _ _ _ => True) (some (.recovered ⟨7⟩ 1)) trace) := by
  obtain ⟨trace, t, hrun⟩ := exists_rollback_unrecordedMove
  refine ⟨trace, t, hrun, ?_⟩
  rcases rollback_undoes hrun with ⟨-, hfalse⟩ | hchanged
  · exact hfalse.elim
  · exact hchanged

end Sample

end Recovery

end DarkReNamer
