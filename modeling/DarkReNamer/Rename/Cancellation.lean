import DarkReNamer.Rename.Cancellation.Stages
import DarkReNamer.Rename.Cancellation.Token
import DarkReNamer.Rename.Executor.Report

/-!
# Cancellation

What the monitor of the executor and the token together say of a request. One that takes effect
before the transaction begins prevents it; a later one, up to the last check, prevents the
Committed record, and the moves are taken back. No step is left between its Prepared record and
the record that settles it because of a request, and a rollback is not interrupted.
-/

namespace DarkReNamer

open Interaction

namespace Executor

/-! ### What the monitor admits -/

section Admitted

variable {events front back : List EngineEvent} {stage p : Stage}
  {answer' : Except JournalError Unit}

/-- The transaction has begun. -/
def begunEvent : EngineEvent := ⟨.control .beginTransaction, true⟩

/-- A check answered by no. -/
def checkEvent : EngineEvent := ⟨.control .cancellationRequested, false⟩

def committedEvent (answer : Except JournalError Unit) : EngineEvent :=
  ⟨.journal (.append (.terminal .committed)), answer⟩

def preparedEvent (step : ℕ) (direction : JournalDirection) : EngineEvent :=
  ⟨.journal (.append (.prepared step direction)), .ok ()⟩

/-- Before the transaction there are only reads. -/
theorem preparing_of_admitted (h : Admitted Stage.Moves .preparing events stage)
    (hbegun : begunEvent ∉ events) :
    stage = .preparing ∧ ∀ event ∈ events, event.call.IsRead := by
  refine Admitted.invariant (I := fun stage events => begunEvent ∉ events →
    stage = .preparing ∧ ∀ event ∈ events, event.call.IsRead) ?_ ?_ h hbegun
  · simp
  · rintro p p' events ⟨call, answer⟩ ih hmove hnot
    simp only [List.mem_append, List.mem_singleton, not_or] at hnot
    obtain ⟨rfl, hreads⟩ := ih hnot.1
    have hlast : p' = .preparing ∧ call.IsRead := by
      cases hmove with
      | observe _ h => exact ⟨rfl, h.isRead⟩
      | ready => exact ⟨rfl, trivial⟩
      | notBegun => exact ⟨rfl, trivial⟩
      | begun => exact absurd rfl hnot.2
    refine ⟨hlast.1, fun event hevent => ?_⟩
    rcases List.mem_append.1 hevent with hevent | hevent
    · exact hreads event hevent
    · rw [List.mem_singleton.1 hevent]
      exact hlast.2

theorem ne_preparing_of_begun (h : Admitted Stage.Moves .preparing events stage)
    (hbegun : begunEvent ∈ events) : stage ≠ .preparing := by
  refine Admitted.invariant (I := fun stage events => begunEvent ∈ events →
    stage ≠ .preparing) (by simp) ?_ h hbegun
  rintro p _ events ⟨call, answer⟩ ih hmove hmem rfl
  have hlast : p = .preparing ∧ (⟨call, answer⟩ : EngineEvent) ≠ begunEvent := by
    cases hmove with
    | observe _ h =>
        refine ⟨rfl, ?_⟩
        rintro ⟨⟩
        exact h
    | ready => exact ⟨rfl, by rintro ⟨⟩⟩
    | notBegun => exact ⟨rfl, by rintro ⟨⟩⟩
  rcases List.mem_append.1 hmem with hmem | hmem
  · exact ih hmem hlast.1
  · exact hlast.2 (List.mem_singleton.1 hmem).symm

/-- The Committed record comes right after a check. -/
theorem committed_after_check
    (h : Admitted Stage.Moves .preparing (front ++ committedEvent answer' :: back) stage) :
    ∃ early, front = early ++ [checkEvent] := by
  obtain ⟨p, hfront, hrest⟩ := Admitted.append_iff.1 h
  obtain ⟨p', hmove, -⟩ := Admitted.cons_iff.1 hrest
  have hp : p = .checked := by
    cases hmove with
    | observe _ h => exact h.elim
    | committed => rfl
    | commitFailed => rfl
  refine Admitted.invariant (I := fun stage events => stage = .checked →
    ∃ early, events = early ++ [checkEvent]) (by rintro ⟨⟩) ?_ hfront hp
  rintro q _ events ⟨call, answer⟩ - hmove rfl
  cases hmove with
  | check => exact ⟨events, rfl⟩

theorem committed_of_ended (h : Admitted Stage.Moves .preparing events stage)
    (hstage : stage = .ended .committed) : ∃ answer, committedEvent answer ∈ events := by
  refine Admitted.invariant (I := fun stage events => stage = .ended .committed →
    ∃ answer, committedEvent answer ∈ events) (by rintro ⟨⟩) ?_ h hstage
  rintro q _ events ⟨call, answer⟩ ih hmove rfl
  cases hmove with
  | committed => exact ⟨.ok (), by simp [committedEvent]⟩
  | ended =>
      obtain ⟨answer, hmem⟩ := ih rfl
      exact ⟨answer, List.mem_append_left _ hmem⟩

/-- Recovery is required only where a call has failed. -/
theorem fails_of_stopped (h : Admitted Stage.Moves .preparing events stage)
    (hstage : stage = .stopped) : ∃ event ∈ events, Fails event.call event.answer := by
  refine Admitted.invariant (I := fun stage events =>
    (stage = .stopped ∨ ∃ step direction, stage = .refused step direction) →
      ∃ event ∈ events, Fails event.call event.answer) ?_ ?_ h (.inl hstage)
  · rintro (h | ⟨_, _, h⟩) <;> cases h
  · rintro q q' events ⟨call, answer⟩ ih hmove hq'
    have hlast : Fails call answer ∨ ∃ step direction, q = .refused step direction := by
      rcases hq' with rfl | ⟨step, direction, rfl⟩
      · cases hmove with
        | notAppliedBack step => exact .inr ⟨_, _, rfl⟩
        | _ => exact .inl trivial
      · cases hmove with
        | refused => exact .inl trivial
    rcases hlast with hfails | hrefused
    · exact ⟨_, List.mem_append_right _ (List.mem_singleton.2 rfl), hfails⟩
    · obtain ⟨event, hmem, hfails⟩ := ih (.inr hrefused)
      exact ⟨event, List.mem_append_left _ hmem, hfails⟩

/-- What comes after a Prepared record: the rename, and the record that settles the step. A
run that has `ended` has them, unless it is in doubt whether the rename took place. -/
inductive Settles (ended : Bool) (step : ℕ) (direction : JournalDirection) :
    List EngineEvent → Prop where
  | cut (h : ended = false) : Settles ended step direction []
  | cutMoved (h : ended = false) (op : RenameOperation) :
      Settles ended step direction [⟨.backend (.renameNoReplace op), .ok ()⟩]
  | cutRefused (h : ended = false) (op : RenameOperation) (error : BackendError) :
      Settles ended step direction [⟨.backend (.renameNoReplace op), .error error⟩]
  | inDoubt (op : RenameOperation) (error : BackendError)
      (h : error.certainty = .mayHaveApplied) :
      Settles ended step direction [⟨.backend (.renameNoReplace op), .error error⟩]
  | completed (op : RenameOperation) (answer : Except JournalError Unit)
      (rest : List EngineEvent) :
      Settles ended step direction (⟨.backend (.renameNoReplace op), .ok ()⟩ ::
        ⟨.journal (.append (.completed step direction)), answer⟩ :: rest)
  | notApplied (op : RenameOperation) (error : BackendError)
      (h : error.certainty = .notApplied) (answer : Except JournalError Unit)
      (rest : List EngineEvent) :
      Settles ended step direction (⟨.backend (.renameNoReplace op), .error error⟩ ::
        ⟨.journal (.append (.notApplied step direction)), answer⟩ :: rest)

/-- Between a Prepared record and the record that settles the step. -/
def Stage.IsMidway : Stage → Prop
  | .pending _ _ => True
  | .moved _ _ => True
  | .refused _ _ => True
  | _ => False

theorem settles_of_pending {step : ℕ} {direction : JournalDirection} {ended : Bool}
    (h : Admitted Stage.Moves (.pending step direction) events stage)
    (hended : ended = true → ¬ stage.IsMidway) : Settles ended step direction events := by
  have hcut : stage.IsMidway → ended = false := fun hmidway =>
    Bool.eq_false_iff.2 fun htrue => hended htrue hmidway
  cases h with
  | nil => exact .cut (hcut trivial)
  | @cons _ p _ event events hmove hrest =>
      obtain ⟨call, answer⟩ := event
      cases hmove with
      | moved _ _ op =>
          cases hrest with
          | nil => exact .cutMoved (hcut trivial) op
          | @cons _ p _ event events hmove hrest =>
              obtain ⟨call, answer⟩ := event
              cases hmove with
              | completed => exact .completed op _ _
              | completedBack => exact .completed op _ _
              | completeFailed => exact .completed op _ _
      | refused _ _ op error hcertainty =>
          cases hrest with
          | nil => exact .cutRefused (hcut trivial) op error
          | @cons _ p _ event events hmove hrest =>
              obtain ⟨call, answer⟩ := event
              cases hmove with
              | notApplied => exact .notApplied op error hcertainty _ _
              | notAppliedBack => exact .notApplied op error hcertainty _ _
              | notAppliedFailed => exact .notApplied op error hcertainty _ _
      | moveFailed _ _ op error hcertainty =>
          cases hrest with
          | nil => exact .inDoubt op error hcertainty
          | cons hmove _ => cases hmove

theorem settles_of_prepared {step : ℕ} {direction : JournalDirection} {ended : Bool}
    (h : Admitted Stage.Moves .preparing (front ++ preparedEvent step direction :: back) stage)
    (hended : ended = true → ¬ stage.IsMidway) : Settles ended step direction back := by
  obtain ⟨p, -, hrest⟩ := Admitted.append_iff.1 h
  obtain ⟨p', hmove, hback⟩ := Admitted.cons_iff.1 hrest
  obtain rfl : p' = .pending step direction := by
    cases hmove with
    | observe _ h => exact h.elim
    | _ => rfl
  exact settles_of_pending hback hended

theorem not_isMidway_of_ends {finished : Except ExecuteError ExecutionReport}
    (h : Ends finished stage) : ¬ stage.IsMidway := by
  intro hmidway
  cases finished with
  | error error => rcases h with rfl | rfl <;> exact hmidway
  | ok report =>
      rw [Ends, Concludes] at h
      split at h <;> (subst h; exact hmidway)

/-- A transaction in which nothing fails is rolled back, unless it is committed. -/
theorem rolledBack_of_ends {finished : Except ExecuteError ExecutionReport}
    (h : Admitted Stage.Moves .preparing events stage) (hbegun : begunEvent ∈ events)
    (hfaultless : ∀ event ∈ events, ¬ Fails event.call event.answer)
    (hnone : ∀ answer, committedEvent answer ∉ events) (hends : Ends finished stage) :
    ∃ report failure, finished = .ok report ∧ report.outcome = .rolledBack failure := by
  have hstopped : stage ≠ .stopped := by
    intro hstage
    obtain ⟨event, hmem, hfails⟩ := fails_of_stopped h hstage
    exact hfaultless event hmem hfails
  cases finished with
  | error error =>
      rcases hends with hstage | hstage
      · exact absurd hstage (ne_preparing_of_begun h hbegun)
      · exact absurd hstage hstopped
  | ok report =>
      rw [Ends, Concludes] at hends
      cases houtcome : report.outcome with
      | completed =>
          rw [houtcome] at hends
          obtain ⟨answer, hmem⟩ := committed_of_ended h hends
          exact absurd hmem (hnone answer)
      | rolledBack failure => exact ⟨report, failure, rfl, houtcome⟩
      | recoveryRequired failure failures =>
          rw [houtcome] at hends
          exact absurd hends hstopped

/-- The rollback has begun, or the execution is over. -/
def Stage.IsLate : Stage → Prop
  | .restoring => True
  | .pending _ direction => direction = .rollback
  | .moved _ direction => direction = .rollback
  | .refused _ _ => True
  | .ended _ => True
  | .stopped => True
  | _ => False

/-- From the start of a rollback on, no check is made. -/
theorem Stage.IsLate.no_check (h : p.IsLate) (hadmitted : Admitted Stage.Moves p events stage) :
    ∀ event ∈ events, event.call ≠ .control .cancellationRequested := by
  induction hadmitted with
  | nil => simp
  | @cons p p₁ stage event events hmove _ ih =>
      obtain ⟨call, answer⟩ := event
      have hnext : p₁.IsLate ∧ call ≠ .control .cancellationRequested := by
        cases hmove with
        | observe | ready | notBegun | begun | intent | check | cancel | progress | rollback
        | prepared | notPrepared | committed => exact h.elim
        | completed => cases h
        | prepareBack => exact ⟨rfl, by rintro ⟨⟩⟩
        | moved => exact ⟨h, by rintro ⟨⟩⟩
        | _ => exact ⟨trivial, by rintro ⟨⟩⟩
      rintro event hevent
      rcases List.mem_cons.1 hevent with rfl | hevent
      · exact hnext.2
      · exact ih hnext.1 event hevent

theorem isLate_of_rollback {value : ExecutionProgress} {answer : Unit}
    (hvalue : value.phase = .rollback)
    (h : p.Moves (.control (.progress value)) answer stage) : stage.IsLate := by
  cases h with
  | observe _ h => exact h.elim
  | ready => cases hvalue
  | progress _ hphase => exact absurd hvalue hphase
  | _ => trivial

end Admitted

section History

/-! ### Requests in a history -/

variable {history early late : List Moment} {trace front back : List EngineEvent}
  {event : EngineEvent}

theorem callsOf_append (early late : List Moment) :
    callsOf (early ++ late) = callsOf early ++ callsOf late :=
  List.filterMap_append

theorem mem_callsOf : event ∈ callsOf history ↔ .called event ∈ history := by
  refine List.mem_filterMap.trans ⟨?_, fun h => ⟨_, h, rfl⟩⟩
  rintro ⟨_ | other, hmem, hevent⟩
  · cases hevent
  · cases hevent
    exact hmem

/-- Without calls there are only requests. -/
theorem requests_of_callsOf_nil (h : callsOf history = []) :
    ∃ n, history = List.replicate n .requested := by
  refine ⟨history.length, List.eq_replicate_of_mem fun moment hmem => ?_⟩
  cases moment with
  | requested => rfl
  | called event => exact absurd (mem_callsOf.2 hmem) (by simp [h])

theorem split_of_callsOf (h : callsOf history = front ++ event :: back) :
    ∃ early late, history = early ++ .called event :: late ∧ callsOf early = front ∧
      callsOf late = back := by
  obtain ⟨early, rest, rfl, hearly, hrest⟩ := List.filterMap_eq_append_iff.1 h
  obtain ⟨between, moment, late, rfl, hbetween, hmoment, hlate⟩ :=
    List.filterMap_eq_cons_iff.1 hrest
  refine ⟨early ++ between, late, ?_, ?_, hlate⟩
  · cases moment with
    | requested => cases hmoment
    | called other =>
        cases hmoment
        rw [List.append_assoc]
  · rw [callsOf_append, show callsOf early = front from hearly,
      show callsOf between = [] from List.filterMap_eq_nil_iff.2 hbetween, List.append_nil]

/-- The request after `early` takes effect before the check that the Committed record comes
right after. -/
def InTime (history early : List Moment) : Prop :=
  ∀ front answer n answer' back,
    history = front ++ .called ⟨.control .cancellationRequested, answer⟩ ::
      (List.replicate n .requested ++ .called (committedEvent answer') :: back) →
    early.length < front.length

/-- What a request does to a run. -/
structure NeverLost (history : List Moment) (trace : List EngineEvent)
    (result : Option (Except ExecuteError ExecutionReport)) : Prop where
  /-- Before the transaction, it prevents every record and every rename. -/
  beforeBegin : ∀ early late, history = early ++ .requested :: late →
    .called begunEvent ∉ early →
      (∀ event ∈ trace, event.call.IsRead) ∧
        ∀ finished, result = some finished → ∃ error, finished = .error error
  /-- Up to the last check, it prevents the Committed record. -/
  beforeCommitted : ∀ early late, history = early ++ .requested :: late →
    InTime history early →
      (∀ answer, committedEvent answer ∉ trace) ∧
        ∀ report, result = some (.ok report) → report.outcome ≠ .completed
  /-- A transaction in which nothing fails is then rolled back. -/
  rolledBack : ∀ early late, history = early ++ .requested :: late →
    InTime history early → begunEvent ∈ trace →
      (∀ event ∈ trace, ¬ Fails event.call event.answer) →
        ∀ finished, result = some finished →
          ∃ report failure, finished = .ok report ∧ report.outcome = .rolledBack failure
  /-- Every Committed record comes right after a check. -/
  checked : ∀ front answer back, trace = front ++ committedEvent answer :: back →
    ∃ early, front = early ++ [checkEvent]
  /-- It does not come between a Prepared record and the record that settles the step. -/
  settles : ∀ front step direction rest, trace = front ++ preparedEvent step direction :: rest →
    Settles result.isSome step direction rest
  /-- A rollback does not ask for it. -/
  restores : ∀ front value rest,
    trace = front ++ ⟨.control (.progress value), ()⟩ :: rest → value.phase = .rollback →
      ∀ event ∈ rest, event.call ≠ .control .cancellationRequested

/-- No check is answered by no, and no transaction begins, after a request. -/
theorem not_proceeds_of_requested {token : CancellationToken} (h : Linearized token history)
    (hsplit : history = early ++ .requested :: late) (hevent : Proceeds event) :
    .called event ∉ late := by
  intro hmem
  obtain ⟨between, rest, rfl⟩ := List.append_of_mem hmem
  refine h.proceeds (early ++ .requested :: between) event rest ?_ hevent (by simp)
  rw [hsplit, List.append_assoc, List.cons_append]

/-- A Committed record in the calls, with the check before it, in the history. -/
theorem split_of_committed {answer : Except JournalError Unit}
    (hcalls : callsOf history = (front ++ [checkEvent]) ++ committedEvent answer :: back) :
    ∃ early n late, history = early ++ .called checkEvent ::
      (List.replicate n .requested ++ .called (committedEvent answer) :: late) := by
  rw [List.append_assoc, List.singleton_append] at hcalls
  obtain ⟨early, rest, rfl, -, hrest⟩ := split_of_callsOf hcalls
  have hrest' : callsOf rest = [] ++ committedEvent answer :: back := hrest
  obtain ⟨between, late, rfl, hbetween, -⟩ := split_of_callsOf hrest'
  obtain ⟨n, rfl⟩ := requests_of_callsOf_nil hbetween
  exact ⟨early, n, late, rfl⟩

theorem not_committed_of_inTime {token : CancellationToken} {stage : Stage}
    (h : Linearized token history) (hadmitted : Admitted Stage.Moves .preparing trace stage)
    (hcalls : callsOf history = trace) (hsplit : history = early ++ .requested :: late)
    (hintime : InTime history early) (answer : Except JournalError Unit) :
    committedEvent answer ∉ trace := by
  intro hmem
  obtain ⟨front, back, rfl⟩ := List.append_of_mem hmem
  obtain ⟨front, rfl⟩ := committed_after_check hadmitted
  obtain ⟨before, n, rest, hbefore⟩ := split_of_committed hcalls
  -- the request is one of the moments before the check
  have hlength := hintime _ _ _ _ _ hbefore
  refine h.proceeds before checkEvent _ hbefore rfl ?_
  have hget : history[early.length]? = some .requested := by simp [hsplit]
  rw [hbefore, List.getElem?_append_left hlength] at hget
  exact List.mem_of_getElem? hget

end History

section Runs

variable {σ : Type} {env : Environment σ Call Answer} {confirmed : ConfirmedPlan}
  {s t : Interleaved σ} {trace : List EngineEvent}
  {result : Option (Except ExecuteError ExecutionReport)}

theorem neverLost_of_runs (hrows : confirmed.plan.entries ≠ []) (hstart : s.history = [])
    (run : Runs (interleaved env) (executeWithControl confirmed).run s trace result t) :
    NeverLost t.history trace result := by
  have hlinearized : Linearized t.token t.history := by
    refine linearized_of_runs run ?_
    rw [hstart]
    exact .nil _
  have hcalls : callsOf t.history = trace := by
    rw [(runs_of_interleaved run).2, hstart]
    rfl
  obtain ⟨stage, hadmitted, hends⟩ := (obeys_execute hrows).sound run
  refine ⟨?_, ?_, ?_, ?_, ?_, ?_⟩
  · intro early late hsplit hearly
    have hbegun : begunEvent ∉ trace := by
      rw [← hcalls, mem_callsOf, hsplit]
      have hlate := not_proceeds_of_requested hlinearized hsplit
        (show Proceeds begunEvent from rfl)
      simp [hearly, hlate]
    obtain ⟨rfl, hreads⟩ := preparing_of_admitted hadmitted hbegun
    refine ⟨hreads, ?_⟩
    rintro (error | report) hfinished
    · exact ⟨error, rfl⟩
    · have hconcludes : Concludes report .preparing := hends _ hfinished
      unfold Concludes at hconcludes
      split at hconcludes <;> cases hconcludes
  · intro early late hsplit hintime
    have hnone := not_committed_of_inTime hlinearized hadmitted hcalls hsplit hintime
    refine ⟨hnone, fun report hreport houtcome => ?_⟩
    have hconcludes : Concludes report stage := hends _ hreport
    rw [Concludes, houtcome] at hconcludes
    obtain ⟨answer, hmem⟩ := committed_of_ended hadmitted hconcludes
    exact hnone answer hmem
  · intro early late hsplit hintime hbegun hfaultless finished hfinished
    have hnone := not_committed_of_inTime hlinearized hadmitted hcalls hsplit hintime
    exact rolledBack_of_ends hadmitted hbegun hfaultless hnone (hends _ hfinished)
  · rintro front answer back rfl
    exact committed_after_check hadmitted
  · rintro front step direction rest rfl
    refine settles_of_prepared hadmitted fun hended => ?_
    obtain ⟨finished, rfl⟩ := Option.isSome_iff_exists.1 hended
    exact not_isMidway_of_ends (hends _ rfl)
  · rintro front value rest rfl hvalue
    obtain ⟨p, -, hrest⟩ := Admitted.append_iff.1 hadmitted
    obtain ⟨p', hmove, hrest⟩ := Admitted.cons_iff.1 hrest
    exact (isLate_of_rollback hvalue hmove).no_check hrest

end Runs

/-- A cancellation request is never lost: before the transaction it prevents it, and up to the
last check it prevents the Committed record; where nothing fails, the transaction is then
rolled back, which over a volume restores what was there. -/
theorem executeWithControl_neverLost {confirmed : ConfirmedPlan}
    (hrows : confirmed.plan.entries ≠ []) :
    (∀ {σ : Type} (env : Environment σ Call Answer) (s t : Interleaved σ)
      (trace : List EngineEvent) (result : Option (Except ExecuteError ExecutionReport)),
      s.history = [] →
        Runs (interleaved env) (executeWithControl confirmed).run s trace result t →
          NeverLost t.history trace result) ∧
    ∀ (V : Volume) (request : PlanRequest) (plan : RenamePlan) (s₀ t₀ : World VolumeState)
      (trace₀ : List EngineEvent) (displayedId : PlanId) (displayedRevision : ModelRevision)
      (s t : Interleaved (World VolumeState)) (trace : List EngineEvent)
      (report : ExecutionReport) (failure : ExecutionFailure),
      Runs (engineEnv V.backendRel) (Planner.planCancellable request).run s₀ trace₀
        (some (.ok plan)) t₀ →
      plan.confirmPresented displayedId displayedRevision = .ok confirmed →
      s.world.records = [] →
      Runs (interleaved (engineEnv V.backendRel)) (executeWithControl confirmed).run s trace
        (some (.ok report)) t →
      report.outcome = .rolledBack failure → t.world.backend = s.world.backend := by
  refine ⟨fun env s t trace result hstart run => neverLost_of_runs hrows hstart run, ?_⟩
  intro V request plan s₀ t₀ trace₀ displayedId displayedRevision s t trace report failure
    planned hconfirmed hempty run houtcome
  obtain ⟨-, hpost⟩ :=
    (Planner.checks_planCancellable (V.admits_self s₀) request).sound planned
  have hplanned : Planned V s₀.backend request plan := (hpost _ rfl).2
  obtain rfl : confirmed = ⟨plan⟩ := by
    unfold RenamePlan.confirmPresented at hconfirmed
    split_ifs at hconfirmed
    exact (Except.ok.inj hconfirmed).symm
  obtain ⟨schedule, rs, hexecutes, hreport⟩ :=
    ((spec_execute hplanned.checked hempty).sound (runs_of_interleaved run).1).2 _ rfl
  have htruthful := (truthful_of_reported hexecutes hreport).2
  rw [houtcome] at htruthful
  exact htruthful.2.1

/-- The swap, with a request between the first Prepared record and its rename. -/
theorem executeWithControl_neverLost_swap : ∃ (plan : RenamePlan) (report : ExecutionReport)
    (failure : ExecutionFailure) (t : Interleaved (World VolumeState)),
    plan.entries.length = 2 ∧ .requested ∈ t.history ∧ .called begunEvent ∈ t.history ∧
      report.outcome = .rolledBack failure ∧ t.world.backend = swapState := by
  let handler := ((flatVolume sampleParent).ports 5).handler
  have hallowed := (flatVolume sampleParent).ports_allowed 5
  let start : Interleaved (World VolumeState) := ⟨⟨swapState, []⟩, .new, []⟩
  let finish (plan : RenamePlan) :=
    (executeWithControl ⟨plan⟩).run.run (requestedAt 43 handler) start
  have hplan : (((Planner.planCancellable Planner.swapRequest).run.run handler
      ⟨swapState, []⟩).1.toOption.map fun plan => (plan.entries.length,
        (finish plan).1.toOption.map fun _ =>
          decide (.requested ∈ (finish plan).2.history ∧
            .called begunEvent ∈ (finish plan).2.history ∧
            ∀ event ∈ callsOf (finish plan).2.history, ¬ Fails event.call event.answer ∧
              event.call ≠ .journal (.append (.terminal .committed))))) =
      some (2, some true) := by decide +kernel
  obtain ⟨plan, trace₀, hexecuted, planned⟩ := Runs.of_toOption hallowed hplan
  obtain ⟨htwo, hfinished⟩ := Prod.mk.inj hexecuted
  obtain ⟨report, trace, hhistory, run⟩ :=
    Runs.of_toOption (requestedAt_allowed hallowed 43) hfinished
  obtain ⟨hrequested, hbegun, hevents⟩ := of_decide_eq_true hhistory
  have htrace : callsOf (finish plan).2.history = trace := (runs_of_interleaved run).2
  rw [htrace] at hevents
  have hconfirmed : plan.confirmPresented plan.id plan.revision = .ok ⟨plan⟩ := by
    simp [RenamePlan.confirmPresented]
  have hrows : plan.entries ≠ [] := List.ne_nil_of_length_eq_add_one htwo
  obtain ⟨hlost, hrestored⟩ :=
    executeWithControl_neverLost (show (ConfirmedPlan.mk plan).plan.entries ≠ [] from hrows)
  obtain ⟨early, late, hsplit⟩ := List.append_of_mem hrequested
  have hintime : InTime (finish plan).2.history early := by
    intro front answer n answer' back hback
    have hmem : committedEvent answer' ∈ trace := by
      rw [← htrace, mem_callsOf, hback]
      simp
    exact absurd rfl (hevents _ hmem).2
  obtain ⟨_, failure, ⟨⟩, houtcome⟩ := (hlost _ _ _ _ _ rfl run).rolledBack early late hsplit
    hintime (htrace ▸ mem_callsOf.2 hbegun) (fun event hmem => (hevents event hmem).1) _ rfl
  exact ⟨plan, report, failure, _, htwo, hrequested, hbegun, houtcome,
    hrestored _ _ _ _ _ _ _ _ _ _ _ _ _ planned hconfirmed rfl run houtcome⟩

end Executor

end DarkReNamer
