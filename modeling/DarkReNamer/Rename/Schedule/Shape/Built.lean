import DarkReNamer.Rename.Schedule.Execution
import DarkReNamer.Rename.Schedule.Shape.Rounds

/-!
# Every schedule has its shape

The invariant of the rounds from the first round to the last one.
-/

namespace DarkReNamer

open Std Interaction Cycles Relation

namespace Schedule

variable {plan : RenamePlan} {log : List EngineEvent} {predecessors : List (Option ℕ)}
  {st : LoopState} {rowSteps : List RowStep} {key : ℕ → PathKey}

theorem Prepared.shaped (h : Prepared plan predecessors st) (log : List EngineEvent)
    (key : ℕ → PathKey) : st.Shaped plan log [] key := by
  have hnone : st.doneCycles plan = ∅ := doneCycles_eq_empty fun i hi => by
    obtain ⟨j, hij, -⟩ := TransGen.head'_iff.1 hi
    exact (h.pending i).2 (waitsFor_lt hij).1
  have hthrough (i : ℕ) : ¬ Through [] i := by
    rintro ⟨temporary, hmem⟩
    cases hmem
  refine
    { queued := { h.counters with ready_iff := h.ready }
      counted := ⟨fun i j _ hij _ => (h.pending j).2 (waitsFor_lt hij).2, ?_⟩
      steps := by
        rw [h.schedule]
        exact .nil
      waiting := fun _ _ => rfl
      done := fun i hi hdone => absurd ((h.pending i).2 hi) hdone
      onCycle := fun i hi => absurd hi (hthrough i)
      unique := fun i _ hi => absurd hi (hthrough i)
      closed := fun c hc => by
        rw [hnone] at hc
        cases hc
      keys := ⟨fun row hrow => ?_, fun _ _ hmem => ?_, fun _ _ hmem => ?_,
        fun _ _ _ _ hmem => ?_, fun _ _ hmem => ?_⟩ }
  · rw [hnone, h.schedule, h.remaining, Set.ncard_empty]
    exact Nat.zero_add _
  · exact ⟨(h.reserved _).2 (List.mem_append_left _ (List.mem_map_of_mem hrow)),
      (h.reserved _).2 (List.mem_append_right _ (List.mem_map_of_mem hrow))⟩
  all_goals cases hmem

theorem records_scheduleCycle (hplan : Orderly plan)
    (hpredecessors : ∀ j i, predecessors[j]?.join = some i ↔ WaitsFor plan i j)
    (h : st.Shaped plan log rowSteps key) (hempty : st.ready = ∅) :
    Records (fun st' log' => ∃ rowSteps' key', st'.Shaped plan log' rowSteps' key')
      (scheduleCycle plan predecessors st) log := by
  unfold scheduleCycle
  cases hmin : firstIndex st.remainingIndices with
  | none => exact Records.throw _
  | some pivot =>
      have hpending : st.isPending pivot = true :=
        (h.queued.remainingIndices pivot).1 (firstIndex_mem hmin)
      dsimp only
      cases hentry : plan.entries[pivot]? with
      | none => exact Records.throw _
      | some entry =>
          refine Records.bind (records_uniqueTemporaryPath hentry st.reserved).prefixed ?_
          rintro ⟨temporary, reserved⟩ log' ⟨⟨new, hreserved, hfresh, hkeyed⟩, hlog⟩
          dsimp only at hreserved hkeyed
          subst hreserved
          have hsource : Records
              (fun identity log => sourceIdentity entry = .ok identity ∧ log = log')
              (ExceptT.mk (pure (sourceIdentity entry)) :
                ExceptT ScheduleError Engine EntryIdentity) log' :=
            Records.ofExcept fun identity hidentity => ⟨hidentity, rfl⟩
          refine Records.bind hsource ?_
          rintro identity _ ⟨hidentity, rfl⟩
          have hpushed : (({ st with reserved := st.reserved.insert new } : LoopState).push
              (intoTemporaryStep entry temporary identity plan.scope)).Counters plan :=
            ⟨h.queued.length, h.queued.remainingIndices, h.queued.remaining⟩
          have hopened : OpenCycle plan (fun i => st.isPending i = true) pivot pivot
              (({ st with reserved := st.reserved.insert new } : LoopState).push
                (intoTemporaryStep entry temporary identity plan.scope)) := by
            refine openCycle_start ?_ hpending
            rfl
          refine Records.bind (Records.of_tries (tries_cycleRows_passes hplan hpredecessors
            (h.queued.waited hplan hempty) _ _ _ hpushed hopened .refl)).prefixed ?_
          rintro st₁ log'' ⟨⟨⟨ds, hpasses⟩, freed, hcycle, hback, hfreed⟩, hlog'⟩
          refine Records.ofExcept fun st' hst' => ⟨rowSteps ++ cycleSteps pivot temporary ds, _,
            (h.mono (hlog.trans hlog')).cycle_round hplan hempty hfresh (hkeyed.mono hlog')
              (hpasses.takesCycle h.queued hplan hempty hpending
                ⟨entry, identity, hentry, hidentity, rfl⟩ ⟨entry, identity, hentry, hidentity, rfl⟩
                hcycle hback hfreed hst')⟩

/-- The main loop ends with every row scheduled. -/
theorem records_mainLoop (hplan : Orderly plan)
    (hpredecessors : ∀ j i, predecessors[j]?.join = some i ↔ WaitsFor plan i j) (rounds : ℕ)
    (h : st.Shaped plan log rowSteps key) :
    Records (fun schedule log' => ∃ rowSteps' key' st', st'.schedule = schedule ∧
        st'.remaining = 0 ∧ LoopState.Shaped plan log' rowSteps' key' st')
      (mainLoop plan predecessors rounds st) log := by
  induction rounds generalizing st rowSteps key log with
  | zero => exact Records.throw _
  | succ rounds ih =>
      rw [mainLoop]
      by_cases hzero : st.remaining = 0
      · rw [if_pos hzero]
        exact Records.pure ⟨rowSteps, key, st, rfl, hzero, h⟩
      · rw [if_neg hzero]
        refine Records.bind (Records.of_tries tries_checkCancelled).prefixed ?_
        rintro _ log' ⟨-, hlog⟩
        cases hmin : firstIndex st.ready with
        | some i =>
            have hready : Records (fun st' log => scheduleReady plan predecessors st i = .ok st' ∧
                log = log') (ExceptT.mk (pure (scheduleReady plan predecessors st i)) :
                  ExceptT ScheduleError Engine LoopState) log' :=
              Records.ofExcept fun st' hst' => ⟨hst', rfl⟩
            refine Records.bind hready ?_
            rintro st' _ ⟨hst', rfl⟩
            exact ih ((h.mono hlog).ready_round hplan hpredecessors (firstIndex_mem hmin) hst')
        | none =>
            refine Records.bind (records_scheduleCycle hplan hpredecessors (h.mono hlog)
              (firstIndex_eq_none hmin)) ?_
            rintro st' log'' ⟨rowSteps', key', h'⟩
            exact ih h'

/-- When nothing remains, the schedule has its shape. -/
theorem LoopState.Shaped.shape (h : st.Shaped plan log rowSteps key) (hplan : Orderly plan)
    (hzero : st.remaining = 0) : Shape plan log st.schedule rowSteps key := by
  have hnone := h.queued.not_pending hzero
  have hdone : st.doneCycles plan = dependencyCycles plan := doneCycles_eq_cycles hnone
  have hcount := h.counted.steps
  rw [hzero, hdone] at hcount
  refine
    { steps := h.steps
      rows := fun i hi => h.done i hi (hnone i)
      length := hcount
      cycles := fun c hc => ?_
      onCycle := fun i hi => ⟨cycleOf (WaitsFor plan) i, cycleOf_mem_cycles (h.onCycle i hi),
        h.onCycle i hi⟩
      keyed := h.keys.keyed
      keys_distinct := fun i j ⟨_, hi⟩ ⟨_, hj⟩ heq => h.keys.distinct _ _ _ _ hi hj heq
      keys_new := fun i ⟨_, hi⟩ row hrow => h.keys.new _ _ hi row hrow }
  obtain ⟨i, hi, hthrough⟩ := h.closed c (hdone ▸ hc)
  refine ⟨i, ⟨hi, hthrough⟩, fun j hj => h.unique i j hthrough hj.2 ?_⟩
  rw [← (eq_cycleOf_of_mem hplan.unique_right hc hi).2]
  exact hj.1

theorem records_buildSchedule (plan : RenamePlan) :
    Records (fun schedule log => ∃ rowSteps key, Shape plan log schedule rowSteps key)
      (buildSchedule plan) [] := by
  rw [buildSchedule_eq_prepare]
  refine Records.bind (.of_tries (tries_prepare plan)) fun start log hstart => ?_
  have hinitial := hstart.shaped log fun _ => ⟨[]⟩
  refine (records_mainLoop hstart.orderly hstart.predecessors _ hinitial).mono ?_
  rintro schedule log' ⟨rowSteps, key, st, rfl, hzero, h⟩
  exact ⟨rowSteps, key, h.shape hstart.orderly hzero⟩

end Schedule

/-- The builder ends on every plan, whatever the backend answers, and what it returns has one
step for each row and one more for each cycle. -/
theorem buildSchedule_shape (plan : RenamePlan) :
    (∀ bound, plan.entries.length < bound →
      Schedule.buildScheduleWithin bound plan = buildSchedule plan) ∧
    ∀ {σ : Type} (env : Environment σ Call Answer) (s t : σ) (trace : List EngineEvent)
      (schedule : List ScheduleStep),
      Runs env (buildSchedule plan).run s trace (some (.ok schedule)) t →
        ∃ rowSteps key, Schedule.Shape plan trace schedule rowSteps key :=
  ⟨fun _ hbound => Schedule.buildScheduleWithin_eq hbound, fun _ _ _ _ _ run =>
    (Schedule.records_buildSchedule plan).sound run⟩

/-- Two files that change names: one of the two goes through a temporary path. -/
theorem buildSchedule_shape_swap : ∃ schedule : List ScheduleStep, schedule.length = 3 ∧
    ∃ trace rowSteps key, Schedule.Shape swapPlan trace schedule rowSteps key := by
  have hlength : (((buildSchedule swapPlan).run.run
      ((flatVolume sampleParent).ports 5).handler ⟨swapState, []⟩).1.toOption.map
        List.length) = some 3 := by decide +kernel
  obtain ⟨schedule, trace, hthree, run⟩ :=
    Runs.of_toOption ((flatVolume sampleParent).ports_allowed 5) hlength
  exact ⟨schedule, hthree, trace, (buildSchedule_shape swapPlan).2 _ _ _ _ _ run⟩

end DarkReNamer
