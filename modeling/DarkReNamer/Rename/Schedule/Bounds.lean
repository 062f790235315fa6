import DarkReNamer.Interaction.Recorder
import DarkReNamer.Rename.Schedule.Prepared

/-!
# The loops end

The loops of the source have no bound. Those of the model have one, more than the number of rows,
and no larger one makes a difference: each round of the main loop and each row of a cycle takes a
row off, and only a pending one, whatever the plan and the answers of the backend are.
-/

namespace DarkReNamer

open Std Interaction

namespace Schedule

/-- `scheduleCycle` with another bound on the rows of a cycle. -/
def scheduleCycleWithin (bound : ℕ) (plan : RenamePlan) (predecessors : List (Option ℕ))
    (st : LoopState) : ExceptT ScheduleError Engine LoopState :=
  match firstIndex st.remainingIndices with
  | none => throw .invalid
  | some pivot =>
      match plan.entries[pivot]? with
      | none => throw .invalid
      | some entry => do
          let (temporary, reserved) ← uniqueTemporaryPath plan entry st.reserved
          let identity ← ExceptT.mk (pure (sourceIdentity entry))
          let st := { st with reserved }
          let st ← cycleRows plan predecessors pivot bound pivot
            (st.push (intoTemporaryStep entry temporary identity plan.scope))
          ExceptT.mk (pure
            ((st.push (fromTemporaryStep entry temporary identity plan.scope)).finish pivot))

/-- `mainLoop` with another bound on the rows of a cycle. -/
def mainLoopWithin (bound : ℕ) (plan : RenamePlan) (predecessors : List (Option ℕ)) :
    ℕ → LoopState → ExceptT ScheduleError Engine (List ScheduleStep)
  | 0, _ => throw .invalid
  | rounds + 1, st =>
      if st.remaining = 0 then pure st.schedule
      else do
        checkCancelled
        match firstIndex st.ready with
        | some index => do
            let st ← ExceptT.mk (pure (scheduleReady plan predecessors st index))
            mainLoopWithin bound plan predecessors rounds st
        | none => do
            let st ← scheduleCycleWithin bound plan predecessors st
            mainLoopWithin bound plan predecessors rounds st

/-- `buildSchedule` with another bound on its loops. -/
def buildScheduleWithin (bound : ℕ) (plan : RenamePlan) :
    ExceptT ScheduleError Engine (List ScheduleStep) :=
  prepare plan >>= fun start => mainLoopWithin bound plan start.1 bound start.2

variable {plan : RenamePlan} {predecessors : List (Option ℕ)} {st : LoopState}

theorem LoopState.TakesOff.lt {i : ℕ} {st' : LoopState} (h : st.TakesOff i st') :
    st'.remaining < st.remaining := by
  have hremaining := h.remaining
  omega

theorem LoopState.Counters.tries_scheduleDirect (h : st.Counters plan) (index : ℕ) :
    Tries Call.Observes (st.GoesStraight plan index)
      (ExceptT.mk (pure (Schedule.scheduleDirect plan st index)) :
        ExceptT ScheduleError Engine LoopState) :=
  Tries.ofExcept fun _ hst' => (h.scheduleDirect hst').1

theorem LoopState.Counters.tries_scheduleReady (h : st.Counters plan) (index : ℕ) :
    Tries Call.Observes (st.GoesStraight plan index)
      (ExceptT.mk (pure (Schedule.scheduleReady plan predecessors st index)) :
        ExceptT ScheduleError Engine LoopState) :=
  Tries.ofExcept fun _ hst' => (h.scheduleReady hst').1

theorem cycleRows_bound {pivot rounds rounds' : ℕ} (freed : ℕ) (h : st.Counters plan)
    (hrounds : st.remaining < rounds) (hrounds' : st.remaining < rounds') :
    cycleRows plan predecessors pivot rounds freed st =
      cycleRows plan predecessors pivot rounds' freed st := by
  induction rounds generalizing rounds' freed st with
  | zero => omega
  | succ rounds ih =>
      obtain ⟨rounds', rfl⟩ : ∃ n, rounds' = n + 1 := ⟨rounds' - 1, by omega⟩
      rw [cycleRows, cycleRows]
      cases predecessors[freed]?.join with
      | none => rfl
      | some index =>
          refine congrArg (checkCancelled >>= ·) (funext fun _ => ?_)
          by_cases hpivot : index = pivot
          · rw [if_pos hpivot, if_pos hpivot]
          · rw [if_neg hpivot, if_neg hpivot]
            refine (h.tries_scheduleDirect index).bind_congr fun st' hst' => ?_
            have hlt := hst'.takes.lt
            exact ih index hst'.counters (by omega) (by omega)

theorem tries_cycleRows_remaining (pivot rounds freed : ℕ) (h : st.Counters plan) :
    Tries Call.Observes (fun st' => st'.Counters plan ∧ st'.remaining ≤ st.remaining)
      (cycleRows plan predecessors pivot rounds freed st) := by
  induction rounds generalizing freed st with
  | zero => exact Tries.throw _
  | succ rounds ih =>
      rw [cycleRows]
      split
      · exact Tries.pure ⟨h, Nat.le_refl _⟩
      · refine Tries.bind tries_checkCancelled fun _ _ => ?_
        split
        · exact Tries.pure ⟨h, Nat.le_refl _⟩
        · refine Tries.bind (h.tries_scheduleDirect _) fun st' hst' => ?_
          have hlt := hst'.takes.lt
          exact (ih _ hst'.counters).mono fun st'' hst'' => ⟨hst''.1, by omega⟩

theorem tries_scheduleCycle_remaining (h : st.Counters plan) :
    Tries Call.Observes (fun st' => st'.Counters plan ∧ st'.remaining < st.remaining)
      (scheduleCycle plan predecessors st) := by
  unfold scheduleCycle
  split
  · exact Tries.throw _
  · split
    · exact Tries.throw _
    · refine Tries.bind (tries_uniqueTemporaryPath _ _ _) fun r _ => ?_
      refine Tries.bind (Tries.ofExcept fun _ _ => trivial) fun identity _ => ?_
      have hpushed : ({ st with reserved := r.2 } : LoopState).Counters plan :=
        ⟨h.length, h.remainingIndices, h.remaining⟩
      refine Tries.bind (tries_cycleRows_remaining _ _ _ (hpushed.push _)) fun st₁ hst₁ => ?_
      refine Tries.ofExcept fun st' hst' => ?_
      obtain ⟨-, hcounters, htakes, -⟩ := (hst₁.1.push _).of_finish hst'
      exact ⟨hcounters, htakes.lt.trans_le hst₁.2⟩

theorem scheduleCycleWithin_eq {bound : ℕ} (h : st.Counters plan)
    (hbound : plan.entries.length < bound) :
    scheduleCycleWithin bound plan predecessors st = scheduleCycle plan predecessors st := by
  have hle := h.remaining_le
  unfold scheduleCycleWithin scheduleCycle
  cases firstIndex st.remainingIndices with
  | none => rfl
  | some pivot =>
      dsimp only
      cases plan.entries[pivot]? with
      | none => rfl
      | some entry =>
          refine bind_congr fun r => bind_congr fun identity => ?_
          have hpushed : ({ st with reserved := r.2 } : LoopState).Counters plan :=
            ⟨h.length, h.remainingIndices, h.remaining⟩
          rw [cycleRows_bound _ (hpushed.push _) (hle.trans_lt hbound) (Nat.lt_succ_of_le hle)]

theorem mainLoopWithin_eq {bound rounds rounds' : ℕ} (h : st.Counters plan)
    (hbound : plan.entries.length < bound) (hrounds : st.remaining < rounds)
    (hrounds' : st.remaining < rounds') :
    mainLoopWithin bound plan predecessors rounds st =
      mainLoop plan predecessors rounds' st := by
  induction rounds generalizing rounds' st with
  | zero => omega
  | succ rounds ih =>
      obtain ⟨rounds', rfl⟩ : ∃ n, rounds' = n + 1 := ⟨rounds' - 1, by omega⟩
      rw [mainLoopWithin, mainLoop]
      by_cases hzero : st.remaining = 0
      · rw [if_pos hzero, if_pos hzero]
      · rw [if_neg hzero, if_neg hzero]
        refine congrArg (checkCancelled >>= ·) (funext fun _ => ?_)
        cases firstIndex st.ready with
        | some index =>
            refine (h.tries_scheduleReady index).bind_congr fun st' hst' => ?_
            have hlt := hst'.takes.lt
            exact ih hst'.counters (by omega) (by omega)
        | none =>
            dsimp only
            rw [scheduleCycleWithin_eq h hbound]
            exact (tries_scheduleCycle_remaining h).bind_congr fun st' hst' =>
              ih hst'.1 (by omega) (by omega)

/-- No larger bound makes a difference. -/
theorem buildScheduleWithin_eq {bound : ℕ} (hbound : plan.entries.length < bound) :
    buildScheduleWithin bound plan = buildSchedule plan := by
  rw [buildSchedule_eq_prepare]
  refine (tries_prepare plan).bind_congr fun start hstart => ?_
  have hremaining := hstart.remaining
  exact mainLoopWithin_eq hstart.counters hbound (by omega) (by omega)

end Schedule

end DarkReNamer
