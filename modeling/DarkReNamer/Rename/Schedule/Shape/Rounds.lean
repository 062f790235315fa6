import DarkReNamer.Rename.Schedule.Shape

/-!
# Rounds and the shape

What is known of the steps and the keys between the rounds of the main loop (`Shaped`). A round
of a ready row adds its direct step, a round of a cycle the steps of the cycle.
-/

namespace DarkReNamer

open Std Interaction Cycles Relation

namespace Schedule

variable {plan : RenamePlan} {log log' : List EngineEvent}

/-! ### Temporary keys -/

/-- What is known of the temporary keys. -/
structure Keys (plan : RenamePlan) (log : List EngineEvent) (temps : List (ℕ × LegacyText))
    (key : ℕ → PathKey) (reserved : ExtTreeSet PathKey) : Prop where
  plan_reserved : ∀ row ∈ plan.entries,
    row.sourceEntryKey ∈ reserved ∧ row.destinationEntryKey ∈ reserved
  reserved : ∀ i temporary, (i, temporary) ∈ temps → key i ∈ reserved
  keyed : ∀ i temporary, (i, temporary) ∈ temps → Keyed plan log i temporary (key i)
  distinct : ∀ i j t u, (i, t) ∈ temps → (j, u) ∈ temps → key i = key j → i = j
  new : ∀ i temporary, (i, temporary) ∈ temps → ∀ row ∈ plan.entries,
    key i ≠ row.sourceEntryKey ∧ key i ≠ row.destinationEntryKey

theorem Keyed.mono {i : ℕ} {temporary : LegacyText} {key : PathKey}
    (h : Keyed plan log i temporary key) (hlog : log <+: log') :
    Keyed plan log' i temporary key := by
  obtain ⟨entry, leaf, hentry, hpath, hmem⟩ := h
  exact ⟨entry, leaf, hentry, hpath, hlog.subset hmem⟩

theorem Keys.mono {temps : List (ℕ × LegacyText)} {key : ℕ → PathKey}
    {reserved : ExtTreeSet PathKey} (h : Keys plan log temps key reserved) (hlog : log <+: log') :
    Keys plan log' temps key reserved :=
  { h with keyed := fun i temporary hmem => (h.keyed i temporary hmem).mono hlog }

/-- One more temporary path, with a key that is not reserved yet. -/
theorem Keys.add {temps : List (ℕ × LegacyText)} {key : ℕ → PathKey}
    {reserved : ExtTreeSet PathKey} {pivot : ℕ} {temporary : LegacyText} {new : PathKey}
    (h : Keys plan log temps key reserved) (hfresh : new ∉ reserved)
    (hkeyed : Keyed plan log pivot temporary new) (hpivot : ∀ t, (pivot, t) ∉ temps) :
    Keys plan log (temps ++ [(pivot, temporary)]) (Function.update key pivot new)
      (reserved.insert new) := by
  have hinsert (k : PathKey) : k ∈ reserved.insert new ↔ new = k ∨ k ∈ reserved := by
    rw [ExtTreeSet.mem_insert, LawfulEqCmp.compare_eq_iff_eq]
  have hold {i : ℕ} {t : LegacyText} (hmem : (i, t) ∈ temps) :
      Function.update key pivot new i = key i := by
    refine Function.update_of_ne ?_ _ _
    rintro rfl
    exact hpivot t hmem
  have hcases {i : ℕ} {t : LegacyText} (hmem : (i, t) ∈ temps ++ [(pivot, temporary)]) :
      (i, t) ∈ temps ∨ i = pivot ∧ t = temporary := by
    simpa using hmem
  refine ⟨fun row hrow => ?_, fun i t hmem => ?_, fun i t hmem => ?_,
    fun i j t u hi hj heq => ?_, fun i t hmem row hrow => ?_⟩
  · obtain ⟨hsource, hdestination⟩ := h.plan_reserved row hrow
    exact ⟨(hinsert _).2 (.inr hsource), (hinsert _).2 (.inr hdestination)⟩
  · rcases hcases hmem with hmem | ⟨rfl, -⟩
    · rw [hold hmem]
      exact (hinsert _).2 (.inr (h.reserved i t hmem))
    · rw [Function.update_self]
      exact (hinsert _).2 (.inl rfl)
  · rcases hcases hmem with hmem | ⟨rfl, rfl⟩
    · rw [hold hmem]
      exact h.keyed i t hmem
    · rwa [Function.update_self]
  · rcases hcases hi with hold₁ | ⟨rfl, -⟩
    · rcases hcases hj with hold₂ | ⟨rfl, -⟩
      · rw [hold hold₁, hold hold₂] at heq
        exact h.distinct i j t u hold₁ hold₂ heq
      · rw [hold hold₁, Function.update_self] at heq
        exact absurd (heq ▸ h.reserved i t hold₁) hfresh
    · rcases hcases hj with hold₂ | ⟨rfl, -⟩
      · rw [hold hold₂, Function.update_self] at heq
        exact absurd (heq ▸ h.reserved j u hold₂) hfresh
      · rfl
  · rcases hcases hmem with hmem | ⟨rfl, -⟩
    · rw [hold hmem]
      exact h.new i t hmem row hrow
    · rw [Function.update_self]
      obtain ⟨hsource, hdestination⟩ := h.plan_reserved row hrow
      exact ⟨fun heq => hfresh (heq ▸ hsource), fun heq => hfresh (heq ▸ hdestination)⟩

/-- The key of the path that the probe returns was not reserved, and the backend gave it. -/
theorem records_probeTemporary {i : ℕ} {pivot : PlanRow} (hpivot : plan.entries[i]? = some pivot)
    (nonce : BitVec 128) (reserved : ExtTreeSet PathKey) (ordinal count : ℕ) :
    Records (fun r log' => ∃ key, r.2 = reserved.insert key ∧ key ∉ reserved ∧
        Keyed plan log' i r.1 key)
      (probeTemporary plan pivot nonce reserved ordinal count) log := by
  induction count generalizing ordinal log with
  | zero => exact Records.throw _
  | succ count ih =>
      refine Records.bind (.of_tries tries_checkCancelled) fun _ log _ => ?_
      refine Records.call fun planned => ?_
      cases planned with
      | error error => exact Records.throw _
      | ok key =>
          dsimp only
          split
          · exact ih _
          · next hfresh =>
              refine Records.call fun observed => ?_
              cases observed with
              | error error => exact Records.throw _
              | ok snapshot =>
                  dsimp only
                  split
                  · exact Records.throw _
                  · split
                    · refine Records.pure ⟨key, rfl, ?_, pivot, _, hpivot, rfl, ?_⟩
                      · rwa [← ExtTreeSet.contains_iff_mem]
                      · simp
                    · exact ih _

theorem records_uniqueTemporaryPath {i : ℕ} {pivot : PlanRow}
    (hpivot : plan.entries[i]? = some pivot) (reserved : ExtTreeSet PathKey) :
    Records (fun r log' => ∃ key, r.2 = reserved.insert key ∧ key ∉ reserved ∧
        Keyed plan log' i r.1 key)
      (uniqueTemporaryPath plan pivot reserved) log := by
  refine Records.bind (.of_tries tries_checkCancelled) fun _ log _ => ?_
  refine Records.call fun nonce => ?_
  cases nonce with
  | error error => exact Records.throw _
  | ok nonce => exact records_probeTemporary hpivot nonce reserved 0 _

/-! ### The rows of a cycle -/

/-- The rows in `ds` go straight to their destinations, one after the other. -/
structure LoopState.Passes (plan : RenamePlan) (pivot : ℕ) (ds : List ℕ) (st st' : LoopState) :
    Prop where
  counters : st'.Counters plan
  pending : ∀ j, st'.isPending j = true ↔ st.isPending j = true ∧ j ∉ ds
  was : ∀ j ∈ ds, st.isPending j = true
  nodup : ds.Nodup
  reach : ∀ j ∈ ds, ReflTransGen (WaitsFor plan) j pivot
  ready : st'.ready = st.ready
  reserved : st'.reserved = st.reserved
  remaining : st'.remaining + ds.length = st.remaining
  schedule : ∃ steps, st'.schedule = st.schedule ++ steps ∧
    List.Forall₂ (RowStep.Is plan) (ds.map .direct) steps

theorem LoopState.GoesStraight.is {i : ℕ} {st st' : LoopState} (h : st.GoesStraight plan i st') :
    ∃ step, st'.schedule = st.schedule ++ [step] ∧ RowStep.Is plan (.direct i) step := by
  obtain ⟨entry, identity, hentry, hidentity, hschedule⟩ := h.schedule
  exact ⟨_, hschedule, entry, identity, hentry, hidentity, rfl⟩

namespace LoopState.Passes

variable {pivot d : ℕ} {ds : List ℕ} {st st' st'' : LoopState}

theorem refl (h : st.Counters plan) : st.Passes plan pivot [] st where
  counters := h
  pending _ := by simp
  was _ hj := absurd hj List.not_mem_nil
  nodup := List.nodup_nil
  reach _ hj := absurd hj List.not_mem_nil
  ready := rfl
  reserved := rfl
  remaining := rfl
  schedule := ⟨[], (List.append_nil _).symm, .nil⟩

theorem cons (h : st.GoesStraight plan d st') (hready : st'.ready = st.ready)
    (hreach : ReflTransGen (WaitsFor plan) d pivot) (hrest : st'.Passes plan pivot ds st'') :
    st.Passes plan pivot (d :: ds) st'' where
  counters := hrest.counters
  pending j := by
    rw [hrest.pending, h.takes.pending, List.mem_cons, not_or, and_assoc]
  was := List.forall_mem_cons.2
    ⟨h.pending, fun j hj => ((h.takes.pending j).1 (hrest.was j hj)).1⟩
  nodup := List.nodup_cons.2
    ⟨fun hd => ((h.takes.pending d).1 (hrest.was d hd)).2 rfl, hrest.nodup⟩
  reach := List.forall_mem_cons.2 ⟨hreach, hrest.reach⟩
  ready := hrest.ready.trans hready
  reserved := hrest.reserved.trans h.reserved
  remaining := by
    have hremaining := hrest.remaining
    have htakes := h.takes.remaining
    rw [List.length_cons]
    omega
  schedule := by
    obtain ⟨step, hstep, his⟩ := h.is
    obtain ⟨steps, hsteps, hall⟩ := hrest.schedule
    exact ⟨step :: steps, by rw [hsteps, hstep, List.append_assoc]; rfl, .cons his hall⟩

end LoopState.Passes

/-- The rows of a cycle follow each other until the pivot is reached again. -/
theorem tries_cycleRows_passes (hplan : Orderly plan) {predecessors : List (Option ℕ)}
    (hpredecessors : ∀ j i, predecessors[j]?.join = some i ↔ WaitsFor plan i j)
    {start : ℕ → Prop} (hstart : ∀ j, start j → ∃ i, start i ∧ WaitsFor plan i j) {pivot : ℕ}
    (rounds freed : ℕ) (st : LoopState) (hcounters : st.Counters plan)
    (hcycle : OpenCycle plan start pivot freed st)
    (hfreed : ReflTransGen (WaitsFor plan) freed pivot) :
    Tries Call.Observes (fun st' => (∃ ds, st.Passes plan pivot ds st') ∧
        ∃ freed', OpenCycle plan start pivot freed' st' ∧ WaitsFor plan pivot freed' ∧
          ReflTransGen (WaitsFor plan) freed' pivot)
      (cycleRows plan predecessors pivot rounds freed st) := by
  induction rounds generalizing freed st with
  | zero => exact Tries.throw _
  | succ rounds ih =>
      obtain ⟨i, hi, hwaits⟩ := hstart freed hcycle.freed_start
      rw [cycleRows]
      simp only [(hpredecessors freed i).2 hwaits]
      refine Tries.bind tries_checkCancelled fun _ _ => ?_
      by_cases hpivot : i = pivot
      · rw [if_pos hpivot]
        exact Tries.pure ⟨⟨[], .refl hcounters⟩, freed, hcycle, hpivot ▸ hwaits, hfreed⟩
      · rw [if_neg hpivot]
        refine Tries.bind (Tries.ofExcept fun st' hst' => hcounters.scheduleDirect hst') ?_
        rintro st₁ ⟨hstraight, hready⟩
        have hreach : ReflTransGen (WaitsFor plan) i pivot := .head hwaits hfreed
        refine (ih i st₁ hstraight.counters
          (hcycle.next hplan hi hwaits hpivot hstraight.takes) hreach).mono ?_
        rintro st' ⟨⟨ds, hpasses⟩, hback⟩
        exact ⟨⟨i :: ds, .cons hstraight hready hreach hpasses⟩, hback⟩

/-- A round in which the rows of a cycle are taken off, the pivot over a temporary path. -/
structure LoopState.TakesCycle (plan : RenamePlan) (pivot : ℕ) (temporary : LegacyText)
    (new : PathKey) (ds : List ℕ) (st st' : LoopState) : Prop where
  queued : st'.Queued plan
  closes : st.Closes plan pivot st'
  pending : ∀ j, st'.isPending j = true ↔ st.isPending j = true ∧ ¬ (j = pivot ∨ j ∈ ds)
  was : ∀ j ∈ ds, st.isPending j = true
  nodup : ds.Nodup
  pivot_not_mem : pivot ∉ ds
  onCycle : OnCycle (WaitsFor plan) pivot
  reserved : st'.reserved = st.reserved.insert new
  schedule : ∃ steps, st'.schedule = st.schedule ++ steps ∧
    List.Forall₂ (RowStep.Is plan) (cycleSteps pivot temporary ds) steps

/-- The state of the loop with the pivot on its way to its temporary path. -/
def LoopState.opened (st : LoopState) (new : PathKey) (into : ScheduleStep) : LoopState :=
  ({ st with reserved := st.reserved.insert new } : LoopState).push into

namespace LoopState.Passes

variable {pivot freed : ℕ} {temporary : LegacyText} {new : PathKey} {ds : List ℕ}
  {st st₁ st' : LoopState} {into out : ScheduleStep}

/-- The pivot comes back once the others have passed. -/
theorem pending_finish (h : (st.opened new into).Passes plan pivot ds st₁)
    (htakes : (st₁.push out).TakesOff pivot st') (j : ℕ) :
    st'.isPending j = true ↔ st.isPending j = true ∧ ¬ (j = pivot ∨ j ∈ ds) := by
  have hbefore : (st₁.push out).isPending j = true ↔ st.isPending j = true ∧ j ∉ ds := h.pending j
  rw [htakes.pending, hbefore]
  tauto

/-- The cycle takes one step more than it has rows. -/
theorem steps_finish (h : (st.opened new into).Passes plan pivot ds st₁)
    (htakes : (st₁.push out).TakesOff pivot st')
    (hschedule : st'.schedule = (st₁.push out).schedule) :
    st'.schedule.length + st'.remaining = st.schedule.length + st.remaining + 1 := by
  obtain ⟨steps, hsteps, hall⟩ := h.schedule
  have hlength := hall.length_eq
  have hremaining : st₁.remaining + ds.length = st.remaining := h.remaining
  have hremaining' : st'.remaining + 1 = st₁.remaining := htakes.remaining
  rw [List.length_map] at hlength
  rw [hschedule, LoopState.push, hsteps, LoopState.opened, LoopState.push]
  simp only [List.length_append, List.length_singleton]
  omega

/-- The rows that wait for others keep waiting: those of the cycle are gone together. -/
theorem queued_finish (h : st.Queued plan) (hplan : Orderly plan) (hempty : st.ready = ∅)
    (hcycle : OpenCycle plan (fun i => st.isPending i = true) pivot freed st₁)
    (hback : WaitsFor plan pivot freed) (hcounters : st'.Counters plan)
    (htakes : (st₁.push out).TakesOff pivot st') (hready : st'.ready = ∅) : st'.Queued plan :=
  { hcounters with
    ready_iff := fun i => by
      refine iff_of_false (by simp [hready]) ?_
      rintro ⟨hi, hnone⟩
      obtain ⟨hi₁, hne⟩ := (htakes.pending i).1 hi
      obtain ⟨j, hj, hij⟩ := h.waits hempty i (hcycle.pending_start i hi₁)
      exact hnone j hij ((htakes.pending j).2 (hcycle.closed hplan hback hi₁ hne hj hij)) }

/-- The pivot leaves, the others pass, and the pivot arrives. -/
theorem takesCycle (h : (st.opened new into).Passes plan pivot ds st₁) (hqueued : st.Queued plan)
    (hplan : Orderly plan) (hempty : st.ready = ∅) (hpending : st.isPending pivot = true)
    (hinto : RowStep.Is plan (.intoTemporary pivot temporary) into)
    (hout : RowStep.Is plan (.fromTemporary pivot temporary) out)
    (hcycle : OpenCycle plan (fun i => st.isPending i = true) pivot freed st₁)
    (hback : WaitsFor plan pivot freed) (hfreed : ReflTransGen (WaitsFor plan) freed pivot)
    (hst' : (st₁.push out).finish pivot = .ok st') :
    st.TakesCycle plan pivot temporary new ds st' := by
  obtain ⟨-, hcounters, htakes, hready, hreserved, hschedule⟩ :=
    (h.counters.push out).of_finish hst'
  have hready' : st'.ready = st.ready := hready.trans h.ready
  have hpendingIff := h.pending_finish htakes
  refine ⟨queued_finish hqueued hplan hempty hcycle hback hcounters htakes (hready'.trans hempty),
    ⟨hpending, fun hpivot => ((hpendingIff pivot).1 hpivot).2 (.inl rfl), hready',
      fun j hj => ((hpendingIff j).1 hj).1, fun j hj hj' => ?_, h.steps_finish htakes hschedule⟩,
    hpendingIff, h.was, h.nodup, ((h.pending pivot).1 hcycle.pivot_pending).2,
    TransGen.head' hback hfreed, hreserved.trans h.reserved, ?_⟩
  · have htaken : j = pivot ∨ j ∈ ds := by
      by_contra hnot
      exact hj' ((hpendingIff j).2 ⟨hj, hnot⟩)
    rcases htaken with rfl | hmem
    · exact .refl
    · exact h.reach j hmem
  · obtain ⟨steps, hsteps, hall⟩ := h.schedule
    refine ⟨into :: steps ++ [out], ?_, List.rel_append (.cons hinto hall) (.cons hout .nil)⟩
    rw [hschedule, LoopState.push, hsteps, LoopState.opened, LoopState.push]
    simp

end LoopState.Passes

/-! ### The invariant -/

/-- What is known between the rounds of the main loop. -/
structure LoopState.Shaped (plan : RenamePlan) (log : List EngineEvent) (rowSteps : List RowStep)
    (key : ℕ → PathKey) (st : LoopState) : Prop where
  queued : st.Queued plan
  counted : st.Counted plan
  steps : List.Forall₂ (RowStep.Is plan) rowSteps st.schedule
  waiting : ∀ i, st.isPending i = true → stepsOf rowSteps i = []
  done : ∀ i < plan.entries.length, ¬ st.isPending i = true → RowDone rowSteps i
  onCycle : ∀ i, Through rowSteps i → OnCycle (WaitsFor plan) i
  unique : ∀ i j, Through rowSteps i → Through rowSteps j → j ∈ cycleOf (WaitsFor plan) i → j = i
  closed : ∀ c ∈ st.doneCycles plan, ∃ i ∈ c, Through rowSteps i
  keys : Keys plan log (temporaries rowSteps) key st.reserved

namespace LoopState.Shaped

variable {rowSteps : List RowStep} {key : ℕ → PathKey} {st st' : LoopState}

theorem mono (h : st.Shaped plan log rowSteps key) (hlog : log <+: log') :
    st.Shaped plan log' rowSteps key :=
  { h with keys := h.keys.mono hlog }

/-- The rows taken off in a round have their steps, the others are as before. -/
theorem rows_append (h : st.Shaped plan log rowSteps key) {added : List RowStep}
    {taken : ℕ → Prop}
    (hpending : ∀ j, st'.isPending j = true ↔ st.isPending j = true ∧ ¬ taken j)
    (hwas : ∀ j, taken j → st.isPending j = true) (hadded : ∀ j, taken j → RowDone added j)
    (hother : ∀ j, ¬ taken j → stepsOf added j = []) :
    (∀ i, st'.isPending i = true → stepsOf (rowSteps ++ added) i = []) ∧
      ∀ i < plan.entries.length, ¬ st'.isPending i = true → RowDone (rowSteps ++ added) i := by
  constructor
  · intro i hi
    obtain ⟨hi, hnot⟩ := (hpending i).1 hi
    rw [stepsOf_append, h.waiting i hi, hother i hnot, List.append_nil]
  · intro i hlt hi
    by_cases htaken : taken i
    · rw [RowDone, stepsOf_append, h.waiting i (hwas i htaken), List.nil_append]
      exact hadded i htaken
    · have hdone : ¬ st.isPending i = true := fun hi' => hi ((hpending i).2 ⟨hi', htaken⟩)
      rw [RowDone, stepsOf_append, hother i htaken, List.append_nil]
      exact h.done i hlt hdone

/-- A row that waits for no pending one is on no cycle. -/
theorem ready_round (h : st.Shaped plan log rowSteps key) (hplan : Orderly plan)
    {predecessors : List (Option ℕ)}
    (hpredecessors : ∀ j i, predecessors[j]?.join = some i ↔ WaitsFor plan i j) {i : ℕ}
    (hi : i ∈ st.ready) (hst' : scheduleReady plan predecessors st i = .ok st') :
    st'.Shaped plan log (rowSteps ++ [i].map .direct) key := by
  obtain ⟨hstraight, hready⟩ := h.queued.scheduleReady hst'
  obtain ⟨step, hschedule, his⟩ := hstraight.is
  have hqueued : st'.Queued plan :=
    { hstraight.counters with
      ready_iff := fun j => by
        rw [hready, hpredecessors]
        exact ready_iff_takesOff hplan h.queued.ready_iff hstraight.takes }
  obtain ⟨hcounted, hclosed⟩ :=
    h.counted.ready_round h.queued hplan hi hstraight.takes (by simp [hschedule])
  have htemporaries : temporaries (rowSteps ++ [i].map .direct) = temporaries rowSteps := by
    rw [temporaries_append, temporaries_direct, List.append_nil]
  have hthrough (j : ℕ) : Through (rowSteps ++ [i].map .direct) j ↔ Through rowSteps j := by
    rw [Through, htemporaries, Through]
  have hsteps (j : ℕ) : stepsOf ([i].map .direct) j = if j ∈ [i] then [.direct j] else [] :=
    stepsOf_direct (List.nodup_singleton i) j
  simp only [List.mem_singleton] at hsteps
  obtain ⟨hwaiting, hdone⟩ := h.rows_append hstraight.takes.pending
    (by rintro j rfl; exact hstraight.pending)
    (fun j hj => .inl ((hsteps j).trans (if_pos hj)))
    (fun j hj => (hsteps j).trans (if_neg hj))
  refine ⟨hqueued, hcounted, ?_, hwaiting, hdone, fun j hj => h.onCycle j ((hthrough j).1 hj),
    fun j k hj hk => h.unique j k ((hthrough j).1 hj) ((hthrough k).1 hk), fun c hc => ?_, ?_⟩
  · rw [hschedule]
    exact List.rel_append h.steps (.cons his .nil)
  · rw [hclosed] at hc
    obtain ⟨j, hj, hthroughJ⟩ := h.closed c hc
    exact ⟨j, hj, (hthrough j).2 hthroughJ⟩
  · rw [htemporaries, hstraight.reserved]
    exact h.keys

/-- The rows of a cycle are taken off together. -/
theorem cycle_round (h : st.Shaped plan log rowSteps key) (hplan : Orderly plan)
    (hempty : st.ready = ∅) {pivot : ℕ} {temporary : LegacyText} {new : PathKey} {ds : List ℕ}
    (hfresh : new ∉ st.reserved) (hkeyed : Keyed plan log pivot temporary new)
    (hround : st.TakesCycle plan pivot temporary new ds st') :
    st'.Shaped plan log (rowSteps ++ cycleSteps pivot temporary ds)
      (Function.update key pivot new) := by
  obtain ⟨hcounted, hclosed⟩ :=
    h.counted.cycle_round h.queued hround.queued hplan hempty hround.closes
  have hpending := hround.closes.pending
  have hthrough (j : ℕ) : Through (rowSteps ++ cycleSteps pivot temporary ds) j ↔
      Through rowSteps j ∨ j = pivot := through_append_cycleSteps
  obtain ⟨hwaiting, hdone⟩ := h.rows_append hround.pending
    (fun j hj => hj.elim (fun heq => heq ▸ hpending) fun hmem => hround.was j hmem)
    (fun j hj => rowDone_cycleSteps hround.nodup hround.pivot_not_mem hj)
    (fun j hj => stepsOf_cycleSteps_eq_nil hround.nodup hround.pivot_not_mem hj)
  -- what the pivot leads to is still pending, so no row of its cycle had a temporary path before
  have hlater (j : ℕ) (hj : TransGen (WaitsFor plan) pivot j) : ¬ Through rowSteps j := fun hold =>
    hold.stepsOf_ne_nil (h.waiting j
      (h.counted.whole.reaches hplan.unique_right hround.onCycle hj hpending))
  refine ⟨hround.queued, hcounted, ?_, hwaiting, hdone, fun j hj => ?_, fun i j hi hj hij => ?_,
    fun c hc => ?_, ?_⟩
  · obtain ⟨steps, hsteps, hall⟩ := hround.schedule
    rw [hsteps]
    exact List.rel_append h.steps hall
  · rcases (hthrough j).1 hj with hj | rfl
    · exact h.onCycle j hj
    · exact hround.onCycle
  · rcases (hthrough i).1 hi with hold | rfl
    · rcases (hthrough j).1 hj with hold' | rfl
      · exact h.unique i j hold hold' hij
      · exact absurd hold (hlater i ((h.onCycle i hold).back hplan.unique_right hij))
    · rcases (hthrough j).1 hj with hold' | rfl
      · exact absurd hold' (hlater j hij)
      · rfl
  · rw [hclosed] at hc
    rcases hc with rfl | hc
    · exact ⟨pivot, hround.onCycle, (hthrough pivot).2 (.inr rfl)⟩
    · obtain ⟨j, hj, hthroughJ⟩ := h.closed c hc
      exact ⟨j, hj, (hthrough j).2 (.inl hthroughJ)⟩
  · rw [temporaries_append, temporaries_cycleSteps, hround.reserved]
    exact h.keys.add hfresh hkeyed fun t hmem => hlater pivot hround.onCycle ⟨t, hmem⟩

end LoopState.Shaped

end Schedule

end DarkReNamer
