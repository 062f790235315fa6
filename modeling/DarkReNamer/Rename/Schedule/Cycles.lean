import DarkReNamer.Relations.Cycles
import DarkReNamer.Rename.Schedule.Correct

/-!
# One extra step for each cycle

A row waits for the one that stands at its destination, and the rows that wait for each other
form the dependency cycles of a plan. Between the rounds of the main loop a cycle is pending as
a whole or not at all (`Whole`), and the steps so far are those of the rows taken off and one
more for each cycle that is done.
-/

namespace DarkReNamer

open Std Interaction Cycles

namespace Schedule

/-- The dependency cycles of a plan, a row that waits for itself included. -/
def dependencyCycles (plan : RenamePlan) : Set (Set ℕ) := cycles (WaitsFor plan)

section Loop

variable {V : Volume} {plan : RenamePlan} {o : VolumeState} {st st' : LoopState}

/-- The cycles whose rows are all scheduled. -/
def LoopState.doneCycles (plan : RenamePlan) (st : LoopState) : Set (Set ℕ) :=
  Cycles.doneCycles (WaitsFor plan) fun i => st.isPending i = true

/-- The invariant of the count, between the rounds of the main loop. -/
structure LoopState.Counted (plan : RenamePlan) (st : LoopState) : Prop where
  whole : Whole (WaitsFor plan) fun i => st.isPending i = true
  steps : st.schedule.length + st.remaining =
    plan.entries.length + (st.doneCycles plan).ncard

theorem finite_dependencyCycles (plan : RenamePlan) : (dependencyCycles plan).Finite :=
  finite_cycles (Set.finite_lt_nat plan.entries.length) fun _ _ h => (waitsFor_lt h).1

theorem finite_doneCycles (st : LoopState) : (st.doneCycles plan).Finite :=
  (finite_dependencyCycles plan).subset fun _ hc => hc.1

/-- Before the first round everything is pending, and no cycle is done. -/
theorem counted_of_starts (h : st.Starts plan) : st.Counted plan := by
  refine ⟨fun _ j _ hij _ => h.pending j (waitsFor_lt hij).2, ?_⟩
  have hnone : st.doneCycles plan = ∅ := doneCycles_eq_empty fun i hi => by
    obtain ⟨j, hij, -⟩ := Relation.TransGen.head'_iff.1 hi
    exact h.pending i (waitsFor_lt hij).1
  rw [hnone, h.schedule, h.remaining, Set.ncard_empty]
  exact Nat.zero_add _

/-- What a row scheduled on its own changes. -/
theorem scheduleReady_takesOff (hplan : Schedulable plan o) (h : st.Inv V plan o)
    {predecessors : List (Option ℕ)} {i : ℕ} (hi : i ∈ st.ready)
    (hst' : scheduleReady plan predecessors st i = .ok st') :
    st.TakesOff i st' ∧ st'.schedule.length = st.schedule.length + 1 := by
  obtain ⟨hpending, -⟩ := (h.ready_iff i).1 hi
  obtain ⟨st₁, hst₁, -, htakes, -, hschedule⟩ :=
    (h.toValid.unqueue i).scheduleDirect hplan ⟨i, h.toValid.lt hpending⟩ hpending
  have hresult : st.TakesOff i st₁ ∧ st₁.schedule.length = st.schedule.length + 1 :=
    ⟨⟨htakes.pending, htakes.remaining⟩, by simp [hschedule]⟩
  simp only [scheduleReady, hst₁, except_ok_bind] at hst'
  split at hst'
  · split at hst'
    · cases hst'
      exact ⟨⟨hresult.1.pending, hresult.1.remaining⟩, hresult.2⟩
    · cases hst'
      exact hresult
  · cases hst'
    exact hresult

/-- A ready row is on no cycle. -/
theorem LoopState.Counted.ready_round (h : st.Counted plan) (hqueued : st.Queued plan)
    (hplan : Orderly plan) {i : ℕ} (hi : i ∈ st.ready) (htakes : st.TakesOff i st')
    (hsteps : st'.schedule.length = st.schedule.length + 1) :
    st'.Counted plan ∧ st'.doneCycles plan = st.doneCycles plan := by
  obtain ⟨hpending, hwaits⟩ := (hqueued.ready_iff i).1 hi
  obtain ⟨hwhole, hdone⟩ := h.whole.close_one hplan.unique_right
    (h.whole.not_onCycle hpending hwaits) htakes.pending
  refine ⟨⟨hwhole, ?_⟩, hdone⟩
  have hremaining := htakes.remaining
  have hcount := h.steps
  rw [LoopState.doneCycles, hdone, ← LoopState.doneCycles]
  omega

/-- Rows are taken off that lead to the pivot, and their steps are pushed. -/
structure LoopState.Leads (plan : RenamePlan) (pivot : ℕ) (st st' : LoopState) : Prop where
  ready : st'.ready = st.ready
  reserved : st'.reserved = st.reserved
  less : ∀ j, st'.isPending j = true → st.isPending j = true
  reach : ∀ j, st.isPending j = true → ¬ st'.isPending j = true →
    Relation.ReflTransGen (WaitsFor plan) j pivot
  steps : st'.schedule.length + st'.remaining = st.schedule.length + st.remaining

theorem LoopState.Leads.refl (pivot : ℕ) (st : LoopState) : st.Leads plan pivot st :=
  ⟨rfl, rfl, fun _ => id, fun _ h h' => absurd h h', rfl⟩

theorem LoopState.Leads.trans {pivot : ℕ} {st'' : LoopState} (h : st.Leads plan pivot st')
    (h' : st'.Leads plan pivot st'') : st.Leads plan pivot st'' where
  ready := h'.ready.trans h.ready
  reserved := h'.reserved.trans h.reserved
  less j hj := h.less j (h'.less j hj)
  reach j hj hj' := by
    by_cases hmiddle : st'.isPending j = true
    · exact h'.reach j hmiddle hj'
    · exact h.reach j hj hmiddle
  steps := h'.steps.trans h.steps

/-- The cycle of the pivot is taken off: it needs one step more than it has rows. -/
structure LoopState.Closes (plan : RenamePlan) (pivot : ℕ) (st st' : LoopState) : Prop where
  pending : st.isPending pivot = true
  done : ¬ st'.isPending pivot = true
  ready : st'.ready = st.ready
  less : ∀ j, st'.isPending j = true → st.isPending j = true
  reach : ∀ j, st.isPending j = true → ¬ st'.isPending j = true →
    Relation.ReflTransGen (WaitsFor plan) j pivot
  steps : st'.schedule.length + st'.remaining = st.schedule.length + st.remaining + 1

/-- The rows taken off with the pivot are one cycle. -/
theorem LoopState.Counted.cycle_round (h : st.Counted plan) (hqueued : st.Queued plan)
    (hqueued' : st'.Queued plan) (hplan : Orderly plan) (hready : st.ready = ∅) {pivot : ℕ}
    (hcloses : st.Closes plan pivot st') : st'.Counted plan ∧
      st'.doneCycles plan = insert (cycleOf (WaitsFor plan) pivot) (st.doneCycles plan) := by
  have hready' : st'.ready = ∅ := hcloses.ready.trans hready
  have hkept : ∀ j k, WaitsFor plan j k → st.isPending j = true →
      (st'.isPending j = true ↔ st'.isPending k = true) := by
    intro j k hjk hj
    constructor
    · intro hj'
      obtain ⟨k', hk', hjk'⟩ := hqueued'.waits hready' j hj'
      rwa [hplan.unique_right hjk hjk']
    · intro hk'
      obtain ⟨j', hj', hjk'⟩ := hqueued'.waited hplan hready' k hk'
      rwa [hplan.unique_left hjk hjk']
  have hnext : ∀ j, st.isPending j = true → ∃ k, WaitsFor plan j k ∧ st.isPending k = true := by
    intro j hj
    obtain ⟨k, hk, hjk⟩ := hqueued.waits hready j hj
    exact ⟨k, hjk, hk⟩
  obtain ⟨hwhole, hdone, hnew⟩ := close_cycle hplan.unique_right hcloses.pending
    hcloses.done hcloses.less hcloses.reach hnext hkept
  refine ⟨⟨hwhole, ?_⟩, hdone⟩
  rw [LoopState.doneCycles, hdone, Set.ncard_insert_of_notMem hnew (finite_doneCycles st),
    hcloses.steps, h.steps]
  exact Nat.add_assoc _ _ _

section Checks

variable {σ : Type} {env : Environment σ Call Answer} {s : σ} {E : ScheduleError → Prop}
  {predecessors : List (Option ℕ)}

/-- The rows of the cycle, each of which waits for the one before. -/
theorem checks_cycleRows_leads (hpolls : Polls env s True) (hplan : Schedulable plan o)
    (hpredecessors : ∀ j i, predecessors[j]?.join = some i ↔ WaitsFor plan i j)
    (pivot rounds freed : ℕ) (st : LoopState) (hvalid : st.Valid V plan)
    (hfreed : Relation.ReflTransGen (WaitsFor plan) freed pivot) :
    Checks env (cycleRows plan predecessors pivot rounds freed st) s
      (fun st' => st'.Valid V plan ∧ st.Leads plan pivot st') fun _ => True := by
  induction rounds generalizing freed st with
  | zero => exact Checks.throw trivial
  | succ rounds ih =>
      unfold cycleRows
      cases hpredecessor : predecessors[freed]?.join with
      | none => exact Checks.pure ⟨hvalid, .refl pivot st⟩
      | some i =>
          have hwaits : WaitsFor plan i freed := (hpredecessors freed i).1 hpredecessor
          refine Checks.bind (checks_checkCancelled hpolls) fun _ _ => ?_
          by_cases hpivot : i = pivot
          · simp only [hpivot, if_true]
            exact Checks.pure ⟨hvalid, .refl pivot st⟩
          · simp only [hpivot, if_false]
            have hreach : Relation.ReflTransGen (WaitsFor plan) i pivot := .head hwaits hfreed
            have hdirect : ExceptPost (fun st₁ => st₁.Valid V plan ∧ st.Leads plan pivot st₁)
                (fun _ => True) (scheduleDirect plan st i) := by
              by_cases hpending : st.isPending i = true
              · obtain ⟨st₁, hst₁, hvalid₁, htakes, hready, hschedule⟩ :=
                  hvalid.scheduleDirect hplan ⟨i, hvalid.lt hpending⟩ hpending
                rw [hst₁]
                refine ⟨hvalid₁, hready, (hvalid.counters.scheduleDirect hst₁).1.reserved,
                  fun j hj => ((htakes.pending j).1 hj).1, fun j hj hj' => ?_, ?_⟩
                · obtain rfl : j = i := by
                    by_contra hne
                    exact hj' ((htakes.pending j).2 ⟨hj, hne⟩)
                  exact hreach
                · have := htakes.remaining
                  rw [hschedule, List.length_append, List.length_singleton]
                  omega
              · have herror : scheduleDirect plan st i = .error .invalid := by
                  simp only [scheduleDirect]
                  cases plan.entries[i]? with
                  | none => rfl
                  | some entry => simp [hpending]
                rw [herror]
                trivial
            refine Checks.bind (Checks.ofExcept hdirect) ?_
            rintro st₁ ⟨hvalid₁, hleads⟩
            refine (ih i st₁ hvalid₁ hreach).mono ?_ fun _ => id
            exact fun st' hst' => ⟨hst'.1, hleads.trans hst'.2⟩

/-- A cycle round takes off the rows that lead to its pivot, and reserves one key for it. -/
theorem checks_scheduleCycle_closes (hpolls : Polls env s True) (hplan : Schedulable plan o)
    (hpredecessors : ∀ j i, predecessors[j]?.join = some i ↔ WaitsFor plan i j) (st : LoopState)
    (hprobe : st.Probed V plan o env s E) (hvalid : st.Valid V plan) :
    Checks env (scheduleCycle plan predecessors st) s
      (fun st' => ∃ pivot : plan.Row, st.Closes plan pivot st' ∧ ∃ nonce ordinal,
        st'.reserved = st.reserved.insert (candidateKey V plan (plan.row pivot) nonce ordinal))
      fun _ => True := by
  unfold scheduleCycle
  cases hmin : firstIndex st.remainingIndices with
  | none => exact Checks.throw trivial
  | some i =>
      have hpending : st.isPending i = true :=
        (hvalid.remainingIndices i).1 (firstIndex_mem hmin)
      obtain ⟨pivot, rfl⟩ : ∃ row : plan.Row, row.1 = i := ⟨⟨i, hvalid.lt hpending⟩, rfl⟩
      have hentry : plan.entries[pivot.1]? = some (plan.row pivot) := by
        simp [RenamePlan.row]
      simp only [hentry]
      refine Checks.bind ((hprobe pivot hpending fun j => hvalid.first_le hmin).mono (fun _ => id)
        fun _ _ => trivial) ?_
      rintro ⟨temporary, reserved⟩ hfresh
      have hidentity : ExceptPost (fun _ => True) (fun _ : ScheduleError => True)
          (sourceIdentity (plan.row pivot)) := by
        rw [sourceIdentity_eq hplan]
        trivial
      refine Checks.bind (Checks.ofExcept hidentity) fun identity _ => ?_
      refine Checks.bind (checks_cycleRows_leads hpolls hplan hpredecessors pivot _ pivot _
        (hvalid.reserve hfresh
          (intoTemporaryStep (plan.row pivot) temporary identity plan.scope)) .refl) ?_
      rintro st₁ ⟨hvalid₁, hleads⟩
      refine Checks.ofExcept ?_
      have hpushed := hvalid₁.push
        (fromTemporaryStep (plan.row pivot) temporary identity plan.scope)
      by_cases hpivot : st₁.isPending pivot = true
      · obtain ⟨st₂, hst₂, -, htakes, hready, hschedule⟩ := hpushed.finish hpivot
        rw [hst₂]
        have hreserved : st₂.reserved = reserved :=
          (hpushed.counters.of_finish hst₂).2.2.2.2.1.trans hleads.reserved
        refine ⟨pivot, ⟨hpending, fun hdone => ((htakes.pending pivot).1 hdone).2 rfl,
          hready.trans hleads.ready, fun j hj => hleads.less j ((htakes.pending j).1 hj).1,
          fun j hj hj' => ?_, ?_⟩, ?_⟩
        · by_cases hne : j = pivot
          · rw [hne]
          · exact hleads.reach j hj fun hj₁ => hj' ((htakes.pending j).2 ⟨hj₁, hne⟩)
        · have hsteps := hleads.steps
          have hremaining : st₂.remaining + 1 = st₁.remaining := htakes.remaining
          simp only [hschedule, LoopState.push, List.length_append, List.length_singleton]
            at hsteps ⊢
          omega
        · obtain ⟨nonce, ordinal, hpath⟩ := hfresh.candidate
          refine ⟨nonce, ordinal, ?_⟩
          rw [hreserved, candidateKey, ← pathLeaf_temporaryPath (plan.row pivot), ← hpath]
          exact hfresh.reserves
      · have herror : (st₁.push (fromTemporaryStep (plan.row pivot) temporary identity
            plan.scope)).finish pivot = .error .invalid := by
          refine if_neg ?_
          rw [Bool.not_eq_true, ← Bool.not_eq_true, ExtTreeSet.contains_iff_mem]
          exact fun hmem => hpivot ((hvalid₁.remainingIndices pivot).1 hmem)
        rw [herror]
        trivial

/-- The main loop counts the steps. -/
theorem checks_mainLoop_counted (hpolls : Polls env s (E .cancelled)) (hplan : Schedulable plan o)
    (hpredecessors : ∀ j i, predecessors[j]?.join = some i ↔ WaitsFor plan i j)
    (hprobe : ProbesFresh V plan o env s E) (rounds : ℕ) (st : LoopState)
    (h : st.Inv V plan o) (hcounted : st.Counted plan) (hrounds : st.remaining < rounds) :
    Checks env (mainLoop plan predecessors rounds st) s
      (fun steps => steps.length = plan.entries.length + (dependencyCycles plan).ncard) E := by
  refine checks_mainLoop_rule (I := fun st => st.Inv V plan o ∧ st.Counted plan) hpolls ?_ ?_ ?_
    rounds st ⟨h, hcounted⟩ hrounds
  · rintro st i ⟨hinv, hcounted⟩ hi
    obtain ⟨st', hst', hinv', hremaining⟩ := hinv.ready_round hplan hpredecessors hi
    obtain ⟨htakes, hsteps⟩ := scheduleReady_takesOff hplan hinv hi hst'
    have hcounted' := hcounted.ready_round hinv.queued (orderly_of_schedulable hplan) hi htakes
      hsteps
    exact ⟨st', hst', ⟨hinv', hcounted'.1⟩, by omega⟩
  · rintro st ⟨hinv, hcounted⟩ hready hremaining
    refine ((hinv.cycle_round hpolls hplan hpredecessors (hinv.probed hprobe) hready hremaining).and
      (checks_scheduleCycle_closes (fun a t step => ⟨(hpolls a t step).1, fun _ => trivial⟩) hplan
        hpredecessors st (hinv.probed hprobe) hinv.toValid)).mono ?_ fun _ he => he.1
    rintro st' ⟨⟨hinv', hlt⟩, pivot, hcloses, -⟩
    exact ⟨⟨hinv', (hcounted.cycle_round hinv.queued hinv'.queued (orderly_of_schedulable hplan)
      hready hcloses).1⟩, hlt⟩
  · rintro st ⟨hinv, hcounted⟩ hzero
    have hcount := hcounted.steps
    rw [hzero, LoopState.doneCycles, doneCycles_eq_cycles (hinv.toValid.not_pending hzero)]
      at hcount
    exact hcount

/-- The schedule of a plan has one step for each row and one more for each cycle. -/
theorem checks_buildSchedule_counted (hpolls : Polls env s (E .cancelled))
    (hplan : Schedulable plan o) (hprobe : ProbesFresh V plan o env s E) :
    Checks env (buildSchedule plan) s
      (fun steps => steps.length = plan.entries.length + (dependencyCycles plan).ncard) E := by
  refine checks_buildSchedule_rule (V := V) hpolls hplan
    fun predecessors st hpredecessors hinv hstarts => ?_
  refine checks_mainLoop_counted hpolls hplan hpredecessors hprobe _ st hinv
    (counted_of_starts hstarts) ?_
  rw [hstarts.remaining]
  exact Nat.lt_succ_self _

end Checks

end Loop

end Schedule

end DarkReNamer
