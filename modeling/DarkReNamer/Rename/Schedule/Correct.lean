import DarkReNamer.Rename.Schedule.OpenCycle
import DarkReNamer.Rename.Schedule.Placement

/-!
# Correctness of the schedule builder

A row stands at its source while it is pending and at its destination once it is
scheduled; only the pivot of an open cycle stands at a temporary path. The loops keep
the schedule a list of relocations (`Scheduled`), so its steps can be executed in order
and leave the rows where the plan asks for them.

Which row may go next is a matter of `Waits` alone: a ready row waits for no pending
one, and when there is no ready row every pending row waits for a pending one, so
the rows that wait for the pivot lead back to it.
-/

namespace DarkReNamer

open Std Interaction Occupancy

namespace Schedule

section Loop

/-! ### The variables of the main loop -/

variable {V : Volume} {plan : RenamePlan} {o : VolumeState}

/-- The counters and the sets of the loop say the same. -/
structure LoopState.Valid (V : Volume) (plan : RenamePlan) (st : LoopState) : Prop where
  length : st.pending.length = plan.entries.length
  remainingIndices : ∀ i, i ∈ st.remainingIndices ↔ st.isPending i = true
  remaining : st.remaining = st.remainingIndices.size
  remaining_le : st.remaining ≤ plan.entries.length
  reserved : ∀ row ∈ plan.entries,
    row.sourceEntryKey ∈ st.reserved ∧ row.destinationEntryKey ∈ st.reserved
  known : ∀ key ∈ st.reserved, KnownKey V plan key

theorem orderly_of_schedulable (hplan : Schedulable plan o) : Orderly plan :=
  ⟨hplan.sources_nodup, fun _ _ _ hi hk => hi.unique_left hplan.destinations_nodup hk⟩

theorem LoopState.Valid.counters {st : LoopState} (h : st.Valid V plan) : st.Counters plan :=
  ⟨h.length, h.remainingIndices, h.remaining⟩

theorem LoopState.Valid.lt {st : LoopState} (h : st.Valid V plan) {i : ℕ}
    (hi : st.isPending i = true) : i < plan.entries.length := h.counters.lt hi

theorem LoopState.Valid.push {st : LoopState} (h : st.Valid V plan) (step : ScheduleStep) :
    (st.push step).Valid V plan :=
  ⟨h.length, h.remainingIndices, h.remaining, h.remaining_le, h.reserved, h.known⟩

theorem LoopState.Valid.unqueue {st : LoopState} (h : st.Valid V plan) (i : ℕ) :
    ({ st with ready := st.ready.erase i } : LoopState).Valid V plan :=
  ⟨h.length, h.remainingIndices, h.remaining, h.remaining_le, h.reserved, h.known⟩

theorem LoopState.Valid.finish {st : LoopState} (h : st.Valid V plan) {i : ℕ}
    (hi : st.isPending i = true) :
    ∃ st', st.finish i = .ok st' ∧ st'.Valid V plan ∧ st.TakesOff i st' ∧
      st'.ready = st.ready ∧ st'.schedule = st.schedule := by
  obtain ⟨st', hst', hcounters, htakes, hready, hreserved, hschedule⟩ := h.counters.finish hi
  refine ⟨st', hst', ⟨hcounters.length, hcounters.remainingIndices, hcounters.remaining,
    ?_, ?_, ?_⟩, htakes, hready, hschedule⟩
  · have hremaining := htakes.remaining
    have hle := h.remaining_le
    omega
  · rw [hreserved]
    exact h.reserved
  · rw [hreserved]
    exact h.known

/-- A pending row is scheduled straight to its destination. -/
theorem LoopState.Valid.scheduleDirect {st : LoopState} (h : st.Valid V plan)
    (hplan : Schedulable plan o) (i : plan.Row) (hi : st.isPending i = true) :
    ∃ st', scheduleDirect plan st i = .ok st' ∧ st'.Valid V plan ∧ st.TakesOff i st' ∧
      st'.ready = st.ready ∧ st'.schedule =
        st.schedule ++ [straightStep (plan.row i) (plan.identity i) plan.scope] := by
  obtain ⟨st', hst', hvalid, htakes, hschedule⟩ :=
    (h.push (straightStep (plan.row i) (plan.identity i) plan.scope)).finish hi
  refine ⟨st', ?_, hvalid, ⟨htakes.pending, htakes.remaining⟩, hschedule⟩
  have hentry : plan.entries[i.1]? = some (plan.row i) := by simp [RenamePlan.row]
  simp only [Schedule.scheduleDirect, hentry, hi, Bool.not_true, Bool.false_eq_true, if_false,
    directStep, sourceIdentity_eq hplan]
  exact hst'

/-- Where the rows stand between the rounds of the main loop. -/
def LoopState.standing (plan : RenamePlan) (st : LoopState) : plan.Row → Standing :=
  fun i => if st.isPending i then .source else .destination

/-- Where the rows stand while the cycle of `pivot` is open. -/
def LoopState.cycleStanding (plan : RenamePlan) (pivot : plan.Row) (temporary : LegacyText)
    (st : LoopState) : plan.Row → Standing :=
  Function.update (st.standing plan) pivot (.temporary temporary)

theorem waitsFor_iff (i o : plan.Row) :
    WaitsFor plan i o ↔ plan.destinationKey i = plan.sourceKey o := by
  constructor
  · rintro ⟨key, hi, ho⟩
    rw [destinationKeys_getElem?] at hi
    rw [sourceKeys_getElem?] at ho
    exact (Option.some.inj hi).trans (Option.some.inj ho).symm
  · intro heq
    exact ⟨plan.sourceKey o, heq ▸ destinationKeys_getElem? i, sourceKeys_getElem? o⟩

/-- The invariant between the rounds of the main loop: the ready rows are the pending
ones that wait for no pending row. -/
structure LoopState.Inv (V : Volume) (plan : RenamePlan) (o : VolumeState)
    (st : LoopState) : Prop extends st.Valid V plan where
  ready_iff : ∀ i, i ∈ st.ready ↔ st.isPending i = true ∧
    ∀ j, WaitsFor plan i j → ¬ st.isPending j = true
  scheduled : Scheduled V plan o (st.standing plan) st.schedule

theorem LoopState.Inv.queued {st : LoopState} (h : st.Inv V plan o) : st.Queued plan :=
  { h.toValid.counters with ready_iff := h.ready_iff }

theorem standing_takesOff {st st' : LoopState} {i : plan.Row} (h : st.TakesOff i st') :
    st'.standing plan = Function.update (st.standing plan) i .destination := by
  funext j
  by_cases hj : j = i
  · subst hj
    have : ¬ st'.isPending j = true := fun hpending => ((h.pending j).1 hpending).2 rfl
    simp [LoopState.standing, this]
  · rw [Function.update_of_ne hj]
    have hne : j.1 ≠ i.1 := fun heq => hj (Fin.ext heq)
    have := h.pending j.1
    simp only [LoopState.standing, this, hne, ne_eq, not_false_eq_true, and_true]

theorem standing_of_pending {st : LoopState} {i : plan.Row} (h : st.isPending i = true) :
    st.standing plan i = .source := if_pos h

theorem standing_of_done {st : LoopState} {i : plan.Row} (h : ¬ st.isPending i = true) :
    st.standing plan i = .destination := if_neg h

theorem places_of_source {standing : plan.Row → Standing} {i : plan.Row}
    (h : standing i = .source) : places V plan standing i = plan.sourceKey i := by
  rw [places, h]
  rfl

theorem places_of_destination {standing : plan.Row → Standing} {i : plan.Row}
    (h : standing i = .destination) :
    places V plan standing i = plan.destinationKey i := by
  rw [places, h]
  rfl

/-- The rows that stand at their source or their destination leave the destination of a
pending row free when none of the pending ones is waited for. -/
theorem places_ne_destinationKey (hplan : Schedulable plan o) {st : LoopState}
    {i j : plan.Row} (hi : st.isPending i = true)
    (hwaits : WaitsFor plan i j → ¬ st.isPending j = true) :
    places V plan (st.standing plan) j ≠ plan.destinationKey i := by
  intro heq
  by_cases hj : st.isPending j = true
  · rw [places_of_source (standing_of_pending hj)] at heq
    exact hwaits ((waitsFor_iff i j).2 heq.symm) hj
  · rw [places_of_destination (standing_of_done hj)] at heq
    rw [destinationKey_injective hplan heq] at hj
    exact hj hi

variable {predecessors : List (Option ℕ)}

/-- A round of the main loop that takes a ready row. -/
theorem LoopState.Inv.ready_round {st : LoopState} (h : st.Inv V plan o)
    (hplan : Schedulable plan o)
    (hpredecessors : ∀ j i, predecessors[j]?.join = some i ↔ WaitsFor plan i j) {i : ℕ}
    (hi : i ∈ st.ready) :
    ∃ st', scheduleReady plan predecessors st i = .ok st' ∧ st'.Inv V plan o ∧
      st'.remaining + 1 = st.remaining := by
  obtain ⟨hpending, hwaits⟩ := (h.ready_iff i).1 hi
  obtain ⟨row, rfl⟩ : ∃ row : plan.Row, row.1 = i := ⟨⟨i, h.toValid.lt hpending⟩, rfl⟩
  obtain ⟨st₁, hst₁, hvalid₁, htakes, hready, hschedule⟩ :=
    (h.toValid.unqueue row).scheduleDirect hplan row hpending
  have htakes' : st.TakesOff row st₁ := ⟨htakes.pending, htakes.remaining⟩
  have hscheduled : Scheduled V plan o (st₁.standing plan) st₁.schedule := by
    rw [standing_takesOff htakes', hschedule]
    have hat : st.standing plan row = .source := standing_of_pending hpending
    refine h.scheduled.push (.straight row hat) (fun j => ?_)
      (rest_destinationKey hplan row) ?_
    · exact places_ne_destinationKey hplan hpending (hwaits j)
    · rw [places_of_source hat]
      exact rest_sourceKey row
  have hready₁ : ∀ j, j ∈ st₁.ready ↔ j ∈ st.ready ∧ j ≠ row := by
    intro j
    rw [hready, ExtTreeSet.mem_erase, Ne, Nat.compare_eq_eq, and_comm, eq_comm]
  -- whatever ready set the round ends with, the rest of the invariant is the same
  have hinv : ∀ ready : ExtTreeSet ℕ, (∀ j, j ∈ ready ↔
      j ∈ st.ready ∧ j ≠ row ∨ WaitsFor plan j row ∧ st₁.isPending j = true) →
      ({ st₁ with ready } : LoopState).Inv V plan o := fun ready hready =>
    { length := hvalid₁.length
      remainingIndices := hvalid₁.remainingIndices
      remaining := hvalid₁.remaining
      remaining_le := hvalid₁.remaining_le
      reserved := hvalid₁.reserved
      known := hvalid₁.known
      ready_iff := fun j =>
        (hready j).trans (ready_iff_takesOff (orderly_of_schedulable hplan) h.ready_iff htakes')
      scheduled := hscheduled }
  unfold scheduleReady
  simp only [hst₁, except_ok_bind]
  cases hpredecessor : predecessors[row.1]?.join with
  | none =>
      refine ⟨st₁, rfl, hinv st₁.ready fun j => ?_, htakes.remaining⟩
      rw [hready₁, or_iff_left]
      rintro ⟨hj, -⟩
      rw [(hpredecessors row j).2 hj] at hpredecessor
      cases hpredecessor
  | some p =>
      have hp : WaitsFor plan p row := (hpredecessors row p).1 hpredecessor
      have hunique : ∀ j, WaitsFor plan j row ↔ j = p := fun j =>
        ⟨fun hj => hj.unique_left hplan.destinations_nodup hp, fun hj => hj ▸ hp⟩
      by_cases hpending₁ : st₁.isPending p = true
      · refine ⟨{ st₁ with ready := st₁.ready.insert p }, ?_, hinv _ fun j => ?_,
          htakes.remaining⟩
        · simp only [hpending₁, if_true]
          rfl
        · rw [ExtTreeSet.mem_insert, Nat.compare_eq_eq, hready₁, hunique, or_comm]
          refine or_congr Iff.rfl ⟨fun hj => ⟨hj.symm, hj ▸ hpending₁⟩, fun hj => hj.1.symm⟩
      · refine ⟨st₁, by simp only [hpending₁]; rfl, hinv st₁.ready fun j => ?_,
          htakes.remaining⟩
        rw [hready₁, hunique, or_iff_left]
        rintro ⟨rfl, hj⟩
        exact hpending₁ hj

/-! ### Cycles -/

theorem cycleStanding_takesOff {st st' : LoopState} {i pivot : plan.Row}
    {temporary : LegacyText} (h : st.TakesOff i st') (hpivot : i ≠ pivot) :
    st'.cycleStanding plan pivot temporary =
      Function.update (st.cycleStanding plan pivot temporary) i .destination := by
  rw [LoopState.cycleStanding, standing_takesOff h, LoopState.cycleStanding,
    Function.update_comm hpivot]

/-- The destination of a row that waits for the freed one is free. -/
theorem OpenCycle.destination_free (hplan : Schedulable plan o) {start : ℕ → Prop}
    {freed : ℕ} {pivot i : plan.Row} {temporary : LegacyText} {st : LoopState}
    (h : OpenCycle plan start pivot freed st) (hi : st.isPending i = true)
    (hwaits : WaitsFor plan i freed)
    (hkey : plan.destinationKey i ≠ temporaryKey V plan pivot temporary) (j : plan.Row) :
    places V plan (st.cycleStanding plan pivot temporary) j ≠ plan.destinationKey i := by
  rw [LoopState.cycleStanding, places_update]
  by_cases hpivot : j = pivot
  · subst hpivot
    rw [Function.update_self]
    exact hkey.symm
  · rw [Function.update_of_ne hpivot]
    refine places_ne_destinationKey hplan hi fun hij hj => ?_
    obtain heq := hij.unique_right hplan.sources_nodup hwaits
    rcases h.freed_done with hfreed | hdone
    · exact hpivot (Fin.ext (heq.trans hfreed))
    · exact hdone (heq ▸ hj)

section Checks

variable {σ : Type} {env : Environment σ Call Answer} {s : σ} {E : ScheduleError → Prop}

/-- The rows of the cycle follow each other until the pivot is reached again. -/
theorem checks_cycleRows (hpolls : Polls env s (E .cancelled)) (hplan : Schedulable plan o)
    (hpredecessors : ∀ j i, predecessors[j]?.join = some i ↔ WaitsFor plan i j)
    {start : ℕ → Prop} (hstart : ∀ j, start j → ∃ i, start i ∧ WaitsFor plan i j)
    {pivot : plan.Row} {temporary : LegacyText}
    (hkey : ∀ i, plan.destinationKey i ≠ temporaryKey V plan pivot temporary)
    (rounds freed : ℕ) (st : LoopState) (hvalid : st.Valid V plan)
    (hcycle : OpenCycle plan start pivot freed st)
    (hscheduled : Scheduled V plan o (st.cycleStanding plan pivot temporary) st.schedule)
    (hrounds : st.remaining ≤ rounds) :
    Checks env (cycleRows plan predecessors pivot rounds freed st) s
      (fun st' => st'.Valid V plan ∧ st'.ready = st.ready ∧ st'.remaining ≤ st.remaining ∧
        Scheduled V plan o (st'.cycleStanding plan pivot temporary) st'.schedule ∧
        ∃ freed', OpenCycle plan start pivot freed' st' ∧ WaitsFor plan pivot freed') E := by
  induction rounds generalizing freed st with
  | zero =>
      exfalso
      have hmem := (hvalid.remainingIndices pivot).2 hcycle.pivot_pending
      have hzero : st.remainingIndices.size = 0 := by
        rw [← hvalid.remaining]
        omega
      exact ExtTreeSet.ne_empty_of_mem hmem
        (ExtTreeSet.eq_empty_iff_size_eq_zero.2 hzero)
  | succ rounds ih =>
      obtain ⟨i, hi, hwaits⟩ := hstart freed hcycle.freed_start
      simp only [cycleRows, (hpredecessors freed i).2 hwaits]
      refine Checks.bind (checks_checkCancelled hpolls) fun _ _ => ?_
      by_cases hpivot : i = pivot
      · simp only [hpivot, if_true]
        rw [hpivot] at hwaits
        exact Checks.pure
          ⟨hvalid, rfl, Nat.le_refl _, hscheduled, freed, hcycle, hwaits⟩
      · simp only [hpivot, if_false]
        have hpending : st.isPending i = true := by
          by_contra hdone
          exact hcycle.freed_free i hi hdone hwaits
        obtain ⟨row, rfl⟩ : ∃ row : plan.Row, row.1 = i :=
          ⟨⟨i, hvalid.lt hpending⟩, rfl⟩
        obtain ⟨st', hst', hvalid', htakes, hready, hschedule⟩ :=
          hvalid.scheduleDirect hplan row hpending
        have hrow : row ≠ pivot := fun heq => hpivot (congrArg Fin.val heq)
        have hat : st.cycleStanding plan pivot temporary row = .source := by
          rw [LoopState.cycleStanding, Function.update_of_ne hrow]
          exact standing_of_pending hpending
        have hscheduled' : Scheduled V plan o (st'.cycleStanding plan pivot temporary)
            st'.schedule := by
          rw [cycleStanding_takesOff htakes hrow, hschedule]
          refine hscheduled.push (.straight row hat) ?_ (rest_destinationKey hplan row) ?_
          · exact hcycle.destination_free hplan hpending hwaits (hkey row)
          · rw [places_of_source hat]
            exact rest_sourceKey row
        have hremaining := htakes.remaining
        have hrest := ih row.1 st' hvalid'
          (hcycle.next (orderly_of_schedulable hplan) hi hwaits hpivot htakes)
          hscheduled' (by omega)
        rw [hst']
        refine Checks.bind (Checks.ofExcept (show ExceptPost (· = st') E (.ok st') from rfl))
          ?_
        rintro _ rfl
        refine hrest.mono ?_ fun _ => id
        rintro st'' ⟨h₁, h₂, h₃, h₄⟩
        exact ⟨h₁, h₂.trans hready, by omega, h₄⟩

/-- What the probe has to promise, for every row and every set of reserved keys. -/
def ProbesFresh (V : Volume) (plan : RenamePlan) (o : VolumeState)
    (env : Environment σ Call Answer) (s : σ) (E : ScheduleError → Prop) : Prop :=
  ∀ (i : plan.Row) (reserved : ExtTreeSet PathKey),
    (∀ key ∈ reserved, KnownKey V plan key) →
    Checks env (uniqueTemporaryPath plan (plan.row i) reserved) s
      (FreshTemporary V plan o (plan.row i) reserved) E

theorem FreshTemporary.isTemporary {st : LoopState} (hvalid : st.Valid V plan)
    {i : plan.Row} {r : LegacyText × ExtTreeSet PathKey}
    (h : FreshTemporary V plan o (plan.row i) st.reserved r) :
    IsTemporary V plan o i r.1 where
  candidate := h.candidate
  parent := h.parent
  free := h.free
  ne_source j heq := by
    refine h.unreserved ?_
    change temporaryKey V plan i r.1 ∈ st.reserved
    rw [← heq]
    exact (hvalid.reserved _ (row_mem j)).1
  ne_destination j heq := by
    refine h.unreserved ?_
    change temporaryKey V plan i r.1 ∈ st.reserved
    rw [← heq]
    exact (hvalid.reserved _ (row_mem j)).2

theorem LoopState.Valid.reserve {st : LoopState} (hvalid : st.Valid V plan) {i : plan.Row}
    {r : LegacyText × ExtTreeSet PathKey}
    (h : FreshTemporary V plan o (plan.row i) st.reserved r) (step : ScheduleStep) :
    (({ st with reserved := r.2 } : LoopState).push step).Valid V plan where
  length := hvalid.length
  remainingIndices := hvalid.remainingIndices
  remaining := hvalid.remaining
  remaining_le := hvalid.remaining_le
  reserved row hrow := by
    obtain ⟨hsource, hdestination⟩ := hvalid.reserved row hrow
    show _ ∈ r.2 ∧ _ ∈ r.2
    rw [h.reserves, ExtTreeSet.mem_insert, ExtTreeSet.mem_insert]
    exact ⟨.inr hsource, .inr hdestination⟩
  known key hmem := by
    replace hmem : key ∈ r.2 := hmem
    rw [h.reserves, ExtTreeSet.mem_insert, LawfulEqCmp.compare_eq_iff_eq] at hmem
    rcases hmem with rfl | hmem
    · obtain ⟨nonce, ordinal, hpath⟩ := h.candidate
      refine .inr ⟨plan.row i, row_mem i, nonce, ordinal, ?_⟩
      rw [hpath, pathLeaf_temporaryPath]
      rfl
    · exact hvalid.known key hmem

/-- What the probe has to promise in one state, for the first row still to be scheduled. -/
def LoopState.Probed (V : Volume) (plan : RenamePlan) (o : VolumeState)
    (env : Environment σ Call Answer) (s : σ) (E : ScheduleError → Prop) (st : LoopState) : Prop :=
  ∀ i : plan.Row, st.isPending i = true → (∀ j, st.isPending j = true → i.1 ≤ j) →
    Checks env (uniqueTemporaryPath plan (plan.row i) st.reserved) s
      (FreshTemporary V plan o (plan.row i) st.reserved) E

theorem LoopState.Valid.first_le {st : LoopState} (h : st.Valid V plan) {i j : ℕ}
    (hmin : firstIndex st.remainingIndices = some i) (hj : st.isPending j = true) : i ≤ j :=
  firstIndex_le hmin ((h.remainingIndices j).2 hj)

theorem LoopState.Valid.probed {st : LoopState} (h : st.Valid V plan)
    (hprobe : ProbesFresh V plan o env s E) : st.Probed V plan o env s E :=
  fun i _ _ => hprobe i st.reserved h.known

/-- The pivot leaves for the temporary key. -/
theorem LoopState.Inv.scheduled_intoTemporary {st : LoopState} (h : st.Inv V plan o)
    {pivot : plan.Row} {temporary : LegacyText} (hpending : st.isPending pivot = true)
    (htemporary : IsTemporary V plan o pivot temporary) :
    Scheduled V plan o (st.cycleStanding plan pivot temporary) (st.schedule ++
      [intoTemporaryStep (plan.row pivot) temporary (plan.identity pivot) plan.scope]) := by
  have hat : st.standing plan pivot = .source := standing_of_pending hpending
  refine h.scheduled.push (.intoTemporary pivot temporary hat htemporary)
    (fun j => ?_) (rest_eq_none htemporary.free) ?_
  · by_cases hj : st.isPending j = true
    · rw [places_of_source (standing_of_pending hj)]
      exact htemporary.ne_source j
    · rw [places_of_destination (standing_of_done hj)]
      exact htemporary.ne_destination j
  · rw [places_of_source hat]
    exact rest_sourceKey pivot

/-- The pivot comes back, to the place that its cycle has freed. -/
theorem OpenCycle.scheduled_fromTemporary (hplan : Schedulable plan o) {start : ℕ → Prop}
    {freed : ℕ} {pivot : plan.Row} {temporary : LegacyText} {st st' : LoopState}
    (h : OpenCycle plan start pivot freed st) (hback : WaitsFor plan pivot freed)
    (htemporary : IsTemporary V plan o pivot temporary)
    (hscheduled : Scheduled V plan o (st.cycleStanding plan pivot temporary) st.schedule)
    (htakes : st.TakesOff pivot st')
    (hschedule : st'.schedule = st.schedule ++
      [fromTemporaryStep (plan.row pivot) temporary (plan.identity pivot) plan.scope]) :
    Scheduled V plan o (st'.standing plan) st'.schedule := by
  have hat : st.cycleStanding plan pivot temporary pivot = .temporary temporary :=
    Function.update_self ..
  have hstanding : st'.standing plan =
      Function.update (st.cycleStanding plan pivot temporary) pivot .destination := by
    rw [standing_takesOff htakes, LoopState.cycleStanding, Function.update_idem]
  rw [hstanding, hschedule]
  refine hscheduled.push (.fromTemporary pivot temporary hat htemporary) ?_
    (rest_destinationKey hplan pivot) ?_
  · exact h.destination_free hplan h.pivot_pending hback (htemporary.ne_destination pivot)
  · rw [places, hat]
    exact rest_eq_none htemporary.free

/-- A round of the main loop that takes a cycle through a temporary name. -/
theorem LoopState.Inv.cycle_round (hpolls : Polls env s (E .cancelled)) (hplan : Schedulable plan o)
    (hpredecessors : ∀ j i, predecessors[j]?.join = some i ↔ WaitsFor plan i j)
    {st : LoopState} (h : st.Inv V plan o) (hprobe : st.Probed V plan o env s E)
    (hready : st.ready = ∅) (hremaining : st.remaining ≠ 0) :
    Checks env (scheduleCycle plan predecessors st) s
      (fun st' => st'.Inv V plan o ∧ st'.remaining < st.remaining) E := by
  have hwaiting := h.queued.waits hready
  unfold scheduleCycle
  cases hmin : firstIndex st.remainingIndices with
  | none =>
      refine absurd ?_ hremaining
      rw [h.remaining, ← ExtTreeSet.eq_empty_iff_size_eq_zero]
      exact firstIndex_eq_none hmin
  | some i =>
      have hpending : st.isPending i = true :=
        (h.remainingIndices i).1 (firstIndex_mem hmin)
      obtain ⟨pivot, rfl⟩ : ∃ row : plan.Row, row.1 = i :=
        ⟨⟨i, h.toValid.lt hpending⟩, rfl⟩
      have hentry : plan.entries[pivot.1]? = some (plan.row pivot) := by
        simp [RenamePlan.row]
      simp only [hentry]
      refine Checks.bind (hprobe pivot hpending fun j => h.toValid.first_le hmin) ?_
      rintro ⟨temporary, reserved⟩ hfresh
      have htemporary := hfresh.isTemporary h.toValid
      refine Checks.bind
        (Checks.ofExcept (show ExceptPost (· = plan.identity pivot) E _ from by
          rw [sourceIdentity_eq hplan]
          rfl)) ?_
      rintro _ rfl
      have hcycle : OpenCycle plan (fun i => st.isPending i = true) pivot pivot
          (({ st with reserved } : LoopState).push
            (intoTemporaryStep (plan.row pivot) temporary (plan.identity pivot)
              plan.scope)) := by
        refine openCycle_start ?_ hpending
        rfl
      refine Checks.bind (checks_cycleRows hpolls hplan hpredecessors
        (h.queued.waited (orderly_of_schedulable hplan) hready)
        htemporary.ne_destination _ _ _
        (h.toValid.reserve hfresh
          (intoTemporaryStep (plan.row pivot) temporary (plan.identity pivot) plan.scope))
        hcycle (h.scheduled_intoTemporary hpending htemporary)
        (Nat.le_succ_of_le h.remaining_le)) ?_
      rintro st₁ ⟨hvalid₁, hready₁, hremaining₁, hscheduled₁, freed, hcycle, hback⟩
      obtain ⟨st₂, hst₂, hvalid₂, htakes, hready₂, hschedule₂⟩ :=
        (hvalid₁.push (fromTemporaryStep (plan.row pivot) temporary (plan.identity pivot)
          plan.scope)).finish hcycle.pivot_pending
      have htakes' : st₁.TakesOff pivot st₂ := ⟨htakes.pending, htakes.remaining⟩
      have hclosed := hcycle.scheduled_fromTemporary hplan hback htemporary hscheduled₁ htakes'
        hschedule₂
      have hready : st₂.ready = ∅ := by
        rw [hready₂]
        exact hready₁.trans hready
      refine Checks.ofExcept ?_
      rw [hst₂]
      refine ⟨{ toValid := hvalid₂, ready_iff := fun i => ?_, scheduled := hclosed }, ?_⟩
      · refine iff_of_false (by simp [hready]) ?_
        rintro ⟨hi, hnone⟩
        obtain ⟨hi₁, hpivot⟩ := (htakes'.pending i).1 hi
        obtain ⟨j, hj, hij⟩ := hwaiting i (hcycle.pending_start i hi₁)
        exact hnone j hij ((htakes'.pending j).2
          (hcycle.closed (orderly_of_schedulable hplan) hback hi₁ hpivot hj hij))
      · have := htakes'.remaining
        have : st₁.remaining ≤ st.remaining := hremaining₁
        omega

/-- An invariant of the rounds holds when nothing remains. -/
theorem checks_mainLoop_rule {I : LoopState → Prop} {ok : List ScheduleStep → Prop}
    (hpolls : Polls env s (E .cancelled))
    (hready : ∀ st i, I st → i ∈ st.ready → ∃ st', scheduleReady plan predecessors st i = .ok st' ∧
      I st' ∧ st'.remaining < st.remaining)
    (hcycle : ∀ st, I st → st.ready = ∅ → st.remaining ≠ 0 →
      Checks env (scheduleCycle plan predecessors st) s
        (fun st' => I st' ∧ st'.remaining < st.remaining) E)
    (hdone : ∀ st, I st → st.remaining = 0 → ok st.schedule) (rounds : ℕ) (st : LoopState)
    (h : I st) (hrounds : st.remaining < rounds) :
    Checks env (mainLoop plan predecessors rounds st) s ok E := by
  induction rounds generalizing st with
  | zero => omega
  | succ rounds ih =>
      unfold mainLoop
      by_cases hzero : st.remaining = 0
      · simp only [hzero, if_true]
        exact Checks.pure (hdone st h hzero)
      · simp only [hzero, if_false]
        refine Checks.bind (checks_checkCancelled hpolls) fun _ _ => ?_
        cases hmin : firstIndex st.ready with
        | some i =>
            obtain ⟨st', hst', hinv, hremaining⟩ := hready st i h (firstIndex_mem hmin)
            simp only [hst']
            refine Checks.bind
              (Checks.ofExcept (show ExceptPost (· = st') E (.ok st') from rfl)) ?_
            rintro _ rfl
            exact ih _ hinv (by omega)
        | none =>
            refine Checks.bind (hcycle st h (firstIndex_eq_none hmin) hzero) ?_
            rintro st' ⟨hinv, hlt⟩
            exact ih st' hinv (by omega)

theorem LoopState.Valid.not_pending {st : LoopState} (h : st.Valid V plan)
    (hzero : st.remaining = 0) (i : ℕ) : ¬ st.isPending i = true := by
  intro hi
  have hmem := (h.remainingIndices i).2 hi
  refine ExtTreeSet.ne_empty_of_mem hmem (ExtTreeSet.eq_empty_iff_size_eq_zero.2 ?_)
  rw [← h.remaining, hzero]

/-- The main loop ends with every row at its destination. -/
theorem checks_mainLoop (hpolls : Polls env s (E .cancelled)) (hplan : Schedulable plan o)
    (hpredecessors : ∀ j i, predecessors[j]?.join = some i ↔ WaitsFor plan i j)
    (hprobe : ProbesFresh V plan o env s E) (rounds : ℕ) (st : LoopState)
    (h : st.Inv V plan o) (hrounds : st.remaining < rounds) :
    Checks env (mainLoop plan predecessors rounds st) s
      (Scheduled V plan o (atDestination plan)) E := by
  refine checks_mainLoop_rule (I := fun st => st.Inv V plan o) hpolls ?_ ?_ ?_ rounds st h hrounds
  · intro st i h hi
    obtain ⟨st', hst', hinv, hremaining⟩ := h.ready_round hplan hpredecessors hi
    exact ⟨st', hst', hinv, by omega⟩
  · exact fun st h hempty hzero => h.cycle_round hpolls hplan hpredecessors (h.probed hprobe)
      hempty hzero
  · intro st h hzero
    have hstanding : st.standing plan = atDestination plan := by
      funext i
      exact standing_of_done (h.toValid.not_pending hzero i)
    exact hstanding ▸ h.scheduled

end Checks

end Loop

section Build

variable {V : Volume} {plan : RenamePlan} {o : VolumeState} {σ : Type}
  {env : Environment σ Call Answer} {s : σ} {E : ScheduleError → Prop}

/-- A key of the plan is one of a row. -/
theorem exists_row_of_mem_keys {key : PathKey} (h : key ∈ plan.entries.map PlanRow.sourceEntryKey ++
      plan.entries.map PlanRow.destinationEntryKey) :
    ∃ row ∈ plan.entries, key = row.sourceEntryKey ∨ key = row.destinationEntryKey := by
  rcases List.mem_append.1 h with h | h
  · obtain ⟨row, hrow, rfl⟩ := List.mem_map.1 h
    exact ⟨row, hrow, .inl rfl⟩
  · obtain ⟨row, hrow, rfl⟩ := List.mem_map.1 h
    exact ⟨row, hrow, .inr rfl⟩

/-- The invariant before the first round. -/
theorem inv_initial {reserved : ExtTreeSet PathKey} {remainingIndices ready : ExtTreeSet ℕ}
    {deps : Dependencies}
    (hreserved : ∀ key, key ∈ reserved ↔ key ∈ plan.entries.map PlanRow.sourceEntryKey ++
      plan.entries.map PlanRow.destinationEntryKey)
    (hdeps : deps.Tracks (plan.entries.map PlanRow.sourceEntryKey)
      (plan.entries.map PlanRow.destinationEntryKey) plan.entries.length)
    (hremaining : ∀ i, i ∈ remainingIndices ↔ i < plan.entries.length)
    (hready : ∀ i, i ∈ ready ↔ deps.dependencies[i]? = some none) :
    ({ pending := plan.entries.map fun _ => true, remaining := plan.entries.length,
       remainingIndices, ready, reserved, schedule := [] } : LoopState).Inv V plan o where
  length := by simp
  remainingIndices i := (hremaining i).trans (isPending_initial plan.entries i).symm
  remaining := (size_eq (j := 0) (by simpa using hremaining)).symm
  remaining_le := Nat.le_refl _
  reserved row hrow := by
    refine ⟨(hreserved _).2 ?_, (hreserved _).2 ?_⟩
    · exact List.mem_append_left _ (List.mem_map_of_mem hrow)
    · exact List.mem_append_right _ (List.mem_map_of_mem hrow)
  known key hkey := .inl (exists_row_of_mem_keys ((hreserved key).1 hkey))
  ready_iff i := by
    simp only [LoopState.isPending, isPending_initial]
    exact ready_iff_of_tracks hdeps hready i
  scheduled := by
    refine ⟨[], trivial, trivial, ?_⟩
    funext i
    have hi : (plan.entries.map fun _ => true).getD i.1 false = true :=
      (isPending_initial _ _).2 i.2
    exact (if_pos hi).symm

/-- The state before the first round. -/
structure LoopState.Starts (plan : RenamePlan) (st : LoopState) : Prop where
  remaining : st.remaining = plan.entries.length
  pending : ∀ i, i < plan.entries.length → st.isPending i = true
  schedule : st.schedule = []
  reserved : ∀ key ∈ st.reserved,
    ∃ row ∈ plan.entries, key = row.sourceEntryKey ∨ key = row.destinationEntryKey

/-- What the main loop ensures from any start, the builder ensures. -/
theorem checks_buildSchedule_rule {ok : List ScheduleStep → Prop}
    (hpolls : Polls env s (E .cancelled)) (hplan : Schedulable plan o)
    (hloop : ∀ (predecessors : List (Option ℕ)) (st : LoopState),
      (∀ j i, predecessors[j]?.join = some i ↔ WaitsFor plan i j) → st.Inv V plan o →
      st.Starts plan →
      Checks env (mainLoop plan predecessors (plan.entries.length + 1) st) s ok E) :
    Checks env (buildSchedule plan) s ok E := by
  unfold buildSchedule
  refine Checks.bind (checks_checkEach hpolls _) fun _ _ => ?_
  refine Checks.bind (checks_reserveKeys hpolls _ _) fun reserved hreserved => ?_
  refine Checks.bind (checks_ownersFrom hpolls _ _ _ hplan.sources_nodup (by simp))
    fun owners howners => ?_
  have howners' : ∀ (key : PathKey) (i : ℕ), owners[key]? = some i ↔
      (plan.entries.map PlanRow.sourceEntryKey)[i]? = some key := by
    intro key i
    rw [howners]
    simp
  refine Checks.bind (checks_dependenciesFrom hpolls hplan.sources_nodup
    hplan.destinations_nodup howners' _ 0 _ (by simp) ?_) fun deps hdeps => ?_
  · refine ⟨by simp, by simp, fun i j => ?_, fun i j => ?_⟩ <;>
      rw [join_getElem?_unset] <;> simp
  have hlength : deps.dependencies.length = plan.entries.length := by
    simpa using hdeps.length_dependencies
  rw [List.length_map] at hdeps
  refine Checks.bind (checks_readyFrom hpolls _ _ _ _) ?_
  rintro ⟨remainingIndices, ready⟩ ⟨hremaining, hready⟩
  refine hloop _ _ (fun j i => ?_)
    (inv_initial (by simpa using hreserved) hdeps (by simpa [hlength] using hremaining)
      (by simpa using hready))
    ⟨rfl, fun i => (isPending_initial _ i).2, rfl, fun key hkey =>
      exists_row_of_mem_keys ((by simpa using hreserved key : key ∈ reserved ↔ _).1 hkey)⟩
  rw [hdeps.predecessor]
  exact ⟨fun h => h.2, fun h => ⟨(waitsFor_lt h).1, h⟩⟩

/-- The builder schedules every row to its destination; besides the errors of the
probe it has none. -/
theorem checks_buildSchedule (hpolls : Polls env s (E .cancelled)) (hplan : Schedulable plan o)
    (hprobe : ProbesFresh V plan o env s E) :
    Checks env (buildSchedule plan) s (Scheduled V plan o (atDestination plan)) E :=
  checks_buildSchedule_rule hpolls hplan fun _ st hpredecessors hinv hstarts =>
    checks_mainLoop hpolls hplan hpredecessors hprobe _ st hinv
      (by rw [hstarts.remaining]; exact Nat.lt_succ_self _)

end Build

end Schedule

end DarkReNamer
