import DarkReNamer.Rename.Schedule.Bounds
import DarkReNamer.Rename.Schedule.Cycles
import DarkReNamer.Rename.Schedule.Execution

/-!
# When the builder succeeds

Over a backend that answers without an error a plan that fits the occupancy is scheduled as soon as
each row on a cycle finds one of its candidates free. The keys that are reserved besides those of
the plan are temporary ones of rows already taken off, and the candidates of two rows never have
the same key.
-/

namespace DarkReNamer

open Std Interaction Occupancy Cycles

namespace Schedule

/-- The temporary names of a row are beside its source. -/
def Beside (V : Volume) (plan : RenamePlan) : Prop :=
  ∀ (i : plan.Row) (nonce : BitVec 128) (ordinal : ℕ), V.parent (temporaryPath (plan.row i)
    (temporaryLeaf plan.id nonce (plan.row i).id ordinal)) = (plan.row i).sourceSnapshot.parent

/-- There is a temporary name for every row that may have to make room. -/
structure HasRoom (V : Volume) (plan : RenamePlan) (o : VolumeState) : Prop where
  candidate : ∀ i : plan.Row, OnCycle (WaitsFor plan) i → ∀ nonce, ∃ ordinal < maxTempCandidates,
    o (candidateKey V plan (plan.row i) nonce ordinal) = none ∧ ∀ row ∈ plan.entries,
      candidateKey V plan (plan.row i) nonce ordinal ≠ row.sourceEntryKey ∧
        candidateKey V plan (plan.row i) nonce ordinal ≠ row.destinationEntryKey
  apart : ∀ i j : plan.Row, i ≠ j → ∀ nonce nonce' ordinal ordinal',
    candidateKey V plan (plan.row i) nonce ordinal ≠
      candidateKey V plan (plan.row j) nonce' ordinal'
  parent : ∀ (i : plan.Row) (nonce : BitVec 128) (ordinal : ℕ), V.parent (temporaryPath (plan.row i)
    (temporaryLeaf plan.id nonce (plan.row i).id ordinal)) = (plan.row i).sourceSnapshot.parent

theorem length_hexUnits (width value : ℕ) : (hexUnits width value).length = width := by
  induction width generalizing value with
  | zero => rfl
  | succ width ih => rw [hexUnits, List.length_append, ih, List.length_singleton]

theorem hexDigit_injOn : ∀ digit < 16, ∀ digit' < 16,
    hexDigit digit = hexDigit digit' → digit = digit' := by
  decide

/-- The digits of a number determine it up to their width. -/
theorem hexUnits_inj {width value value' : ℕ} (h : value < 16 ^ width) (h' : value' < 16 ^ width)
    (heq : hexUnits width value = hexUnits width value') : value = value' := by
  induction width generalizing value value' with
  | zero => omega
  | succ width ih =>
      rw [hexUnits, hexUnits] at heq
      obtain ⟨hhigh, hlow⟩ := List.append_inj' heq rfl
      rw [pow_succ] at h h'
      have hquotient := ih (Nat.div_lt_of_lt_mul (by omega)) (Nat.div_lt_of_lt_mul (by omega)) hhigh
      have hdigit := hexDigit_injOn _ (Nat.mod_lt _ (by decide)) _ (Nat.mod_lt _ (by decide))
        (List.singleton_injective hlow)
      omega

theorem length_temporaryLeaf (plan : PlanId) (nonce : BitVec 128) (pivot : EntryId)
    (ordinal : ℕ) : (temporaryLeaf plan nonce pivot ordinal).units.length = 78 := by
  simp only [temporaryLeaf, List.length_append, length_hexUnits]
  decide

/-- The temporary names of two rows differ. -/
theorem pivot_of_temporaryLeaf {plan : PlanId} {nonce nonce' : BitVec 128} {pivot pivot' : EntryId}
    {ordinal ordinal' : ℕ}
    (h : temporaryLeaf plan nonce pivot ordinal = temporaryLeaf plan nonce' pivot' ordinal') :
    pivot = pivot' := by
  have hunits := congrArg LegacyText.units h
  simp only [temporaryLeaf] at hunits
  have hsplit : ∀ {front front' back back' : List UInt16}, back.length = back'.length →
      front ++ back = front' ++ back' → front = front' :=
    fun hlength heq => (List.append_inj' heq hlength).1
  have hfront := hsplit rfl (hsplit (by simp [length_hexUnits]) (hsplit rfl hunits))
  have hdigits := (List.append_inj' hfront (by simp [length_hexUnits])).2
  have hvalue := hexUnits_inj pivot.value.toNat_lt pivot'.value.toNat_lt hdigits
  cases pivot
  cases pivot'
  exact congrArg EntryId.mk (UInt32.toNat.inj hvalue)

/-- There is room for every row when nothing has a temporary name yet. The names of two rows have
different keys as soon as a key determines a temporary name. -/
theorem hasRoom_of_unused {V : Volume} {plan : RenamePlan} {o : VolumeState}
    (hids : Function.Injective fun i : plan.Row => (plan.row i).id)
    (hkeys : ∀ parent nonce nonce' (pivot pivot' : EntryId) ordinal ordinal',
      V.entryKey parent (temporaryLeaf plan.id nonce pivot ordinal) =
        V.entryKey parent (temporaryLeaf plan.id nonce' pivot' ordinal') →
      temporaryLeaf plan.id nonce pivot ordinal = temporaryLeaf plan.id nonce' pivot' ordinal')
    (hunused : ∀ row ∈ plan.entries, ∀ nonce ordinal,
      o (candidateKey V plan row nonce ordinal) = none ∧ ∀ other ∈ plan.entries,
        candidateKey V plan row nonce ordinal ≠ other.sourceEntryKey ∧
          candidateKey V plan row nonce ordinal ≠ other.destinationEntryKey)
    (hparent : ∀ row ∈ plan.entries, ∀ nonce ordinal, V.parent (temporaryPath row
      (temporaryLeaf plan.id nonce row.id ordinal)) = row.sourceSnapshot.parent) :
    HasRoom V plan o where
  candidate i _ nonce := ⟨0, by decide, hunused _ (row_mem i) nonce 0⟩
  apart i j hij nonce nonce' ordinal ordinal' hkey := by
    have hsame : (plan.row i).sourceSnapshot.parent = (plan.row j).sourceSnapshot.parent :=
      V.parent_eq_of_entryKey_eq hkey
    unfold candidateKey at hkey
    rw [hsame] at hkey
    have hid := pivot_of_temporaryLeaf (hkeys _ _ _ _ _ _ _ hkey)
    exact hij (hids hid)
  parent i nonce ordinal := hparent _ (row_mem i) nonce ordinal

/-- Reserved for the plan, or as the one temporary name of a cycle in `cs`. -/
def ReservedFor (V : Volume) (plan : RenamePlan) (temporary : Set ℕ → PathKey) (cs : Set (Set ℕ))
    (key : PathKey) : Prop :=
  (∃ row ∈ plan.entries, key = row.sourceEntryKey ∨ key = row.destinationEntryKey) ∨
    ∃ c ∈ cs, key = temporary c ∧ ∃ i : plan.Row, i.1 ∈ c ∧ ∃ nonce ordinal,
      key = candidateKey V plan (plan.row i) nonce ordinal

/-- Every candidate of the row is occupied or reserved, for the plan or for another cycle. -/
def Crowded (V : Volume) (plan : RenamePlan) (o : VolumeState) (i : plan.Row)
    (nonce : BitVec 128) : Prop :=
  ∃ temporary : Set ℕ → PathKey, ∀ ordinal < maxTempCandidates,
    o (candidateKey V plan (plan.row i) nonce ordinal) ≠ none ∨
      ReservedFor V plan temporary {c ∈ dependencyCycles plan | i.1 ∉ c}
        (candidateKey V plan (plan.row i) nonce ordinal)

/-- The refusal of a plan with a crowded cycle: its first row finds no temporary name. -/
def NoRoom (V : Volume) (plan : RenamePlan) (o : VolumeState) (error : ScheduleError) : Prop :=
  ∃ i : plan.Row, OnCycle (WaitsFor plan) i ∧ (∀ j ∈ cycleOf (WaitsFor plan) i, i.1 ≤ j) ∧
    error = .temporaryExhausted (plan.row i).id ∧ ∃ nonce, Crowded V plan o i nonce

/-- The reserved keys, while the rows of some cycles are done. -/
def LoopState.Reserves (V : Volume) (plan : RenamePlan) (st : LoopState) : Prop :=
  ∃ temporary, ∀ key ∈ st.reserved, ReservedFor V plan temporary (st.doneCycles plan) key

/-- No cycle is crowded when there is room. -/
theorem HasRoom.not_noRoom {V : Volume} {plan : RenamePlan} {o : VolumeState}
    (h : HasRoom V plan o) {error : ScheduleError} : ¬ NoRoom V plan o error := by
  rintro ⟨i, hcycle, -, -, nonce, temporary, hcrowded⟩
  obtain ⟨ordinal, hlt, hfree, hunplanned⟩ := h.candidate i hcycle nonce
  rcases hcrowded ordinal hlt with hoccupied | ⟨row, hrow, hkey⟩ |
    ⟨c, ⟨-, hoff⟩, -, j, hj, nonce', ordinal', hkey⟩
  · exact hoccupied hfree
  · rcases hkey with hkey | hkey
    · exact (hunplanned row hrow).1 hkey
    · exact (hunplanned row hrow).2 hkey
  · have hne : i ≠ j := by
      rintro rfl
      exact hoff hj
    exact h.apart i j hne nonce nonce' ordinal ordinal' hkey

section Loop

variable {V : Volume} {plan : RenamePlan} {o : VolumeState} {st st' : LoopState}

theorem LoopState.Reserves.of_eq (h : st.Reserves V plan) (hreserved : st'.reserved = st.reserved)
    (hdone : st'.doneCycles plan = st.doneCycles plan) : st'.Reserves V plan := by
  obtain ⟨temporary, hkeys⟩ := h
  refine ⟨temporary, fun key hkey => ?_⟩
  rw [hreserved] at hkey
  rw [hdone]
  exact hkeys key hkey

/-- The cycle of the pivot is done, and a candidate of the pivot is reserved for it. -/
theorem LoopState.Reserves.cycle_round (h : st.Reserves V plan) {pivot : plan.Row}
    (hcycle : OnCycle (WaitsFor plan) pivot) (hpending : st.isPending pivot = true)
    (hdone : st'.doneCycles plan = insert (cycleOf (WaitsFor plan) pivot) (st.doneCycles plan))
    {nonce : BitVec 128} {ordinal : ℕ} (hreserved : st'.reserved =
      st.reserved.insert (candidateKey V plan (plan.row pivot) nonce ordinal)) :
    st'.Reserves V plan := by
  classical
  obtain ⟨temporary, hkeys⟩ := h
  refine ⟨fun c => if pivot.1 ∈ c then candidateKey V plan (plan.row pivot) nonce ordinal
    else temporary c, fun key hkey => ?_⟩
  rw [hreserved, ExtTreeSet.mem_insert, LawfulEqCmp.compare_eq_iff_eq] at hkey
  rw [hdone]
  rcases hkey with rfl | hkey
  · exact .inr ⟨_, .inl rfl, (if_pos hcycle).symm, pivot, hcycle, nonce, ordinal, rfl⟩
  · rcases hkeys key hkey with hrow | ⟨c, hc, htemporary, hcandidate⟩
    · exact .inl hrow
    · have hoff : pivot.1 ∉ c := fun hmem => hc.2 _ hmem hpending
      exact .inr ⟨c, .inr hc, htemporary.trans (if_neg hoff).symm, hcandidate⟩

/-- Without a ready row all that is pending is on cycles. -/
theorem LoopState.Inv.onCycle (h : st.Inv V plan o) (hplan : Schedulable plan o)
    (hready : st.ready = ∅) {i : ℕ} (hi : st.isPending i = true) : OnCycle (WaitsFor plan) i := by
  have hfinite : {i | st.isPending i = true}.Finite :=
    (Set.finite_lt_nat plan.entries.length).subset fun j hj => h.toValid.lt hj
  refine onCycle_of_next hfinite ?_ ?_ hi
  · exact fun j k l hj hk => (orderly_of_schedulable hplan).unique_left hj hk
  · intro j hj
    obtain ⟨k, hk, hjk⟩ := h.queued.waits hready j hj
    exact ⟨k, hk, hjk⟩

section Checks

variable {σ : Type} {env : Environment σ Call Answer} {s : σ} {E : ScheduleError → Prop}
  {predecessors : List (Option ℕ)}

theorem Probes.mono (h : Probes V o env s fun _ => False) : Probes V o env s E where
  polls cancelled t step := ⟨(h.polls cancelled t step).1, fun hc => ((h.polls _ t step).2 hc).elim⟩
  nonce a t step := ⟨(h.nonce a t step).1, fun error he => ((h.nonce a t step).2 error he).elim⟩
  key parent leaf a t step := by
    obtain ⟨ht, ha⟩ := h.key parent leaf a t step
    refine ⟨ht, ?_⟩
    cases a with
    | error error => exact ha.elim
    | ok key => exact ha
  observe path a t step := by
    obtain ⟨ht, ha⟩ := h.observe path a t step
    refine ⟨ht, ?_⟩
    cases a with
    | error error => exact ha.elim
    | ok snapshot => exact ha

/-- The first pending row finds a candidate, or its cycle is crowded. -/
theorem LoopState.Reserves.probed (h : st.Reserves V plan) (hinv : st.Inv V plan o)
    (hcounted : st.Counted plan) (hplan : Schedulable plan o)
    (hbeside : Beside V plan)
    (hprobes : Probes V o env s fun _ => False) (hready : st.ready = ∅) :
    st.Probed V plan o env s (NoRoom V plan o) := by
  intro i hi hfirst
  refine checks_uniqueTemporaryPath hprobes.mono st.reserved
    (fun nonce ordinal hstale => absurd (hbeside i nonce ordinal) hstale)
    fun nonce hexhausted => ?_
  have hcycle := hinv.onCycle hplan hready hi
  have hunique := (orderly_of_schedulable hplan).unique_right
  obtain ⟨temporary, hkeys⟩ := h
  refine ⟨i, hcycle, fun j hj => hfirst j (hcounted.whole.reaches hunique hcycle hj hi), rfl, nonce,
    temporary, fun ordinal hlt => ?_⟩
  rcases hexhausted ordinal hlt with hreserved | hoccupied
  · right
    rcases hkeys _ hreserved with hrow | ⟨c, hc, hcandidate⟩
    · exact .inl hrow
    · exact .inr ⟨c, ⟨hc.1, fun hmem => hc.2 _ hmem hi⟩, hcandidate⟩
  · exact .inl hoccupied

/-- The main loop meets no error but a crowded cycle. -/
theorem checks_mainLoop_complete (hprobes : Probes V o env s fun _ => False)
    (hplan : Schedulable plan o)
    (hbeside : Beside V plan)
    (hpredecessors : ∀ j i, predecessors[j]?.join = some i ↔ WaitsFor plan i j) (rounds : ℕ)
    (st : LoopState) (hinv : st.Inv V plan o) (hcounted : st.Counted plan)
    (hreserves : st.Reserves V plan) (hrounds : st.remaining < rounds) :
    Checks env (mainLoop plan predecessors rounds st) s
      (Scheduled V plan o (atDestination plan)) (NoRoom V plan o) := by
  have hpolls : Polls env s (NoRoom V plan o .cancelled) := hprobes.mono.polls
  refine checks_mainLoop_rule
    (I := fun st => st.Inv V plan o ∧ st.Counted plan ∧ st.Reserves V plan) hpolls ?_ ?_ ?_
    rounds st ⟨hinv, hcounted, hreserves⟩ hrounds
  · rintro st i ⟨hinv, hcounted, hreserves⟩ hi
    obtain ⟨st', hst', hinv', hremaining⟩ := hinv.ready_round hplan hpredecessors hi
    obtain ⟨htakes, hsteps⟩ := scheduleReady_takesOff hplan hinv hi hst'
    obtain ⟨hcounted', hdone⟩ := hcounted.ready_round hinv.queued (orderly_of_schedulable hplan) hi
      htakes hsteps
    have hreserved := (hinv.toValid.counters.scheduleReady hst').1.reserved
    exact ⟨st', hst', ⟨hinv', hcounted', hreserves.of_eq hreserved hdone⟩, by omega⟩
  · rintro st ⟨hinv, hcounted, hreserves⟩ hready hremaining
    have hprobed := hreserves.probed hinv hcounted hplan hbeside hprobes hready
    refine ((hinv.cycle_round hpolls hplan hpredecessors hprobed hready hremaining).and
      (checks_scheduleCycle_closes (fun a t step => ⟨(hpolls a t step).1, fun _ => trivial⟩) hplan
        hpredecessors st hprobed hinv.toValid)).mono ?_ fun _ he => he.1
    rintro st' ⟨⟨hinv', hlt⟩, pivot, hcloses, nonce, ordinal, hreserved⟩
    obtain ⟨hcounted', hdone⟩ := hcounted.cycle_round hinv.queued hinv'.queued
      (orderly_of_schedulable hplan) hready hcloses
    exact ⟨⟨hinv', hcounted', hreserves.cycle_round (hinv.onCycle hplan hready hcloses.pending)
      hcloses.pending hdone hreserved⟩, hlt⟩
  · rintro st ⟨hinv, -⟩ hzero
    have hstanding : st.standing plan = atDestination plan := by
      funext i
      exact standing_of_done (hinv.toValid.not_pending hzero i)
    exact hstanding ▸ hinv.scheduled

/-- The builder schedules every plan that fits the occupancy, if no cycle is crowded. -/
theorem checks_buildSchedule_crowded (hprobes : Probes V o env s fun _ => False)
    (hplan : Schedulable plan o)
    (hbeside : Beside V plan) :
    Checks env (buildSchedule plan) s (Scheduled V plan o (atDestination plan))
      (NoRoom V plan o) := by
  have hpolls : Polls env s (NoRoom V plan o .cancelled) := hprobes.mono.polls
  refine checks_buildSchedule_rule (V := V) hpolls hplan
    fun predecessors st hpredecessors hinv hstarts => ?_
  refine checks_mainLoop_complete hprobes hplan hbeside hpredecessors _ st hinv
    (counted_of_starts hstarts) ⟨fun _ => ⟨[]⟩, fun key hkey => .inl (hstarts.reserved key hkey)⟩ ?_
  rw [hstarts.remaining]
  exact Nat.lt_succ_self _

/-- There is room for every cycle, and the builder succeeds. -/
theorem checks_buildSchedule_complete (hprobes : Probes V o env s fun _ => False)
    (hplan : Schedulable plan o) (hroom : HasRoom V plan o) :
    Checks env (buildSchedule plan) s (Scheduled V plan o (atDestination plan))
      fun _ => False :=
  (checks_buildSchedule_crowded hprobes hplan hroom.parent).mono (fun _ => id)
    fun _ => hroom.not_noRoom

end Checks

end Loop

end Schedule

end DarkReNamer
