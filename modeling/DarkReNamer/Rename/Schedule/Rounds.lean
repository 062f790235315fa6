import DarkReNamer.Core.Results
import DarkReNamer.Rename.Schedule.Preparation

/-!
# Rows taken off

What the loops of the schedule builder change when they schedule a row, for a plan of which
nothing is known: a row is scheduled only while it is pending, and one row fewer remains.
-/

namespace DarkReNamer

open Std

namespace Schedule

variable {plan : RenamePlan} {st st' : LoopState} {i : ℕ}

/-- The counters and the sets of the loop agree. -/
structure LoopState.Counters (plan : RenamePlan) (st : LoopState) : Prop where
  length : st.pending.length = plan.entries.length
  remainingIndices : ∀ i, i ∈ st.remainingIndices ↔ st.isPending i = true
  remaining : st.remaining = st.remainingIndices.size

/-- `st'` is `st` with the row `i` taken off and more steps pushed. -/
structure LoopState.TakesOff (i : ℕ) (st st' : LoopState) : Prop where
  pending : ∀ j, st'.isPending j = true ↔ st.isPending j = true ∧ j ≠ i
  remaining : st'.remaining + 1 = st.remaining

namespace LoopState.Counters

theorem lt (h : st.Counters plan) (hi : st.isPending i = true) : i < plan.entries.length := by
  rw [← h.length]
  by_contra hle
  simp [LoopState.isPending, List.getElem?_eq_none (Nat.le_of_not_lt hle)] at hi

theorem finish (h : st.Counters plan) (hi : st.isPending i = true) :
    ∃ st', st.finish i = .ok st' ∧ st'.Counters plan ∧ st.TakesOff i st' ∧
      st'.ready = st.ready ∧ st'.reserved = st.reserved ∧ st'.schedule = st.schedule := by
  have hmem : i ∈ st.remainingIndices := (h.remainingIndices i).2 hi
  have hlt : i < st.pending.length := by
    rw [h.length]
    exact h.lt hi
  have hpending : ∀ j, ((st.pending.set i false).getD j false = true ↔
      st.isPending j = true ∧ j ≠ i) := by
    intro j
    rw [LoopState.isPending, List.getD_eq_getElem?_getD, List.getD_eq_getElem?_getD,
      List.getElem?_set]
    split
    · next heq => simp [heq]
    · next hne => simp [Ne.symm hne]
  have hsize : (st.remainingIndices.erase i).size + 1 = st.remainingIndices.size := by
    have hpos : 0 < st.remainingIndices.size := by
      rw [Nat.pos_iff_ne_zero, Ne, ← ExtTreeSet.eq_empty_iff_size_eq_zero]
      exact ExtTreeSet.ne_empty_of_mem hmem
    rw [ExtTreeSet.size_erase, if_pos (ExtTreeSet.contains_iff_mem.2 hmem)]
    omega
  refine ⟨_, if_pos (ExtTreeSet.contains_iff_mem.2 hmem), ?_, ?_, rfl, rfl, rfl⟩
  · refine ⟨by simpa using h.length, fun j => ?_, ?_⟩
    · refine Iff.trans ?_ (hpending j).symm
      rw [ExtTreeSet.mem_erase, h.remainingIndices, Ne, Nat.compare_eq_eq]
      tauto
    · show st.remaining - 1 = (st.remainingIndices.erase i).size
      rw [h.remaining]
      omega
  · refine ⟨hpending, ?_⟩
    show st.remaining - 1 + 1 = _
    rw [h.remaining]
    omega

/-- Only a pending row is taken off. -/
theorem of_finish (h : st.Counters plan) (hst' : st.finish i = .ok st') :
    st.isPending i = true ∧ st'.Counters plan ∧ st.TakesOff i st' ∧
      st'.ready = st.ready ∧ st'.reserved = st.reserved ∧ st'.schedule = st.schedule := by
  have hpending : st.isPending i = true := by
    by_contra hnot
    have hmem : ¬st.remainingIndices.contains i = true := by
      rw [ExtTreeSet.contains_iff_mem, h.remainingIndices]
      exact hnot
    rw [LoopState.finish, if_neg hmem] at hst'
    cases hst'
  obtain ⟨st₁, hst₁, hrest⟩ := h.finish hpending
  obtain rfl : st₁ = st' := Except.ok.inj (hst₁.symm.trans hst')
  exact ⟨hpending, hrest⟩

theorem remaining_le (h : st.Counters plan) : st.remaining ≤ plan.entries.length := by
  have hsubset : st.remainingIndices.toList ⊆ List.range plan.entries.length := fun j hj =>
    List.mem_range.2 (h.lt ((h.remainingIndices j).1 (ExtTreeSet.mem_toList.1 hj)))
  have hnodup : st.remainingIndices.toList.Nodup :=
    ExtTreeSet.distinct_toList.imp fun hne heq => hne (Nat.compare_eq_eq.2 heq)
  rw [h.remaining, ← ExtTreeSet.length_toList]
  simpa using (List.subperm_of_subset hnodup hsubset).length_le

theorem not_pending (h : st.Counters plan) (hzero : st.remaining = 0) (i : ℕ) :
    ¬st.isPending i = true := by
  intro hi
  have hmem := (h.remainingIndices i).2 hi
  refine ExtTreeSet.ne_empty_of_mem hmem (ExtTreeSet.eq_empty_iff_size_eq_zero.2 ?_)
  rw [← h.remaining, hzero]

theorem push (h : st.Counters plan) (step : ScheduleStep) : (st.push step).Counters plan :=
  ⟨h.length, h.remainingIndices, h.remaining⟩

end LoopState.Counters

/-- The row `i` goes straight to its destination. -/
structure LoopState.GoesStraight (plan : RenamePlan) (i : ℕ) (st st' : LoopState) : Prop where
  pending : st.isPending i = true
  takes : st.TakesOff i st'
  counters : st'.Counters plan
  reserved : st'.reserved = st.reserved
  schedule : ∃ entry identity, plan.entries[i]? = some entry ∧
    sourceIdentity entry = .ok identity ∧
    st'.schedule = st.schedule ++ [straightStep entry identity plan.scope]

theorem LoopState.Counters.scheduleDirect (h : st.Counters plan)
    (hst' : scheduleDirect plan st i = .ok st') :
    st.GoesStraight plan i st' ∧ st'.ready = st.ready := by
  unfold Schedule.scheduleDirect at hst'
  cases hentry : plan.entries[i]? with
  | none =>
      rw [hentry] at hst'
      cases hst'
  | some entry =>
      rw [hentry] at hst'
      dsimp only at hst'
      split at hst'
      · cases hst'
      · obtain ⟨step, hstep, hfinish⟩ := bind_eq_ok_iff.1 hst'
        obtain ⟨hpending, hcounters, htakes, hready, hreserved, hschedule⟩ :=
          (h.push step).of_finish hfinish
        cases hidentity : sourceIdentity entry with
        | error e =>
            rw [directStep, hidentity] at hstep
            cases hstep
        | ok identity =>
            rw [directStep, hidentity] at hstep
            cases hstep
            exact ⟨⟨hpending, ⟨htakes.pending, htakes.remaining⟩, hcounters, hreserved,
              entry, identity, hentry, hidentity, hschedule⟩, hready⟩

/-- After a ready row the row that waited for it is ready. -/
theorem LoopState.Counters.scheduleReady (h : st.Counters plan)
    {predecessors : List (Option ℕ)} (hst' : scheduleReady plan predecessors st i = .ok st') :
    st.GoesStraight plan i st' ∧ ∀ j, j ∈ st'.ready ↔
      j ∈ st.ready ∧ j ≠ i ∨ predecessors[i]?.join = some j ∧ st'.isPending j = true := by
  obtain ⟨st₁, hdirect, hrest⟩ := bind_eq_ok_iff.1 hst'
  have hcounters : ({ st with ready := st.ready.erase i } : LoopState).Counters plan :=
    ⟨h.length, h.remainingIndices, h.remaining⟩
  obtain ⟨⟨hpending, htakes, hcounters₁, hreserved, hschedule⟩, hready⟩ :=
    hcounters.scheduleDirect hdirect
  have hready₁ (j : ℕ) : j ∈ st₁.ready ↔ j ∈ st.ready ∧ j ≠ i := by
    rw [hready, ExtTreeSet.mem_erase, Ne, Nat.compare_eq_eq, and_comm, eq_comm]
  have hsame : st.GoesStraight plan i st₁ :=
    ⟨hpending, ⟨htakes.pending, htakes.remaining⟩, hcounters₁, hreserved, hschedule⟩
  cases hpredecessor : predecessors[i]?.join with
  | none =>
      rw [hpredecessor] at hrest
      cases hrest
      exact ⟨hsame, fun j => (hready₁ j).trans (or_iff_left (by simp)).symm⟩
  | some p =>
      rw [hpredecessor] at hrest
      dsimp only at hrest
      split at hrest
      · next hp =>
          cases hrest
          refine ⟨⟨hpending, ⟨htakes.pending, htakes.remaining⟩, ?_, hreserved, hschedule⟩,
            fun j => ?_⟩
          · exact ⟨hcounters₁.length, hcounters₁.remainingIndices, hcounters₁.remaining⟩
          · rw [ExtTreeSet.mem_insert, Nat.compare_eq_eq, hready₁, or_comm]
            refine or_congr Iff.rfl ⟨fun hj => ⟨congrArg some hj, hj ▸ hp⟩,
              fun hj => Option.some.inj hj.1⟩
      · next hp =>
          cases hrest
          refine ⟨hsame, fun j => (hready₁ j).trans (or_iff_left ?_).symm⟩
          rintro ⟨hj, hpending⟩
          exact hp (Option.some.inj hj ▸ hpending)

end Schedule

end DarkReNamer
