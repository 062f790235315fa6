import DarkReNamer.Rename.Schedule.Prepared
import Mathlib.Data.Finset.Card

/-!
# Which row may go next

A ready row waits for no pending one. When there is no ready row every pending row waits for a
pending one, so the rows that wait for the pivot of a cycle lead back to it.
-/

namespace DarkReNamer

open Std

namespace Schedule

variable {plan : RenamePlan}

/-- The ready rows are the pending ones that wait for no pending row. -/
structure LoopState.Queued (plan : RenamePlan) (st : LoopState) : Prop
    extends st.Counters plan where
  ready_iff : ∀ i, i ∈ st.ready ↔ st.isPending i = true ∧
    ∀ j, WaitsFor plan i j → ¬ st.isPending j = true

/-- Once `row` is taken off, the ready rows are the other ready rows and the row that
waited for it. -/
theorem ready_iff_takesOff (hplan : Orderly plan) {st st' : LoopState} {row j : ℕ}
    (hready : ∀ i, i ∈ st.ready ↔ st.isPending i = true ∧
      ∀ k, WaitsFor plan i k → ¬ st.isPending k = true)
    (htakes : st.TakesOff row st') :
    (j ∈ st.ready ∧ j ≠ row ∨ WaitsFor plan j row ∧ st'.isPending j = true) ↔
      st'.isPending j = true ∧ ∀ k, WaitsFor plan j k → ¬ st'.isPending k = true := by
  constructor
  · rintro (⟨hj, hne⟩ | ⟨hwaits, hj⟩)
    · obtain ⟨hpending, hwaits⟩ := (hready j).1 hj
      exact ⟨(htakes.pending j).2 ⟨hpending, hne⟩, fun k hk hk' =>
        hwaits k hk ((htakes.pending k).1 hk').1⟩
    · refine ⟨hj, fun k hk hk' => ?_⟩
      obtain rfl := hk.unique_right hplan.sources_nodup hwaits
      exact ((htakes.pending k).1 hk').2 rfl
  · rintro ⟨hj, hwaits⟩
    obtain ⟨hpending, hne⟩ := (htakes.pending j).1 hj
    by_cases hrow : WaitsFor plan j row
    · exact .inr ⟨hrow, hj⟩
    · refine .inl ⟨(hready j).2 ⟨hpending, fun k hk hk' => hwaits k hk ?_⟩, hne⟩
      refine (htakes.pending k).2 ⟨hk', ?_⟩
      rintro rfl
      exact hrow hk

/-! ### Cycles -/

/-- Where every member waits for a member, every member is waited for. -/
theorem exists_waiting {n : ℕ} {member : ℕ → Prop} {waits : ℕ → ℕ → Prop}
    (hbound : ∀ i, member i → i < n) (htotal : ∀ i, member i → ∃ j, member j ∧ waits i j)
    (hunique : ∀ i i' j, waits i j → waits i' j → i = i') {j : ℕ} (hj : member j) :
    ∃ i, member i ∧ waits i j := by
  classical
  let members := (Finset.range n).filter member
  have hmem : ∀ i, i ∈ members ↔ member i := fun i => by
    simp only [members, Finset.mem_filter, Finset.mem_range]
    exact ⟨fun h => h.2, fun h => ⟨hbound i h, h⟩⟩
  choose! next hnext hwaits using htotal
  have himage : members.image next = members := by
    refine Finset.eq_of_subset_of_card_le ?_ ?_
    · intro k hk
      obtain ⟨i, hi, rfl⟩ := Finset.mem_image.1 hk
      exact (hmem _).2 (hnext i ((hmem i).1 hi))
    · refine (Finset.card_image_of_injOn fun i hi i' hi' heq => ?_).ge
      have h₁ := hwaits i ((hmem i).1 hi)
      have h₂ := hwaits i' ((hmem i').1 hi')
      exact hunique i i' _ h₁ (heq ▸ h₂)
  obtain ⟨i, hi, rfl⟩ := Finset.mem_image.1 (himage.ge ((hmem j).2 hj))
  exact ⟨i, (hmem i).1 hi, hwaits i ((hmem i).1 hi)⟩

/-- An open cycle, whose rows were those in `start`. The rows already moved wait for
the pivot or for each other, and `freed` is the one nobody has taken the place of. -/
structure OpenCycle (plan : RenamePlan) (start : ℕ → Prop) (pivot freed : ℕ)
    (st : LoopState) : Prop where
  pending_start : ∀ i, st.isPending i = true → start i
  pivot_pending : st.isPending pivot = true
  freed_start : start freed
  freed_done : freed = pivot ∨ ¬ st.isPending freed = true
  waits_done : ∀ i, start i → ¬ st.isPending i = true →
    ∃ j, WaitsFor plan i j ∧ (j = pivot ∨ ¬ st.isPending j = true)
  freed_free : ∀ i, start i → ¬ st.isPending i = true → ¬ WaitsFor plan i freed
  waited : ∀ j, start j → (j = pivot ∨ ¬ st.isPending j = true) → j ≠ freed →
    ∃ i, start i ∧ ¬ st.isPending i = true ∧ WaitsFor plan i j

/-- The row that waits for the freed one takes its place. -/
theorem OpenCycle.next (hplan : Orderly plan) {start : ℕ → Prop} {pivot freed i : ℕ}
    {st st' : LoopState} (h : OpenCycle plan start pivot freed st) (hi : start i)
    (hwaits : WaitsFor plan i freed) (hpivot : i ≠ pivot) (htakes : st.TakesOff i st') :
    OpenCycle plan start pivot i st' := by
  have hpending : st.isPending i = true := by
    by_contra hdone
    exact h.freed_free i hi hdone hwaits
  have hdone : ∀ j, ¬ st'.isPending j = true ↔ ¬ st.isPending j = true ∨ j = i := by
    intro j
    rw [htakes.pending j]
    tauto
  refine ⟨fun j hj => h.pending_start j ((htakes.pending j).1 hj).1, ?_, hi, ?_, ?_, ?_, ?_⟩
  · exact (htakes.pending pivot).2 ⟨h.pivot_pending, hpivot.symm⟩
  · exact .inr ((hdone i).2 (.inr rfl))
  · intro j hj hjdone
    rcases (hdone j).1 hjdone with hold | rfl
    · obtain ⟨k, hk, hkdone⟩ := h.waits_done j hj hold
      exact ⟨k, hk, hkdone.imp_right fun hk' => (hdone k).2 (.inl hk')⟩
    · exact ⟨freed, hwaits, h.freed_done.imp_right fun hf => (hdone freed).2 (.inl hf)⟩
  · intro j hj hjdone hji
    rcases (hdone j).1 hjdone with hold | rfl
    · obtain ⟨k, hk, hkdone⟩ := h.waits_done j hj hold
      obtain rfl := hk.unique_right hplan.sources_nodup hji
      exact hkdone.elim hpivot fun hk' => hk' hpending
    · obtain rfl := hji.unique_right hplan.sources_nodup hwaits
      exact h.freed_done.elim hpivot fun hf => hf hpending
  · intro j hj hjdone hne
    by_cases hfreed : j = freed
    · subst hfreed
      exact ⟨i, hi, (hdone i).2 (.inr rfl), hwaits⟩
    · have hold : j = pivot ∨ ¬ st.isPending j = true :=
        hjdone.imp_right fun hj' => ((hdone j).1 hj').resolve_right hne
      obtain ⟨k, hk, hkdone, hkj⟩ := h.waited j hj hold hfreed
      exact ⟨k, hk, (hdone k).2 (.inl hkdone), hkj⟩

/-- When the cycle is back at its pivot, the rows still pending wait for each other. -/
theorem OpenCycle.closed (hplan : Orderly plan) {start : ℕ → Prop} {pivot freed : ℕ}
    {st : LoopState} (h : OpenCycle plan start pivot freed st)
    (hback : WaitsFor plan pivot freed) {i j : ℕ} (hi : st.isPending i = true)
    (hpivot : i ≠ pivot) (hj : start j) (hij : WaitsFor plan i j) :
    st.isPending j = true ∧ j ≠ pivot := by
  by_contra hnot
  have hdone : j = pivot ∨ ¬ st.isPending j = true := by tauto
  by_cases hfreed : j = freed
  · subst hfreed
    exact hpivot (hplan.unique_left hij hback)
  · obtain ⟨k, -, hk, hkj⟩ := h.waited j hj hdone hfreed
    obtain rfl := hplan.unique_left hij hkj
    exact hk hi

/-- A cycle that has just been opened. -/
theorem openCycle_start {st st' : LoopState} (hsame : st'.pending = st.pending) {pivot : ℕ}
    (h : st.isPending pivot = true) :
    OpenCycle plan (fun i => st.isPending i = true) pivot pivot st' := by
  have hpending : ∀ i, st'.isPending i = st.isPending i := fun i => by
    rw [LoopState.isPending, hsame, LoopState.isPending]
  refine ⟨fun i hi => (hpending i).symm.trans hi, (hpending pivot).trans h, h, .inl rfl,
    fun i hi hdone => absurd ((hpending i).trans hi) hdone,
    fun i hi hdone => absurd ((hpending i).trans hi) hdone,
    fun j hj hdone hne => ?_⟩
  exact absurd ((hpending j).trans hj) (hdone.resolve_left hne)

namespace LoopState.Queued

variable {st : LoopState}

/-- When no row is ready, every pending row waits for a pending one. -/
theorem waits (h : st.Queued plan) (hready : st.ready = ∅) (i : ℕ) (hi : st.isPending i = true) :
    ∃ j, st.isPending j = true ∧ WaitsFor plan i j := by
  have hnot : i ∉ st.ready := by simp [hready]
  rw [h.ready_iff] at hnot
  by_contra hnone
  exact hnot ⟨hi, fun j hj hpending => hnone ⟨j, hpending, hj⟩⟩

/-- Then every pending row is waited for by a pending one. -/
theorem waited (h : st.Queued plan) (hplan : Orderly plan) (hready : st.ready = ∅) (j : ℕ)
    (hj : st.isPending j = true) : ∃ i, st.isPending i = true ∧ WaitsFor plan i j :=
  exists_waiting (fun _ hi => h.lt hi) (h.waits hready)
    (fun _ _ _ hk hk' => hplan.unique_left hk hk') hj

end LoopState.Queued

end Schedule

end DarkReNamer
