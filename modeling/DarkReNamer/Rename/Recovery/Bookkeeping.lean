import DarkReNamer.Rename.Recovery
import DarkReNamer.UndoLog.Grammar

/-!
# The bookkeeping of recovery agrees with the replay

Recovery reads the completed steps and the prepared step from the records again
(`transitionSets`), with code that trusts the replay. On every accepted journal
the two agree, and the steps that remain are reversed in the order in which the
replay accepts them.
-/

namespace DarkReNamer

open Std UndoLog

/-- The step a replay state is in doubt about. -/
def ReplayState.pending (st : ReplayState) : Option (ℕ × JournalDirection) :=
  match st.forwardPrepared with
  | some step => some (step, .forward)
  | none => st.rollbackPrepared.map fun step => (step, .rollback)

namespace Recovery

/-- The two readings of one record list agree; the last two fields say that at most
one slot of the replay is filled. -/
structure TransitionSets.Agrees (sets : TransitionSets) (st : ReplayState) : Prop where
  forward : sets.forward = st.completedForward
  rollback : sets.rollback = st.completedRollback
  prepared : sets.prepared = st.pending
  one_slot : st.forwardPrepared = none ∨ st.rollbackPrepared = none
  started : st.rollbackStarted = false → st.rollbackPrepared = none

theorem agrees_initial : TransitionSets.initial.Agrees .initial :=
  ⟨rfl, rfl, rfl, .inl rfl, fun _ => rfl⟩

theorem validateStep_bind_eq_ok {step n : ℕ} {rest : Except JournalCorruption ReplayState}
    {st : ReplayState} (h : (do validateStep step n; rest) = .ok st) : rest = .ok st := by
  unfold validateStep at h
  split at h
  · exact h
  · cases h

theorem guard_eq_ok {allowed : Bool} {next st : ReplayState} {violation : JournalCorruption}
    (h : (if allowed then .ok next else .error violation) = Except.ok st) :
    allowed = true ∧ next = st := by
  split at h
  · next hallowed => exact ⟨hallowed, Except.ok.inj h⟩
  · cases h

/-- One record keeps the agreement. -/
theorem TransitionSets.Agrees.read {sets : TransitionSets} {st st' : ReplayState} {n : ℕ}
    {record : JournalRecord} (h : sets.Agrees st) (hst : st.transition n record = .ok st') :
    (sets.read record).Agrees st' := by
  obtain ⟨hforward, hrollback, hprepared, hslot, hstarted⟩ := h
  cases record with
  | intent plan steps => cases hst
  | terminal value =>
      cases hst
      exact ⟨hforward, hrollback, hprepared, hslot, hstarted⟩
  | prepared step direction =>
      have hrest := validateStep_bind_eq_ok hst
      cases direction with
      | forward =>
          obtain ⟨hallowed, rfl⟩ := guard_eq_ok hrest
          simp only [Bool.and_eq_true, Bool.not_eq_true'] at hallowed
          exact ⟨hforward, hrollback, rfl, .inr (hstarted hallowed.1.1), hstarted⟩
      | rollback =>
          dsimp only at hrest
          split at hrest
          · next hslots =>
              obtain ⟨-, rfl⟩ := guard_eq_ok hrest
              simp only [Bool.and_eq_true, Option.isNone_iff_eq_none] at hslots
              refine ⟨hforward, hrollback, ?_, .inl hslots.2, by simp⟩
              simp [TransitionSets.read, ReplayState.pending, hslots.2]
          · cases hrest
  | completed step direction =>
      have hrest := validateStep_bind_eq_ok hst
      cases direction with
      | forward =>
          obtain ⟨hallowed, rfl⟩ := guard_eq_ok hrest
          have hrp : st.rollbackPrepared = none := by simpa [eq_of_beq hallowed] using hslot
          refine ⟨by simp [TransitionSets.read, hforward], hrollback, ?_, .inl rfl, hstarted⟩
          simp [TransitionSets.read, ReplayState.pending, hrp]
      | rollback =>
          obtain ⟨hallowed, rfl⟩ := guard_eq_ok hrest
          have hfp : st.forwardPrepared = none := by simpa [eq_of_beq hallowed] using hslot
          refine ⟨hforward, by simp [TransitionSets.read, hrollback], ?_, .inr rfl,
            fun _ => rfl⟩
          simp [TransitionSets.read, ReplayState.pending, hfp]
  | notApplied step direction =>
      have hrest := validateStep_bind_eq_ok hst
      cases direction with
      | forward =>
          obtain ⟨hallowed, rfl⟩ := guard_eq_ok hrest
          have hrp : st.rollbackPrepared = none := by simpa [eq_of_beq hallowed] using hslot
          refine ⟨hforward, hrollback, ?_, .inl rfl, by simp⟩
          simp [TransitionSets.read, ReplayState.pending, hrp]
      | rollback =>
          obtain ⟨hallowed, rfl⟩ := guard_eq_ok hrest
          have hfp : st.forwardPrepared = none := by simpa [eq_of_beq hallowed] using hslot
          refine ⟨hforward, hrollback, ?_, .inr rfl, fun _ => rfl⟩
          simp [TransitionSets.read, ReplayState.pending, hfp]

theorem agrees_after {sets : TransitionSets} {st st' : ReplayState} {n : ℕ}
    {records : List JournalRecord} (h : sets.Agrees st)
    (hst : st.after n records = .ok st') :
    (records.foldl TransitionSets.read sets).Agrees st' := by
  induction records generalizing sets st with
  | nil =>
      cases hst
      exact h
  | cons record records ih =>
      rw [ReplayState.after, List.foldlM_cons] at hst
      cases hnext : st.transition n record with
      | error violation =>
          rw [hnext] at hst
          cases hst
      | ok next =>
          rw [hnext] at hst
          exact ih (h.read hnext) hst

/-- The sets hold the steps that the records complete. -/
theorem mem_foldl_read {sets : TransitionSets} {records : List JournalRecord} {i : ℕ} :
    (i ∈ (records.foldl TransitionSets.read sets).forward ↔
      i ∈ sets.forward ∨ .completed i .forward ∈ records) ∧
    (i ∈ (records.foldl TransitionSets.read sets).rollback ↔
      i ∈ sets.rollback ∨ .completed i .rollback ∈ records) := by
  induction records generalizing sets with
  | nil => simp
  | cons record records ih =>
      rw [List.foldl_cons, ih.1, ih.2]
      cases record with
      | completed step direction =>
          cases direction <;>
            simp [TransitionSets.read, or_assoc, or_left_comm, @eq_comm _ i]
      | _ => simp [TransitionSets.read]

/-- On an accepted journal the sets of recovery are those of the replay. -/
theorem exists_agrees {records : List JournalRecord} {plan : PlanId}
    {steps : List JournalStep} {phase : Phase} (h : Logs records plan steps phase) :
    ∃ st, ReplayState.initial.after steps.length (records.drop 1) = .ok st ∧
      st.Describes steps.length phase ∧ (transitionSets records).Agrees st := by
  obtain ⟨log, rfl, hlog⟩ := h
  obtain ⟨st, hst, hdescribes⟩ := ReplayState.after_of_run
    (ReplayState.describes_initial steps.length) (Nat.zero_le _) hlog
  exact ⟨st, hst, hdescribes, agrees_after agrees_initial hst⟩

/-- The completed steps of a journal. -/
theorem mem_transitionSets {records : List JournalRecord} {plan : PlanId}
    {steps : List JournalStep} {phase : Phase} (h : Logs records plan steps phase) (i : ℕ) :
    (i ∈ (transitionSets records).forward ↔ .completed i .forward ∈ records) ∧
    (i ∈ (transitionSets records).rollback ↔ .completed i .rollback ∈ records) := by
  obtain ⟨log, rfl, -⟩ := h
  have hmem := @mem_foldl_read .initial (log.map .ofLog) i
  simpa [transitionSets, TransitionSets.initial] using hmem

/-- The completed forward steps are those below `k`, and those from `j` on are rolled
back. -/
structure TransitionState.Spans (transitions : TransitionState) (k j : ℕ) : Prop where
  forward : ∀ i, i ∈ transitions.forward ↔ i < k
  rollback : ∀ i, i ∈ transitions.rollback ↔ j ≤ i ∧ i < k

theorem TransitionState.Spans.remaining {transitions : TransitionState} {k j : ℕ}
    (h : transitions.Spans k j) (hj : j ≤ k) :
    transitions.remaining = (List.range j).reverse := by
  unfold TransitionState.remaining
  rw [toList_eq_range h.forward]
  congr 1
  refine filter_range_lt hj fun i hi => ?_
  have hmem := h.rollback i
  rw [← ExtTreeSet.contains_iff_mem] at hmem
  rw [Bool.eq_iff_iff, decide_eq_true_eq, Bool.not_eq_true', Bool.eq_false_iff, Ne, hmem]
  omega

/-- The sets with the prepared step resolved one way. -/
def TransitionSets.resolved (sets : TransitionSets) (applied : Bool) : TransitionState :=
  ⟨sets.forward, sets.rollback,
    sets.prepared.map fun prepared => ⟨prepared.1, prepared.2, applied⟩⟩

/-- The record that resolves a prepared step. -/
def resolution (step : ℕ) (direction : JournalDirection) (applied : Bool) :
    UndoLog.Record :=
  if applied then .completed step direction else .notApplied step direction

section Resolve

variable {sets : TransitionSets} {st : ReplayState} {n : ℕ} {phase : Phase}

theorem prepared_eq_pending (hst : st.Describes n phase) (hagrees : sets.Agrees st)
    (hphase : ∀ value, phase ≠ .ended value) : sets.prepared = phase.pending := by
  rw [hagrees.prepared, ReplayState.pending]
  cases phase with
  | ended value => exact absurd rfl (hphase value)
  | _ => simp [hst.1.forwardPrepared, hst.1.rollbackPrepared, Phase.pending]

/-- With no step in doubt the sets already say what remains. -/
theorem ready_of_prepared_none (hst : st.Describes n phase) (hagrees : sets.Agrees st)
    (hb : phase.Bounded n) (hphase : ∀ value, phase ≠ .ended value)
    (hprepared : sets.prepared = none) (applied : Bool) :
    ∃ k, Ready k (phase.left applied) phase ∧ phase.left applied ≤ k ∧
      ∀ transitions : TransitionState, transitions.forward = sets.forward →
        transitions.rollback = sets.rollback →
        transitions.Spans k (phase.left applied) := by
  have hpending := prepared_eq_pending hst hagrees hphase
  rw [hprepared] at hpending
  have hspans : ∀ k j fp rp, st.Tracks k j fp rp → ∀ transitions : TransitionState,
      transitions.forward = sets.forward → transitions.rollback = sets.rollback →
        transitions.Spans k j := by
    intro k j fp rp ht transitions hforward hrollback
    refine ⟨?_, ?_⟩
    · rw [hforward, hagrees.forward]
      exact ht.forward
    · rw [hrollback, hagrees.rollback]
      exact ht.rollback
  cases phase with
  | forward k => exact ⟨k, .inr ⟨rfl, rfl⟩, Nat.le_refl k, hspans _ _ _ _ hst.1⟩
  | rollback k j => exact ⟨k, .inl rfl, hb.2, hspans _ _ _ _ hst.1⟩
  | forwardPending k => simp [Phase.pending] at hpending
  | rollbackPending k j => simp [Phase.pending] at hpending
  | ended value => exact absurd rfl (hphase value)

/-- Resolving the step in doubt, either way, is a transition of the log, and the sets
follow it. -/
theorem ready_of_prepared_some (hst : st.Describes n phase) (hagrees : sets.Agrees st)
    (hb : phase.Bounded n) (hphase : ∀ value, phase ≠ .ended value) {step : ℕ}
    {direction : JournalDirection} (hprepared : sets.prepared = some (step, direction))
    (applied : Bool) :
    ∃ k phase', phase.next n (resolution step direction applied) = some phase' ∧
      Ready k (phase.left applied) phase' ∧ phase.left applied ≤ k ∧
      ∀ transitions : TransitionState, transitions.forward = sets.forward →
        transitions.rollback = sets.rollback →
        (transitions.resolve ⟨step, direction, applied⟩).Spans k (phase.left applied) := by
  have hpending := prepared_eq_pending hst hagrees hphase
  rw [hprepared] at hpending
  cases phase with
  | forward k => simp [Phase.pending] at hpending
  | rollback k j => simp [Phase.pending] at hpending
  | ended value => exact absurd rfl (hphase value)
  | forwardPending k =>
      simp only [Phase.pending, Option.some.injEq, Prod.mk.injEq] at hpending
      obtain ⟨rfl, rfl⟩ := hpending
      have ht := hst.1
      cases applied with
      | true =>
          refine ⟨step + 1, .forward (step + 1), by simp [resolution, Phase.next],
            .inr ⟨rfl, rfl⟩, Nat.le_refl _, ?_⟩
          intro transitions hforward hrollback
          refine ⟨fun i => ?_, fun i => ?_⟩
          · simp only [TransitionState.resolve, hforward, hagrees.forward,
              ExtTreeSet.mem_insert, Nat.compare_eq_eq, ht.forward]
            omega
          · simp only [TransitionState.resolve, Phase.left, hrollback, hagrees.rollback,
              ht.rollback]
            omega
      | false =>
          refine ⟨step, .rollback step step, by simp [resolution, Phase.next],
            .inl rfl, Nat.le_refl _, ?_⟩
          intro transitions hforward hrollback
          refine ⟨fun i => ?_, fun i => ?_⟩
          · simp only [TransitionState.resolve, hforward, hagrees.forward, ht.forward]
          · simp only [TransitionState.resolve, Phase.left, hrollback, hagrees.rollback,
              ht.rollback]
  | rollbackPending k j =>
      simp only [Phase.pending, Option.some.injEq, Prod.mk.injEq] at hpending
      obtain ⟨rfl, rfl⟩ := hpending
      have ht := hst.1
      have hlt := hb.2
      cases applied with
      | true =>
          refine ⟨k, .rollback k step, by simp [resolution, Phase.next],
            .inl rfl, Nat.le_of_lt hlt, ?_⟩
          intro transitions hforward hrollback
          refine ⟨fun i => ?_, fun i => ?_⟩
          · simp only [TransitionState.resolve, hforward, hagrees.forward, ht.forward]
          · simp only [TransitionState.resolve, Phase.left, hrollback, hagrees.rollback,
              ExtTreeSet.mem_insert, Nat.compare_eq_eq, ht.rollback]
            omega
      | false =>
          refine ⟨k, .rollback k (step + 1), by simp [resolution, Phase.next],
            .inl rfl, hlt, ?_⟩
          intro transitions hforward hrollback
          refine ⟨fun i => ?_, fun i => ?_⟩
          · simp only [TransitionState.resolve, hforward, hagrees.forward, ht.forward]
          · simp only [TransitionState.resolve, Phase.left, hrollback, hagrees.rollback,
              ht.rollback]

end Resolve

/-- The sets recovery goes on with, once a prepared step is resolved. -/
def TransitionState.reconciled (transitions : TransitionState) : TransitionState :=
  match transitions.prepared with
  | none => transitions
  | some prepared => transitions.resolve prepared

/-- The records recovery appends: how a prepared step ended, then one group for every
remaining step, then the terminal record. -/
def TransitionState.restoringLog (transitions : TransitionState) : List UndoLog.Record :=
  (match transitions.prepared with
    | none => []
    | some prepared => [resolution prepared.step prepared.direction prepared.applied]) ++
  transitions.reconciled.remaining.flatMap
    (fun i => [.prepared i .rollback, .completed i .rollback]) ++
  [.terminal .rolledBack]

theorem flatMap_reverse_range (j : ℕ) :
    (List.range j).reverse.flatMap
      (fun i => [UndoLog.Record.prepared i .rollback, .completed i .rollback]) =
    rollbackGroups j (List.replicate j 0) := by
  induction j with
  | zero => rfl
  | succ j ih =>
      rw [List.range_succ, List.reverse_append, List.reverse_singleton,
        List.singleton_append, List.flatMap_cons, ih, List.replicate_succ, rollbackGroups]
      rfl

/-- From a phase in which nothing is pending, the groups of the moves in effect and the
terminal record bring the log to its end. -/
theorem run_restoring {n k j : ℕ} {phase : Phase} (h : Ready k j phase) :
    Phase.run n phase ((List.range j).reverse.flatMap
      (fun i => [.prepared i .rollback, .completed i .rollback]) ++
        [.terminal .rolledBack]) = some (.ended .rolledBack) := by
  rw [flatMap_reverse_range, Phase.run_append,
    run_rollbackGroups h (by rw [List.length_replicate])]
  cases j with
  | zero => rcases h with rfl | ⟨rfl, rfl⟩ <;> simp [Phase.next]
  | succ j => simp [Phase.next]

/-- The records of an uninterrupted recovery are accepted and end the transaction. -/
theorem logs_restoring {records : List JournalRecord} {plan : PlanId}
    {steps : List JournalStep} {phase : Phase} (h : Logs records plan steps phase)
    (hphase : ∀ value, phase ≠ .ended value) (applied : Bool) :
    Logs (records ++ ((transitionSets records).resolved applied).restoringLog.map .ofLog)
      plan steps (.ended .rolledBack) := by
  obtain ⟨st, -, hst, hagrees⟩ := exists_agrees h
  have hb := h.bounded
  obtain ⟨log, hrecords, hlog⟩ := h
  have hrun : Phase.run steps.length phase
      ((transitionSets records).resolved applied).restoringLog =
        some (.ended .rolledBack) := by
    cases hprepared : (transitionSets records).prepared with
    | none =>
        obtain ⟨k, hready, hj, hspans⟩ :=
          ready_of_prepared_none hst hagrees hb hphase hprepared applied
        have hremaining := (hspans ((transitionSets records).resolved applied) rfl
          rfl).remaining hj
        simp only [TransitionState.restoringLog, TransitionState.reconciled,
          TransitionSets.resolved, hprepared, Option.map_none, List.nil_append]
          at hremaining ⊢
        rw [hremaining]
        exact run_restoring hready
    | some prepared =>
        obtain ⟨step, direction⟩ := prepared
        obtain ⟨k, phase', hnext, hready, hj, hspans⟩ :=
          ready_of_prepared_some hst hagrees hb hphase hprepared applied
        have hremaining := (hspans ((transitionSets records).resolved applied) rfl
          rfl).remaining hj
        simp only [TransitionState.restoringLog, TransitionState.reconciled,
          TransitionSets.resolved, hprepared, Option.map_some] at hremaining ⊢
        rw [hremaining, List.append_assoc, List.singleton_append, Phase.run_cons, hnext,
          Option.bind_some]
        exact run_restoring hready
  refine ⟨log ++ ((transitionSets records).resolved applied).restoringLog, ?_, ?_⟩
  · conv_lhs => rw [hrecords]
    rw [List.map_append, List.cons_append, ← hrecords]
  · rw [Phase.ofLog_append, hlog]
    exact hrun

theorem getLast?_eq_terminal_iff (plan : PlanId) (steps : List JournalStep)
    (log : List UndoLog.Record) (value : JournalTerminal) :
    (JournalRecord.intent plan steps :: log.map .ofLog).getLast? =
        some (.terminal value) ↔ log.getLast? = some (.terminal value) := by
  rw [List.getLast?_cons, List.getLast?_map]
  cases log.getLast? with
  | none => simp
  | some r => cases r <;> simp [JournalRecord.ofLog]

/-- The replay accepts exactly the transaction grammar. The accepted journals are
closed under prefixes; a journal is clean exactly when it is empty or ends in a
terminal record; recovery reads the same sets and the same prepared step from it,
and the remaining steps, reversed in its order, are what the replay expects. -/
theorem replayJournal_accepts_grammar (records : List JournalRecord) :
    ((replayJournal records).isCorrupt = false ↔
      records = [] ∨ ∃ plan steps, ∃ t : Transcript, t.WellFormed steps.length ∧
        records = .intent plan steps :: t.records.map .ofLog) ∧
    ((replayJournal records).isCorrupt = false →
      (∀ front back, records = front ++ back →
        (replayJournal front).isCorrupt = false) ∧
      (replayJournal records = .clean ↔
        records = [] ∨ ∃ value, records.getLast? = some (.terminal value)) ∧
      ∀ plan steps rest, records = .intent plan steps :: rest →
        (∃ st, ReplayState.initial.after steps.length rest = .ok st ∧
          (transitionSets records).forward = st.completedForward ∧
          (transitionSets records).rollback = st.completedRollback ∧
          (transitionSets records).prepared = st.pending) ∧
        (replayJournal records ≠ .clean → ∀ applied,
          replayJournal (records ++
            ((transitionSets records).resolved applied).restoringLog.map .ofLog) =
              .clean)) := by
  refine ⟨?_, fun haccepted => ?_⟩
  · rw [isCorrupt_replayJournal_eq_false_iff]
    refine or_congr Iff.rfl (exists₂_congr fun plan steps => ?_)
    constructor
    · rintro ⟨phase, log, rfl, hlog⟩
      obtain ⟨t, wf, rfl, -⟩ := Transcript.ofLog_eq_some_iff.1 hlog
      exact ⟨t, wf, rfl⟩
    · rintro ⟨t, wf, rfl⟩
      exact ⟨t.phase, t.records, rfl, Transcript.ofLog_records wf⟩
  · rcases isCorrupt_replayJournal_eq_false_iff.1 haccepted with rfl |
      ⟨plan, steps, phase, hlogs⟩
    · refine ⟨?_, by simp [replayJournal], by simp⟩
      intro front back hsplit
      obtain ⟨rfl, -⟩ := List.append_eq_nil_iff.1 hsplit.symm
      rfl
    · have hclean := hlogs.replayJournal
      refine ⟨?_, ?_, ?_⟩
      · rintro front back rfl
        rcases hlogs.of_append with rfl | ⟨phase', hfront⟩
        · rfl
        · rw [hfront.replayJournal, isCorrupt_recoveryStateOf]
      · rw [hclean, recoveryStateOf_eq_clean]
        obtain ⟨log, rfl, hlog⟩ := hlogs
        simp only [Phase.eq_ended_iff_of_ofLog hlog, getLast?_eq_terminal_iff, reduceCtorEq,
          false_or]
      · intro plan' steps' rest hrecords
        obtain ⟨log, hlog, -⟩ := id hlogs
        obtain ⟨⟨rfl, rfl⟩, rfl⟩ :
            (plan = plan' ∧ steps = steps') ∧ log.map .ofLog = rest := by
          simpa using hlog.symm.trans hrecords
        refine ⟨?_, fun hrequired applied => ?_⟩
        · obtain ⟨st, hst, -, hagrees⟩ := exists_agrees hlogs
          rw [hrecords] at hst
          exact ⟨st, hst, hagrees.forward, hagrees.rollback, hagrees.prepared⟩
        · have hphase : ∀ value, phase ≠ .ended value := by
            rintro value rfl
            exact hrequired hclean
          exact (logs_restoring hlogs hphase applied).replayJournal

end Recovery

end DarkReNamer
