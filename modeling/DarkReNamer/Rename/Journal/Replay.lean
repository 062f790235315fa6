import DarkReNamer.Core.NatSets
import DarkReNamer.Rename.Journal.Record

/-!
# Journal replay

`replayJournal` classifies the records of a journal without looking at the
filesystem (`replay_journal` in `rename/journal.rs`). It keeps two pending slots,
a counter, two sets and a flag. `Describes` says which phase of the undo log such
a state stands for, `transition_describes` that one record moves both alike, and
`replayJournal_eq` that the classification is the one of the phase.
-/

namespace DarkReNamer

open Std UndoLog

/-- Strict journal-format or transition violation. -/
inductive JournalCorruption where
  | missingIntent
  | stepOutOfBounds
  | invalidOrder
  | recordsAfterTerminal
  | invalidTerminal
  deriving DecidableEq, Repr

/-- Why an incomplete transaction requires reconciliation. -/
inductive RecoveryReason where
  | preparedOnly (step : ℕ) (direction : JournalDirection)
  | incomplete
  | corrupt (violation : JournalCorruption)
  deriving DecidableEq, Repr

/-- Replay classification of journal contents. -/
inductive RecoveryState where
  | clean
  | recoveryRequired (plan : Option PlanId) (completedForward completedRollback : ℕ)
      (reason : RecoveryReason)
  deriving DecidableEq, Repr

/-- Whether the journal cannot be trusted. -/
def RecoveryState.isCorrupt : RecoveryState → Bool
  | .recoveryRequired _ _ _ (.corrupt _) => true
  | _ => false

/-- The variables of the replay loop. -/
structure ReplayState where
  forwardPrepared : Option ℕ
  rollbackPrepared : Option ℕ
  nextForward : ℕ
  completedForward : ExtTreeSet ℕ
  completedRollback : ExtTreeSet ℕ
  rollbackStarted : Bool
  terminal : Option JournalTerminal

namespace ReplayState

/-- The variables before the first record after the intent. -/
def initial : ReplayState := ⟨none, none, 0, ∅, ∅, false, none⟩

/-- The last completed forward step that has not been rolled back. -/
def expectedRollback (st : ReplayState) : Option ℕ :=
  st.completedForward.toList.reverse.find? fun candidate =>
    !st.completedRollback.contains candidate

end ReplayState

def validateStep (step stepCount : ℕ) : Except JournalCorruption Unit :=
  if step < stepCount then .ok () else .error .stepOutOfBounds

/-- One record of the replay loop. -/
def ReplayState.transition (stepCount : ℕ) (st : ReplayState) :
    JournalRecord → Except JournalCorruption ReplayState
  | .intent _ _ => .error .invalidOrder
  | .prepared step direction => do
      validateStep step stepCount
      match direction with
      | .forward =>
          if !st.rollbackStarted && st.forwardPrepared.isNone && step == st.nextForward then
            .ok { st with forwardPrepared := some step }
          else .error .invalidOrder
      | .rollback =>
          if st.rollbackPrepared.isNone && st.forwardPrepared.isNone then
            if st.expectedRollback == some step then
              .ok { st with rollbackStarted := true, rollbackPrepared := some step }
            else .error .invalidOrder
          else .error .invalidOrder
  | .completed step direction => do
      validateStep step stepCount
      match direction with
      | .forward =>
          if st.forwardPrepared == some step then
            .ok { st with
              forwardPrepared := none
              completedForward := st.completedForward.insert step
              nextForward := st.nextForward + 1 }
          else .error .invalidOrder
      | .rollback =>
          if st.rollbackPrepared == some step then
            .ok { st with
              rollbackPrepared := none
              completedRollback := st.completedRollback.insert step }
          else .error .invalidOrder
  | .notApplied step direction => do
      validateStep step stepCount
      match direction with
      | .forward =>
          if st.forwardPrepared == some step then
            .ok { st with
              forwardPrepared := none
              rollbackStarted := true
              nextForward := st.nextForward + 1 }
          else .error .invalidOrder
      | .rollback =>
          if st.rollbackPrepared == some step then
            .ok { st with rollbackPrepared := none }
          else .error .invalidOrder
  | .terminal value => .ok { st with terminal := some value }

namespace ReplayState

def corrupt (st : ReplayState) (plan : PlanId) (violation : JournalCorruption) :
    RecoveryState :=
  .recoveryRequired (some plan) st.completedForward.size st.completedRollback.size
    (.corrupt violation)

/-- Whether a terminal record agrees with the transitions before it. -/
def terminalValid (stepCount : ℕ) (st : ReplayState) : JournalTerminal → Bool
  | .committed =>
      st.completedForward.size == stepCount && st.completedRollback.isEmpty &&
        st.forwardPrepared.isNone && st.rollbackPrepared.isNone
  | .rolledBack =>
      st.completedForward == st.completedRollback &&
        st.forwardPrepared.isNone && st.rollbackPrepared.isNone

/-- The classification once all records are read. -/
def classify (plan : PlanId) (stepCount : ℕ) (st : ReplayState) : RecoveryState :=
  match st.terminal with
  | some value =>
      if st.terminalValid stepCount value then .clean
      else st.corrupt plan .invalidTerminal
  | none =>
      match st.forwardPrepared with
      | some step =>
          .recoveryRequired (some plan) st.completedForward.size
            st.completedRollback.size (.preparedOnly step .forward)
      | none =>
          match st.rollbackPrepared with
          | some step =>
              .recoveryRequired (some plan) st.completedForward.size
                st.completedRollback.size (.preparedOnly step .rollback)
          | none =>
              .recoveryRequired (some plan) st.completedForward.size
                st.completedRollback.size .incomplete

/-- The loop over the records after the intent. -/
def replay (plan : PlanId) (stepCount : ℕ) (st : ReplayState) :
    List JournalRecord → RecoveryState
  | [] => st.classify plan stepCount
  | record :: rest =>
      if st.terminal.isSome then st.corrupt plan .recordsAfterTerminal
      else
        match st.transition stepCount record with
        | .error violation => st.corrupt plan violation
        | .ok st' => st'.replay plan stepCount rest

end ReplayState

/-- Strictly replays journal records without filesystem access. -/
def replayJournal : List JournalRecord → RecoveryState
  | [] => .clean
  | .intent plan steps :: rest => ReplayState.initial.replay plan steps.length rest
  | _ :: _ => .recoveryRequired none 0 0 (.corrupt .missingIntent)

example : replayJournal [.intent ⟨7⟩ [], .terminal .committed] = .clean := by
  decide

namespace ReplayState

/-- The completed forward steps are those below `k`, the completed rollback steps
those of them from `j` on, and the pending slots are as given. -/
structure Tracks (st : ReplayState) (k j : ℕ) (forwardPrepared rollbackPrepared : Option ℕ) :
    Prop where
  forward : ∀ i, i ∈ st.completedForward ↔ i < k
  rollback : ∀ i, i ∈ st.completedRollback ↔ j ≤ i ∧ i < k
  forwardPrepared : st.forwardPrepared = forwardPrepared
  rollbackPrepared : st.rollbackPrepared = rollbackPrepared
  terminal : st.terminal = none

/-- The replay variables stand for a phase of the undo log. -/
def Describes (stepCount : ℕ) (st : ReplayState) : Phase → Prop
  | .forward k => st.Tracks k k none none ∧ st.rollbackStarted = false ∧ st.nextForward = k
  | .forwardPending k =>
      st.Tracks k k (some k) none ∧ st.rollbackStarted = false ∧ st.nextForward = k
  | .rollback k j => st.Tracks k j none none ∧ st.rollbackStarted = true
  | .rollbackPending k j => st.Tracks k (j + 1) none (some j) ∧ st.rollbackStarted = true
  | .ended value => st.terminal = some value ∧ st.terminalValid stepCount value = true

theorem describes_initial (stepCount : ℕ) : initial.Describes stepCount (.forward 0) := by
  refine ⟨⟨?_, ?_, rfl, rfl, rfl⟩, rfl, rfl⟩
  · simp [initial]
  · simp [initial]

section Tracks

variable {st : ReplayState} {n k j : ℕ} {fp rp : Option ℕ}

theorem Tracks.expectedRollback (h : st.Tracks k j fp rp) (hj : j ≤ k) :
    st.expectedRollback = if j = 0 then none else some (j - 1) := by
  unfold ReplayState.expectedRollback
  rw [toList_eq_range h.forward]
  refine find?_reverse_range hj fun i hi => ?_
  have hmem := h.rollback i
  rw [← ExtTreeSet.contains_iff_mem] at hmem
  by_cases hlt : i < j
  · have hcontains : st.completedRollback.contains i = false := by
      rw [Bool.eq_false_iff, Ne, hmem]
      omega
    simp [hcontains, hlt]
  · have hcontains : st.completedRollback.contains i = true := hmem.2 ⟨by omega, hi⟩
    simp [hcontains, hlt]

theorem Tracks.size_forward (h : st.Tracks k j fp rp) : st.completedForward.size = k := by
  simpa using size_eq (j := 0) (k := k) (by simpa using h.forward)

theorem Tracks.size_rollback (h : st.Tracks k j fp rp) :
    st.completedRollback.size = k - j := size_eq h.rollback

theorem Tracks.terminalValid_committed (h : st.Tracks k j fp rp) (hj : j ≤ k) :
    st.terminalValid n .committed = true ↔ k = n ∧ j = k ∧ fp = none ∧ rp = none := by
  simp only [terminalValid, h.size_forward, h.forwardPrepared, h.rollbackPrepared,
    Bool.and_eq_true, beq_iff_eq, Option.isNone_iff_eq_none, and_assoc,
    ExtTreeSet.isEmpty_eq_size_beq_zero, h.size_rollback]
  constructor
  · rintro ⟨h₁, h₂, h₃⟩
    exact ⟨h₁, by omega, h₃⟩
  · rintro ⟨h₁, h₂, h₃⟩
    exact ⟨h₁, by omega, h₃⟩

theorem Tracks.terminalValid_rolledBack (h : st.Tracks k j fp rp) (hj : j ≤ k) :
    st.terminalValid n .rolledBack = true ↔ j = 0 ∧ fp = none ∧ rp = none := by
  have hsets : st.completedForward = st.completedRollback ↔ j = 0 := by
    constructor
    · intro heq
      have hsize := congrArg ExtTreeSet.size heq
      rw [h.size_forward, h.size_rollback] at hsize
      by_contra hne
      have hmem := (h.rollback 0).1 (heq ▸ (h.forward 0).2 (by omega))
      omega
    · rintro rfl
      refine ExtTreeSet.ext_mem fun i => ?_
      rw [h.forward, h.rollback]
      omega
  simp only [terminalValid, h.forwardPrepared, h.rollbackPrepared, Bool.and_eq_true,
    beq_iff_eq, Option.isNone_iff_eq_none, and_assoc, hsets]

end Tracks

section Transition

/-! ### One record -/

variable {st : ReplayState} {n : ℕ} {phase : Phase}

/-- What a record does to a replay state: it leads to the next phase, or it is
refused, at once or as a terminal record that contradicts the transitions. -/
def Follows (n : ℕ) (st : ReplayState) (r : UndoLog.Record) : Option Phase → Prop
  | some phase => ∃ st', st.transition n (.ofLog r) = .ok st' ∧ st'.Describes n phase
  | none =>
      (∃ violation, st.transition n (.ofLog r) = .error violation) ∨
      ∃ value, r = .terminal value ∧ st.terminalValid n value = false

/-- All arms but the terminal one check the step index and one more condition. -/
theorem follows_of_guard {r : UndoLog.Record} {next : Option Phase} (step : ℕ)
    (allowed : Bool) (st' : ReplayState)
    (arm : st.transition n (.ofLog r) =
      (do validateStep step n
          if allowed then .ok st' else .error .invalidOrder))
    (hsome : ∀ phase, next = some phase → step < n ∧ allowed = true ∧ st'.Describes n phase)
    (hnone : next = none → step < n → allowed = false) : st.Follows n r next := by
  cases next with
  | some phase =>
      obtain ⟨hstep, hallowed, hdescribes⟩ := hsome phase rfl
      refine ⟨st', ?_, hdescribes⟩
      rw [arm, validateStep, if_pos hstep, hallowed]
      rfl
  | none =>
      refine .inl ?_
      rw [arm, validateStep]
      by_cases hstep : step < n
      · rw [if_pos hstep, hnone rfl hstep]
        exact ⟨_, rfl⟩
      · rw [if_neg hstep]
        exact ⟨_, rfl⟩

theorem follows_prepared_forward (h : st.Describes n phase) (hterminal : st.terminal = none)
    (i : ℕ) :
    st.Follows n (.prepared i .forward) (phase.next n (.prepared i .forward)) := by
  refine follows_of_guard _ _ _ rfl ?_ ?_
  · intro next hnext
    cases phase <;> simp [Phase.next] at hnext
    obtain ⟨⟨rfl, hlt⟩, rfl⟩ := hnext
    obtain ⟨ht, hstarted, hk⟩ := h
    refine ⟨hlt, by simp [hstarted, ht.forwardPrepared, hk], ?_, hstarted, hk⟩
    exact ⟨ht.forward, ht.rollback, rfl, ht.rollbackPrepared, ht.terminal⟩
  · intro hnext hlt
    cases phase with
    | forward k =>
        obtain ⟨ht, hstarted, rfl⟩ := h
        have : i ≠ st.nextForward := by
          rintro rfl
          simp [Phase.next, hlt] at hnext
        simp [this]
    | forwardPending k => simp [h.1.forwardPrepared]
    | rollback k j => simp [h.2]
    | rollbackPending k j => simp [h.2]
    | ended value => simp [h.1] at hterminal

/-- The prepared rollback step is admitted exactly when it is the expected one. -/
theorem follows_prepared_rollback (h : st.Describes n phase) (hb : phase.Bounded n)
    (hterminal : st.terminal = none) (i : ℕ) :
    st.Follows n (.prepared i .rollback) (phase.next n (.prepared i .rollback)) := by
  refine follows_of_guard i
    (st.rollbackPrepared.isNone && st.forwardPrepared.isNone &&
      st.expectedRollback == some i)
    { st with rollbackStarted := true, rollbackPrepared := some i } ?_ ?_ ?_
  · simp only [JournalRecord.ofLog, transition]
    congr 1
    funext _
    cases st.rollbackPrepared.isNone && st.forwardPrepared.isNone <;> rfl
  · intro next hnext
    cases phase with
    | forward k =>
        simp only [Phase.next, Option.ite_none_right_eq_some, Option.some.injEq] at hnext
        obtain ⟨rfl, rfl⟩ := hnext
        obtain ⟨ht, -, -⟩ := h
        have hexpected := ht.expectedRollback (Nat.le_refl _)
        refine ⟨Nat.lt_of_succ_le hb, ?_, ?_, rfl⟩
        · simp [ht.forwardPrepared, ht.rollbackPrepared, hexpected]
        · exact ⟨ht.forward, ht.rollback, ht.forwardPrepared, rfl, ht.terminal⟩
    | rollback k j =>
        simp only [Phase.next, Option.ite_none_right_eq_some, Option.some.injEq] at hnext
        obtain ⟨rfl, rfl⟩ := hnext
        obtain ⟨ht, -⟩ := h
        have hexpected := ht.expectedRollback hb.2
        refine ⟨Nat.lt_of_lt_of_le (Nat.lt_of_succ_le hb.2) hb.1, ?_, ?_, rfl⟩
        · simp [ht.forwardPrepared, ht.rollbackPrepared, hexpected]
        · exact ⟨ht.forward, ht.rollback, ht.forwardPrepared, rfl, ht.terminal⟩
    | forwardPending k => simp [Phase.next] at hnext
    | rollbackPending k j => simp [Phase.next] at hnext
    | ended value => simp [Phase.next] at hnext
  · intro hnext _
    cases phase with
    | forward k =>
        have hexpected := h.1.expectedRollback (Nat.le_refl _)
        have hne : i + 1 ≠ k := by simpa [Phase.next] using hnext
        have : ¬ (¬ k = 0 ∧ k - 1 = i) := by omega
        simp [hexpected, this]
    | rollback k j =>
        have hexpected := h.1.expectedRollback hb.2
        have hne : i + 1 ≠ j := by simpa [Phase.next] using hnext
        have : ¬ (¬ j = 0 ∧ j - 1 = i) := by omega
        simp [hexpected, this]
    | forwardPending k => simp [h.1.forwardPrepared]
    | rollbackPending k j => simp [h.1.rollbackPrepared]
    | ended value => simp [h.1] at hterminal

/-- Completing a forward step needs its slot, and the slot is set only by its phase. -/
theorem forwardPrepared_eq (h : st.Describes n phase) (hterminal : st.terminal = none)
    {i : ℕ} (hi : st.forwardPrepared = some i) : phase = .forwardPending i := by
  cases phase with
  | forward k => simp [h.1.forwardPrepared] at hi
  | forwardPending k => simpa [h.1.forwardPrepared] using hi
  | rollback k j => simp [h.1.forwardPrepared] at hi
  | rollbackPending k j => simp [h.1.forwardPrepared] at hi
  | ended value => simp [h.1] at hterminal

theorem rollbackPrepared_eq (h : st.Describes n phase) (hterminal : st.terminal = none)
    {i : ℕ} (hi : st.rollbackPrepared = some i) : ∃ k, phase = .rollbackPending k i := by
  cases phase with
  | forward k => simp [h.1.rollbackPrepared] at hi
  | forwardPending k => simp [h.1.rollbackPrepared] at hi
  | rollback k j => simp [h.1.rollbackPrepared] at hi
  | rollbackPending k j => simpa [h.1.rollbackPrepared] using hi
  | ended value => simp [h.1] at hterminal

theorem follows_completed (h : st.Describes n phase) (hb : phase.Bounded n)
    (hterminal : st.terminal = none) (i : ℕ) (direction : JournalDirection) :
    st.Follows n (.completed i direction) (phase.next n (.completed i direction)) := by
  cases direction with
  | forward =>
      refine follows_of_guard _ _ _ rfl ?_ ?_
      · intro next hnext
        cases phase <;> simp [Phase.next] at hnext
        obtain ⟨rfl, rfl⟩ := hnext
        obtain ⟨ht, hstarted, hk⟩ := h
        refine ⟨hb, by simp [ht.forwardPrepared], ⟨?_, ?_, rfl, ht.rollbackPrepared,
          ht.terminal⟩, hstarted, by simp [hk]⟩
        · intro m
          simp only [ExtTreeSet.mem_insert, Nat.compare_eq_eq, ht.forward]
          omega
        · intro m
          rw [ht.rollback]
          omega
      · intro hnext _
        rw [beq_eq_false_iff_ne]
        intro hi
        obtain rfl := forwardPrepared_eq h hterminal hi
        simp [Phase.next] at hnext
  | rollback =>
      refine follows_of_guard _ _ _ rfl ?_ ?_
      · intro next hnext
        cases phase <;> simp [Phase.next] at hnext
        obtain ⟨rfl, rfl⟩ := hnext
        obtain ⟨ht, hstarted⟩ := h
        refine ⟨Nat.lt_of_lt_of_le hb.2 hb.1, by simp [ht.rollbackPrepared], ⟨ht.forward, ?_,
          ht.forwardPrepared, rfl, ht.terminal⟩, hstarted⟩
        intro m
        simp only [ExtTreeSet.mem_insert, Nat.compare_eq_eq, ht.rollback]
        have := hb.2
        omega
      · intro hnext _
        rw [beq_eq_false_iff_ne]
        intro hi
        obtain ⟨k, rfl⟩ := rollbackPrepared_eq h hterminal hi
        simp [Phase.next] at hnext

theorem follows_notApplied (h : st.Describes n phase) (hb : phase.Bounded n)
    (hterminal : st.terminal = none) (i : ℕ) (direction : JournalDirection) :
    st.Follows n (.notApplied i direction) (phase.next n (.notApplied i direction)) := by
  cases direction with
  | forward =>
      refine follows_of_guard _ _ _ rfl ?_ ?_
      · intro next hnext
        cases phase <;> simp [Phase.next] at hnext
        obtain ⟨rfl, rfl⟩ := hnext
        obtain ⟨ht, -, -⟩ := h
        refine ⟨hb, by simp [ht.forwardPrepared], ?_, rfl⟩
        exact ⟨ht.forward, ht.rollback, rfl, ht.rollbackPrepared, ht.terminal⟩
      · intro hnext _
        rw [beq_eq_false_iff_ne]
        intro hi
        obtain rfl := forwardPrepared_eq h hterminal hi
        simp [Phase.next] at hnext
  | rollback =>
      refine follows_of_guard _ _ _ rfl ?_ ?_
      · intro next hnext
        cases phase <;> simp [Phase.next] at hnext
        obtain ⟨rfl, rfl⟩ := hnext
        obtain ⟨ht, hstarted⟩ := h
        refine ⟨Nat.lt_of_lt_of_le hb.2 hb.1, by simp [ht.rollbackPrepared], ?_, hstarted⟩
        exact ⟨ht.forward, ht.rollback, ht.forwardPrepared, rfl, ht.terminal⟩
      · intro hnext _
        rw [beq_eq_false_iff_ne]
        intro hi
        obtain ⟨k, rfl⟩ := rollbackPrepared_eq h hterminal hi
        simp [Phase.next] at hnext

theorem terminalValid_iff (h : st.Describes n phase) (hb : phase.Bounded n)
    (hterminal : st.terminal = none) (value : JournalTerminal) :
    st.terminalValid n value = true ↔
      phase.next n (.terminal value) = some (.ended value) := by
  cases value with
  | committed =>
      cases phase with
      | forward k => simp [h.1.terminalValid_committed, Phase.next]
      | forwardPending k => simp [h.1.terminalValid_committed, Phase.next]
      | rollback k j => simp [h.1.terminalValid_committed hb.2, Phase.next]
      | rollbackPending k j => simp [h.1.terminalValid_committed hb.2, Phase.next]
      | ended value => simp [h.1] at hterminal
  | rolledBack =>
      cases phase with
      | forward k => simp [h.1.terminalValid_rolledBack, Phase.next]
      | forwardPending k => simp [h.1.terminalValid_rolledBack, Phase.next]
      | rollback k j => simp [h.1.terminalValid_rolledBack hb.2, Phase.next]
      | rollbackPending k j => simp [h.1.terminalValid_rolledBack hb.2, Phase.next]
      | ended value => simp [h.1] at hterminal

theorem follows_terminal (h : st.Describes n phase) (hb : phase.Bounded n)
    (hterminal : st.terminal = none) (value : JournalTerminal) :
    st.Follows n (.terminal value) (phase.next n (.terminal value)) := by
  have hvalid := terminalValid_iff h hb hterminal value
  cases hnext : phase.next n (.terminal value) with
  | none =>
      refine .inr ⟨value, rfl, ?_⟩
      simpa [hnext] using hvalid
  | some next =>
      obtain rfl := Phase.next_terminal hnext
      refine ⟨_, rfl, rfl, ?_⟩
      have : st.terminalValid n value = true := hvalid.2 hnext
      cases value <;> simpa [terminalValid] using this

/-- One record moves the replay variables and the phase alike. -/
theorem transition_describes (h : st.Describes n phase) (hb : phase.Bounded n)
    (hterminal : st.terminal = none) (r : UndoLog.Record) :
    st.Follows n r (phase.next n r) := by
  cases r with
  | prepared i direction =>
      cases direction with
      | forward => exact follows_prepared_forward h hterminal i
      | rollback => exact follows_prepared_rollback h hb hterminal i
  | completed i direction => exact follows_completed h hb hterminal i direction
  | notApplied i direction => exact follows_notApplied h hb hterminal i direction
  | terminal value => exact follows_terminal h hb hterminal value

end Transition

end ReplayState

section Classification

/-! ### Whole journals -/

variable {n : ℕ} {plan : PlanId} {steps : List JournalStep} {records : List JournalRecord}

/-- The classification of a journal in a given phase. -/
def recoveryStateOf (plan : PlanId) : Phase → RecoveryState
  | .forward k => .recoveryRequired (some plan) k 0 .incomplete
  | .forwardPending k => .recoveryRequired (some plan) k 0 (.preparedOnly k .forward)
  | .rollback k j => .recoveryRequired (some plan) k (k - j) .incomplete
  | .rollbackPending k j =>
      .recoveryRequired (some plan) k (k - (j + 1)) (.preparedOnly j .rollback)
  | .ended _ => .clean

@[simp] theorem isCorrupt_recoveryStateOf (plan : PlanId) (phase : Phase) :
    (recoveryStateOf plan phase).isCorrupt = false := by
  cases phase <;> rfl

theorem recoveryStateOf_eq_clean {phase : Phase} :
    recoveryStateOf plan phase = .clean ↔ ∃ value, phase = .ended value := by
  cases phase <;> simp [recoveryStateOf]

namespace ReplayState

variable {st : ReplayState} {phase phase' : Phase} {log : List UndoLog.Record}

theorem Describes.classify (h : st.Describes n phase) :
    st.classify plan n = recoveryStateOf plan phase := by
  cases phase with
  | ended value => simp [ReplayState.classify, h.1, h.2, recoveryStateOf]
  | _ =>
      obtain ⟨ht, -⟩ := h
      simp [ReplayState.classify, ht.terminal, ht.forwardPrepared, ht.rollbackPrepared,
        ht.size_forward, ht.size_rollback, recoveryStateOf]

theorem Describes.ended (h : st.Describes n phase) (hterminal : st.terminal ≠ none) :
    ∃ value, phase = .ended value := by
  cases phase with
  | ended value => exact ⟨value, rfl⟩
  | _ => exact absurd h.1.terminal hterminal

theorem replay_of_run (h : st.Describes n phase) (hb : phase.Bounded n)
    (hlog : phase.run n log = some phase') :
    st.replay plan n (log.map .ofLog) = recoveryStateOf plan phase' := by
  induction log generalizing st phase with
  | nil =>
      obtain rfl := Option.some.inj hlog
      exact h.classify
  | cons r log ih =>
      obtain ⟨next, hnext, hrest⟩ := Option.bind_eq_some_iff.1 hlog
      have hterminal : st.terminal = none := by
        by_contra hne
        obtain ⟨value, rfl⟩ := h.ended hne
        simp [Phase.next] at hnext
      have hfollows := transition_describes h hb hterminal r
      rw [hnext] at hfollows
      obtain ⟨st', hst', hdescribes⟩ := hfollows
      rw [List.map_cons, replay, hterminal, hst']
      exact ih hdescribes (hb.next hnext) hrest

theorem isCorrupt_replay_of_run (plan : PlanId) (h : st.Describes n phase) (hb : phase.Bounded n)
    (hlog : phase.run n log = none) :
    (st.replay plan n (log.map .ofLog)).isCorrupt = true := by
  induction log generalizing st phase with
  | nil => cases hlog
  | cons r log ih =>
      rw [List.map_cons, replay]
      by_cases hterminal : st.terminal = none
      · have hfollows := transition_describes h hb hterminal r
        rw [hterminal]
        cases hnext : phase.next n r with
        | some next =>
            rw [hnext] at hfollows
            obtain ⟨st', hst', hdescribes⟩ := hfollows
            rw [hst']
            rw [Phase.run_cons, hnext] at hlog
            exact ih hdescribes (hb.next hnext) hlog
        | none =>
            rw [hnext] at hfollows
            rcases hfollows with ⟨violation, herror⟩ | ⟨value, rfl, hinvalid⟩
            · rw [herror]
              rfl
            · have hmissing : ({ st with terminal := some value } : ReplayState).terminalValid
                  n value = false := by
                cases value <;> simpa [terminalValid] using hinvalid
              cases log with
              | nil => simp [JournalRecord.ofLog, transition, replay, classify, hmissing,
                  corrupt, RecoveryState.isCorrupt]
              | cons r' log => rfl
      · obtain ⟨value, hvalue⟩ := Option.ne_none_iff_exists'.1 hterminal
        rw [hvalue]
        rfl

/-- The replay variables after more records. -/
def after (stepCount : ℕ) (st : ReplayState) (records : List JournalRecord) :
    Except JournalCorruption ReplayState :=
  records.foldlM (transition stepCount) st

theorem after_of_run (h : st.Describes n phase) (hb : phase.Bounded n)
    (hlog : phase.run n log = some phase') :
    ∃ st', st.after n (log.map .ofLog) = .ok st' ∧ st'.Describes n phase' := by
  induction log generalizing st phase with
  | nil =>
      obtain rfl := Option.some.inj hlog
      exact ⟨st, rfl, h⟩
  | cons r log ih =>
      obtain ⟨next, hnext, hrest⟩ := Option.bind_eq_some_iff.1 hlog
      have hterminal : st.terminal = none := by
        by_contra hne
        obtain ⟨value, rfl⟩ := h.ended hne
        simp [Phase.next] at hnext
      have hfollows := transition_describes h hb hterminal r
      rw [hnext] at hfollows
      obtain ⟨st', hst', hdescribes⟩ := hfollows
      obtain ⟨last, hlast, hphase'⟩ := ih hdescribes (hb.next hnext) hrest
      refine ⟨last, ?_, hphase'⟩
      rw [after, List.map_cons, List.foldlM_cons, hst']
      exact hlast

/-- No journal with a second intent is accepted. -/
theorem isCorrupt_replay_of_intent (n : ℕ) (plan : PlanId) (st : ReplayState) {other : PlanId}
    {manifest : List JournalStep} (h : .intent other manifest ∈ records) :
    (st.replay plan n records).isCorrupt = true := by
  induction records generalizing st with
  | nil => simp at h
  | cons record records ih =>
      rw [replay]
      cases st.terminal with
      | some value => rfl
      | none =>
          rcases List.mem_cons.1 h with rfl | hrest
          · rfl
          · cases st.transition n record with
            | error violation => rfl
            | ok st' => exact ih st' hrest

end ReplayState

/-- The records are an intent followed by an undo log in the given phase. -/
def Logs (records : List JournalRecord) (plan : PlanId) (steps : List JournalStep)
    (phase : Phase) : Prop :=
  ∃ log, records = .intent plan steps :: log.map .ofLog ∧
    Phase.ofLog steps.length log = some phase

theorem logs_intent (plan : PlanId) (steps : List JournalStep) :
    Logs [.intent plan steps] plan steps (.forward 0) :=
  ⟨[], rfl, rfl⟩

theorem Logs.bounded {phase : Phase} (h : Logs records plan steps phase) :
    phase.Bounded steps.length := by
  obtain ⟨log, -, hlog⟩ := h
  exact Phase.Bounded.of_log hlog

theorem Logs.append {phase phase' : Phase} {r : UndoLog.Record}
    (h : Logs records plan steps phase) (hnext : phase.next steps.length r = some phase') :
    Logs (records ++ [.ofLog r]) plan steps phase' := by
  obtain ⟨log, rfl, hlog⟩ := h
  refine ⟨log ++ [r], by simp, ?_⟩
  rw [Phase.ofLog_append_singleton, hlog]
  exact hnext

theorem Logs.replayJournal {phase : Phase} (h : Logs records plan steps phase) :
    replayJournal records = recoveryStateOf plan phase := by
  obtain ⟨log, rfl, hlog⟩ := h
  exact ReplayState.replay_of_run (ReplayState.describes_initial _) (Nat.zero_le _) hlog

/-- The last record of an ended journal is the terminal one. -/
theorem Logs.getLast? {value : Terminal} (h : Logs records plan steps (.ended value)) :
    records.getLast? = some (.terminal value) := by
  obtain ⟨log, rfl, hlog⟩ := h
  have hlast := (Phase.eq_ended_iff_of_ofLog hlog).1 rfl
  rw [List.getLast?_cons, List.getLast?_map, hlast]
  rfl

/-- The records without an intent are an undo log. -/
theorem exists_log_of_not_intent
    (h : ∀ plan steps, JournalRecord.intent plan steps ∉ records) :
    ∃ log : List UndoLog.Record, records = log.map .ofLog := by
  induction records with
  | nil => exact ⟨[], rfl⟩
  | cons record records ih =>
      obtain ⟨log, rfl⟩ := ih fun plan steps hmem =>
        h plan steps (List.mem_cons_of_mem _ hmem)
      rcases record.intent_or_ofLog with ⟨plan, steps, rfl⟩ | ⟨r, rfl⟩
      · exact absurd List.mem_cons_self (h plan steps)
      · exact ⟨r :: log, rfl⟩

/-- A journal is accepted exactly when it is empty or an intent followed by an undo
log of its steps. -/
theorem isCorrupt_replayJournal_eq_false_iff :
    (replayJournal records).isCorrupt = false ↔
      records = [] ∨ ∃ plan steps phase, Logs records plan steps phase := by
  constructor
  · intro h
    cases records with
    | nil => exact .inl rfl
    | cons record rest =>
        right
        cases record with
        | intent plan steps =>
            have hnone : ∀ other manifest, JournalRecord.intent other manifest ∉ rest := by
              intro other manifest hmem
              have := ReplayState.isCorrupt_replay_of_intent steps.length plan
                ReplayState.initial hmem
              simp [replayJournal, this] at h
            obtain ⟨log, rfl⟩ := exists_log_of_not_intent hnone
            cases hlog : Phase.ofLog steps.length log with
            | some phase => exact ⟨plan, steps, phase, log, rfl, hlog⟩
            | none =>
                have := ReplayState.isCorrupt_replay_of_run plan
                  (ReplayState.describes_initial steps.length) (Nat.zero_le _) hlog
                simp [replayJournal, this] at h
        | _ => simp [replayJournal, RecoveryState.isCorrupt] at h
  · rintro (rfl | ⟨plan, steps, phase, h⟩)
    · rfl
    · rw [h.replayJournal, isCorrupt_recoveryStateOf]

/-- Accepted journals are closed under prefixes, with the same intent. -/
theorem Logs.of_append {a b : List JournalRecord} {phase : Phase}
    (h : Logs (a ++ b) plan steps phase) :
    a = [] ∨ ∃ phase', Logs a plan steps phase' := by
  obtain ⟨log, hrecords, hlog⟩ := h
  cases a with
  | nil => exact .inl rfl
  | cons record a =>
      right
      simp only [List.cons_append, List.cons.injEq] at hrecords
      obtain ⟨rfl, hrest⟩ := hrecords
      obtain ⟨log₁, log₂, rfl, rfl, -⟩ := List.map_eq_append_iff.1 hrest.symm
      have hsome : (Phase.ofLog steps.length log₁).isSome :=
        Phase.ofLog_isSome_of_append (by rw [hlog]; rfl)
      obtain ⟨phase', hphase'⟩ := Option.isSome_iff_exists.1 hsome
      exact ⟨phase', log₁, rfl, hphase'⟩

end Classification

/-- A prefix of an accepted journal is accepted. -/
theorem isCorrupt_replayJournal_of_append {a b : List JournalRecord}
    (h : (replayJournal (a ++ b)).isCorrupt = false) : (replayJournal a).isCorrupt = false := by
  rw [isCorrupt_replayJournal_eq_false_iff] at h ⊢
  rcases h with hempty | ⟨plan, steps, phase, hlogs⟩
  · exact .inl (List.append_eq_nil_iff.1 hempty).1
  · rcases hlogs.of_append with hnil | ⟨phase', hfront⟩
    · exact .inl hnil
    · exact .inr ⟨plan, steps, phase', hfront⟩

end DarkReNamer
