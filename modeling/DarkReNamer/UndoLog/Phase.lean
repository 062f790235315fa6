import Mathlib.Data.List.Induction
import Mathlib.Tactic.Common

/-!
# The phases of an undo log

A transaction of `n` numbered moves is logged by records written around every
move: `prepared` before it, `completed` or `notApplied` after it, first forward
for the moves `0, 1, …` and then, when the transaction is undone, in reverse
order. `Phase` is what such a log says so far, `Phase.next` the phase after one
more record, and a record that no phase admits has no next phase.

Nothing here depends on what a move does. `Phase.Holds` relates a phase to a
family `At k` of assertions about the state after the first `k` moves: with a
move pending the state is the one before it or the one after it.
-/

namespace UndoLog

/-- Direction of a logged move. -/
inductive Direction where
  | forward
  | rollback
  deriving DecidableEq, Repr

/-- Verified end of a transaction. -/
inductive Terminal where
  | committed
  | rolledBack
  deriving DecidableEq, Repr

/-- One record of the log. -/
inductive Record where
  | prepared (move : ℕ) (direction : Direction)
  | completed (move : ℕ) (direction : Direction)
  | notApplied (move : ℕ) (direction : Direction)
  | terminal (value : Terminal)
  deriving DecidableEq, Repr

/-- What a log says: `done` forward moves are completed, and in the rollback phases
the moves below `left` are not yet undone. -/
inductive Phase where
  | forward (done : ℕ)
  | forwardPending (done : ℕ)
  | rollback (done left : ℕ)
  | rollbackPending (done move : ℕ)
  | ended (value : Terminal)
  deriving DecidableEq, Repr

namespace Phase

/-- The phase after one more record, for a transaction of `n` moves. -/
def next (n : ℕ) : Phase → Record → Option Phase
  | .forward k, .prepared i .forward =>
      if i = k ∧ k < n then some (.forwardPending k) else none
  | .forward k, .prepared i .rollback =>
      if i + 1 = k then some (.rollbackPending k i) else none
  | .forward k, .terminal .committed =>
      if k = n then some (.ended .committed) else none
  | .forward k, .terminal .rolledBack =>
      if k = 0 then some (.ended .rolledBack) else none
  | .forwardPending k, .completed i .forward =>
      if i = k then some (.forward (k + 1)) else none
  | .forwardPending k, .notApplied i .forward =>
      if i = k then some (.rollback k k) else none
  | .rollback k j, .prepared i .rollback =>
      if i + 1 = j then some (.rollbackPending k i) else none
  | .rollback k j, .terminal .committed =>
      if k = n ∧ j = k then some (.ended .committed) else none
  | .rollback _ j, .terminal .rolledBack =>
      if j = 0 then some (.ended .rolledBack) else none
  | .rollbackPending k j, .completed i .rollback =>
      if i = j then some (.rollback k j) else none
  | .rollbackPending k j, .notApplied i .rollback =>
      if i = j then some (.rollback k (j + 1)) else none
  | _, _ => none

attribute [local simp] next

/-- The phase after a list of records. -/
def run (n : ℕ) (phase : Phase) : List Record → Option Phase
  | [] => some phase
  | r :: rs => (next n phase r).bind fun phase' => run n phase' rs

/-- The phase a whole log describes. -/
def ofLog (n : ℕ) (log : List Record) : Option Phase := run n (.forward 0) log

@[simp] theorem run_nil (n : ℕ) (phase : Phase) : run n phase [] = some phase := rfl

@[simp] theorem run_cons (n : ℕ) (phase : Phase) (r : Record) (rs : List Record) :
    run n phase (r :: rs) = (next n phase r).bind fun phase' => run n phase' rs := rfl

theorem run_append (n : ℕ) (phase : Phase) (a b : List Record) :
    run n phase (a ++ b) = (run n phase a).bind fun phase' => run n phase' b := by
  induction a generalizing phase with
  | nil => rfl
  | cons r rs ih =>
      simp only [List.cons_append, run_cons, Option.bind_assoc]
      congr 1
      funext phase'
      exact ih phase'

theorem ofLog_append (n : ℕ) (a b : List Record) :
    ofLog n (a ++ b) = (ofLog n a).bind fun phase => run n phase b :=
  run_append n _ a b

theorem ofLog_append_singleton (n : ℕ) (log : List Record) (r : Record) :
    ofLog n (log ++ [r]) = (ofLog n log).bind fun phase => next n phase r := by
  rw [ofLog_append]
  congr 1
  funext phase
  simp

/-- The logs that have a phase are closed under prefixes. -/
theorem ofLog_isSome_of_append {n : ℕ} {a b : List Record}
    (h : (ofLog n (a ++ b)).isSome) : (ofLog n a).isSome := by
  rw [ofLog_append] at h
  cases hphase : ofLog n a with
  | none => simp [hphase] at h
  | some phase => rfl

/-- The bounds every phase of a log keeps. -/
def Bounded (n : ℕ) : Phase → Prop
  | .forward k => k ≤ n
  | .forwardPending k => k < n
  | .rollback k j => k ≤ n ∧ j ≤ k
  | .rollbackPending k j => k ≤ n ∧ j < k
  | .ended _ => True

theorem Bounded.next {n : ℕ} {phase phase' : Phase} {r : Record}
    (h : Bounded n phase) (step : phase.next n r = some phase') :
    Bounded n phase' := by
  revert step
  fun_cases Phase.next n phase r <;> intro step <;>
    simp only [Option.some.injEq, reduceCtorEq] at step <;>
    subst step <;> simp only [Bounded] at h ⊢ <;> omega

theorem Bounded.run {n : ℕ} {phase phase' : Phase} {rs : List Record}
    (h : Bounded n phase) (steps : phase.run n rs = some phase') :
    Bounded n phase' := by
  induction rs generalizing phase with
  | nil =>
      cases steps
      exact h
  | cons r rs ih =>
      obtain ⟨middle, hmiddle, hrest⟩ := Option.bind_eq_some_iff.1 steps
      exact ih (h.next hmiddle) hrest

theorem Bounded.of_log {n : ℕ} {log : List Record} {phase : Phase}
    (h : ofLog n log = some phase) : Bounded n phase :=
  Bounded.run (show Bounded n (.forward 0) from Nat.zero_le n) h

/-- A terminal record ends the log. -/
theorem next_terminal {n : ℕ} {phase next : Phase} {value : Terminal}
    (h : phase.next n (.terminal value) = some next) : next = .ended value := by
  cases phase <;> cases value <;> simp_all

/-- Only a terminal record ends the log. -/
theorem eq_terminal_of_next {n : ℕ} {phase : Phase} {value : Terminal} {r : Record}
    (h : phase.next n r = some (.ended value)) : r = .terminal value := by
  revert h
  fun_cases Phase.next n phase r <;> simp

/-- The log has ended exactly when its last record is a terminal one. -/
theorem eq_ended_iff_of_ofLog {n : ℕ} {log : List Record} {phase : Phase} {value : Terminal}
    (h : ofLog n log = some phase) :
    phase = .ended value ↔ log.getLast? = some (.terminal value) := by
  cases log using List.reverseRecOn with
  | nil =>
      obtain rfl := Option.some.inj h
      simp
  | append_singleton log r =>
      rw [ofLog_append_singleton] at h
      obtain ⟨middle, -, hstep⟩ := Option.bind_eq_some_iff.1 h
      simp only [List.getLast?_append, List.getLast?_singleton, Option.some_or,
        Option.some.injEq]
      constructor
      · rintro rfl
        exact eq_terminal_of_next hstep
      · rintro rfl
        exact next_terminal hstep

/-- The state described by a phase, for a family of assertions `At k` about the
state after the first `k` moves. A pending move may or may not have happened. -/
def Holds {σ : Type*} (At : ℕ → σ → Prop) (n : ℕ) : Phase → σ → Prop
  | .forward k, s => At k s
  | .forwardPending k, s => At k s ∨ At (k + 1) s
  | .rollback _ j, s => At j s
  | .rollbackPending _ j, s => At (j + 1) s ∨ At j s
  | .ended .committed, s => At n s
  | .ended .rolledBack, s => At 0 s

/-- The number of moves in effect, when a move in doubt did or did not happen. -/
def left : Bool → Phase → ℕ
  | _, .forward k => k
  | true, .forwardPending k => k + 1
  | false, .forwardPending k => k
  | _, .rollback _ j => j
  | true, .rollbackPending _ j => j
  | false, .rollbackPending _ j => j + 1
  | _, .ended _ => 0

/-- The move a phase is in doubt about. -/
def pending : Phase → Option (ℕ × Direction)
  | .forwardPending k => some (k, .forward)
  | .rollbackPending _ j => some (j, .rollback)
  | _ => none

/-- The pending move is one of the transaction. -/
theorem Bounded.pending_lt {n i : ℕ} {direction : Direction} {phase : Phase}
    (hb : phase.Bounded n) (h : phase.pending = some (i, direction)) : i < n := by
  cases phase <;> simp [pending] at h
  · exact h.1 ▸ hb
  · exact h.1 ▸ Nat.lt_of_lt_of_le hb.2 hb.1

theorem Bounded.left_le {n : ℕ} {phase : Phase} (hb : phase.Bounded n) (applied : Bool) :
    phase.left applied ≤ n := by
  cases phase <;> cases applied <;> simp only [Bounded, left] at hb ⊢ <;> omega

/-- A phase is in doubt about a move exactly after the record written before that move. -/
theorem pending_eq_some_iff_of_next {n i : ℕ} {direction : Direction} {phase phase' : Phase}
    {r : Record} (h : phase.next n r = some phase') :
    phase'.pending = some (i, direction) ↔ r = .prepared i direction := by
  revert h
  fun_cases Phase.next n phase r <;> intro h <;>
    simp only [Option.some.injEq, reduceCtorEq] at h <;> subst h <;>
    simp_all [pending]

theorem pending_eq_some_iff_of_ofLog {n i : ℕ} {direction : Direction} {log : List Record}
    {phase : Phase} (h : ofLog n log = some phase) :
    phase.pending = some (i, direction) ↔ log.getLast? = some (.prepared i direction) := by
  cases log using List.reverseRecOn with
  | nil =>
      obtain rfl := Option.some.inj h
      simp [pending]
  | append_singleton log r =>
      rw [ofLog_append_singleton] at h
      obtain ⟨middle, -, hstep⟩ := Option.bind_eq_some_iff.1 h
      rw [pending_eq_some_iff_of_next hstep]
      simp

/-- A record written before a move, or one that says that it did not happen, leaves the
moves in effect. -/
theorem left_of_next_prepared {n i : ℕ} {direction : Direction} {phase phase' : Phase}
    (h : phase.next n (.prepared i direction) = some phase') :
    phase'.left false = phase.left false := by
  cases direction <;> cases phase <;> simp at h <;> obtain ⟨h, rfl⟩ := h <;>
    simp [left, h]

theorem left_of_next_notApplied {n i : ℕ} {direction : Direction} {phase phase' : Phase}
    (h : phase.next n (.notApplied i direction) = some phase') :
    phase'.left false = phase.left false := by
  cases direction <;> cases phase <;> simp at h <;> obtain ⟨h, rfl⟩ := h <;>
    simp [left]

/-- A completed move is the pending one. -/
theorem next_completed_forward {n i : ℕ} {phase phase' : Phase}
    (h : phase.next n (.completed i .forward) = some phase') :
    phase = .forwardPending i ∧ phase' = .forward (i + 1) := by
  cases phase <;> simp at h
  obtain ⟨rfl, rfl⟩ := h
  exact ⟨rfl, rfl⟩

theorem next_completed_rollback {n i : ℕ} {phase phase' : Phase}
    (h : phase.next n (.completed i .rollback) = some phase') :
    ∃ k, phase = .rollbackPending k i ∧ phase' = .rollback k i := by
  cases phase <;> simp at h
  obtain ⟨rfl, rfl⟩ := h
  exact ⟨_, rfl, rfl⟩

/-- Nothing follows the end of a log. -/
theorem run_ended {n : ℕ} {value : Terminal} {rs : List Record} {phase : Phase}
    (h : run n (.ended value) rs = some phase) : phase = .ended value := by
  cases rs with
  | nil => exact (Option.some.inj h).symm
  | cons r rs => cases r <;> simp at h

/-- An open phase holds where the moves in effect, with the one in doubt resolved
some way, have led. -/
theorem holds_iff_left {σ : Type*} {At : ℕ → σ → Prop} {n : ℕ} {phase : Phase} {s : σ}
    (h : ∀ value, phase ≠ .ended value) :
    Holds At n phase s ↔ ∃ applied, At (phase.left applied) s := by
  cases phase with
  | ended value => exact absurd rfl (h value)
  | forward k => simp [Holds, left]
  | rollback k j => simp [Holds, left]
  | forwardPending k => simp [Holds, left]
  | rollbackPending k j => simp [Holds, left]

end Phase

end UndoLog
