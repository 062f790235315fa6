import DarkReNamer.UndoLog.Phase

/-!
# The length of an undo log

Every move is prepared and completed at most once in each direction, and a reverse move may in
addition be prepared and settled as not applied any number of times. So a log of `n` moves has at
most `4 * n + 1` records besides two for each time.
-/

namespace UndoLog

/-- A reverse move settled as not applied. -/
def Record.isRefusal : Record → Bool
  | .notApplied _ .rollback => true
  | _ => false

/-- How often a reverse move was settled as not applied. -/
def refusalCount (log : List Record) : ℕ := log.countP Record.isRefusal

theorem refusalCount_append (a b : List Record) :
    refusalCount (a ++ b) = refusalCount a + refusalCount b :=
  List.countP_append

namespace Phase

/-- How long a log of `n` moves can be in a phase, with `r` reverse moves settled as not applied. -/
def Lasts (n r : ℕ) (length : ℕ) : Phase → Prop
  | .forward k => length ≤ 2 * k
  | .forwardPending k => length ≤ 2 * k + 1
  | .rollback k j => length + 2 * j ≤ 2 * n + 2 * k + 2 * r
  | .rollbackPending k j => length + 2 * j + 1 ≤ 2 * n + 2 * k + 2 * r
  | .ended _ => length ≤ 4 * n + 2 * r + 1

/-- One more record. -/
theorem Lasts.next {n r length : ℕ} {phase phase' : Phase} {record : Record}
    (h : phase.Lasts n r length) (hb : phase.Bounded n) (step : phase.next n record = some phase') :
    phase'.Lasts n (r + record.isRefusal.toNat) (length + 1) := by
  revert step
  fun_cases Phase.next n phase record <;> intro step <;>
    simp only [Option.some.injEq, reduceCtorEq] at step <;>
    subst step <;> simp only [Lasts, Bounded, Record.isRefusal, Bool.toNat_true,
      Bool.toNat_false] at h hb ⊢ <;> omega

theorem lasts_of_ofLog {n : ℕ} {log : List Record} {phase : Phase}
    (h : ofLog n log = some phase) : phase.Lasts n (refusalCount log) log.length := by
  induction log using List.reverseRecOn generalizing phase with
  | nil =>
      cases h
      exact Nat.le_refl 0
  | append_singleton log record ih =>
      rw [ofLog_append_singleton] at h
      obtain ⟨before, hbefore, hnext⟩ := Option.bind_eq_some_iff.1 h
      have hlasts := (ih hbefore).next (Bounded.of_log hbefore) hnext
      rw [refusalCount_append, List.length_append]
      exact hlasts

/-- The length of a log. -/
theorem length_le_of_ofLog {n : ℕ} {log : List Record} {phase : Phase}
    (h : ofLog n log = some phase) : log.length ≤ 4 * n + 2 * refusalCount log + 1 := by
  have hlasts := lasts_of_ofLog h
  have hb := Bounded.of_log h
  cases phase with
  | forward k | forwardPending k | rollback k j | rollbackPending k j | ended value =>
      simp only [Lasts, Bounded] at hlasts hb
      omega

end Phase

end UndoLog
