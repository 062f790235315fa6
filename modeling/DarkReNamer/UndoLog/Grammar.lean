import DarkReNamer.UndoLog.Phase

/-!
# The grammar of an undo log

`Phase.ofLog` recognises logs record by record. This file gives the same set of
logs as a grammar: forward groups, an optional unfinished or refused forward
attempt, rollback groups in descending order with their refused attempts, and
an optional terminal record. `Transcript` is a derivation in that grammar and
`ofLog_eq_some_iff` says that a log has a phase exactly when it is the log of a
transcript, and which phase it has.
-/

namespace UndoLog

/-- The records of a forward move that completed. -/
def forwardGroup (i : ℕ) : List Record :=
  [.prepared i .forward, .completed i .forward]

/-- The records of the first `k` forward moves. -/
def forwardGroups : ℕ → List Record
  | 0 => []
  | k + 1 => forwardGroups k ++ forwardGroup k

/-- `m` refused attempts to undo the move `i`. -/
def refusals (i : ℕ) : ℕ → List Record
  | 0 => []
  | m + 1 => refusals i m ++ [.prepared i .rollback, .notApplied i .rollback]

/-- The records of an undone move, after `m` refused attempts. -/
def rollbackGroup (i m : ℕ) : List Record :=
  refusals i m ++ [.prepared i .rollback, .completed i .rollback]

/-- The rollback groups of the moves `k - 1, k - 2, …`, with the numbers of refused
attempts in each. -/
def rollbackGroups (k : ℕ) : List ℕ → List Record
  | [] => []
  | m :: ms => rollbackGroup (k - 1) m ++ rollbackGroups (k - 1) ms

/-- How the forward phase stopped after its completed groups. -/
inductive Attempt where
  | none
  | pending
  | refused
  deriving DecidableEq, Repr

def Attempt.records (k : ℕ) : Attempt → List Record
  | .none => []
  | .pending => [.prepared k .forward]
  | .refused => [.prepared k .forward, .notApplied k .forward]

/-- A derivation in the grammar. `retries` lists the refused attempts of the
complete rollback groups; `cutRefusals` and `cutPending` describe the last group
when the log stops inside it. -/
structure Transcript where
  done : ℕ
  attempt : Attempt
  retries : List ℕ
  cutRefusals : ℕ
  cutPending : Bool
  terminal : Option Terminal
  deriving DecidableEq, Repr

namespace Transcript

/-- The move the next rollback record is about. -/
def current (t : Transcript) : ℕ := t.done - t.retries.length - 1

def cut (t : Transcript) : List Record :=
  refusals t.current t.cutRefusals ++
    if t.cutPending then [.prepared t.current .rollback] else []

def records (t : Transcript) : List Record :=
  forwardGroups t.done ++ t.attempt.records t.done ++
    rollbackGroups t.done t.retries ++ t.cut ++
    (t.terminal.map Record.terminal).toList

/-- The side conditions of the grammar, for a transaction of `n` moves. -/
structure WellFormed (n : ℕ) (t : Transcript) : Prop where
  done_le : t.done ≤ n
  attempt_lt : t.attempt ≠ .none → t.done < n
  pending_last : t.attempt = .pending →
    t.retries = [] ∧ t.cutRefusals = 0 ∧ t.cutPending = false ∧ t.terminal = none
  retries_le : t.retries.length ≤ t.done
  cut_lt : 0 < t.cutRefusals ∨ t.cutPending = true → t.retries.length < t.done
  committed : t.terminal = some .committed →
    t.done = n ∧ t.retries = [] ∧ t.cutPending = false
  rolledBack : t.terminal = some .rolledBack →
    t.retries.length = t.done ∧ t.cutPending = false

/-- Whether no record of the rollback phase has been written. -/
def InForward (t : Transcript) : Prop :=
  t.attempt = .none ∧ t.retries = [] ∧ t.cutRefusals = 0 ∧ t.cutPending = false

instance (t : Transcript) : Decidable t.InForward := by
  unfold InForward
  infer_instance

/-- The phase a transcript stops in. -/
def phase (t : Transcript) : Phase :=
  match t.terminal with
  | some value => .ended value
  | none =>
      if t.attempt = .pending then .forwardPending t.done
      else if t.InForward then .forward t.done
      else if t.cutPending then .rollbackPending t.done t.current
      else .rollback t.done (t.done - t.retries.length)

/-- The transcript without its terminal record. -/
def body (t : Transcript) : Transcript := { t with terminal := none }

theorem records_eq (t : Transcript) :
    t.records = t.body.records ++ (t.terminal.map Record.terminal).toList := by
  simp only [records, body, cut, current, Option.map_none, Option.toList_none,
    List.append_nil]
  rfl

end Transcript

section Complete

/-! ### Every log of a transcript has the phase of the transcript -/

variable {n : ℕ}

/-- The phases from which the rollback of the moves below `j` may start or go on,
after `k` completed forward moves. -/
def Ready (k j : ℕ) (phase : Phase) : Prop :=
  phase = .rollback k j ∨ phase = .forward j ∧ k = j

theorem Ready.holds_iff {σ : Type*} {At : ℕ → σ → Prop} {k j : ℕ} {phase : Phase}
    (h : Ready k j phase) {s : σ} : phase.Holds At n s ↔ At j s := by
  rcases h with rfl | ⟨rfl, rfl⟩ <;> exact Iff.rfl

theorem Ready.left {k j : ℕ} {phase : Phase} (h : Ready k j phase) (applied : Bool) :
    phase.left applied = j := by
  rcases h with rfl | ⟨rfl, -⟩ <;> cases applied <;> rfl

theorem Ready.pending {k j : ℕ} {phase : Phase} (h : Ready k j phase) : phase.pending = none := by
  rcases h with rfl | ⟨rfl, -⟩ <;> rfl

theorem Ready.ne_ended {k j : ℕ} {phase : Phase} (h : Ready k j phase) (value : Terminal) :
    phase ≠ .ended value := by
  rcases h with rfl | ⟨rfl, -⟩ <;> exact Phase.noConfusion

theorem Ready.next_prepared {k j : ℕ} {phase : Phase} (h : Ready k (j + 1) phase) :
    phase.next n (.prepared j .rollback) = some (.rollbackPending k j) := by
  rcases h with rfl | ⟨rfl, rfl⟩ <;> simp [Phase.next]

theorem Ready.next_rolledBack {k : ℕ} {phase : Phase} (h : Ready k 0 phase) :
    phase.next n (.terminal .rolledBack) = some (.ended .rolledBack) := by
  rcases h with rfl | ⟨rfl, rfl⟩ <;> simp [Phase.next]

theorem run_forwardGroups {k : ℕ} (hk : k ≤ n) :
    Phase.run n (.forward 0) (forwardGroups k) = some (.forward k) := by
  induction k with
  | zero => rfl
  | succ k ih =>
      rw [forwardGroups, Phase.run_append, ih (by omega)]
      simp [forwardGroup, Phase.next, show k < n by omega]

theorem run_refusals {k i m : ℕ} {phase : Phase} (h : Ready k (i + 1) phase) :
    Phase.run n phase (refusals i m) =
      some (if m = 0 then phase else .rollback k (i + 1)) := by
  induction m with
  | zero => rfl
  | succ m ih =>
      rw [refusals, Phase.run_append, ih]
      rcases h with rfl | ⟨rfl, rfl⟩
      · simp [Phase.next]
      · cases m <;> simp [Phase.next]

theorem run_refusals_prepared {k i m : ℕ} {phase : Phase} (h : Ready k (i + 1) phase) :
    Phase.run n phase (refusals i m ++ [.prepared i .rollback]) =
      some (.rollbackPending k i) := by
  rw [Phase.run_append, run_refusals h]
  rcases h with rfl | ⟨rfl, rfl⟩
  · simp [Phase.next]
  · cases m <;> simp [Phase.next]

theorem run_rollbackGroup {k i m : ℕ} {phase : Phase} (h : Ready k (i + 1) phase) :
    Phase.run n phase (rollbackGroup i m) = some (.rollback k i) := by
  have hsplit : rollbackGroup i m =
      (refusals i m ++ [.prepared i .rollback]) ++ [.completed i .rollback] := by
    simp [rollbackGroup]
  rw [hsplit, Phase.run_append, run_refusals_prepared h]
  simp [Phase.next]

theorem run_rollbackGroups {k j : ℕ} {phase : Phase} {ms : List ℕ}
    (h : Ready k j phase) (hms : ms.length ≤ j) :
    Phase.run n phase (rollbackGroups j ms) =
      some (if ms = [] then phase else .rollback k (j - ms.length)) := by
  induction ms generalizing j phase with
  | nil => rfl
  | cons m ms ih =>
      obtain ⟨i, rfl⟩ : ∃ i, j = i + 1 := ⟨j - 1, by simp at hms; omega⟩
      simp only [List.length_cons] at hms
      rw [rollbackGroups, Nat.add_sub_cancel, Phase.run_append, run_rollbackGroup h,
        Option.bind_some, ih (.inl rfl) (by omega)]
      cases ms <;> simp

namespace Transcript

/-- The phase the rollback records of a transcript start from. -/
def turn (t : Transcript) : Phase :=
  if t.attempt = .none then .forward t.done else .rollback t.done t.done

theorem ready_turn (t : Transcript) : Ready t.done t.done t.turn := by
  unfold turn
  split
  · exact .inr ⟨rfl, rfl⟩
  · exact .inl rfl

theorem run_attempt {t : Transcript} (wf : t.WellFormed n) (h : t.attempt ≠ .pending) :
    Phase.run n (.forward 0) (forwardGroups t.done ++ t.attempt.records t.done) =
      some t.turn := by
  have hlt := wf.attempt_lt
  rw [Phase.run_append, run_forwardGroups wf.done_le, turn]
  cases hattempt : t.attempt with
  | none => rfl
  | pending => exact absurd hattempt h
  | refused => simp [Attempt.records, Phase.next, hlt (by simp [hattempt])]

theorem ready_groups {t : Transcript} (wf : t.WellFormed n) :
    Ready t.done (t.done - t.retries.length)
      (if t.retries = [] then t.turn else .rollback t.done (t.done - t.retries.length)) := by
  have := wf.retries_le
  split
  · next hnil => simpa [hnil] using t.ready_turn
  · exact .inl rfl

theorem run_cut {t : Transcript} (wf : t.WellFormed n) (hattempt : t.attempt ≠ .pending)
    (hterminal : t.terminal = none) :
    Phase.run n (if t.retries = [] then t.turn
        else .rollback t.done (t.done - t.retries.length)) t.cut = some t.phase := by
  have hready := ready_groups wf
  have hlt := wf.cut_lt
  by_cases hcut : 0 < t.cutRefusals ∨ t.cutPending = true
  · -- the last group is open: `current` is the move it is about
    have hcurrent : t.current + 1 = t.done - t.retries.length := by
      have := hlt hcut
      unfold current
      omega
    rw [← hcurrent] at hready
    have hforward : ¬ t.InForward := by
      rintro ⟨-, -, h₁, h₂⟩
      simp [h₁, h₂] at hcut
    unfold cut phase
    rw [hterminal]
    by_cases hpending : t.cutPending = true
    · simp only [hpending, if_true]
      rw [← hcurrent, run_refusals_prepared hready]
      simp [hattempt, hforward]
    · have hpositive : t.cutRefusals ≠ 0 := by
        rcases hcut with h | h
        · omega
        · exact absurd h hpending
      simp only [hpending, if_neg, Bool.false_eq_true, not_false_eq_true,
        List.append_nil]
      rw [← hcurrent, run_refusals hready]
      simp [hattempt, hforward, hpositive]
  · simp only [not_or, Nat.not_lt, Nat.le_zero, Bool.not_eq_true] at hcut
    simp only [cut, hcut.1, hcut.2, refusals, if_neg, Bool.false_eq_true,
      not_false_eq_true, List.append_nil, Phase.run_nil, phase, hterminal, hattempt,
      InForward, and_true, turn]
    by_cases hnil : t.retries = []
    · by_cases hnone : t.attempt = .none <;> simp [hnil, hnone]
    · simp [hnil]

theorem ofLog_body {t : Transcript} (wf : t.WellFormed n) (hterminal : t.terminal = none) :
    Phase.ofLog n t.records = some t.phase := by
  unfold Phase.ofLog records
  rw [hterminal, Option.map_none, Option.toList_none, List.append_nil]
  by_cases hattempt : t.attempt = .pending
  · obtain ⟨hretries, hrefusals, hpending, -⟩ := wf.pending_last hattempt
    have hlt : t.done < n := wf.attempt_lt (by simp [hattempt])
    simp [cut, hretries, hrefusals, hpending, refusals, rollbackGroups, hattempt,
      Attempt.records, Phase.run_append, run_forwardGroups wf.done_le, Phase.next, hlt,
      phase, hterminal]
  · rw [Phase.run_append, Phase.run_append, run_attempt wf hattempt, Option.bind_some,
      run_rollbackGroups t.ready_turn wf.retries_le, Option.bind_some,
      run_cut wf hattempt hterminal]

theorem wellFormed_body {t : Transcript} (wf : t.WellFormed n) : t.body.WellFormed n where
  done_le := wf.done_le
  attempt_lt := wf.attempt_lt
  pending_last h := by
    obtain ⟨h₁, h₂, h₃, -⟩ := wf.pending_last h
    exact ⟨h₁, h₂, h₃, rfl⟩
  retries_le := wf.retries_le
  cut_lt := wf.cut_lt
  committed h := by simp [body] at h
  rolledBack h := by simp [body] at h

/-- A well-formed transcript is the derivation of a log in the phase it states. -/
theorem ofLog_records {t : Transcript} (wf : t.WellFormed n) :
    Phase.ofLog n t.records = some t.phase := by
  cases hterminal : t.terminal with
  | none => exact ofLog_body wf hterminal
  | some value =>
      have hpending : t.attempt ≠ .pending := by
        intro h
        simpa [hterminal] using (wf.pending_last h).2.2.2
      rw [records_eq, hterminal, Phase.ofLog_append, ofLog_body (wellFormed_body wf) rfl]
      have hcut := wf.cut_lt
      cases value with
      | committed =>
          obtain ⟨hdone, hretries, hp⟩ := wf.committed hterminal
          have hnone : t.attempt = .none := by
            by_contra h
            exact absurd (wf.attempt_lt h) (by omega)
          by_cases hzero : t.cutRefusals = 0 <;>
            simp [phase, body, hterminal, InForward, hnone, hretries, hp, hzero,
              Phase.next, hdone]
      | rolledBack =>
          obtain ⟨hdone, hp⟩ := wf.rolledBack hterminal
          have hzero : t.cutRefusals = 0 := by
            by_contra h
            exact absurd (hcut (.inl (Nat.pos_of_ne_zero h))) (by omega)
          by_cases hnone : t.attempt = .none <;> by_cases hretries : t.retries = [] <;>
            simp_all [phase, body, InForward, Phase.next]

end Transcript

end Complete

section Sound

/-! ### Every log with a phase is the log of a transcript -/

namespace Transcript

variable {n : ℕ}

/-- The empty log. -/
def start : Transcript := ⟨0, .none, [], 0, false, none⟩

theorem wellFormed_start : start.WellFormed n := by
  constructor <;> simp [start]

theorem rollbackGroups_append {k m : ℕ} {ms : List ℕ} (h : ms.length < k) :
    rollbackGroups k (ms ++ [m]) =
      rollbackGroups k ms ++ rollbackGroup (k - ms.length - 1) m := by
  induction ms generalizing k with
  | nil => simp [rollbackGroups]
  | cons a ms ih =>
      simp only [List.length_cons] at h
      have hindex : k - 1 - ms.length - 1 = k - (ms.length + 1) - 1 := by omega
      simp only [List.cons_append, rollbackGroups, List.append_assoc, List.length_cons,
        ih (show ms.length < k - 1 by omega), hindex]

/-- A terminal record ends any transcript it is valid for. -/
def finish (t : Transcript) (value : Terminal) : Transcript :=
  { t with terminal := some value }

theorem records_finish {t : Transcript} (value : Terminal) (h : t.terminal = none) :
    (t.finish value).records = t.records ++ [.terminal value] := by
  have hbody : (t.finish value).body = t := by
    cases t
    simp only [finish, body] at h ⊢
    rw [h]
  rw [records_eq (t.finish value), hbody]
  rfl

theorem wellFormed_finish {t : Transcript} {value : Terminal} (wf : t.WellFormed n)
    (hattempt : t.attempt ≠ .pending) (hcut : t.cutPending = false)
    (hcommitted : value = .committed → t.done = n ∧ t.retries = [])
    (hrolledBack : value = .rolledBack → t.retries.length = t.done) :
    (t.finish value).WellFormed n where
  done_le := wf.done_le
  attempt_lt := wf.attempt_lt
  pending_last h := absurd h hattempt
  retries_le := wf.retries_le
  cut_lt := wf.cut_lt
  committed h := by
    obtain ⟨h₁, h₂⟩ := hcommitted (by simpa [finish] using h)
    exact ⟨h₁, h₂, hcut⟩
  rolledBack h := ⟨hrolledBack (by simpa [finish] using h), hcut⟩

/-- The phase of a transcript, read back: which of its fields are fixed by it. -/
theorem phase_cases {t : Transcript} (hterminal : t.terminal = none) :
    (t.phase = .forward t.done ∧ t.InForward) ∨
    (t.phase = .forwardPending t.done ∧ t.attempt = .pending) ∨
    (t.phase = .rollbackPending t.done t.current ∧ t.attempt ≠ .pending ∧
      t.cutPending = true) ∨
    (t.phase = .rollback t.done (t.done - t.retries.length) ∧ t.attempt ≠ .pending ∧
      t.cutPending = false) := by
  unfold phase
  rw [hterminal]
  by_cases h₁ : t.attempt = .pending
  · simp [h₁]
  · by_cases h₂ : t.InForward
    · simp [h₁, h₂]
    · by_cases h₃ : t.cutPending = true
      · simp [h₁, h₂, h₃]
      · simp [h₁, h₂, h₃]

theorem cut_eq_nil {t : Transcript} (hrefusals : t.cutRefusals = 0)
    (hpending : t.cutPending = false) : t.cut = [] := by
  simp [cut, hrefusals, hpending, refusals]

theorem records_of_inForward {t : Transcript} (h : t.InForward)
    (hterminal : t.terminal = none) : t.records = forwardGroups t.done := by
  obtain ⟨hattempt, hretries, hrefusals, hpending⟩ := h
  simp [records, hattempt, hretries, hterminal, cut_eq_nil hrefusals hpending,
    Attempt.records, rollbackGroups]

theorem records_of_pending {t : Transcript} (wf : t.WellFormed n)
    (h : t.attempt = .pending) :
    t.records = forwardGroups t.done ++ [.prepared t.done .forward] := by
  obtain ⟨hretries, hrefusals, hpending, hterminal⟩ := wf.pending_last h
  simp [records, h, hretries, hterminal, cut_eq_nil hrefusals hpending,
    Attempt.records, rollbackGroups]

/-- The forward phase goes on, or stops at a move in doubt. -/
theorem extend_forward {t : Transcript} {r : Record} {phase : Phase}
    (wf : t.WellFormed n) (hterminal : t.terminal = none) (h : t.InForward)
    (step : Phase.next n (.forward t.done) r = some phase) :
    ∃ t' : Transcript, t'.WellFormed n ∧ t'.records = t.records ++ [r] := by
  have hrecords := records_of_inForward h hterminal
  obtain ⟨hattempt, hretries, hrefusals, hpending⟩ := h
  cases r with
  | prepared i direction =>
      cases direction with
      | forward =>
          simp only [Phase.next, Option.ite_none_right_eq_some] at step
          obtain ⟨⟨rfl, hlt⟩, -⟩ := step
          refine ⟨{ start with done := t.done, attempt := .pending }, ?_, ?_⟩
          · constructor <;> simp [start] <;> omega
          · rw [hrecords]
            simp [records, start, cut, refusals, rollbackGroups, Attempt.records]
      | rollback =>
          simp only [Phase.next, Option.ite_none_right_eq_some] at step
          obtain ⟨hi, -⟩ := step
          refine ⟨{ start with done := t.done, cutPending := true }, ?_, ?_⟩
          · have := wf.done_le
            constructor <;> simp [start] <;> omega
          · have hcurrent : t.done - 1 = i := by omega
            rw [hrecords]
            simp [records, start, cut, current, refusals, rollbackGroups,
              Attempt.records, hcurrent]
  | completed i direction => cases direction <;> simp [Phase.next] at step
  | notApplied i direction => cases direction <;> simp [Phase.next] at step
  | terminal value =>
      refine ⟨t.finish value, ?_, records_finish value hterminal⟩
      refine wellFormed_finish wf (by simp [hattempt]) hpending ?_ ?_
      · rintro rfl
        simp only [Phase.next, Option.ite_none_right_eq_some] at step
        exact ⟨step.1, hretries⟩
      · rintro rfl
        simp only [Phase.next, Option.ite_none_right_eq_some] at step
        rw [hretries, step.1]
        rfl

theorem extend_forwardPending {t : Transcript} {r : Record} {phase : Phase}
    (wf : t.WellFormed n) (h : t.attempt = .pending)
    (step : Phase.next n (.forwardPending t.done) r = some phase) :
    ∃ t' : Transcript, t'.WellFormed n ∧ t'.records = t.records ++ [r] := by
  have hrecords := records_of_pending wf h
  have hlt : t.done < n := wf.attempt_lt (by simp [h])
  cases r with
  | completed i direction =>
      cases direction with
      | forward =>
          simp only [Phase.next, Option.ite_none_right_eq_some] at step
          obtain ⟨rfl, -⟩ := step
          refine ⟨{ start with done := t.done + 1 }, ?_, ?_⟩
          · constructor <;> simp [start]
            omega
          · rw [hrecords]
            simp [records, start, cut, refusals, rollbackGroups, Attempt.records,
              forwardGroups, forwardGroup]
      | rollback => simp [Phase.next] at step
  | notApplied i direction =>
      cases direction with
      | forward =>
          simp only [Phase.next, Option.ite_none_right_eq_some] at step
          obtain ⟨rfl, -⟩ := step
          refine ⟨{ start with done := t.done, attempt := .refused }, ?_, ?_⟩
          · constructor <;> simp [start] <;> omega
          · rw [hrecords]
            simp [records, start, cut, refusals, rollbackGroups, Attempt.records]
      | rollback => simp [Phase.next] at step
  | prepared i direction => cases direction <;> simp [Phase.next] at step
  | terminal value => cases value <;> simp [Phase.next] at step

/-- A move of the rollback phase is prepared, or the transaction ends. -/
theorem extend_rollback {t : Transcript} {r : Record} {phase : Phase}
    (wf : t.WellFormed n) (hterminal : t.terminal = none)
    (hattempt : t.attempt ≠ .pending) (hcut : t.cutPending = false)
    (step : Phase.next n (.rollback t.done (t.done - t.retries.length)) r =
      some phase) :
    ∃ t' : Transcript, t'.WellFormed n ∧ t'.records = t.records ++ [r] := by
  have hle := wf.retries_le
  cases r with
  | prepared i direction =>
      cases direction with
      | forward => simp [Phase.next] at step
      | rollback =>
          simp only [Phase.next, Option.ite_none_right_eq_some] at step
          obtain ⟨hi, -⟩ := step
          refine ⟨{ t with cutPending := true }, ?_, ?_⟩
          · refine ⟨wf.done_le, wf.attempt_lt, fun h => absurd h hattempt, hle, ?_, ?_, ?_⟩
            · intro _
              change t.retries.length < t.done
              omega
            · simp [hterminal]
            · simp [hterminal]
          · have hcurrent : t.done - t.retries.length - 1 = i := by omega
            simp [records, cut, current, hcurrent, hcut, hterminal]
  | completed i direction => cases direction <;> simp [Phase.next] at step
  | notApplied i direction => cases direction <;> simp [Phase.next] at step
  | terminal value =>
      refine ⟨t.finish value, ?_, records_finish value hterminal⟩
      refine wellFormed_finish wf hattempt hcut ?_ ?_
      · rintro rfl
        simp only [Phase.next, Option.ite_none_right_eq_some] at step
        obtain ⟨⟨hdone, hleft⟩, -⟩ := step
        refine ⟨hdone, ?_⟩
        by_contra hne
        have := List.length_pos_iff.2 hne
        omega
      · rintro rfl
        simp only [Phase.next, Option.ite_none_right_eq_some] at step
        omega

theorem extend_rollbackPending {t : Transcript} {r : Record} {phase : Phase}
    (wf : t.WellFormed n) (hterminal : t.terminal = none)
    (hattempt : t.attempt ≠ .pending) (hcut : t.cutPending = true)
    (step : Phase.next n (.rollbackPending t.done t.current) r = some phase) :
    ∃ t' : Transcript, t'.WellFormed n ∧ t'.records = t.records ++ [r] := by
  have hlt := wf.cut_lt (.inr hcut)
  cases r with
  | completed i direction =>
      cases direction with
      | forward => simp [Phase.next] at step
      | rollback =>
          simp only [Phase.next, Option.ite_none_right_eq_some] at step
          obtain ⟨rfl, -⟩ := step
          refine ⟨{ t with
            retries := t.retries ++ [t.cutRefusals], cutRefusals := 0, cutPending := false },
              ?_, ?_⟩
          · refine ⟨wf.done_le, wf.attempt_lt, fun h => absurd h hattempt, ?_, ?_, ?_, ?_⟩
            · simp
              omega
            · simp
            · simp [hterminal]
            · simp [hterminal]
          · simp [records, cut, refusals, hcut, hterminal, rollbackGroups_append hlt,
              rollbackGroup, current]
  | notApplied i direction =>
      cases direction with
      | forward => simp [Phase.next] at step
      | rollback =>
          simp only [Phase.next, Option.ite_none_right_eq_some] at step
          obtain ⟨rfl, -⟩ := step
          refine ⟨{ t with cutRefusals := t.cutRefusals + 1, cutPending := false }, ?_, ?_⟩
          · refine ⟨wf.done_le, wf.attempt_lt, fun h => absurd h hattempt, wf.retries_le,
              fun _ => hlt, ?_, ?_⟩
            · simp [hterminal]
            · simp [hterminal]
          · simp [records, cut, refusals, hcut, hterminal, current]
  | prepared i direction => cases direction <;> simp [Phase.next] at step
  | terminal value => cases value <;> simp [Phase.next] at step

/-- One more record admitted by the phase is one more record of the grammar. -/
theorem extend {t : Transcript} {r : Record} {phase : Phase} (wf : t.WellFormed n)
    (step : Phase.next n t.phase r = some phase) :
    ∃ t' : Transcript, t'.WellFormed n ∧ t'.records = t.records ++ [r] := by
  cases hterminal : t.terminal with
  | some value => simp [Transcript.phase, hterminal, Phase.next] at step
  | none =>
      rcases phase_cases hterminal with ⟨hphase, h⟩ | ⟨hphase, h⟩ | ⟨hphase, ha, hc⟩ |
        ⟨hphase, ha, hc⟩
      · exact extend_forward wf hterminal h (hphase ▸ step)
      · exact extend_forwardPending wf h (hphase ▸ step)
      · exact extend_rollbackPending wf hterminal ha hc (hphase ▸ step)
      · exact extend_rollback wf hterminal ha hc (hphase ▸ step)

/-- A log has a phase exactly when the grammar derives it, and then it is the phase
of the derivation. -/
theorem ofLog_eq_some_iff {log : List Record} {phase : Phase} :
    Phase.ofLog n log = some phase ↔
      ∃ t : Transcript, t.WellFormed n ∧ t.records = log ∧ t.phase = phase := by
  constructor
  · intro h
    have hderived : ∃ t : Transcript, t.WellFormed n ∧ t.records = log := by
      induction log using List.reverseRecOn generalizing phase with
      | nil => exact ⟨start, wellFormed_start, rfl⟩
      | append_singleton log r ih =>
          rw [Phase.ofLog_append_singleton] at h
          obtain ⟨middle, hmiddle, hstep⟩ := Option.bind_eq_some_iff.1 h
          obtain ⟨t, wf, rfl⟩ := ih hmiddle
          rw [ofLog_records wf] at hmiddle
          cases hmiddle
          exact extend wf hstep
    obtain ⟨t, wf, rfl⟩ := hderived
    rw [ofLog_records wf] at h
    exact ⟨t, wf, rfl, Option.some.inj h⟩
  · rintro ⟨t, wf, rfl, rfl⟩
    exact ofLog_records wf

end Transcript

end Sound

end UndoLog
