import DarkReNamer.Rename.Executor
import DarkReNamer.Rename.Transaction
import DarkReNamer.UndoLog.Grammar

/-!
# The executor's transaction

`transact` keeps the journal and the backend consistent at every call, whatever they
answer, and its report says the truth: `Rep j entries` is what the entries of a report
say when the first `j` steps are in effect. The loops are proved once, for any backend
that carries `At` and any reading `Rep` that follows the steps.
-/

namespace DarkReNamer

open Interaction UndoLog

namespace Executor

variable {B : Type} {backend : BackendRel B} {At : ℕ → B → Prop} {plan : PlanId}
  {schedule : List ScheduleStep} {Rep : ℕ → IndexedEntryExecutions → Prop}

/-- The reading follows the states that the loops set. -/
structure Tells (Rep : ℕ → IndexedEntryExecutions → Prop) (schedule : List ScheduleStep) :
    Prop where
  forward : ∀ {i step entries}, schedule[i]? = some step → Rep i entries →
    Rep (i + 1) (entries.setState step.entry (forwardState step.temporaryPhase))
  reverse : ∀ {i step entries}, schedule[i]? = some step → Rep (i + 1) entries →
    Rep i (entries.setState step.entry (rollbackState step.temporaryPhase))

/-- The entries tell where the backend is, but for one entry whose step is in doubt. -/
def Told (At : ℕ → B → Prop) (Rep : ℕ → IndexedEntryExecutions → Prop)
    (schedule : List ScheduleStep) (entries : IndexedEntryExecutions) (b : B) : Prop :=
  (∃ j, j ≤ schedule.length ∧ Rep j entries ∧ At j b) ∨
    ∃ i step before, schedule[i]? = some step ∧
      entries = before.setState step.entry .indeterminate ∧
      (Rep i before ∨ Rep (i + 1) before) ∧ (At i b ∨ At (i + 1) b)

/-- The steps below `j`, the last one first. -/
inductive Undoes (schedule : List ScheduleStep) : ℕ → List (ℕ × ScheduleStep) → Prop where
  | nil : Undoes schedule 0 []
  | cons {j : ℕ} {step : ScheduleStep} {rest : List (ℕ × ScheduleStep)}
      (hstep : schedule[j]? = some step) (hrest : Undoes schedule j rest) :
      Undoes schedule (j + 1) ((j, step) :: rest)

theorem getElem?_manifest {i : ℕ} {step : ScheduleStep} (h : schedule[i]? = some step) :
    (schedule.map journalStep)[i]? = some (journalStep step) := by
  simp [h]

theorem Undoes.le_length {j : ℕ} {done : List (ℕ × ScheduleStep)}
    (h : Undoes schedule j done) : j ≤ schedule.length := by
  cases h with
  | nil => exact Nat.zero_le _
  | cons hstep hrest => exact (List.getElem?_eq_some_iff.1 hstep).1

/-- What the reverse loop leaves: everything is taken back, or it stopped. -/
def Restored (At : ℕ → B → Prop) (Rep : ℕ → IndexedEntryExecutions → Prop)
    (plan : PlanId) (schedule : List ScheduleStep) (k : ℕ)
    (result : IndexedEntryExecutions × List RollbackFailure) (s : World B) : Prop :=
  (result.2 = [] ∧ Rep 0 result.1 ∧ At 0 s.backend ∧
    ∃ phase, Ready k 0 phase ∧ Logs s.records plan (schedule.map journalStep) phase) ∨
  (result.2 ≠ [] ∧ Consistent At plan (schedule.map journalStep) s ∧
    Told At Rep schedule result.1 s.backend)

/-- The reverse loop takes the steps below `j` back, or stops at one of them. -/
theorem spec_restoreLoop (hcarries : Carries backend At (schedule.map journalStep))
    (htells : Tells Rep schedule) {done : List (ℕ × ScheduleStep)} {j k total restored : ℕ}
    (hdone : Undoes schedule j done) {phase : Phase} {s : World B}
    {entries : IndexedEntryExecutions} (hready : Ready k j phase)
    (hlogs : Logs s.records plan (schedule.map journalStep) phase) (hat : At j s.backend)
    (hrep : Rep j entries) :
    Spec (engineEnv backend) (Consistent At plan (schedule.map journalStep))
      (restoreLoop total done restored entries) (Restored At Rep plan schedule k) s := by
  induction hdone generalizing phase s restored entries with
  | nil =>
      exact ⟨hlogs.consistent (hready.holds_iff.2 hat),
        .inl ⟨rfl, hrep, hat, phase, hready, hlogs⟩⟩
  | @cons j step rest hstep hrest ih =>
      have hconsistent := hlogs.consistent (hready.holds_iff.2 hat)
      -- a stop inside the group of this step, in any phase that holds
      have hstop : ∀ {failures b records phase' before}, failures ≠ [] →
          Logs records plan (schedule.map journalStep) phase' →
          phase'.Holds At (schedule.map journalStep).length b →
          (Rep j before ∨ Rep (j + 1) before) → (At j b ∨ At (j + 1) b) →
          Spec (engineEnv backend) (Consistent At plan (schedule.map journalStep))
            (.pure (before.setState step.entry .indeterminate, failures))
            (Restored At Rep plan schedule k) ⟨b, records⟩ := by
        intro failures b records phase' before hne hlogs' hholds hbefore hb
        have hc := hlogs'.consistent hholds
        exact ⟨hc, .inr ⟨hne, hc, .inr ⟨j, step, before, hstep, rfl, hbefore, hb⟩⟩⟩
      refine spec_append (r := .prepared j .rollback) hlogs hready.next_prepared hconsistent
        (fun records hprepared => ?_) (fun error records hrecords => ?_)
      · refine spec_rename (fun answer b' => hcarries.reverse (getElem?_manifest hstep) hat)
          (hprepared.consistent (.inl hat)) (fun b' hb' => ?_) (fun error b' hb' => ?_)
        · refine spec_append (r := .completed j .rollback)
            (q := .rollback k j) hprepared (by simp [Phase.next])
            (hprepared.consistent (.inr hb')) (fun records' hlogs' => ?_)
            (fun error records' hrecords' => ?_)
          · exact spec_control (hlogs'.consistent hb') fun _ =>
              ih (.inl rfl) hlogs' hb' (htells.reverse hstep hrep)
          · have hrep' := htells.reverse hstep hrep
            rcases hrecords' with hlogs' | ⟨-, hlogs'⟩
            · exact hstop (by simp) hlogs' (.inr hb') (.inl hrep') (.inl hb')
            · exact hstop (by simp) hlogs' hb' (.inl hrep') (.inl hb')
        · by_cases hcertain : error.certainty = .notApplied
          · simp only [hcertain, reduceCtorEq, false_and, or_false, if_true] at hb' ⊢
            refine spec_append (r := .notApplied j .rollback)
              (q := .rollback k (j + 1)) hprepared (by simp [Phase.next])
              (hprepared.consistent (.inl hb')) (fun records' hlogs' => ?_)
              (fun error records' hrecords' => ?_)
            · exact hstop (by simp) hlogs' hb' (.inr hrep) (.inr hb')
            · rcases hrecords' with hlogs' | ⟨-, hlogs'⟩
              · exact hstop (by simp) hlogs' (.inl hb') (.inr hrep) (.inr hb')
              · exact hstop (by simp) hlogs' hb' (.inr hrep) (.inr hb')
          · simp only [hcertain, if_false]
            rcases hb' with hb' | ⟨-, hb'⟩
            · exact hstop (by simp) hprepared (.inl hb') (.inr hrep) (.inr hb')
            · exact hstop (by simp) hprepared (.inr hb') (.inr hrep) (.inl hb')
      · rcases hrecords with hlogs' | ⟨-, hlogs'⟩
        · exact hstop (by simp) hlogs' (hready.holds_iff.2 hat) (.inr hrep) (.inr hat)
        · exact hstop (by simp) hlogs' (.inl hat) (.inr hrep) (.inr hat)

/-- A truthful report over a consistent journal. -/
def Reported (At : ℕ → B → Prop) (Rep : ℕ → IndexedEntryExecutions → Prop) (plan : PlanId)
    (schedule : List ScheduleStep) (report : ExecutionReport) (s : World B) : Prop :=
  Consistent At plan (schedule.map journalStep) s ∧
    ∃ entries : IndexedEntryExecutions, report.entries = entries.values ∧
      match report.outcome with
      | .completed => Rep schedule.length entries ∧ At schedule.length s.backend ∧
          (schedule = [] ∧ s.records = [] ∨
            Logs s.records plan (schedule.map journalStep) (.ended .committed))
      | .rolledBack _ => Rep 0 entries ∧ At 0 s.backend ∧
          Logs s.records plan (schedule.map journalStep) (.ended .rolledBack)
      | .recoveryRequired _ _ => Told At Rep schedule entries s.backend

section Reports

variable {s : World B} {entries : IndexedEntryExecutions}

/-- Stopping with recovery required, where nothing is in doubt but the journal. -/
theorem spec_required {b : B} {records : List JournalRecord} {phase : Phase}
    {failure : ExecutionFailure} {failures : List RollbackFailure}
    (hlogs : Logs records plan (schedule.map journalStep) phase)
    (hholds : phase.Holds At (schedule.map journalStep).length b)
    (htold : Told At Rep schedule entries b) :
    Spec (engineEnv backend) (Consistent At plan (schedule.map journalStep))
      (.pure ⟨plan, .recoveryRequired failure failures, entries.values⟩)
      (Reported At Rep plan schedule) ⟨b, records⟩ :=
  ⟨hlogs.consistent hholds, hlogs.consistent hholds, entries, rfl, htold⟩

/-- A rollback of the steps below `j`. -/
theorem spec_rollback (hcarries : Carries backend At (schedule.map journalStep))
    (htells : Tells Rep schedule) {done : List (ℕ × ScheduleStep)} {j k : ℕ}
    (hdone : Undoes schedule j done.reverse) {phase : Phase} {failure : ExecutionFailure}
    (hready : Ready k j phase)
    (hlogs : Logs s.records plan (schedule.map journalStep) phase) (hat : At j s.backend)
    (hrep : Rep j entries) :
    Spec (engineEnv backend) (Consistent At plan (schedule.map journalStep))
      (rollback plan failure done entries) (Reported At Rep plan schedule) s := by
  refine spec_control (hlogs.consistent (hready.holds_iff.2 hat)) fun _ => ?_
  refine (Spec.bind_iff _ _ _ s).2 ?_
  refine (spec_restoreLoop hcarries htells hdone hready hlogs hat hrep).mono ?_
  rintro ⟨entries', failures⟩ t (⟨hnil, hrep', hat', phase', hready', hlogs'⟩ |
    ⟨hne, hconsistent, htold⟩)
  · obtain rfl : failures = [] := hnil
    refine spec_append (r := .terminal .rolledBack) hlogs' hready'.next_rolledBack
      (hlogs'.consistent (hready'.holds_iff.2 hat')) (fun records hended => ?_)
      (fun error records hrecords => ?_)
    · exact spec_control (hended.consistent hat') fun _ =>
        ⟨hended.consistent hat', hended.consistent hat', entries', rfl, hrep', hat', hended⟩
    · have htold : Told At Rep schedule entries' t.backend :=
        .inl ⟨0, Nat.zero_le _, hrep', hat'⟩
      rcases hrecords with hlogs'' | ⟨-, hlogs''⟩
      · exact spec_required hlogs'' (hready'.holds_iff.2 hat') htold
      · exact spec_required hlogs'' hat' htold
  · simp only [show failures ≠ [] from hne, if_false]
    exact ⟨hconsistent, hconsistent, entries', rfl, htold⟩

theorem spec_finalize (hcarries : Carries backend At (schedule.map journalStep))
    (htells : Tells Rep schedule) {done : List (ℕ × ScheduleStep)}
    (hdone : Undoes schedule schedule.length done.reverse)
    (hlogs : Logs s.records plan (schedule.map journalStep) (.forward schedule.length))
    (hat : At schedule.length s.backend) (hrep : Rep schedule.length entries) :
    Spec (engineEnv backend) (Consistent At plan (schedule.map journalStep))
      (finalize plan schedule.length done entries) (Reported At Rep plan schedule) s := by
  have hconsistent : Consistent At plan (schedule.map journalStep) s := hlogs.consistent hat
  refine spec_control hconsistent fun _ => ?_
  refine spec_control hconsistent fun cancelled => ?_
  cases cancelled with
  | true => exact spec_rollback hcarries htells hdone (.inr ⟨rfl, rfl⟩) hlogs hat hrep
  | false =>
      have hlength : (schedule.map journalStep).length = schedule.length := by simp
      have hended : (Phase.ended .committed).Holds At (schedule.map journalStep).length
          s.backend := by
        rwa [hlength]
      refine spec_append (r := .terminal .committed) (q := .ended .committed) hlogs
        (by simp [Phase.next]) hconsistent (fun records hlogs' => ?_)
        (fun error records hrecords => ?_)
      · exact spec_control (hlogs'.consistent hended) fun _ =>
          ⟨hlogs'.consistent hended, hlogs'.consistent hended, entries, rfl, hrep, hat,
            .inr hlogs'⟩
      · have htold : Told At Rep schedule entries s.backend :=
          .inl ⟨_, Nat.le_refl _, hrep, hat⟩
        rcases hrecords with hlogs' | ⟨-, hlogs'⟩
        · exact spec_required hlogs' hat htold
        · exact spec_required hlogs' hended htold

/-- The forward loop from the step `i` on. -/
theorem spec_forwardLoop (hcarries : Carries backend At (schedule.map journalStep))
    (htells : Tells Rep schedule) {todo : List ScheduleStep} {done : List (ℕ × ScheduleStep)}
    {i : ℕ} (htodo : schedule.drop i = todo) (hdone : Undoes schedule i done.reverse)
    (hlogs : Logs s.records plan (schedule.map journalStep) (.forward i))
    (hat : At i s.backend) (hrep : Rep i entries) :
    Spec (engineEnv backend) (Consistent At plan (schedule.map journalStep))
      (forwardLoop plan schedule.length todo i done entries)
      (Reported At Rep plan schedule) s := by
  induction todo generalizing i done s entries with
  | nil =>
      have hi : i = schedule.length :=
        Nat.le_antisymm hdone.le_length (List.drop_eq_nil_iff.1 htodo)
      subst hi
      exact spec_finalize hcarries htells hdone hlogs hat hrep
  | cons step todo ih =>
      have hstep : schedule[i]? = some step := by
        rw [← Nat.add_zero i, ← List.getElem?_drop, htodo]
        rfl
      have hlt : i < schedule.length := (List.getElem?_eq_some_iff.1 hstep).1
      have hconsistent : Consistent At plan (schedule.map journalStep) s :=
        hlogs.consistent hat
      have htold : ∀ {b}, At i b → Told At Rep schedule entries b := fun hb =>
        .inl ⟨i, hdone.le_length, hrep, hb⟩
      refine spec_control hconsistent fun cancelled => ?_
      cases cancelled with
      | true => exact spec_rollback hcarries htells hdone (.inr ⟨rfl, rfl⟩) hlogs hat hrep
      | false =>
          refine spec_append (r := .prepared i .forward) (q := .forwardPending i) hlogs
            (by simp [Phase.next, hlt]) hconsistent (fun records hprepared => ?_)
            (fun error records hrecords => ?_)
          · refine spec_rename
              (fun answer b' => hcarries.forward (getElem?_manifest hstep) hat)
              (hprepared.consistent (.inl hat)) (fun b' hb' => ?_) (fun error b' hb' => ?_)
            · have hrep' := htells.forward hstep hrep
              refine spec_append (r := .completed i .forward) (q := .forward (i + 1))
                hprepared (by simp [Phase.next]) (hprepared.consistent (.inr hb'))
                (fun records' hlogs' => ?_) (fun error records' hrecords' => ?_)
              · refine spec_control (hlogs'.consistent hb') fun _ => ?_
                refine ih ?_ ?_ hlogs' hb' hrep'
                · rw [← List.drop_drop, htodo]
                  rfl
                · rw [List.reverse_append]
                  exact .cons hstep hdone
              · have hdoubt : Told At Rep schedule ((entries.setState step.entry
                    (forwardState step.temporaryPhase)).setState step.entry .indeterminate)
                    b' :=
                  .inr ⟨i, step, _, hstep, rfl, .inr hrep', .inr hb'⟩
                rcases hrecords' with hlogs' | ⟨-, hlogs'⟩
                · exact spec_required hlogs' (.inr hb') hdoubt
                · exact spec_required hlogs' hb' hdoubt
            · by_cases hcertain : error.certainty = .mayHaveApplied
              · simp only [hcertain, true_and, if_true] at hb' ⊢
                exact spec_required hprepared hb'
                  (.inr ⟨i, step, entries, hstep, rfl, .inl hrep, hb'⟩)
              · simp only [hcertain, false_and, or_false, if_false] at hb' ⊢
                refine spec_append (r := .notApplied i .forward) (q := .rollback i i)
                  hprepared (by simp [Phase.next]) (hprepared.consistent (.inl hb'))
                  (fun records' hlogs' => ?_) (fun error records' hrecords' => ?_)
                · exact spec_rollback hcarries htells hdone (.inl rfl) hlogs' hb' hrep
                · rcases hrecords' with hlogs' | ⟨-, hlogs'⟩
                  · exact spec_required hlogs' (.inl hb') (htold hb')
                  · exact spec_required hlogs' hb' (htold hb')
          · by_cases hcertain : error.certainty = .mayHaveAppended
            · simp only [hcertain, true_and, if_true] at hrecords ⊢
              rcases hrecords with hlogs' | hlogs'
              · exact spec_required hlogs' hat (htold hat)
              · exact spec_required hlogs' (.inl hat) (htold hat)
            · simp only [hcertain, false_and, or_false, if_false] at hrecords ⊢
              exact spec_rollback hcarries htells hdone (.inr ⟨rfl, rfl⟩) hrecords hat hrep

/-- The transaction from an empty journal: an error leaves everything as it was. -/
theorem spec_transact (hcarries : Carries backend At (schedule.map journalStep))
    (htells : Tells Rep schedule) (hempty : s.records = []) (hat : At 0 s.backend)
    (hrep : Rep 0 entries) :
    Spec (engineEnv backend) (Consistent At plan (schedule.map journalStep))
      (transact plan schedule (schedule.map journalStep) entries).run
      (fun result t => match result with
        | .ok report => Reported At Rep plan schedule report t
        | .error _ => t = s) s := by
  have hconsistent : Consistent At plan (schedule.map journalStep) s := .inl ⟨hempty, hat⟩
  have hintent := logs_intent plan (schedule.map journalStep)
  refine spec_except_control hconsistent fun _ => ?_
  by_cases hschedule : schedule = []
  · rw [if_pos hschedule]
    refine ⟨hconsistent, hconsistent, entries, rfl, ?_⟩
    subst hschedule
    exact ⟨hrep, hat, .inl ⟨rfl, hempty⟩⟩
  rw [if_neg hschedule]
  refine spec_except_control hconsistent fun begun => ?_
  cases begun with
  | false => exact ⟨hconsistent, rfl⟩
  | true =>
      refine Spec.except_ask_bind hconsistent ?_
      rintro answer ⟨b, records⟩ ⟨hjournal, hbackend⟩
      cases hbackend
      dsimp only at hjournal ⊢
      cases answer with
      | ok value =>
          obtain rfl : records = [.intent plan (schedule.map journalStep)] := by
            simpa [journalRel, hempty] using hjournal
          exact (Spec.except_lift_iff _ _ _).2
            (spec_forwardLoop hcarries htells rfl .nil hintent hat hrep)
      | error error =>
          by_cases hcertain : error.certainty = .mayHaveAppended
          · simp only [journalRel, hcertain, hempty, true_and, List.nil_append] at hjournal
            have htold : Told At Rep schedule entries s.backend :=
              .inl ⟨0, Nat.zero_le _, hrep, hat⟩
            have hafter : Consistent At plan (schedule.map journalStep)
                ⟨s.backend, records⟩ := by
              rcases hjournal with rfl | rfl
              · exact .inl ⟨rfl, hat⟩
              · exact hintent.consistent hat
            simp only [hcertain, if_true]
            exact ⟨hafter, hafter, entries, rfl, htold⟩
          · obtain rfl : records = s.records := by
              simpa [journalRel, hcertain] using hjournal
            simp only [hcertain, if_false]
            exact ⟨hconsistent, rfl⟩

end Reports

end Executor

end DarkReNamer
