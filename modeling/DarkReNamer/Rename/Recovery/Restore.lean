import DarkReNamer.Interaction.Confined
import DarkReNamer.Rename.Recovery.Bookkeeping
import DarkReNamer.Rename.Transaction

/-!
# Recovery keeps the journal consistent

A run of `Recovery.rollback` over a consistent journal keeps it consistent at every
call, and when it reports `Recovered` the transaction is rolled back. What the run has
to find out about a step in doubt, whether its move happened, is a hypothesis here
(`Settles`): over an arbitrary backend there is nothing to find out, and over a volume
the observed occupancy decides it.
-/

namespace DarkReNamer

open Std Interaction UndoLog

namespace Recovery

section Reads

/-! ### The first half of recovery only reads -/

variable {calls : Call → Prop}

theorem tries_endpointKey (hkeys : ∀ parent leaf, calls (.backend (.plannedEntryKey parent leaf)))
    (path : LegacyText) (parent : EntryIdentity) :
    Tries calls (fun _ => True) (endpointKey path parent) := by
  refine Tries.bind (Tries.ask (hkeys _ _)) fun key _ => ?_
  cases key with
  | error error => exact Tries.throw _
  | ok key => exact Tries.pure trivial

/-- The maps of the records are made of entry keys alone. -/
theorem tries_initialOccupancyFrom
    (hkeys : ∀ parent leaf, calls (.backend (.plannedEntryKey parent leaf)))
    (steps : List JournalStep) (occupancy : EndpointMap) (seenEntries : ExtTreeSet EntryId) :
    Tries calls (fun _ => True) (initialOccupancyFrom steps occupancy seenEntries) := by
  induction steps generalizing occupancy seenEntries with
  | nil => exact Tries.pure trivial
  | cons step steps ih =>
      refine Tries.bind (tries_endpointKey hkeys _ _) fun _ _ => ?_
      refine Tries.bind (tries_endpointKey hkeys _ _) fun _ _ => ?_
      dsimp only
      split
      · exact ih _ _
      · split
        · exact Tries.throw _
        · exact ih _ _

theorem tries_applyStep (hkeys : ∀ parent leaf, calls (.backend (.plannedEntryKey parent leaf)))
    (occupancy : EndpointMap) (step : JournalStep) (reverse : Bool) :
    Tries calls (fun _ => True) (applyStep occupancy step reverse) := by
  refine Tries.bind (tries_endpointKey hkeys _ _) fun _ _ => ?_
  refine Tries.bind (tries_endpointKey hkeys _ _) fun _ _ => ?_
  split
  · exact Tries.throw _
  · exact Tries.pure trivial

theorem tries_replayOccupancy
    (hkeys : ∀ parent leaf, calls (.backend (.plannedEntryKey parent leaf)))
    (steps : List JournalStep) (records : List JournalRecord) (expected : EndpointMap) :
    Tries calls (fun _ => True) (replayOccupancy steps records expected) := by
  induction records generalizing expected with
  | nil => exact Tries.pure trivial
  | cons record records ih =>
      cases record with
      | completed step direction =>
          rw [replayOccupancy]
          split
          · exact Tries.throw _
          · exact Tries.bind (tries_applyStep hkeys _ _ _) fun _ _ => ih _
      | _ => exact ih _

theorem tries_observeEndpoint (path : LegacyText) (expectedParent expectedSource : EntryIdentity)
    (expectedKind : Option EntryKind) (observed : EndpointMap) :
    Tries Call.IsRead (fun _ => True)
      (observeEndpoint path expectedParent expectedSource expectedKind observed) := by
  refine Tries.bind (Tries.ask trivial) fun answer _ => ?_
  cases answer with
  | error error => exact Tries.throw _
  | ok snapshot =>
      dsimp only
      split
      · exact Tries.throw _
      · split
        · exact Tries.throw _
        · split
          · exact Tries.throw _
          · refine Tries.bind (tries_endpointKey (fun _ _ => trivial) _ _) fun _ _ => ?_
            split
            · exact Tries.throw _
            · exact Tries.pure trivial

theorem tries_observeFrom (steps : List JournalStep) (observed : EndpointMap) :
    Tries Call.IsRead (fun _ => True) (observeFrom steps observed) := by
  induction steps generalizing observed with
  | nil => exact Tries.pure trivial
  | cons step steps ih =>
      refine Tries.bind (tries_observeEndpoint _ _ _ _ _) fun _ _ => ?_
      exact Tries.bind (tries_observeEndpoint _ _ _ _ _) fun _ _ => ih _

/-- The sets that `transitionState` returns are those of the records, with the prepared
step resolved one way. -/
theorem tries_transitionState (records : List JournalRecord) (steps : List JournalStep) :
    Tries Call.IsRead
      (fun transitions => ∃ applied, transitions = (transitionSets records).resolved applied)
      (transitionState records steps) := by
  refine Tries.bind (tries_initialOccupancyFrom (fun _ _ => trivial) _ _ _) fun _ _ => ?_
  refine Tries.bind (tries_replayOccupancy (fun _ _ => trivial) _ _ _) fun _ _ => ?_
  refine Tries.bind (tries_observeFrom _ _) fun _ _ => ?_
  split
  · next stepIndex direction hprepared =>
      split
      · exact Tries.throw _
      · refine Tries.bind (tries_applyStep (fun _ _ => trivial) _ _ _) fun _ _ => ?_
        split
        · exact Tries.pure ⟨false, by simp [TransitionSets.resolved, hprepared]⟩
        · exact Tries.pure ⟨true, by simp [TransitionSets.resolved, hprepared]⟩
        · exact Tries.throw _
  · next hprepared =>
      split
      · exact Tries.pure ⟨true, by simp [TransitionSets.resolved, hprepared]⟩
      · exact Tries.throw _

end Reads

variable {B : Type} {backend : BackendRel B} {At : ℕ → B → Prop} {plan : PlanId}
  {steps : List JournalStep} {env : Environment (World B) Call Answer} {faulty : Prop}

/-- What a recovery that is required returns. -/
def Recovered (At : ℕ → B → Prop) (plan : PlanId) (steps : List JournalStep) (faulty : Prop)
    (outcome : RecoveryOutcome) (s : World B) : Prop :=
  Consistent At plan steps s ∧
    match outcome with
    | .recovered recovered _ => recovered = plan ∧ At 0 s.backend ∧
        Logs s.records plan steps (.ended .rolledBack)
    | .notRequired => False
    | _ => faulty

/-- The reverse loop takes the steps below `j` back. -/
theorem spec_restore (henv : Within env backend At steps faulty)
    (hcarries : Carries backend At steps) {j k restored : ℕ}
    {phase : Phase} {s : World B} (hready : Ready k j phase)
    (hlogs : Logs s.records plan steps phase) (hat : At j s.backend) :
    Spec env (Consistent At plan steps)
      (restore plan steps restored (List.range j).reverse)
      (Recovered At plan steps faulty) s := by
  have hle : j ≤ steps.length := by
    have hb := hlogs.bounded
    rcases hready with rfl | ⟨rfl, rfl⟩
    · exact hb.2.trans hb.1
    · exact hb
  induction j generalizing phase s with
  | zero =>
      refine henv.spec_append (r := .terminal .rolledBack) hlogs hready.next_rolledBack
        (hlogs.consistent (hready.holds_iff.2 hat)) (fun records hended => ?_)
        (fun error records hfaulty hrecords => ?_)
      · exact ⟨hended.consistent hat, hended.consistent hat, rfl, hat, hended⟩
      · have hafter : Consistent At plan steps ⟨s.backend, records⟩ := by
          rcases hrecords with hlogs' | ⟨-, hlogs'⟩
          · exact hlogs'.consistent (hready.holds_iff.2 hat)
          · exact hlogs'.consistent hat
        exact ⟨hafter, hafter, hfaulty⟩
  | succ j ih =>
      have hconsistent := hlogs.consistent (hready.holds_iff.2 hat)
      have hstop : ∀ {b records phase' reason}, faulty → Logs records plan steps phase' →
          phase'.Holds At steps.length b →
          Spec env (Consistent At plan steps) (.pure (.recoveryRequired plan reason))
            (Recovered At plan steps faulty) ⟨b, records⟩ :=
        fun hfaulty hlogs' hholds =>
          ⟨hlogs'.consistent hholds, hlogs'.consistent hholds, hfaulty⟩
      have hstep : steps[j]? = some steps[j] := List.getElem?_eq_getElem hle
      rw [List.range_succ, List.reverse_append, List.reverse_singleton, List.singleton_append,
        restore, hstep]
      refine henv.spec_append (r := .prepared j .rollback) hlogs hready.next_prepared hconsistent
        (fun records hprepared => ?_) (fun error records hfaulty hrecords => ?_)
      · refine henv.spec_rename (fun answer b' => hcarries.reverse hstep hat)
          (hprepared.consistent (.inl hat)) (fun error t => henv.reverse hstep hat)
          (fun b' hb' => ?_) (fun error b' hfaulty hb' => ?_)
        · refine henv.spec_append (r := .completed j .rollback) (q := .rollback k j)
            hprepared (by simp [Phase.next]) (hprepared.consistent (.inr hb'))
            (fun records' hlogs' => ?_) (fun error records' hfaulty hrecords' => ?_)
          · exact ih (.inl rfl) hlogs' hb' (Nat.le_of_lt hle)
          · rcases hrecords' with hlogs' | ⟨-, hlogs'⟩
            · exact hstop hfaulty hlogs' (.inr hb')
            · exact hstop hfaulty hlogs' hb'
        · by_cases hcertain : error.certainty = .notApplied
          · simp only [hcertain, reduceCtorEq, false_and, or_false, if_true] at hb' ⊢
            refine henv.spec_append (r := .notApplied j .rollback)
              (q := .rollback k (j + 1)) hprepared (by simp [Phase.next])
              (hprepared.consistent (.inl hb')) (fun records' hlogs' => ?_)
              (fun error records' hfaulty hrecords' => ?_)
            · exact hstop hfaulty hlogs' hb'
            · rcases hrecords' with hlogs' | ⟨-, hlogs'⟩
              · exact hstop hfaulty hlogs' (.inl hb')
              · exact hstop hfaulty hlogs' hb'
          · simp only [hcertain, if_false]
            rcases hb' with hb' | ⟨-, hb'⟩
            · exact hstop hfaulty hprepared (.inl hb')
            · exact hstop hfaulty hprepared (.inr hb')
      · rcases hrecords with hlogs' | ⟨-, hlogs'⟩
        · exact hstop hfaulty hlogs' (hready.holds_iff.2 hat)
        · exact hstop hfaulty hlogs' (.inl hat)

/-- Recovery from resolved sets, where the step in doubt went as they say. -/
theorem spec_reconcile (henv : Within env backend At steps faulty)
    (hcarries : Carries backend At steps) {phase : Phase} {s : World B}
    (hlogs : Logs s.records plan steps phase) (hphase : ∀ value, phase ≠ .ended value)
    {applied : Bool} (hat : At (phase.left applied) s.backend) :
    Spec env (Consistent At plan steps)
      (reconcile plan steps ((transitionSets s.records).resolved applied))
      (Recovered At plan steps faulty) s := by
  obtain ⟨st, -, hst, hagrees⟩ := exists_agrees hlogs
  have hb := hlogs.bounded
  have hconsistent : Consistent At plan steps s :=
    hlogs.consistent ((Phase.holds_iff_left hphase).2 ⟨applied, hat⟩)
  cases hprepared : (transitionSets s.records).prepared with
  | none =>
      obtain ⟨k, hready, hj, hspans⟩ :=
        ready_of_prepared_none hst hagrees hb hphase hprepared applied
      have hremaining := (hspans ((transitionSets s.records).resolved applied) rfl
        rfl).remaining hj
      simp only [reconcile, TransitionSets.resolved, hprepared, Option.map_none,
        restoreRemaining] at hremaining ⊢
      rw [hremaining]
      exact spec_restore henv hcarries hready hlogs hat
  | some prepared =>
      obtain ⟨step, direction⟩ := prepared
      obtain ⟨k, phase', hnext, hready, hj, hspans⟩ :=
        ready_of_prepared_some hst hagrees hb hphase hprepared applied
      have hremaining := (hspans ((transitionSets s.records).resolved applied) rfl
        rfl).remaining hj
      have hrecord : (if applied then completed step direction else notApplied step direction) =
          append (.ofLog (resolution step direction applied)) := by
        cases applied <;> rfl
      simp only [reconcile, TransitionSets.resolved, hprepared, Option.map_some,
        restoreRemaining, hrecord] at hremaining ⊢
      refine henv.spec_append hlogs hnext hconsistent (fun records hlogs' => ?_)
        (fun error records hfaulty hrecords => ?_)
      · rw [hremaining]
        exact spec_restore henv hcarries hready hlogs' hat
      · have hafter : Consistent At plan steps ⟨s.backend, records⟩ := by
          rcases hrecords with hlogs' | ⟨-, hlogs'⟩
          · exact hlogs'.consistent ((Phase.holds_iff_left hphase).2 ⟨applied, hat⟩)
          · exact hlogs'.consistent (hready.holds_iff.2 hat)
        exact ⟨hafter, hafter, hfaulty⟩

/-- The reads of recovery find out how the step in doubt ended. -/
def Settles (env : Environment (World B) Call Answer) (At : ℕ → B → Prop) (plan : PlanId)
    (steps : List JournalStep) (faulty : Prop) : Prop :=
  ∀ (s : World B) (phase : Phase), Logs s.records plan steps phase →
    (∀ value, phase ≠ .ended value) → phase.Holds At steps.length s.backend →
    Spec env (fun t => t.records = s.records ∧ phase.Holds At steps.length t.backend)
      (transitionState s.records steps).run
      (fun result t => (t.records = s.records ∧ phase.Holds At steps.length t.backend) ∧
        ExceptPost (fun transitions => ∃ applied,
          transitions = (transitionSets s.records).resolved applied ∧
            At (phase.left applied) t.backend) (fun _ => faulty) result) s

/-- Over an arbitrary backend there is nothing to find out. -/
theorem settles_true (backend : BackendRel B) (plan : PlanId) (steps : List JournalStep) :
    Settles (engineEnv backend) (fun _ _ => True) plan steps True := by
  intro s phase _ hphase hholds
  have hany : ∀ b : B, phase.Holds (fun _ _ => True) steps.length b := fun b =>
    (Phase.holds_iff_left hphase).2 ⟨true, trivial⟩
  refine ((tries_transitionState s.records steps).spec
    (I := fun t : World B => t.records = s.records ∧
      phase.Holds (fun _ _ => True) steps.length t.backend) ?_ ⟨rfl, hholds⟩).mono ?_
  · rintro t call answer u hread ⟨hrecords, -⟩ hstep
    exact ⟨(records_of_isRead hread hstep).trans hrecords, hany _⟩
  · rintro result t ⟨hsame, hresult⟩
    refine ⟨hsame, ?_⟩
    cases result with
    | error reason => trivial
    | ok transitions =>
        obtain ⟨applied, happlied⟩ := hresult transitions rfl
        exact ⟨applied, happlied, trivial⟩

theorem recoverRecords_of_required {records : List JournalRecord} {phase : Phase}
    (hlogs : Logs records plan steps phase) (hphase : ∀ value, phase ≠ .ended value) :
    recoverRecords records =
      if steps.any fun step => (forwardOperation step).authorizationError.isSome then
        pure (.blocked (some plan) .unauthorizedOperation)
      else
        (transitionState records steps).run >>= fun result =>
          match result with
          | .error reason => pure (.blocked (some plan) reason)
          | .ok transitions => reconcile plan steps transitions := by
  have hreplay := hlogs.replayJournal
  obtain ⟨log, rfl, -⟩ := hlogs
  unfold recoverRecords
  rw [hreplay]
  cases phase with
  | ended value => exact absurd rfl (hphase value)
  | _ => rfl

/-- Recovery over a consistent journal that has not ended. -/
theorem spec_recoverRecords (henv : Within env backend At steps faulty)
    (hcarries : Carries backend At steps) (hsettles : Settles env At plan steps faulty)
    (hauthorized : (steps.any fun step => (forwardOperation step).authorizationError.isSome) =
      true → faulty) {s : World B} (h : Consistent At plan steps s)
    (hrequired : replayJournal s.records ≠ .clean) :
    Spec env (Consistent At plan steps) (recoverRecords s.records)
      (Recovered At plan steps faulty) s := by
  rcases id h with ⟨hempty, hat⟩ | ⟨phase, hlogs, hholds⟩
  · rw [hempty] at hrequired
    exact absurd rfl hrequired
  · have hphase : ∀ value, phase ≠ .ended value := by
      rintro value rfl
      exact hrequired hlogs.replayJournal
    rw [recoverRecords_of_required hlogs hphase]
    split
    · next hrefused => exact ⟨h, h, hauthorized hrefused⟩
    · refine (Spec.bind_iff _ _ _ _).2 ?_
      refine ((hsettles s phase hlogs hphase hholds).mono_crash ?_).mono ?_
      · rintro ⟨b, records⟩ ⟨hrecords, hholds'⟩
        cases hrecords
        exact hlogs.consistent hholds'
      · rintro result ⟨b, records⟩ ⟨⟨hrecords, hholds'⟩, hresult⟩
        cases hrecords
        have hconsistent : Consistent At plan steps ⟨b, s.records⟩ :=
          hlogs.consistent hholds'
        cases result with
        | error reason => exact ⟨hconsistent, hconsistent, hresult⟩
        | ok transitions =>
            obtain ⟨applied, rfl, hat⟩ := hresult
            exact spec_reconcile (s := ⟨b, s.records⟩) henv hcarries hlogs hphase hat

/-- What a run of recovery from `s` returns. -/
def Reconciled (At : ℕ → B → Prop) (plan : PlanId) (steps : List JournalStep) (faulty : Prop)
    (s : World B) (outcome : RecoveryOutcome) (t : World B) : Prop :=
  match outcome with
  | .notRequired => t = s ∧ replayJournal s.records = .clean
  | .recovered recovered _ => recovered = plan ∧ At 0 t.backend ∧
      Logs t.records plan steps (.ended .rolledBack)
  | _ => faulty

theorem Recovered.reconciled {outcome : RecoveryOutcome} {s t : World B}
    (h : Recovered At plan steps faulty outcome t) :
    Reconciled At plan steps faulty s outcome t := by
  cases outcome with
  | notRequired => exact h.2.elim
  | recovered recovered restored => exact h.2
  | blocked plan reason => exact h.2
  | recoveryRequired plan reason => exact h.2

/-- Recovery over a consistent journal. -/
theorem spec_rollback (henv : Within env backend At steps faulty)
    (hcarries : Carries backend At steps) (hsettles : Settles env At plan steps faulty)
    (hauthorized : (steps.any fun step => (forwardOperation step).authorizationError.isSome) =
      true → faulty) {s : World B} (h : Consistent At plan steps s) :
    Spec env (Consistent At plan steps) rollback (Reconciled At plan steps faulty s) s := by
  refine ⟨h, ?_⟩
  rintro answer ⟨b, records⟩ hstep
  obtain ⟨hjournal, hbackend⟩ := henv.allowed hstep
  cases hbackend
  cases answer with
  | error error =>
      cases hjournal
      exact ⟨h, henv.journal hstep trivial⟩
  | ok snapshot =>
      obtain ⟨rfl, hrecords⟩ := hjournal
      cases hrecords
      change Spec _ _ (recoverRecords s.records) _ s
      by_cases hclean : replayJournal s.records = .clean
      · unfold recoverRecords
        rw [hclean]
        exact ⟨h, rfl, hclean⟩
      · exact (spec_recoverRecords henv hcarries hsettles hauthorized h hclean).mono
          fun _ _ hr => hr.reconciled

end Recovery

end DarkReNamer
