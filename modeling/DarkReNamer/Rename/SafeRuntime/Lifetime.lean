import DarkReNamer.Rename.SafeRuntime.Actions
import Mathlib.Logic.Relation

/-!
# The lifetime of the application

The processes of the application, one after another: each starts, looks for journals, applies
plans, recovers and discards as the user asks, and ends at any time, in the middle of an action
too. Nothing else renames files meanwhile, and no name of the journal directory is lost when a
process ends, but for a promotion, which may be taken back. The plans that were confirmed are
remembered here alone, to say what has become of the volume.
-/

namespace DarkReNamer

open Interaction Occupancy UndoLog FileJournal

/-- There is no process, there is one between two actions, or one was cut in an action. -/
inductive Process where
  | absent
  | running (state : AppState)
  | cut

/-- What is left of a process after an action. -/
def Process.after : Option AppState → Process
  | none => .cut
  | some state => .running state

structure Lifetime where
  life : Life
  process : Process
  confirmed : List RenamePlan

variable {N : NativeVolume} {b b' b₀ : VolumeState} {plan : RenamePlan} {file : FileId}
  {live live' : Option (RenamePlan × FileId)} {l t : Life} {g g' : Ledger}
  {confirmed kept past : List RenamePlan} {L L' : Lifetime}

/-- What a process leaves of the journal directory. -/
inductive Outlives : Ledger → Ledger → Prop where
  | kept {g : Ledger} {disk : Disk} (crashed : Crashed g.disk disk)
      (hleaves : disk.leaves = g.disk.leaves) : Outlives g ⟨disk, g.marked⟩
  | demoted {g : Ledger} {disk : Disk} {file : FileId} (crashed : Crashed g.disk disk)
      (hactive : g.disk.leaves activeJournalLeaf = some file)
      (hcandidate : g.disk.leaves candidateJournalLeaf = none)
      (hleaves : disk.leaves = ((g.disk.setLeaf activeJournalLeaf none).setLeaf
        candidateJournalLeaf (some file)).leaves) : Outlives g ⟨disk, g.marked⟩

/-- One action, or what happens between two of them. -/
inductive Lifetime.Step (N : NativeVolume) : Lifetime → Lifetime → Prop where
  | started {l t : Life} {confirmed : List RenamePlan} {trace : List OsEvent}
      {r : Option SafeRuntime}
      (run : Runs N.lifeEnv (interpret osFile initializeSafeRuntimeAt) l trace r t) :
      Step N ⟨l, .absent, confirmed⟩ ⟨t, .after (r.map AppState.ofRuntime), confirmed⟩
  | applied {l t : Life} {confirmed : List RenamePlan} {state : AppState} {plan : RenamePlan}
      {reflected : Bool} {trace : List OsEvent} {r : Option AppState}
      (hunlocked : state.applyLocked = false) (planned : PlannedBy N plan)
      (run : Runs N.lifeEnv (state.applyPlan reflected ⟨plan⟩) l trace r t) :
      Step N ⟨l, .running state, confirmed⟩ ⟨t, .after r, confirmed ++ [plan]⟩
  | lost {l t u : Life} {confirmed : List RenamePlan} {state : AppState} {plan : RenamePlan}
      {reflected : Bool} {trace trace' : List OsEvent} {r result : Option ApplyWorkerResult}
      {r' : Option AppState} (hunlocked : state.applyLocked = false) (planned : PlannedBy N plan)
      (run : Runs N.lifeEnv (applyWorkerThread ⟨plan⟩) l trace r t)
      (hlost : result = none ∨ result = some .panicked)
      (final : Runs N.lifeEnv (interpret osFile (state.finalizeApplyWorker reflected result)) t
        trace' r' u) :
      Step N ⟨l, .running state, confirmed⟩ ⟨u, .after r', confirmed ++ [plan]⟩
  | unstarted {l : Life} {confirmed : List RenamePlan} {state : AppState} :
      Step N ⟨l, .running state, confirmed⟩
        ⟨l, .running { state with recoveryLocked := true }, confirmed⟩
  | recovered {l t : Life} {confirmed : List RenamePlan} {state : AppState}
      {trace : List OsEvent} {r : Option AppState}
      (run : Runs N.lifeEnv state.recoverConfirmedActiveJournal l trace r t) :
      Step N ⟨l, .running state, confirmed⟩ ⟨t, .after r, confirmed⟩
  | refused {l t : Life} {confirmed : List RenamePlan} {state state' : AppState}
      {prepared : PreparedDiscard} {trace : List OsEvent}
      (run : Runs N.lifeEnv (interpret osFile (state.discardStaged prepared).run) l trace
        (some (.error state')) t) :
      Step N ⟨l, .running state, confirmed⟩ ⟨t, .running state', confirmed⟩
  | cutDiscard {l t : Life} {confirmed : List RenamePlan} {state : AppState}
      {prepared : PreparedDiscard} {trace : List OsEvent}
      (run : Runs N.lifeEnv (interpret osFile (state.discardStaged prepared).run) l trace none t) :
      Step N ⟨l, .running state, confirmed⟩ ⟨t, .cut, confirmed⟩
  | discarded {l t u : Life} {confirmed : List RenamePlan} {state state' : AppState}
      {prepared : PreparedDiscard} {trace trace' : List OsEvent} {g : Ledger} {r : Option AppState}
      (run : Runs N.lifeEnv (interpret osFile (state.discardStaged prepared).run) l trace
        (some (.ok state')) t)
      (closed : Relation.ReflTransGen Unlinks t.ledger g)
      (found : Runs N.lifeEnv (interpret osFile state'.rediscover) ⟨t.native, g⟩ trace' r u) :
      Step N ⟨l, .running state, confirmed⟩ ⟨u, .after r, confirmed⟩
  | used {l : Life} {confirmed : List RenamePlan} {state state' : AppState}
      (hsame : state'.toSafeRuntime = state.toSafeRuntime) :
      Step N ⟨l, .running state, confirmed⟩ ⟨l, .running state', confirmed⟩
  | unlinked {l : Life} {process : Process} {confirmed : List RenamePlan} {g : Ledger}
      (unlinks : Unlinks l.ledger g) :
      Step N ⟨l, process, confirmed⟩ ⟨⟨l.native, g⟩, process, confirmed⟩
  | ended {l : Life} {process : Process} {confirmed : List RenamePlan} {native : NativeState}
      {g : Ledger} (hsame : native.occupancy = l.native.occupancy)
      (outlives : Outlives l.ledger g) :
      Step N ⟨l, process, confirmed⟩ ⟨⟨native, g⟩, .absent, confirmed⟩

/-! ### The volume -/

/-- What whole plans make of a volume. -/
def made (b : VolumeState) (plans : List RenamePlan) : VolumeState :=
  plans.foldl (fun o plan => plan.simultaneous o) b

/-- The volume is what some of the plans have made of it, in their order and each as a whole, but
for the last of them when it is underway. -/
inductive History (b₀ : VolumeState) : List RenamePlan → VolumeState →
    Option (RenamePlan × FileId) → Prop where
  | whole {confirmed kept : List RenamePlan} (hkept : kept.Sublist confirmed) :
      History b₀ confirmed (made b₀ kept) none
  | underway {past kept : List RenamePlan} {plan : RenamePlan} {file : FileId}
      (hkept : kept.Sublist past) : History b₀ (past ++ [plan]) (made b₀ kept) (some (plan, file))

theorem made_concat (b : VolumeState) (plans : List RenamePlan) (plan : RenamePlan) :
    made b (plans ++ [plan]) = plan.simultaneous (made b plans) := by
  simp [made]

theorem History.advances (h : History b₀ confirmed b live) (hadvances : Advances b live b' live') :
    History b₀ confirmed b' live' := by
  cases hadvances with
  | stays => exact h
  | undone =>
      cases h with
      | underway hkept => exact .whole (hkept.trans (List.sublist_append_left _ _))
  | carried =>
      cases h with
      | underway hkept =>
          rw [← made_concat]
          exact .whole (hkept.append (List.Sublist.refl _))

theorem History.confirm (h : History b₀ confirmed b none) (hof : OfPlan plan live) :
    History b₀ (confirmed ++ [plan]) b live := by
  cases h with
  | whole hkept =>
      rcases hof with rfl | ⟨file, rfl⟩
      · exact .whole (hkept.trans (List.sublist_append_left _ _))
      · exact .underway hkept

/-! ### The invariant -/

/-- What the process knows is so; without one, the files are at rest. -/
def Process.Knows (live : Option (RenamePlan × FileId)) (g : Ledger) : Process → Prop
  | .absent => AtRest g.disk
  | .running state => Retaining live g state.toSafeRuntime
  | .cut => True

def Lifetime.Steady (N : NativeVolume) (b₀ : VolumeState) (L : Lifetime) : Prop :=
  ∃ b live, History b₀ L.confirmed b live ∧ DarkReNamer.Steady N b live L.life ∧
    L.process.Knows live L.life.ledger

/-- Where an action was cut. -/
theorem Onward.steady (h : Onward N b live t) (history : History b₀ confirmed b live) :
    Lifetime.Steady N b₀ ⟨t, .cut, confirmed⟩ := by
  obtain ⟨b', live', hadvances, hsteady⟩ := h
  exact ⟨b', live', history.advances hadvances, hsteady, trivial⟩

theorem Arrives.steady {state : AppState} (h : Arrives N b live t state.toSafeRuntime)
    (history : History b₀ confirmed b live) :
    Lifetime.Steady N b₀ ⟨t, .running state, confirmed⟩ := by
  obtain ⟨b', live', hadvances, hsteady, hretaining⟩ := h
  exact ⟨b', live', history.advances hadvances, hsteady, hretaining⟩

/-- An action keeps the invariant, when each of its ends does. -/
theorem steady_of_action {p : OsProgram AppState} {trace : List OsEvent} {r : Option AppState}
    (h : Spec N.lifeEnv (fun t => Lifetime.Steady N b₀ ⟨t, .cut, confirmed⟩) p
      (fun state t => Lifetime.Steady N b₀ ⟨t, .running state, confirmed⟩) l)
    (run : Runs N.lifeEnv p l trace r t) : Lifetime.Steady N b₀ ⟨t, .after r, confirmed⟩ := by
  obtain ⟨hcut, hpost⟩ := h.sound run
  cases r with
  | none => exact hcut
  | some state => exact hpost state rfl

theorem Unlinks.atRest (h : Unlinks g g') (hrest : AtRest g.disk) : AtRest g'.disk := by
  cases h with
  | unlink hmarked hleaf => exact hrest

theorem Retaining.unlink {runtime : SafeRuntime} (h : Retaining live g runtime)
    (hunlinks : Unlinks g g') : Retaining live g' runtime := by
  cases hunlinks with
  | unlink hmarked hleaf =>
      refine ⟨h.locked, fun journal hjournal => ?_, fun journal hjournal => ?_⟩
      · obtain ⟨hkept, hmanages, haccounted, hclosed⟩ := h.active journal hjournal
        exact ⟨⟨hkept.tracks, hkept.salvages⟩, hmanages, haccounted, hclosed⟩
      · obtain ⟨hrest, hkept, hphase, haccounted⟩ := h.staged journal hjournal
        exact ⟨hrest, ⟨hkept.tracks, hkept.salvages⟩, hphase, haccounted⟩

theorem Process.Knows.unlink {process : Process} (h : process.Knows live g)
    (hunlinks : Unlinks g g') : process.Knows live g' := by
  cases process with
  | absent => exact hunlinks.atRest h
  | running state => exact Retaining.unlink h hunlinks
  | cut => trivial

theorem unlinks_reflTransGen (h : Steady N b live ⟨l.native, g⟩) (hrest : AtRest g.disk)
    (hunlinks : Relation.ReflTransGen Unlinks g g') :
    Steady N b live ⟨l.native, g'⟩ ∧ AtRest g'.disk := by
  induction hunlinks with
  | refl => exact ⟨h, hrest⟩
  | tail past last ih => exact ⟨ih.1.unlink last, last.atRest ih.2⟩

/-- A promotion is taken back. -/
theorem Steady.demote (h : Steady N b live l)
    (hactive : l.ledger.disk.leaves activeJournalLeaf = some file)
    (hvacant : l.ledger.disk.leaves candidateJournalLeaf = none) :
    Steady N b live ⟨l.native, ⟨(l.ledger.disk.setLeaf activeJournalLeaf none).setLeaf
      candidateJournalLeaf (some file), l.ledger.marked⟩⟩ := by
  have hnone : ∀ other, ((l.ledger.disk.setLeaf activeJournalLeaf none).setLeaf
      candidateJournalLeaf (some file)).leaves activeJournalLeaf ≠ some other := by
    intro other
    rw [leaves_setLeaf_of_ne _ activeJournalLeaf_ne, leaves_setLeaf_self]
    simp
  have hcandidate : ((l.ledger.disk.setLeaf activeJournalLeaf none).setLeaf candidateJournalLeaf
      (some file)).leaves candidateJournalLeaf = some file := leaves_setLeaf_self _ _ _
  refine ⟨h.idle, h.planned, h.underwent, fun plan other hlive => .inr ?_, h.unmarked,
    fun other _ hleaf => absurd hleaf (hnone other), fun leaf other hleaf hother => ?_,
    fun other hleaf => absurd hleaf (hnone other)⟩
  · rcases h.named plan other hlive with hother | hother
    · exact hcandidate.trans (hactive.symm.trans hother)
    · rw [hvacant] at hother
      cases hother
  · rcases hleaf with rfl | rfl
    · exact absurd hother (hnone other)
    · obtain rfl := Option.some.inj (hcandidate.symm.trans hother)
      exact h.others _ _ (.inl rfl) hactive

/-- The end of a process changes no plan that is underway. -/
theorem Steady.outlive (h : Steady N b live l) {native : NativeState}
    (hsame : native.occupancy = l.native.occupancy) (outlives : Outlives l.ledger g) :
    Steady N b live ⟨native, g⟩ ∧ AtRest g.disk := by
  obtain ⟨old, ledger⟩ := l
  cases outlives with
  | kept crashed hleaves =>
      exact ⟨h.shrink hsame hleaves rfl (leavings_of_crashed crashed), atRest_of_crashed crashed⟩
  | demoted crashed hactive hcandidate hleaves =>
      exact ⟨(h.demote hactive hcandidate).shrink hsame hleaves rfl (leavings_of_crashed crashed),
        atRest_of_crashed crashed⟩

theorem steady_started {trace : List OsEvent} {r : Option SafeRuntime}
    (h : Lifetime.Steady N b₀ ⟨l, .absent, confirmed⟩)
    (run : Runs N.lifeEnv (interpret osFile initializeSafeRuntimeAt) l trace r t) :
    Lifetime.Steady N b₀ ⟨t, .after (r.map AppState.ofRuntime), confirmed⟩ := by
  obtain ⟨b, live, history, hsteady, hrest⟩ := h
  obtain ⟨⟨honward, hnative⟩, hpost⟩ :=
    (spec_osFile (arrives_initializeSafeRuntimeAt hsteady hrest)).sound run
  obtain ⟨native, g⟩ := t
  obtain rfl : native = _ := hnative
  cases r with
  | none => exact honward.steady history
  | some runtime =>
      have harrives : Arrives N b live ⟨l.native, g⟩ (AppState.ofRuntime runtime).toSafeRuntime :=
        (hpost runtime rfl).1
      exact harrives.steady history

/-- An application that is not locked has no plan underway. -/
theorem Process.Knows.eq_none {state : AppState} (h : (Process.running state).Knows live g)
    (hunlocked : state.applyLocked = false) : live = none := by
  refine Option.eq_none_iff_forall_ne_some.2 ?_
  rintro ⟨plan, file⟩ hlive
  have hlocked := (Retaining.locked h plan file hlive).applyLocked
  rw [hunlocked] at hlocked
  cases hlocked

theorem steady_applied {state : AppState} {reflected : Bool} {trace : List OsEvent}
    {r : Option AppState} (h : Lifetime.Steady N b₀ ⟨l, .running state, confirmed⟩)
    (hunlocked : state.applyLocked = false) (planned : PlannedBy N plan)
    (run : Runs N.lifeEnv (state.applyPlan reflected ⟨plan⟩) l trace r t) :
    Lifetime.Steady N b₀ ⟨t, .after r, confirmed ++ [plan]⟩ := by
  obtain ⟨b, live, history, hsteady, hknows⟩ := h
  obtain rfl := hknows.eq_none hunlocked
  refine steady_of_action (((arrives_applyPlan hsteady planned hunlocked reflected).mono_crash
    ?_).mono ?_) run
  · rintro t ⟨live, hof, honward⟩
    exact honward.steady (history.confirm hof)
  · rintro state t ⟨live, hof, harrives⟩
    exact harrives.steady (history.confirm hof)

/-- The worker is gone, wherever it was. -/
theorem steady_lost {state : AppState} {reflected : Bool} {trace trace' : List OsEvent}
    {r result : Option ApplyWorkerResult} {r' : Option AppState} {u : Life}
    (h : Lifetime.Steady N b₀ ⟨l, .running state, confirmed⟩)
    (hunlocked : state.applyLocked = false) (planned : PlannedBy N plan)
    (run : Runs N.lifeEnv (applyWorkerThread ⟨plan⟩) l trace r t)
    (hlost : result = none ∨ result = some .panicked)
    (final : Runs N.lifeEnv (interpret osFile (state.finalizeApplyWorker reflected result)) t
      trace' r' u) : Lifetime.Steady N b₀ ⟨u, .after r', confirmed ++ [plan]⟩ := by
  obtain ⟨b, live, history, hsteady, hknows⟩ := h
  obtain rfl := hknows.eq_none hunlocked
  obtain ⟨hactive, hstaged, -⟩ := unlocked_of_applyLocked hunlocked
  obtain ⟨⟨live, hof, hworked⟩, -⟩ := (works_applyWorkerThread hsteady planned).sound run
  have history' := history.confirm hof
  refine steady_of_action ?_ final
  rcases hlost with rfl | rfl
  · exact ⟨hworked.onward.steady history', b, live, history', hworked,
      retaining_lost hactive hstaged rfl⟩
  · exact ⟨hworked.onward.steady history', b, live, history', hworked,
      retaining_lost hactive hstaged rfl⟩

theorem steady_recovered {state : AppState} {trace : List OsEvent} {r : Option AppState}
    (h : Lifetime.Steady N b₀ ⟨l, .running state, confirmed⟩)
    (run : Runs N.lifeEnv state.recoverConfirmedActiveJournal l trace r t) :
    Lifetime.Steady N b₀ ⟨t, .after r, confirmed⟩ := by
  obtain ⟨b, live, history, hsteady, hknows⟩ := h
  refine steady_of_action (((arrives_recoverConfirmedActiveJournal hsteady hknows).mono_crash
    fun t honward => ?_).mono fun state t harrives => ?_) run
  · exact honward.steady history
  · exact harrives.steady history

section Discarding

variable {state : AppState} {prepared : PreparedDiscard} {trace : List OsEvent}
  {r : Option (Except AppState AppState)}

/-- What a discard leaves of a process between two actions. -/
theorem steady_discard (h : Lifetime.Steady N b₀ ⟨l, .running state, confirmed⟩)
    (run : Runs N.lifeEnv (interpret osFile (state.discardStaged prepared).run) l trace r t) :
    Lifetime.Steady N b₀ ⟨t, .cut, confirmed⟩ ∧
      (∀ state', r = some (.error state') →
        Lifetime.Steady N b₀ ⟨t, .running state', confirmed⟩) ∧
      ∀ state', r = some (.ok state') → AtRest t.ledger.disk := by
  obtain ⟨b, live, history, hsteady, hknows⟩ := h
  obtain ⟨⟨honward, hnative⟩, hpost⟩ :=
    (spec_osFile (discards_discardStaged hsteady hknows prepared)).sound run
  obtain ⟨native, g⟩ := t
  obtain rfl : native = _ := hnative
  refine ⟨honward.steady history, fun state' hr => ?_, fun state' hr => ?_⟩
  · have harrives : Arrives N b live ⟨l.native, g⟩ state'.toSafeRuntime := (hpost _ hr).1
    exact harrives.steady history
  · exact (hpost _ hr).1.1

theorem steady_discarded {state' : AppState} {trace' : List OsEvent} {r' : Option AppState}
    {u : Life} (h : Lifetime.Steady N b₀ ⟨l, .running state, confirmed⟩)
    (run : Runs N.lifeEnv (interpret osFile (state.discardStaged prepared).run) l trace
      (some (.ok state')) t)
    (closed : Relation.ReflTransGen Unlinks t.ledger g)
    (found : Runs N.lifeEnv (interpret osFile state'.rediscover) ⟨t.native, g⟩ trace' r' u) :
    Lifetime.Steady N b₀ ⟨u, .after r', confirmed⟩ := by
  obtain ⟨⟨b, live, history, hsteady, -⟩, -, hrest⟩ := steady_discard h run
  obtain ⟨hsteady', hrest'⟩ := unlinks_reflTransGen hsteady (hrest state' rfl) closed
  refine steady_of_action (((spec_osFile (retains_rediscover hsteady' hrest')).mono_crash
    ?_).mono ?_) found
  · rintro ⟨native, u⟩ ⟨hsteady, rfl⟩
    exact ⟨b, live, history, hsteady, trivial⟩
  · rintro state ⟨native, u⟩ ⟨⟨hsteady, hretaining⟩, rfl⟩
    exact ⟨b, live, history, hsteady, hretaining⟩

end Discarding

/-- Every step keeps the invariant. -/
theorem Lifetime.Step.steady (step : Lifetime.Step N L L') (h : L.Steady N b₀) :
    L'.Steady N b₀ := by
  cases step with
  | started run => exact steady_started h run
  | applied hunlocked planned run => exact steady_applied h hunlocked planned run
  | lost hunlocked planned run hlost final => exact steady_lost h hunlocked planned run hlost final
  | unstarted =>
      obtain ⟨b, live, history, hsteady, hknows⟩ := h
      exact ⟨b, live, history, hsteady, Retaining.lock hknows⟩
  | recovered run => exact steady_recovered h run
  | refused run => exact (steady_discard h run).2.1 _ rfl
  | cutDiscard run => exact (steady_discard h run).1
  | discarded run closed found => exact steady_discarded h run closed found
  | used hsame =>
      obtain ⟨b, live, history, hsteady, hknows⟩ := h
      exact ⟨b, live, history, hsteady, (congrArg (Retaining live _) hsame).mpr hknows⟩
  | unlinked unlinks =>
      obtain ⟨b, live, history, hsteady, hknows⟩ := h
      exact ⟨b, live, history, hsteady.unlink unlinks, hknows.unlink unlinks⟩
  | ended hsame outlives =>
      obtain ⟨b, live, history, hsteady, -⟩ := h
      obtain ⟨hsteady', hrest⟩ := hsteady.outlive hsame outlives
      exact ⟨b, live, history, hsteady', hrest⟩

/-! ### What becomes of the volume -/

/-- Before the first start there is no journal. -/
structure Lifetime.Initial (L : Lifetime) : Prop where
  process : L.process = .absent
  confirmed : L.confirmed = []
  rest : AtRest L.life.ledger.disk
  active : L.life.ledger.disk.leaves activeJournalLeaf = none
  candidate : L.life.ledger.disk.leaves candidateJournalLeaf = none

theorem Lifetime.Initial.steady (h : L.Initial) : L.Steady N L.life.native.occupancy := by
  obtain ⟨life, process, confirmed⟩ := L
  obtain rfl : process = .absent := h.process
  obtain rfl : confirmed = [] := h.confirmed
  refine ⟨_, none, .whole (List.Sublist.refl []), ⟨fun _ => rfl, by simp, by simp, by simp, by simp,
    fun file _ hactive => ?_, fun leaf file hleaf hfile => ?_, fun file hactive => ?_⟩, h.rest⟩
  · rw [h.active] at hactive
    cases hactive
  · rcases hleaf with rfl | rfl
    · rw [h.active] at hfile
      cases hfile
    · rw [h.candidate] at hfile
      cases hfile
  · rw [h.active] at hactive
    cases hactive

/-- A plan is underway from `b`: the application is locked, the journal has one of its two names,
what is read off it tells what has become of the volume, and a recovery that reports so takes the
plan back. -/
structure Lifetime.Interrupted (N : NativeVolume) (b : VolumeState) (plan : RenamePlan)
    (file : FileId) (L : Lifetime) : Prop where
  locked : ∀ state, L.process = .running state → state.applyLocked = true
  named : Named file L.life.ledger.disk
  unmarked : file ∉ L.life.ledger.marked
  readsBack : ∀ content ∈ leavings L.life.ledger.disk file,
    ReadsBack plan b L.life.native.occupancy content
  recovers : ∀ recovered restored u,
    Restart N file Recovery.rollback L.life.os (some (.recovered recovered restored)) u →
      recovered = plan.id ∧ u.native.occupancy = b ∧
        ∀ content ∈ leavings u.disk file, replayJournal (salvaged content) = .clean

theorem Underwent.readsBack (h : Underwent N plan b file l.os) :
    ∀ content ∈ leavings l.ledger.disk file, ReadsBack plan b l.native.occupancy content := by
  intro content hcontent
  obtain ⟨steps, hunderway⟩ := h ⟨l.native, salvaged content⟩ ⟨rfl, content, hcontent, rfl⟩
  exact hunderway.readsBack

theorem Underwent.recovered (h : Underwent N plan b file l.os) {recovered : PlanId}
    {restored : ℕ} {u : OsWorld}
    (restart : Restart N file Recovery.rollback l.os (some (.recovered recovered restored)) u) :
    recovered = plan.id ∧ u.native.occupancy = b ∧
      ∀ content ∈ leavings u.disk file, replayJournal (salvaged content) = .clean := by
  have hback : ∀ s' ∈ u.found file, recovered = plan.id ∧ RolledBack b s'.view := by
    intro s' hs'
    obtain ⟨v, hv, s, hview, trace, run⟩ := restart.simulates (fun v hv s hview => by
      obtain ⟨steps, hunderway⟩ := h v hv
      exact spec_rollback_of_underway (hview ▸ hunderway)) s' hs'
    obtain ⟨steps, hunderway⟩ := h v hv
    obtain ⟨_, above, hruns, rfl⟩ := N.refines_host.simulates run hview
    exact hunderway.recovered hruns
  obtain ⟨hplan, hnow⟩ := hback ⟨u.native, _⟩ ⟨rfl, _, .inl rfl, rfl⟩
  refine ⟨hplan, hnow.backend, fun content hcontent => ?_⟩
  exact (hback ⟨u.native, salvaged content⟩ ⟨rfl, content, hcontent, rfl⟩).2.clean

theorem Lifetime.Steady.volume (h : L.Steady N b₀) :
    (∃ kept, kept.Sublist L.confirmed ∧ L.life.native.occupancy = made b₀ kept) ∨
      ∃ past plan kept file, L.confirmed = past ++ [plan] ∧ kept.Sublist past ∧
        L.Interrupted N (made b₀ kept) plan file := by
  obtain ⟨life, process, confirmed⟩ := L
  obtain ⟨b, live, history, hsteady, hknows⟩ := h
  cases history with
  | @whole _ kept hkept => exact .inl ⟨kept, hkept, hsteady.idle rfl⟩
  | @underway past kept plan file hkept =>
      have hunderwent := hsteady.underwent plan file rfl
      refine .inr ⟨past, plan, kept, file, rfl, hkept, ?_, hsteady.named plan file rfl,
        hsteady.unmarked plan file rfl, hunderwent.readsBack,
        fun recovered restored u => hunderwent.recovered⟩
      rintro state rfl
      exact (Retaining.locked hknows plan file rfl).applyLocked

/-- The processes of the application, each of which may end in the middle of an action, in the
middle of a frame of a journal too. The volume is always what some of the confirmed plans have made
of it, in their order and each as a whole, or the last of them is underway from there: then no
process applies another plan, and the journal is there to take it back. -/
theorem Lifetime.whole_or_interrupted {L₀ : Lifetime} (initial : L₀.Initial)
    (steps : Relation.ReflTransGen (Lifetime.Step N) L₀ L) :
    (∃ kept, kept.Sublist L.confirmed ∧
      L.life.native.occupancy = made L₀.life.native.occupancy kept) ∨
      ∃ past plan kept file, L.confirmed = past ++ [plan] ∧ kept.Sublist past ∧
        L.Interrupted N (made L₀.life.native.occupancy kept) plan file := by
  have hsteady : L.Steady N L₀.life.native.occupancy := by
    induction steps with
    | refl => exact initial.steady
    | tail past last ih => exact last.steady ih
  exact hsteady.volume

section Sample

/-! An application on a volume of two files, whose journal may first have so many bytes. -/

/-- The calls on the journal directory. No file is created here. -/
def serveLedger (room : ℕ) (s : Ledger) : (c : FileCall) → FileAnswer c × Ledger
  | .symlinkMetadata leaf =>
      if s.disk.leaves leaf = none then (.error ⟨some 2⟩, s) else (.ok ⟨false, false⟩, s)
  | .promoteNoReplace file candidate active =>
      if s.disk.leaves active = none then
        (.ok (), ⟨(s.disk.setLeaf candidate none).setLeaf active (some file), s.marked⟩)
      else (.error ⟨none⟩, s)
  | c => ((JournalSession.serveFile room s.disk c).1, ⟨(JournalSession.serveFile room s.disk c).2,
      markedAfter s.marked c (JournalSession.serveFile room s.disk c).1⟩)

theorem serveLedger_allowed (room : ℕ) (s : Ledger) (c : FileCall) :
    ledgerEnv s c (serveLedger room s c).1 (serveLedger room s c).2 := by
  cases c with
  | symlinkMetadata leaf =>
      by_cases hleaf : s.disk.leaves leaf = none
      · simp only [serveLedger, if_pos hleaf]
        exact ⟨rfl, fun _ => hleaf, rfl⟩
      · simp only [serveLedger, if_neg hleaf]
        exact ⟨rfl, trivial, rfl⟩
  | promoteNoReplace file candidate active =>
      by_cases hleaf : s.disk.leaves active = none
      · simp only [serveLedger, if_pos hleaf]
        exact ⟨⟨hleaf, rfl⟩, trivial, rfl⟩
      · simp only [serveLedger, if_neg hleaf]
        exact ⟨.inl rfl, trivial, rfl⟩
  | openLeaf leaf =>
      refine ⟨JournalSession.serveFile_allowed room s.disk _, ?_, rfl⟩
      cases hleaf : s.disk.leaves leaf with
      | none =>
          simp only [serveLedger, JournalSession.serveFile, JournalSession.faultless, hleaf]
          exact fun _ => hleaf
      | some file =>
          simp only [serveLedger, JournalSession.serveFile, JournalSession.faultless, hleaf]
          trivial
  | _ => exact ⟨JournalSession.serveFile_allowed room s.disk _, trivial, rfl⟩

def serveLife (room : ℕ) (l : Life) : (c : OsCall) → OsAnswer c × Life
  | .native call => ((serveNative l.native call).1, ⟨(serveNative l.native call).2, l.ledger⟩)
  | .file call =>
      ((serveLedger room l.ledger call).1, ⟨l.native, (serveLedger room l.ledger call).2⟩)
  | .control call => (serveControl call, l)

theorem serveLife_allowed (room : ℕ) (l : Life) (c : OsCall) :
    sampleNative.lifeEnv l c (serveLife room l c).1 (serveLife room l c).2 := by
  cases c with
  | native call => exact ⟨serveNative_allowed l.native call, rfl⟩
  | file call => exact ⟨serveLedger_allowed room l.ledger call, rfl⟩
  | control call => rfl

def vacantLedger : Ledger := ⟨⟨fun _ => none, fun _ => .empty⟩, ∅⟩

def sampleLifetime : Lifetime := ⟨⟨sampleHost.native, vacantLedger⟩, .absent, []⟩

/-- A start of the application. -/
def startSample (room : ℕ) (l : Life) : AppState × Life :=
  let r := (interpret osFile initializeSafeRuntimeAt).run (serveLife room) l
  (.ofRuntime r.1, r.2)

/-- What is left of an action when its first call has created the file. -/
def behindCreation (p : OsProgram AppState) : OsProgram AppState :=
  match p with
  | .request (.file (.createLeaf _)) next => next (.ok 0)
  | p => p

theorem starts_startSample (room : ℕ) (l : Life) (confirmed : List RenamePlan) :
    Lifetime.Step sampleNative ⟨l, .absent, confirmed⟩
      ⟨(startSample room l).2, .running (startSample room l).1, confirmed⟩ :=
  .started (Runs.of_run (serveLife_allowed room) (interpret osFile initializeSafeRuntimeAt) l)

def applySample (plan : RenamePlan) : AppState × Life :=
  (behindCreation ((startSample 350 sampleLifetime.life).1.applyPlan true ⟨plan⟩)).run
    (serveLife 350) ⟨sampleHost.native, vacantLedger.create 0⟩

/-- The end of a process without a crash. -/
def endSample (l : Life) : Life := ⟨l.native, ⟨settled l.ledger.disk, l.ledger.marked⟩⟩

theorem ends_endSample {l : Life} (hpresent : Present l.ledger.disk) (process : Process)
    (confirmed : List RenamePlan) : Lifetime.Step sampleNative ⟨l, process, confirmed⟩
      ⟨endSample l, .absent, confirmed⟩ :=
  .ended rfl (.kept hpresent.crashed rfl)

def restartSample (plan : RenamePlan) : AppState × Life :=
  startSample 1000 (endSample (applySample plan).2)

def recoverLifetime (plan : RenamePlan) : AppState × Life :=
  ((restartSample plan).1.recoverConfirmedActiveJournal).run (serveLife 1000) (restartSample plan).2

/-- Whether the application is locked: after the execution, at the next start and after the
recovery, and the torn frame that the start finds. -/
def lockedSample (plan : RenamePlan) : Bool × Option (Option ℕ) × Bool × Bool :=
  ((applySample plan).1.applyLocked,
    (restartSample plan).1.activeJournal.map FileJournal.tornPrefix,
    (restartSample plan).1.applyLocked, (recoverLifetime plan).1.applyLocked)

theorem present_of_lifeRuns {α : Type} {p : OsProgram α} {trace : List OsEvent} {r : Option α}
    (hpresent : Present l.ledger.disk) (run : Runs N.lifeEnv p l trace r t) :
    Present t.ledger.disk := by
  refine ((Spec.invariant (I := fun l : Life => Present l.ledger.disk) ?_ p hpresent).sound run).1
  intro s c answer t h step
  cases c with
  | native call => exact (congrArg Ledger.disk step.2) ▸ h
  | file call => exact h.step step.1.1
  | control call =>
      obtain rfl : t = s := step
      exact h

/-- The worker creates its journal and is cut by the end of the room. -/
theorem runs_applySample (plan : RenamePlan) : ∃ trace, Runs sampleNative.lifeEnv
    ((startSample 350 sampleLifetime.life).1.applyPlan true ⟨plan⟩) sampleLifetime.life trace
    (some (applySample plan).1) (applySample plan).2 := by
  have hprogram : ∃ next, (startSample 350 sampleLifetime.life).1.applyPlan true ⟨plan⟩ =
      .request (.file (.createLeaf candidateJournalLeaf)) next ∧
      behindCreation ((startSample 350 sampleLifetime.life).1.applyPlan true ⟨plan⟩) =
        next (.ok 0) := ⟨_, rfl, rfl⟩
  obtain ⟨next, hnext, hrest⟩ := hprogram
  have step : sampleNative.lifeEnv sampleLifetime.life (.file (.createLeaf candidateJournalLeaf))
      (.ok 0) ⟨sampleHost.native, vacantLedger.create 0⟩ :=
    ⟨⟨⟨rfl, rfl, rfl⟩, ⟨id, fun _ => by rintro ⟨⟩⟩, rfl⟩, rfl⟩
  have rest := Runs.of_run (serveLife_allowed 350) (next (.ok 0))
    ⟨sampleHost.native, vacantLedger.create 0⟩
  rw [hnext]
  unfold applySample
  rw [hrest]
  exact ⟨_, .call step rest⟩

/-- The execution fails for want of room, and the next process takes it back. -/
theorem Lifetime.whole_or_interrupted_tornShift : ∃ plan L state,
    Relation.ReflTransGen (Lifetime.Step sampleNative) sampleLifetime L ∧
      (restartSample plan).1.activeJournal.map FileJournal.tornPrefix = some (some 345) ∧
      L.confirmed = [plan] ∧ L.process = .running state ∧ state.applyLocked = false ∧
      ∃ kept, kept.Sublist L.confirmed ∧
        L.life.native.occupancy = made sampleLifetime.life.native.occupancy kept := by
  have hplan : ((interpret carryCall (Planner.planCancellable shiftRequest).run).run
      (serveHost 100) sampleHost).1.toOption.map lockedSample =
        some (true, some (some 345), true, false) := by
    decide +kernel
  obtain ⟨plan, trace, hlocked, planning⟩ := Runs.of_toOption (serveHost_allowed 100)
    (p := ExceptT.mk (interpret carryCall (Planner.planCancellable shiftRequest).run)) hplan
  obtain ⟨-, hlocked⟩ := Prod.mk.inj hlocked
  obtain ⟨htorn, hlocked⟩ := Prod.mk.inj hlocked
  obtain ⟨-, hunlocked⟩ := Prod.mk.inj hlocked
  have planned : PlannedBy sampleNative plan := ⟨_, _, _, _, planning⟩
  have initial : sampleLifetime.Initial := ⟨rfl, rfl, fun _ => rfl, rfl, rfl⟩
  obtain ⟨_, applying⟩ := runs_applySample plan
  have hpresent : Present (applySample plan).2.ledger.disk :=
    present_of_lifeRuns initial.rest.present applying
  have first : Lifetime.Step sampleNative sampleLifetime
      ⟨sampleLifetime.life, .running (startSample 350 sampleLifetime.life).1, []⟩ :=
    starts_startSample 350 sampleLifetime.life []
  have second : Lifetime.Step sampleNative
      ⟨sampleLifetime.life, .running (startSample 350 sampleLifetime.life).1, []⟩
      ⟨(applySample plan).2, .running (applySample plan).1, [plan]⟩ :=
    .applied (by decide +kernel) planned applying
  have third : Lifetime.Step sampleNative
      ⟨(applySample plan).2, .running (applySample plan).1, [plan]⟩
      ⟨endSample (applySample plan).2, .absent, [plan]⟩ := ends_endSample hpresent _ _
  have fourth : Lifetime.Step sampleNative ⟨endSample (applySample plan).2, .absent, [plan]⟩
      ⟨(restartSample plan).2, .running (restartSample plan).1, [plan]⟩ :=
    starts_startSample 1000 (endSample (applySample plan).2) [plan]
  have fifth : Lifetime.Step sampleNative
      ⟨(restartSample plan).2, .running (restartSample plan).1, [plan]⟩
      ⟨(recoverLifetime plan).2, .running (recoverLifetime plan).1, [plan]⟩ :=
    .recovered (Runs.of_run (serveLife_allowed 1000)
      (restartSample plan).1.recoverConfirmedActiveJournal (restartSample plan).2)
  have steps :=
    ((((Relation.ReflTransGen.single first).tail second).tail third).tail fourth).tail fifth
  refine ⟨plan, ⟨(recoverLifetime plan).2, .running (recoverLifetime plan).1, [plan]⟩,
    (recoverLifetime plan).1, steps, htorn, rfl, rfl, hunlocked, ?_⟩
  rcases Lifetime.whole_or_interrupted initial steps with hwhole | ⟨_, _, _, _, -, -, hinterrupted⟩
  · exact hwhole
  · exact absurd (hunlocked.symm.trans (hinterrupted.locked _ rfl)) Bool.false_ne_true

end Sample
end DarkReNamer
