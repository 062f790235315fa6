import DarkReNamer.Rename.SafeRuntime.Process

/-!
# One transaction at a time

What holds of the volume and the journal directory between two actions of the application. Either
the volume is in a state that whole plans have made, or one plan is underway from that state, whose
journal has one of the two names and is not marked for deletion. Every other journal that has a name
is marked, and one that is active asks for nothing.
-/

namespace DarkReNamer

open Interaction Occupancy UndoLog FileJournal

variable {N : NativeVolume} {b b' : VolumeState} {plan : RenamePlan} {file : FileId}
  {live : Option (RenamePlan × FileId)} {l t : Life} {journal : FileJournal}

/-- The planner has made the plan, at some time. -/
def PlannedBy (N : NativeVolume) (plan : RenamePlan) : Prop :=
  ∃ request s t trace, Runs N.hostEnv (interpret carryCall (Planner.planCancellable request).run) s
    trace (some (.ok plan)) t

theorem PlannedBy.checked (h : PlannedBy N plan) : CheckedPlan N.volume plan := by
  obtain ⟨request, s, t, trace, planning⟩ := h
  obtain ⟨_, above, hruns, rfl⟩ := N.refines_host.simulates planning rfl
  obtain ⟨-, hpost⟩ :=
    Spec.sound (Planner.checks_planCancellable (N.volume.admits_self s.view) request) hruns
  exact (hpost _ rfl).2.checked

/-- Whatever is found, the plan is underway. -/
def Underwent (N : NativeVolume) (plan : RenamePlan) (b : VolumeState) (file : FileId)
    (w : OsWorld) : Prop :=
  ∀ s ∈ w.found file, ∃ steps, Underway N.volume plan b steps s.view

/-- The journal asks for nothing, whatever is read back. -/
def Closed (file : FileId) (disk : Disk) : Prop :=
  Salvages file (fun records => replayJournal records = .clean) disk

structure Steady (N : NativeVolume) (b : VolumeState) (live : Option (RenamePlan × FileId))
    (l : Life) : Prop where
  idle : live = none → l.native.occupancy = b
  planned : ∀ plan file, live = some (plan, file) → PlannedBy N plan
  underwent : ∀ plan file, live = some (plan, file) → Underwent N plan b file l.os
  named : ∀ plan file, live = some (plan, file) → Named file l.ledger.disk
  unmarked : ∀ plan file, live = some (plan, file) → file ∉ l.ledger.marked
  closed : ∀ file ∈ l.ledger.marked, l.ledger.disk.leaves activeJournalLeaf = some file →
    Closed file l.ledger.disk
  others : ∀ leaf file, leaf = activeJournalLeaf ∨ leaf = candidateJournalLeaf →
    l.ledger.disk.leaves leaf = some file →
    file ∈ l.ledger.marked ∨ ∃ plan, live = some (plan, file)
  distinct : Distinct l.ledger.disk

theorem mem_found_self (l : Life) (file : FileId) :
    (⟨l.native, salvaged (l.ledger.disk.files file).content⟩ : HostWorld) ∈ l.os.found file :=
  ⟨rfl, _, .inl rfl, rfl⟩

section Underwent

theorem Underwent.shrink (h : Underwent N plan b file l.os)
    (hoccupancy : t.native.occupancy = l.native.occupancy)
    (hleavings : leavings t.ledger.disk file ⊆ leavings l.ledger.disk file) :
    Underwent N plan b file t.os := by
  rintro s ⟨hnative, content, hcontent, hrecords⟩
  obtain ⟨steps, hunderway⟩ := h ⟨l.native, s.records⟩ ⟨rfl, content, hleavings hcontent, hrecords⟩
  refine ⟨steps, ?_⟩
  have hview : s.view = ⟨l.native.occupancy, s.records⟩ := by
    rw [HostWorld.view, hnative]
    exact congrArg (World.mk · s.records) hoccupancy
  exact hview ▸ hunderway

/-- Where the journal asks for nothing, the plan was carried out or not begun. -/
theorem Underwent.ended (h : Underwent N plan b file l.os) (hclosed : Closed file l.ledger.disk) :
    l.native.occupancy = b ∨ l.native.occupancy = plan.simultaneous b := by
  obtain ⟨steps, hunderway⟩ := h _ (mem_found_self l file)
  exact hunderway.ended (hclosed _ (.inl rfl))

/-- Behind the intent alone nothing has moved. -/
theorem Underwent.of_intent (h : Underwent N plan b file l.os) {id : PlanId}
    {steps : List JournalStep}
    (hrecords : Salvages file (· = [.intent id steps]) l.ledger.disk) :
    l.native.occupancy = b := by
  obtain ⟨manifest, hunderway⟩ := h _ (mem_found_self l file)
  have hsalvaged : salvaged (l.ledger.disk.files file).content = _ := hrecords _ (.inl rfl)
  rcases hunderway.consistent with ⟨hempty, -⟩ | ⟨phase, ⟨log, hlog, hphase⟩, hholds⟩
  · rw [HostWorld.view, hsalvaged] at hempty
    cases hempty
  · rw [HostWorld.view, hsalvaged] at hlog
    cases log with
    | nil =>
        cases hphase
        exact hholds
    | cons record log => simp at hlog

theorem spec_rollback_of_underway {s : HostWorld} {steps : List JournalStep}
    (h : Underway N.volume plan b steps s.view) :
    Spec N.hostEnv HostWorld.Replays (interpret carryCall Recovery.rollback) (fun _ _ => True)
      s := by
  refine ((N.refines_host.spec (h.spec_rollback within_engineEnv Recovery.reading_engineEnv)
    rfl).mono_crash ?_).mono fun _ _ _ => trivial
  rintro u ⟨_, hunderway, rfl⟩
  exact hunderway.consistent.isCorrupt_eq_false

theorem Underwent.spec_rollback (h : Underwent N plan b file l.os) :
    ∀ s ∈ l.os.found file,
      Spec N.hostEnv HostWorld.Replays (interpret carryCall Recovery.rollback) (fun _ _ => True)
        s := by
  intro s hs
  obtain ⟨steps, hunderway⟩ := h s hs
  exact spec_rollback_of_underway hunderway

/-- A recovery leaves the plan underway, however it ends. -/
theorem Underwent.recover (h : Underwent N plan b file l.os) {r : Option RecoveryOutcome}
    (hran : Ran N file Recovery.rollback l t r) : Underwent N plan b file t.os := by
  intro s' hs'
  obtain ⟨s, hs, trace, run⟩ := hran s' hs'
  obtain ⟨steps, hunderway⟩ := h s hs
  obtain ⟨_, above, hruns, rfl⟩ := N.refines_host.simulates run rfl
  exact ⟨steps,
    ((hunderway.spec_rollback within_engineEnv Recovery.reading_engineEnv).sound hruns).1⟩

/-- An execution from a journal without records leaves the plan underway. -/
theorem underwent_of_execution (planned : PlannedBy N plan) (hstart : l.native.occupancy = b)
    (hempty : Salvages file (· = []) l.ledger.disk)
    {r : Option (Except ExecuteError ExecutionReport)}
    (hran : Ran N file (Executor.executeWithControl ⟨plan⟩).run l t r) :
    Underwent N plan b file t.os := by
  intro s' hs'
  obtain ⟨s, ⟨hnative, content, hcontent, hrecords⟩, trace, run⟩ := hran s' hs'
  have hview : s.view = ⟨b, []⟩ := by
    rw [HostWorld.view, hrecords, hempty content hcontent, hnative]
    exact congrArg (World.mk · []) hstart
  obtain ⟨_, above, hruns, rfl⟩ := N.refines_host.simulates run hview
  exact (Session.execute hruns).exists_underway planned.checked

end Underwent

section Steady

theorem Steady.shrink (h : Steady N b live l) (hoccupancy : t.native.occupancy = l.native.occupancy)
    (hleaves : t.ledger.disk.leaves = l.ledger.disk.leaves)
    (hmarked : t.ledger.marked = l.ledger.marked)
    (hleavings : ∀ file, leavings t.ledger.disk file ⊆ leavings l.ledger.disk file) :
    Steady N b live t where
  idle hlive := hoccupancy.trans (h.idle hlive)
  planned := h.planned
  underwent plan file hlive := (h.underwent plan file hlive).shrink hoccupancy (hleavings file)
  named plan file hlive := by
    rw [Named, hleaves]
    exact h.named plan file hlive
  unmarked plan file hlive := by
    rw [hmarked]
    exact h.unmarked plan file hlive
  closed file hfile hactive content hcontent := by
    rw [hmarked] at hfile
    rw [hleaves] at hactive
    exact h.closed file hfile hactive content (hleavings file hcontent)
  others leaf file hleaf hfile := by
    rw [hleaves] at hfile
    rw [hmarked]
    exact h.others leaf file hleaf hfile
  distinct := by
    rw [Distinct, hleaves]
    exact h.distinct

theorem Steady.calm (h : Steady N b live l) {g : Ledger} (hcalm : Calm l.ledger g) :
    Steady N b live ⟨l.native, g⟩ :=
  h.shrink rfl hcalm.leaves hcalm.marked fun file => (hcalm.contents.leavings file).subset

/-- Work on the journal of the plan that is underway. -/
theorem Steady.work (h : Steady N b (some (plan, file)) l)
    (helsewhere : Elsewhere file l.ledger t.ledger) (hunderwent : Underwent N plan b file t.os) :
    Steady N b (some (plan, file)) t where
  idle hlive := by cases hlive
  planned := h.planned
  underwent := by
    rintro _ _ ⟨⟩
    exact hunderwent
  named := by
    rintro _ _ ⟨⟩
    exact helsewhere.named (h.named _ _ rfl)
  unmarked := by
    rintro _ _ ⟨⟩
    rw [helsewhere.marked]
    exact h.unmarked _ _ rfl
  closed other hother hactive := by
    rw [helsewhere.marked] at hother
    rcases helsewhere.names _ _ hactive with rfl | hbefore
    · exact absurd hother (h.unmarked _ _ rfl)
    · have hne : other ≠ file := by
        rintro rfl
        exact h.unmarked _ _ rfl hother
      unfold Closed Salvages leavings
      rw [helsewhere.files other hne]
      exact h.closed other hother hbefore
  others leaf other hleaf hother := by
    rw [helsewhere.marked]
    rcases helsewhere.names _ _ hother with rfl | hbefore
    · exact .inr ⟨plan, rfl⟩
    · exact h.others leaf other hleaf hbefore
  distinct := helsewhere.distinct h.distinct

/-- A journal that is not underway is marked. -/
theorem Steady.mark (h : Steady N b live l) (hother : ∀ plan, live ≠ some (plan, file))
    (hclosed : l.ledger.disk.leaves activeJournalLeaf = some file → Closed file l.ledger.disk) :
    Steady N b live ⟨l.native, l.ledger.mark file⟩ where
  idle := h.idle
  planned := h.planned
  underwent := h.underwent
  named := h.named
  unmarked plan' file' hlive := by
    rintro (rfl | hmarked)
    · exact hother plan' hlive
    · exact h.unmarked plan' file' hlive hmarked
  closed := by
    rintro file' (rfl | hmarked) hactive
    · exact hclosed hactive
    · exact h.closed file' hmarked hactive
  others leaf file' hleaf hfile := (h.others leaf file' hleaf hfile).imp_left .inr
  distinct := h.distinct

/-- The journal of the plan that was underway is marked, where the plan has ended. -/
theorem Steady.finish (h : Steady N b (some (plan, file)) l) (hended : l.native.occupancy = b')
    (hclosed : l.ledger.disk.leaves activeJournalLeaf = some file → Closed file l.ledger.disk) :
    Steady N b' none ⟨l.native, l.ledger.mark file⟩ where
  idle _ := hended
  planned := by simp
  underwent := by simp
  named := by simp
  unmarked := by simp
  closed := by
    rintro file' (rfl | hmarked) hactive
    · exact hclosed hactive
    · exact h.closed file' hmarked hactive
  others leaf file' hleaf hfile := by
    rcases h.others leaf file' hleaf hfile with hmarked | ⟨_, ⟨⟩⟩
    · exact .inl (.inr hmarked)
    · exact .inl (.inl rfl)
  distinct := h.distinct

theorem Steady.unlink (h : Steady N b live l) {g : Ledger} (hunlinks : Unlinks l.ledger g) :
    Steady N b live ⟨l.native, g⟩ := by
  obtain ⟨native, ledger⟩ := l
  cases hunlinks with
  | @unlink leaf gone hmarked hleaf =>
      have hnames : ∀ other file, (ledger.disk.setLeaf leaf none).leaves other = some file →
          ledger.disk.leaves other = some file := by
        intro other file hother
        change (if other = leaf then none else ledger.disk.leaves other) = some file at hother
        split_ifs at hother
        exact hother
      have hkept : ∀ other file, file ≠ gone → ledger.disk.leaves other = some file →
          (ledger.disk.setLeaf leaf none).leaves other = some file := by
        intro other file hne hother
        refine (if_neg ?_).trans hother
        rintro rfl
        exact hne (Option.some.inj (hother.symm.trans hleaf))
      refine ⟨h.idle, h.planned, h.underwent, fun plan file hlive => ?_, h.unmarked,
        fun file hfile hactive => h.closed file hfile (hnames _ _ hactive),
        fun other file hother hfile => h.others other file hother (hnames _ _ hfile),
        fun file hactive hcandidate => h.distinct file (hnames _ _ hactive) (hnames _ _ hcandidate)⟩
      have hne : file ≠ gone := by
        rintro rfl
        exact h.unmarked plan file hlive hmarked
      exact (h.named plan file hlive).imp (hkept _ _ hne) (hkept _ _ hne)

/-- A journal that may be deleted asks for nothing. -/
theorem clean_of_safeToDelete (h : journal.safeToDelete = true) :
    journal.poisoned = false ∧ replayJournal journal.records = .clean := by
  rw [safeToDelete, Bool.and_eq_true, Bool.not_eq_true'] at h
  obtain ⟨hunpoisoned, hphase⟩ := h
  refine ⟨hunpoisoned, ?_⟩
  split at hphase
  · simp only [Bool.and_eq_true, Bool.or_eq_true, decide_eq_true_eq, List.isEmpty_iff] at hphase
    rcases hphase.2 with hempty | ⟨-, hclean⟩
    · rw [hempty]
      rfl
    · exact hclean
  · simp only [isPhysicallyEmptyCandidate, Bool.and_eq_true, List.isEmpty_iff] at hphase
    rw [hphase.1.1.2]
    rfl
  · cases hphase

theorem closed_of_safeToDelete (h : journal.Kept l.ledger.disk)
    (hsafe : journal.safeToDelete = true) :
    Closed journal.file l.ledger.disk := by
  obtain ⟨hunpoisoned, hclean⟩ := clean_of_safeToDelete hsafe
  refine (h.salvages hunpoisoned).mono ?_
  rintro _ rfl
  exact hclean

end Steady

end DarkReNamer
