import DarkReNamer.Rename.SafeRuntime.Creation

/-!
# What the application knows of its journals

A plan that is underway locks the application: its journal is the active one, or another journal
was found that is in the way, or the journal was lost and the lock is all that is left. This holds
of what is found at the start, whatever state the process before it was in.
-/

namespace DarkReNamer

open Interaction Occupancy UndoLog FileJournal

variable {N : NativeVolume} {b b' : VolumeState} {plan : RenamePlan} {file : FileId}
  {live live' : Option (RenamePlan × FileId)} {l t : Life} {g : Ledger} {journal : FileJournal}
  {runtime : SafeRuntime} {found : Discovery}

/-- The plan that was underway has ended: it was taken back, if it was begun at all, or it was
carried out. -/
inductive Advances (b : VolumeState) : Option (RenamePlan × FileId) → VolumeState →
    Option (RenamePlan × FileId) → Prop where
  | stays {live : Option (RenamePlan × FileId)} : Advances b live b live
  | undone {plan : RenamePlan} {file : FileId} : Advances b (some (plan, file)) b none
  | carried {plan : RenamePlan} {file : FileId} :
      Advances b (some (plan, file)) (plan.simultaneous b) none

/-- Between two actions, or where one was cut. -/
def Onward (N : NativeVolume) (b : VolumeState) (live : Option (RenamePlan × FileId)) (t : Life) :
    Prop :=
  ∃ b' live', Advances b live b' live' ∧ Steady N b' live' t

/-- The file is that of the plan that is underway, or it is marked for deletion. -/
def Accounted (live : Option (RenamePlan × FileId)) (file : FileId) (g : Ledger) : Prop :=
  (∃ plan, live = some (plan, file)) ∨ file ∈ g.marked

/-- The journal that the application has open. -/
structure Holds (live : Option (RenamePlan × FileId)) (g : Ledger) (journal : FileJournal) :
    Prop where
  kept : journal.Kept g.disk
  manages : Manages journal.file journal
  accounted : Accounted live journal.file g
  closed : journal.file ∈ g.marked → Closed journal.file g.disk

/-- The candidate that the application has found and nothing was written since. -/
structure HoldsCandidate (live : Option (RenamePlan × FileId)) (g : Ledger)
    (journal : FileJournal) :
    Prop where
  rest : AtRest g.disk
  kept : journal.Kept g.disk
  phase : journal.phase = .candidate activeJournalLeaf
  accounted : Accounted live journal.file g

/-- What keeps another plan from being applied while one is underway. -/
inductive Locks (runtime : SafeRuntime) (file : FileId) : Prop where
  | active {journal : FileJournal} (hactive : runtime.activeJournal = some journal)
      (hfile : journal.file = file)
  | staged (hstaged : runtime.stagedJournal.isSome = true)
  | blocked (hblocked : runtime.blockedJournals ≠ [])
  | lost (hactive : runtime.activeJournal = none) (hlocked : runtime.recoveryLocked = true)

/-- What the application knows of the journals is so. -/
structure Retaining (live : Option (RenamePlan × FileId)) (g : Ledger) (runtime : SafeRuntime) :
    Prop where
  locked : ∀ plan file, live = some (plan, file) → Locks runtime file
  active : ∀ journal, runtime.activeJournal = some journal → Holds live g journal
  staged : ∀ journal, runtime.stagedJournal = some journal → HoldsCandidate live g journal

/-- Where an action has ended. -/
def Arrives (N : NativeVolume) (b : VolumeState) (live : Option (RenamePlan × FileId)) (t : Life)
    (runtime : SafeRuntime) : Prop :=
  ∃ b' live', Advances b live b' live' ∧ Steady N b' live' t ∧ Retaining live' t.ledger runtime

theorem Steady.onward (h : Steady N b live t) : Onward N b live t := ⟨b, live, .stays, h⟩

theorem Locks.applyLocked {state : AppState} (h : Locks state.toSafeRuntime file) :
    state.applyLocked = true := by
  unfold AppState.applyLocked
  cases h with
  | active hactive hfile => simp [hactive]
  | staged hstaged => simp [hstaged]
  | blocked hblocked => simp [hblocked]
  | lost hactive hlocked => simp [hlocked]

/-! ### What is found -/

/-- What a discovery tells of the plan that is underway. -/
structure Finds (live : Option (RenamePlan × FileId)) (g : Ledger) (found : Discovery) : Prop where
  locked : ∀ plan file, live = some (plan, file) →
    (∃ journal, found.active = some journal ∧ journal.file = file) ∨
      found.staged.isSome = true ∨ found.blocked ≠ []
  active : ∀ journal, found.active = some journal → Holds live g journal
  staged : ∀ journal, found.staged = some journal → HoldsCandidate live g journal

theorem kept_of_opened (hopened : journal.Opened g.disk) (hrest : AtRest g.disk) :
    journal.Kept g.disk :=
  ⟨fun _ => hopened.intact, fun _ => hopened.intact.salvages (hrest journal.file) hopened.replays⟩

theorem blocked_ne_nil_of_blockedAs {role : JournalRole} (h : found.blockedAs role = true) :
    found.blocked ≠ [] := by
  intro hnil
  rw [Discovery.blockedAs, hnil] at h
  cases h

theorem Steady.accounted (h : Steady N b live l) {leaf : LegacyText}
    (hleaf : leaf = activeJournalLeaf ∨ leaf = candidateJournalLeaf)
    (hfile : l.ledger.disk.leaves leaf = some file) : Accounted live file l.ledger :=
  (h.others leaf file hleaf hfile).symm

theorem Steady.finds (h : Steady N b live l) (hrest : AtRest l.ledger.disk)
    (hfound : Discovers l.ledger found g) : Finds live g found := by
  have hrest' : AtRest g.disk := hfound.calm.contents.atRest hrest
  refine ⟨fun plan file hlive => ?_, fun journal hjournal => ?_, fun journal hjournal => ?_⟩
  · rcases h.named plan file hlive with hactive | hcandidate
    · cases hobserved : found.activeObserved with
      | false =>
          rw [hfound.activeAbsent hobserved] at hactive
          cases hactive
      | true =>
          rcases (Bool.or_eq_true _ _).mp hobserved with hsome | hblocked
          · obtain ⟨journal, hjournal⟩ := Option.isSome_iff_exists.1 hsome
            have hleaf := (hfound.active journal hjournal).1
            exact .inl ⟨journal, hjournal, Option.some.inj (hleaf.symm.trans hactive)⟩
          · exact .inr (.inr (blocked_ne_nil_of_blockedAs hblocked))
    · cases hobserved : found.candidateObserved with
      | false =>
          rw [hfound.candidateAbsent hobserved] at hcandidate
          cases hcandidate
      | true =>
          rcases (Bool.or_eq_true _ _).mp hobserved with hsome | hblocked
          · exact .inr (.inl hsome)
          · exact .inr (.inr (blocked_ne_nil_of_blockedAs hblocked))
  · obtain ⟨hleaf, hphase, hopened⟩ := hfound.active journal hjournal
    have haccounted := h.accounted (.inl rfl) hleaf
    refine ⟨kept_of_opened hopened hrest', ⟨rfl, by simp [hphase]⟩, ?_, fun hmarked => ?_⟩
    · unfold Accounted
      rw [hfound.calm.marked]
      exact haccounted
    · rw [hfound.calm.marked] at hmarked
      have hclosed := h.closed journal.file hmarked hleaf
      unfold Closed Salvages
      rw [hfound.calm.contents.leavings journal.file]
      exact hclosed
  · obtain ⟨hleaf, hphase, hopened⟩ := hfound.staged journal hjournal
    have haccounted := h.accounted (.inr rfl) hleaf
    refine ⟨hrest', kept_of_opened hopened hrest', hphase, ?_⟩
    unfold Accounted
    rw [hfound.calm.marked]
    exact haccounted

theorem Finds.retaining (h : Finds live g found) (hactive : runtime.activeJournal = found.active)
    (hstaged : runtime.stagedJournal = found.staged)
    (hblocked : runtime.blockedJournals = found.blocked) : Retaining live g runtime where
  locked plan file hlive := by
    rcases h.locked plan file hlive with ⟨journal, hjournal, hfile⟩ | hsome | hnonempty
    · exact .active (hactive.trans hjournal) hfile
    · exact .staged (hstaged ▸ hsome)
    · exact .blocked (hblocked ▸ hnonempty)
  active journal hjournal := h.active journal (hactive ▸ hjournal)
  staged journal hjournal := h.staged journal (hstaged ▸ hjournal)

/-! ### Deleting a candidate -/

/-- A candidate behind which nothing has moved is marked. -/
theorem Steady.discard (h : Steady N b live l) (haccounted : Accounted live file l.ledger)
    (hvacant : l.ledger.disk.leaves activeJournalLeaf = none)
    (hback : ∀ plan, live = some (plan, file) → l.native.occupancy = b) :
    ∃ live', Advances b live b live' ∧ Steady N b live' ⟨l.native, l.ledger.mark file⟩ ∧
      ∀ plan, live' ≠ some (plan, file) := by
  have hclosed : l.ledger.disk.leaves activeJournalLeaf = some file →
      Closed file l.ledger.disk := by
    intro hactive
    rw [hvacant] at hactive
    cases hactive
  rcases haccounted with ⟨plan, rfl⟩ | hmarked
  · exact ⟨none, .undone, h.finish (hback plan rfl) hclosed, by simp⟩
  · have hother : ∀ plan, live ≠ some (plan, file) :=
      fun plan hlive => h.unmarked plan file hlive hmarked
    exact ⟨live, .stays, h.mark hother hclosed, hother⟩

theorem Underwent.of_empty (h : Underwent N plan b file l.os)
    (hempty : Salvages file (· = []) l.ledger.disk) : l.native.occupancy = b := by
  obtain ⟨steps, hunderway⟩ := h _ (mem_found_self l file)
  exact hunderway.unstarted (hempty _ (.inl rfl))

theorem records_of_isPhysicallyEmptyCandidate (h : journal.isPhysicallyEmptyCandidate = true) :
    journal.poisoned = false ∧ journal.records = [] := by
  simp only [isPhysicallyEmptyCandidate, Bool.and_eq_true, Bool.not_eq_true',
    List.isEmpty_iff] at h
  exact ⟨h.1.1.1.1.2, h.1.1.2⟩

theorem Kept.salvages_of_records {records : List JournalRecord} (h : journal.Kept g.disk)
    (hunpoisoned : journal.poisoned = false) (hrecords : journal.records = records) :
    Salvages journal.file (· = records) g.disk :=
  hrecords ▸ h.salvages hunpoisoned

/-! ### The start -/

namespace SafeRuntime

variable {active staged : Option FileJournal} {blocked : List StartupJournalBlock}

@[simp] theorem ofDiscovery_activeJournal :
    (ofDiscovery active staged blocked).activeJournal = active := by
  cases active <;> rfl

@[simp] theorem ofDiscovery_stagedJournal :
    (ofDiscovery active staged blocked).stagedJournal = staged := by
  cases active <;> rfl

@[simp] theorem ofDiscovery_blockedJournals :
    (ofDiscovery active staged blocked).blockedJournals = blocked := by
  cases active <;> rfl

end SafeRuntime

/-- Without a journal, nothing is underway. -/
theorem Steady.eq_none (h : Steady N b live l)
    (hvacant : l.ledger.disk.leaves activeJournalLeaf = none)
    (hcandidate : ∀ plan file, live = some (plan, file) →
      l.ledger.disk.leaves candidateJournalLeaf ≠ some file) : live = none := by
  refine Option.eq_none_iff_forall_ne_some.2 ?_
  rintro ⟨plan, file⟩ hlive
  rcases h.named plan file hlive with hactive | hleaf
  · rw [hvacant] at hactive
    cases hactive
  · exact hcandidate plan file hlive hleaf

/-- Nothing is underway, and no journal is retained. -/
theorem retaining_none (hactive : runtime.activeJournal = none)
    (hstaged : runtime.stagedJournal = none) : Retaining none g runtime where
  locked := by simp
  active := by simp [hactive]
  staged := by simp [hstaged]

/-- A candidate that nothing was written to is deleted. -/
theorem discard_of_empty (h : Steady N b live ⟨l.native, g⟩)
    (hstages : HoldsCandidate live g journal)
    (hempty : journal.isPhysicallyEmptyCandidate = true)
    (hvacant : g.disk.leaves activeJournalLeaf = none)
    (hleaf : g.disk.leaves candidateJournalLeaf = some journal.file) :
    ∃ live', Advances b live b live' ∧ Steady N b live' ⟨l.native, g.mark journal.file⟩ ∧
      live' = none := by
  obtain ⟨hunpoisoned, hrecords⟩ := records_of_isPhysicallyEmptyCandidate hempty
  have hback : ∀ plan, live = some (plan, journal.file) → l.native.occupancy = b :=
    fun plan hlive => (h.underwent plan _ hlive).of_empty
      (Kept.salvages_of_records hstages.kept hunpoisoned hrecords)
  obtain ⟨live', hadvances, hsteady, hother⟩ := h.discard hstages.accounted hvacant hback
  refine ⟨live', hadvances, hsteady, hsteady.eq_none hvacant fun plan file hlive hcandidate => ?_⟩
  have hsame : journal.file = file := Option.some.inj (hleaf.symm.trans hcandidate)
  exact hother plan (hsame ▸ hlive)

theorem arrives_initializeSafeRuntimeAt (h : Steady N b live l) (hrest : AtRest l.ledger.disk) :
    Spec ledgerEnv (fun g => Onward N b live ⟨l.native, g⟩) initializeSafeRuntimeAt
      (fun runtime g => Arrives N b live ⟨l.native, g⟩ runtime) l.ledger := by
  unfold initializeSafeRuntimeAt
  rw [Spec.bind_iff]
  refine ((discovers_discoverJournals h.distinct).mono_crash
    fun g hcalm => (h.calm hcalm).onward).mono fun found g hfound => ?_
  have hsteady := h.calm hfound.calm
  have hkeep : ∀ runtime : SafeRuntime, runtime.activeJournal = found.active →
      runtime.stagedJournal = found.staged → runtime.blockedJournals = found.blocked →
      Arrives N b live ⟨l.native, g⟩ runtime :=
    fun runtime hactive hstaged hblocked =>
      ⟨b, live, .stays, hsteady, (h.finds hrest hfound).retaining hactive hstaged hblocked⟩
  split
  · exact ⟨hsteady.onward, hkeep _ rfl rfl rfl⟩
  next hboth =>
  split
  · next hnone => exact ⟨hsteady.onward, hkeep _ (by simp) (by simp [hnone]) (by simp)⟩
  next staged hstaged =>
  split
  · next hempty =>
      have hcandidate : found.candidateObserved = true := by
        rw [Discovery.candidateObserved, hstaged]
        rfl
      have hunobserved : found.activeObserved = false := by
        rw [hcandidate, Bool.and_true, Bool.not_eq_true] at hboth
        exact hboth
      have hnone : found.active = none := by
        rw [Discovery.activeObserved, Bool.or_eq_false_iff] at hunobserved
        exact Option.isSome_eq_false_iff.1 hunobserved.1 |> Option.isNone_iff_eq_none.1
      have hvacant := hfound.activeAbsent hunobserved
      have hleaf := (hfound.staged staged hstaged).1
      rw [← hfound.calm.leaves] at hvacant hleaf
      obtain ⟨live', hadvances, hmarked, rfl⟩ := discard_of_empty hsteady
        ((h.finds hrest hfound).staged staged hstaged) hempty hvacant hleaf
      rw [Spec.bind_iff]
      have hcrash : ∀ u, MayMark staged.file (staged.safeToDelete = true) g u →
          Onward N b live ⟨l.native, u⟩ := by
        rintro u (rfl | ⟨-, rfl⟩)
        · exact hsteady.onward
        · exact ⟨b, none, hadvances, hmarked⟩
      refine (spec_markDeleteIfSafe.mono_crash hcrash).with_crash.mono fun r u hr => ?_
      obtain ⟨honward, hok, herror⟩ := hr
      cases r with
      | error error =>
          obtain rfl := herror error rfl
          exact ⟨honward, hkeep _ hnone.symm hstaged.symm rfl⟩
      | ok _ =>
          obtain ⟨-, rfl⟩ := hok rfl
          exact ⟨honward, b, none, hadvances, hmarked, retaining_none (by simp [hnone]) (by simp)⟩
  · exact ⟨hsteady.onward, hkeep _ (by simp) (by simp [hstaged]) (by simp)⟩

end DarkReNamer
