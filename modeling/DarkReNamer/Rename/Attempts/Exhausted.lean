import DarkReNamer.Rename.Atomicity
import DarkReNamer.Rename.Attempts.Faultless
import DarkReNamer.Rename.Journal.FileJournal.InStep

/-!
# A journal that is full

A swap whose second move is refused, as is every reverse move from then on. Each recovery
journals one more refusal, and recovery reads past the refusals that are there, so the next one
does the same again. After 19998 of them the journal has 40003 records; the next recovery still
prepares its move, and the record that says that it was refused is refused itself.
-/

namespace DarkReNamer

open Interaction UndoLog

namespace Recovery

/-- The refused attempts to undo a move, as journal records. -/
def refusedRecords (i m : ℕ) : List JournalRecord := (refusals i m).map .ofLog

variable {steps : List JournalStep} {i m : ℕ}

theorem refusedRecords_succ : refusedRecords i (m + 1) =
    refusedRecords i m ++ [.prepared i .rollback, .notApplied i .rollback] := by
  rw [refusedRecords, refusals, List.map_append]
  rfl

theorem completed_notMem_refusedRecords (step : ℕ) (direction : JournalDirection) :
    JournalRecord.completed step direction ∉ refusedRecords i m := by
  induction m with
  | zero => simp [refusedRecords, refusals]
  | succ m ih =>
      rw [refusedRecords_succ, List.mem_append]
      simp [ih]

/-- Records that complete no move replay to the same occupancy. -/
theorem replayOccupancy_append {rest : List JournalRecord}
    (hrest : ∀ step direction, JournalRecord.completed step direction ∉ rest)
    (records : List JournalRecord) (expected : EndpointMap) :
    replayOccupancy steps (records ++ rest) expected = replayOccupancy steps records expected := by
  induction records generalizing expected with
  | nil =>
      induction rest with
      | nil => rfl
      | cons record rest ih =>
          have hlater := fun step direction hmem =>
            hrest step direction (List.mem_cons_of_mem _ hmem)
          cases record with
          | completed step direction => exact absurd List.mem_cons_self (hrest step direction)
          | _ => exact ih hlater
  | cons record records ih =>
      cases record with
      | completed step direction =>
          rw [List.cons_append, replayOccupancy, replayOccupancy]
          split
          · rfl
          · congr 1
            funext next
            exact ih next
      | _ => exact ih expected

theorem foldl_read_refusedRecords {sets : TransitionSets} (h : sets.prepared = none) :
    (refusedRecords i m).foldl TransitionSets.read sets = sets := by
  induction m with
  | zero => rfl
  | succ m ih =>
      rw [refusedRecords_succ, List.foldl_append, ih]
      show { sets with prepared := none } = sets
      rw [← h]

/-- Recovery reads past refused attempts. -/
theorem transitionState_refusedRecords {records : List JournalRecord} (hne : records ≠ [])
    (hprepared : (transitionSets records).prepared = none) :
    transitionState (records ++ refusedRecords i m) steps = transitionState records steps := by
  have hdrop : (records ++ refusedRecords i m).drop 1 = records.drop 1 ++ refusedRecords i m :=
    List.drop_append_of_le_length (List.length_pos_iff.2 hne)
  have hsets : transitionSets (records ++ refusedRecords i m) = transitionSets records := by
    rw [transitionSets, hdrop, List.foldl_append]
    exact foldl_read_refusedRecords hprepared
  unfold transitionState
  simp only [hdrop, hsets, replayOccupancy_append completed_notMem_refusedRecords]

theorem logs_refusedRecords {records : List JournalRecord} {plan : PlanId} {k : ℕ}
    (h : Logs records plan steps (.rollback k (i + 1))) (m : ℕ) :
    Logs (records ++ refusedRecords i m) plan steps (.rollback k (i + 1)) := by
  obtain ⟨log, rfl, hphase⟩ := h
  refine ⟨log ++ refusals i m, by simp [refusedRecords], ?_⟩
  rw [Phase.ofLog_append, hphase, Option.bind_some, run_refusals (.inl rfl), ite_self]

/-- After refused attempts recovery does the same again. -/
theorem recoverRecords_refusedRecords {records : List JournalRecord} {plan : PlanId} {k : ℕ}
    (h : Logs records plan steps (.rollback k (i + 1)))
    (hprepared : (transitionSets records).prepared = none) :
    recoverRecords (records ++ refusedRecords i m) = recoverRecords records := by
  have hne : records ≠ [] := by
    obtain ⟨log, rfl, -⟩ := h
    simp
  rw [recoverRecords_of_required h (by simp),
    recoverRecords_of_required (logs_refusedRecords h m) (by simp),
    transitionState_refusedRecords hne hprepared]

end Recovery

section Sample

/-- A volume whose renames are refused once the first file has left its place. -/
def refusingBackend (o : VolumeState) :
    (call : BackendCall) → BackendAnswer call × VolumeState
  | .renameNoReplace op =>
      if o (flatKey sampleParent (.ofAscii "a")) = none then
        (.error ⟨.rename, errorAccessDenied, .notApplied⟩, o)
      else (flatVolume sampleParent).serve 5 o (.renameNoReplace op)
  | call => (flatVolume sampleParent).serve 5 o call

theorem refusingBackend_allowed (o : VolumeState) (call : BackendCall) :
    (flatVolume sampleParent).backendRel o call (refusingBackend o call).1
      (refusingBackend o call).2 := by
  cases call with
  | renameNoReplace op =>
      unfold refusingBackend
      dsimp only
      split_ifs
      · exact .inl rfl
      · exact (flatVolume sampleParent).serve_allowed 5 o _
  | _ => exact (flatVolume sampleParent).serve_allowed 5 o _

/-- Ports whose journal serves as long as it does not refuse a record. -/
def refusingPorts (refused : JournalRecord → Bool) : Ports VolumeState where
  backend := refusingBackend
  journal := fun records call => match call with
    | .snapshot => serveJournal records .snapshot
    | .append record =>
        if refused record then (.error (.notAppended 3), records)
        else serveJournal records (.append record)
  control := serveControl

theorem refusingPorts_allowed (refused : JournalRecord → Bool) (s : World VolumeState)
    (call : Call) :
    engineEnv (flatVolume sampleParent).backendRel s call
      ((refusingPorts refused).handler s call).1 ((refusingPorts refused).handler s call).2 := by
  refine Ports.allowed refusingBackend_allowed (fun records call => ?_) s call
  cases call with
  | snapshot => exact serveJournal_allowed records .snapshot
  | append record =>
      unfold refusingPorts
      dsimp only
      split_ifs
      · exact .inl rfl
      · exact serveJournal_allowed records _

def refusesNothing (_ : JournalRecord) : Bool := false

/-- What a journal refuses that is full behind the preparation of a move. -/
def refusesNotApplied : JournalRecord → Bool
  | .notApplied _ _ => true
  | _ => false

/-- The swap whose second move was refused. -/
def refusedSwap : World VolumeState :=
  ((Executor.executeWithControl ⟨swapPlan⟩).run.run
    (refusingPorts refusesNothing).handler ⟨swapState, []⟩).2

def refusedLog : List UndoLog.Record :=
  [.prepared 0 .forward, .completed 0 .forward, .prepared 1 .forward, .notApplied 1 .forward,
    .prepared 0 .rollback, .notApplied 0 .rollback]

/-- The steps of an intent. -/
def manifestOf : List JournalRecord → List JournalStep
  | .intent _ steps :: _ => steps
  | _ => []

/-- What the execution leaves: its log, records that can be stored, and a move undone nowhere. -/
theorem refusedSwap_left :
    refusedSwap.records =
      .intent swapPlan.id (manifestOf refusedSwap.records) :: refusedLog.map .ofLog ∧
    (manifestOf refusedSwap.records).length = 3 ∧
    (journalRequirements (manifestOf refusedSwap.records)).isOk = true ∧
    (∀ record ∈ refusedSwap.records, (encodeFrame 0 record 0).isOk = true) ∧
    refusedSwap.backend (flatKey sampleParent (.ofAscii "a")) = none := by
  decide +kernel

theorem logs_refusedSwap : Logs refusedSwap.records swapPlan.id (manifestOf refusedSwap.records)
    (.rollback 1 1) := by
  refine ⟨refusedLog, refusedSwap_left.1, ?_⟩
  rw [refusedSwap_left.2.1]
  decide

theorem prepared_refusedSwap : (Recovery.transitionSets refusedSwap.records).prepared = none := by
  rw [refusedSwap_left.1]
  rfl

/-- Nothing moves any more. -/
theorem backend_run {α : Type} (refused : JournalRecord → Bool) (p : Engine α)
    (w : World VolumeState)
    (h : w.backend (flatKey sampleParent (.ofAscii "a")) = none) :
    (p.run (refusingPorts refused).handler w).2.backend = w.backend := by
  induction p generalizing w with
  | pure a => rfl
  | request call next ih =>
      have hstep : ((refusingPorts refused).handler w call).2.backend = w.backend := by
        cases call with
        | backend call =>
            cases call with
            | renameNoReplace op => exact congrArg Prod.snd (if_pos h)
            | _ => rfl
        | journal call => rfl
        | control call => rfl
      rw [Program.run, ih _ _ (hstep ▸ h), hstep]

theorem storable_refusedSwap : ∀ record ∈ refusedSwap.records, record.Storable := by
  obtain ⟨-, -, -, hencoded, -⟩ := refusedSwap_left
  intro record hrecord
  cases hframe : encodeFrame 0 record 0 with
  | error error =>
      have hok := hencoded record hrecord
      rw [hframe] at hok
      cases hok
  | ok frame => exact (encodeFrame_eq_ok_iff.1 hframe).1

/-- The events of the execution. -/
def executedTrace : List EngineEvent :=
  (Executor.executeWithControl ⟨swapPlan⟩).run.trace (refusingPorts refusesNothing).handler
    ⟨swapState, []⟩

/-- The events of a recovery behind its snapshot, with a journal that serves or is full. -/
def recoveredTrace (refused : JournalRecord → Bool) : List EngineEvent :=
  (Recovery.recoverRecords refusedSwap.records).trace (refusingPorts refused).handler refusedSwap

theorem runs_executedTrace : ∃ r w, Runs (engineEnv (flatVolume sampleParent).backendRel)
    (Executor.executeWithControl ⟨swapPlan⟩).run ⟨swapState, []⟩ executedTrace (some r) w ∧
      w.backend = refusedSwap.backend :=
  ⟨_, _, Runs.of_run (refusingPorts_allowed refusesNothing) _ _, rfl⟩

theorem runs_recoveredTrace (refused : JournalRecord → Bool) : ∃ r w,
    Runs (engineEnv (flatVolume sampleParent).backendRel)
      (Recovery.recoverRecords refusedSwap.records) refusedSwap
        (recoveredTrace refused) (some r) w ∧
      w.backend = refusedSwap.backend :=
  ⟨_, _, Runs.of_run (refusingPorts_allowed refused) _ _,
    backend_run refused _ _ refusedSwap_left.2.2.2.2⟩

theorem served_executedTrace : (∀ event ∈ executedTrace, EngineEvent.Served event) ∧
    appendedBy executedTrace = refusedSwap.records := by
  decide +kernel

/-- A recovery journals one more refusal, of which a full journal takes the first record. -/
theorem served_recoveredTrace :
    ((∀ event ∈ recoveredTrace refusesNothing, EngineEvent.Served event) ∧
      appendedBy (recoveredTrace refusesNothing) = Recovery.refusedRecords 0 1) ∧
    recoveredTrace refusesNotApplied = (recoveredTrace refusesNotApplied).dropLast ++
      [⟨.journal (.append (.notApplied 0 .rollback)), .error (.notAppended 3)⟩] ∧
    (∀ event ∈ (recoveredTrace refusesNotApplied).dropLast, EngineEvent.Served event) ∧
    appendedBy (recoveredTrace refusesNotApplied).dropLast = [.prepared 0 .rollback] := by
  decide +kernel

/-- The swap with `m` more refusals, on a file journal. -/
structure Refused (m : ℕ) (s : Place VolumeState) : Prop where
  ready : s.Ready
  backend : s.backend = refusedSwap.backend
  records : s.journal.records = refusedSwap.records ++ Recovery.refusedRecords 0 m

theorem length_refusedRecords (i m : ℕ) : (Recovery.refusedRecords i m).length = 2 * m := by
  induction m with
  | zero => rfl
  | succ m ih =>
      rw [Recovery.refusedRecords_succ, List.length_append, ih]
      rfl

theorem length_refusedSwap : refusedSwap.records.length = 7 := by
  rw [refusedSwap_left.1]
  rfl

theorem Refused.length {m : ℕ} {s : Place VolumeState} (h : Refused m s) :
    s.journal.records.length = 7 + 2 * m := by
  rw [h.records, List.length_append, length_refusedSwap, length_refusedRecords]

theorem exists_executed : ∃ s events,
    Attempted (flatVolume sampleParent).backendRel events s ∧ Refused 0 s := by
  have hopened : ((JournalOpening.openExisting (.ofAscii "journal")).program.run
      JournalSession.faultless JournalSession.emptyJournalDisk).1 =
        some JournalSession.emptyJournal := by
    decide +kernel
  have opening := Runs.of_run JournalSession.fileEnv_faultless
    (JournalOpening.openExisting (.ofAscii "journal")).program JournalSession.emptyJournalDisk
  rw [hopened] at opening
  have hstart : Attempted (flatVolume sampleParent).backendRel _ _ := .opened swapState opening
  have hjournal := ((JournalSession.gives_opening _).sound opening).2 _ rfl _ rfl
  obtain ⟨hserved, happended⟩ := served_executedTrace
  obtain ⟨r, w, run, hw⟩ := runs_executedTrace
  have hready : Place.Ready ⟨swapState, JournalSession.emptyJournal, none, _⟩ :=
    ⟨⟨rfl, rfl, rfl, hjournal.intact⟩, by simp⟩
  have haccepted : (replayJournal (JournalSession.emptyJournal.records ++
      appendedBy executedTrace)).isCorrupt = false := by
    rw [happended]
    exact isCorrupt_replayJournal_eq_false_iff.2 (.inr ⟨_, _, _, logs_refusedSwap⟩)
  obtain ⟨t, ht, hready', hbackend, hrecords⟩ := hready.exists_admitted run.admitted rfl hserved
    haccepted (by rw [happended, length_refusedSwap]; decide) (happended ▸ storable_refusedSwap)
  refine ⟨t, _, hstart.executed (run.of_admitted ht), hready', hbackend.trans hw, ?_⟩
  rw [hrecords, happended]
  simp [JournalSession.emptyJournal, Recovery.refusedRecords, refusals]

variable {m : ℕ} {s : Place VolumeState}

/-- Recovery behind its snapshot. -/
theorem Refused.exists_snapshot (h : Refused m s) : ∃ u, Refused m u ∧ ∀ trace r t,
    Runs (placeEnv (flatVolume sampleParent).backendRel)
      (Recovery.recoverRecords refusedSwap.records)
      u trace r t → Runs (placeEnv (flatVolume sampleParent).backendRel) Recovery.rollback
        { s with authorization := none }
        (⟨.journal .snapshot, .ok s.journal.records⟩ :: trace) r t := by
  obtain ⟨u, hsnapshot, hready, hbackend, hrecords⟩ :=
    @Place.Ready.exists_snapshot _ (flatVolume sampleParent).backendRel _ h.ready.unauthorized
  refine ⟨u, ⟨hready, hbackend.trans h.backend, hrecords.trans h.records⟩, fun trace r t run => ?_⟩
  refine .call hsnapshot ?_
  show Runs _ (Recovery.recoverRecords s.journal.records) u trace r t
  rw [h.records, Recovery.recoverRecords_refusedRecords logs_refusedSwap prepared_refusedSwap]
  exact run

theorem Refused.accepted (h : Refused m s) {rest : List JournalRecord}
    (hrest : rest <+: Recovery.refusedRecords 0 1) :
    (replayJournal (s.journal.records ++ rest)).isCorrupt = false := by
  obtain ⟨more, hmore⟩ := hrest
  have hlogs := Recovery.logs_refusedRecords
    (Recovery.logs_refusedRecords logs_refusedSwap m) 1
  rw [← hmore, ← List.append_assoc] at hlogs
  rw [h.records]
  exact isCorrupt_replayJournal_of_append
    (isCorrupt_replayJournal_eq_false_iff.2 (.inr ⟨_, _, _, hlogs⟩))

theorem storable_refusedRecords : ∀ record ∈ Recovery.refusedRecords 0 1, record.Storable := by
  have hall : ∀ record ∈ Recovery.refusedRecords 0 1, record ∈ refusedSwap.records := by
    rw [refusedSwap_left.1]
    decide
  exact fun record hrecord => storable_refusedSwap record (hall record hrecord)

/-- One more recovery, one more refusal. -/
theorem Refused.recovered (h : Refused m s) (hfew : 7 + 2 * (m + 1) ≤ maxJournalFrames) :
    ∃ t trace r, Runs (placeEnv (flatVolume sampleParent).backendRel) Recovery.rollback
      { s with authorization := none } trace r t ∧ Refused (m + 1) t := by
  obtain ⟨u, hu, hruns⟩ := h.exists_snapshot
  obtain ⟨⟨hserved, happended⟩, -⟩ := served_recoveredTrace
  obtain ⟨r, w, run, hw⟩ := runs_recoveredTrace refusesNothing
  have hlength : (appendedBy (recoveredTrace refusesNothing)).length = 2 := by rw [happended]; rfl
  obtain ⟨t, ht, hready, hbackend, hrecords⟩ := hu.ready.exists_admitted run.admitted hu.backend
    hserved (hu.accepted (by rw [happended]))
    (by rw [hu.length]; exact hlength ▸ hfew) (happended ▸ storable_refusedRecords)
  refine ⟨t, _, _, hruns _ _ _ (run.of_admitted ht), hready, hbackend.trans hw, ?_⟩
  rw [hrecords, happended, hu.records, List.append_assoc, Recovery.refusedRecords_succ,
    Recovery.refusedRecords_succ]
  rfl

/-- Any number of refusals that the journal has room for. -/
theorem exists_refused {m : ℕ} (hfew : 7 + 2 * m ≤ maxJournalFrames) : ∃ s events,
    Attempted (flatVolume sampleParent).backendRel events s ∧ Refused m s := by
  induction m with
  | zero => exact exists_executed
  | succ m ih =>
      obtain ⟨s, events, hattempted, hrefused⟩ := ih (by omega)
      obtain ⟨t, trace, r, run, ht⟩ := hrefused.recovered hfew
      exact ⟨t, _, hattempted.recovered run, ht⟩

/-- The journal is full before the move is taken back. -/
theorem Refused.exists_exhausted (h : Refused 19998 s) : ∃ front r t,
    Runs (placeEnv (flatVolume sampleParent).backendRel) Recovery.rollback
      { s with authorization := none }
      (front ++ [⟨.journal (.append (.notApplied 0 .rollback)), .error (.notAppended 3)⟩]) r t ∧
      t.journal.records.length = maxJournalFrames ∧
      Logs t.journal.records swapPlan.id
        (manifestOf refusedSwap.records) (.rollbackPending 1 0) := by
  obtain ⟨u, hu, hruns⟩ := h.exists_snapshot
  obtain ⟨-, hsplit, hserved, happended⟩ := served_recoveredTrace
  obtain ⟨r, w, run, -⟩ := runs_recoveredTrace refusesNotApplied
  have hadmitted := run.admitted
  rw [hsplit] at hadmitted
  obtain ⟨v, hfront, -⟩ := Admitted.append_iff.1 hadmitted
  obtain ⟨t, ht, hready, -, hrecords⟩ := hu.ready.exists_admitted hfront hu.backend hserved
    (hu.accepted (by rw [happended]; exact ⟨[.notApplied 0 .rollback], rfl⟩))
    (by rw [hu.length, happended]; decide)
    (by rw [happended]; simpa using storable_refusedRecords (.prepared 0 .rollback) (by decide))
  rw [happended, hu.records] at hrecords
  have hlength : t.journal.records.length = maxJournalFrames := by
    rw [hrecords, List.length_append, List.length_append, length_refusedSwap, length_refusedRecords]
    rfl
  have hfull : placeEnv (flatVolume sampleParent).backendRel t _ _ t :=
    hready.append_full hlength.ge (.notApplied 0 .rollback)
  have hlast := run.of_admitted (hsplit ▸ Admitted.snoc_iff.2 ⟨t, ht, hfull⟩)
  have hrun := hruns _ _ _ hlast
  rw [hsplit] at hrun
  refine ⟨⟨.journal .snapshot, .ok s.journal.records⟩ ::
    (recoveredTrace refusesNotApplied).dropLast,
    _, t, hrun, hlength, ?_⟩
  rw [hrecords]
  exact (Recovery.logs_refusedRecords logs_refusedSwap 19998).append
    (r := .prepared 0 .rollback) rfl

end Sample

variable {B : Type} {backend : BackendRel B}

theorem Attempted.sound {events : List EngineEvent} {s : Place B}
    (h : Attempted backend events s) : s.Sound := by
  have hopened : ∀ {opening : JournalOpening} {disk disk' : Disk} {files : List FileEvent}
      {journal : FileJournal} (b : B),
      Runs fileEnv opening.program disk files (some (some journal)) disk' →
        Place.Sound ⟨b, journal, none, disk'⟩ := by
    intro opening disk disk' files journal b run
    have hjournal := ((JournalSession.gives_opening opening).sound run).2 _ rfl journal rfl
    exact ⟨fun _ => hjournal.intact, hjournal.replays⟩
  induction h with
  | opened b run => exact hopened b run
  | executed _ run ih => exact ih.executed run
  | recovered _ run ih =>
      exact Place.sound_of_spec ih.unauthorized.tracks
        (Place.spec_rollback_accepted ih.accepted) run
  | reopened _ run _ => exact hopened _ run

/-- An event lies in the second of two lists or in the first. -/
theorem exists_split_of_append_eq {α : Type} {a b front back : List α} {x : α}
    (h : a ++ b = front ++ x :: back) : (∃ more, front = a ++ more ∧ b = more ++ x :: back) ∨
      ∃ more, a = front ++ x :: more := by
  rcases List.append_eq_append_iff.1 h with ⟨more, hfront, hb⟩ | ⟨more, ha, hmore⟩
  · exact .inl ⟨more, hfront, hb⟩
  · cases more with
    | nil => exact .inl ⟨[], by simpa using ha.symm, hmore.symm⟩
    | cons y more =>
        obtain ⟨rfl, -⟩ := List.cons.inj hmore
        exact .inr ⟨more, ha⟩

end DarkReNamer
