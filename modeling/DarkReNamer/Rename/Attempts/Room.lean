import DarkReNamer.Rename.Attempts
import DarkReNamer.Rename.Journal.Codec.FrameSize
import DarkReNamer.UndoLog.Length

/-!
# Room in the journal

An append is never refused for the size of the file, and for the number of frames only after many
reverse moves were settled as not applied: the transaction itself needs at most `4 * n + 2` frames
for `n` steps, and each of these two more. A reverse move is settled so when the backend refuses
it, and when recovery finds it prepared and not made.
-/

namespace DarkReNamer

open Interaction UndoLog

variable {B : Type} {backend : BackendRel B}

/-- A reverse move settled as not applied. -/
def JournalRecord.isRefusal : JournalRecord → Bool
  | .notApplied _ .rollback => true
  | _ => false

/-- The reverse moves that were settled as not applied. -/
def refusedMoves (records : List JournalRecord) : ℕ := records.countP JournalRecord.isRefusal

theorem refusedMoves_logs (plan : PlanId) (steps : List JournalStep) (log : List UndoLog.Record) :
    refusedMoves (.intent plan steps :: log.map .ofLog) = refusalCount log := by
  have hsame : (JournalRecord.isRefusal ∘ JournalRecord.ofLog) = UndoLog.Record.isRefusal := by
    funext r
    cases r with
    | notApplied step direction => cases direction <;> rfl
    | _ => rfl
  rw [refusedMoves, List.countP_cons_of_neg (by simp [JournalRecord.isRefusal]), List.countP_map,
    hsame]
  rfl

theorem length_payload_ofLog_le (r : UndoLog.Record) :
    (JournalRecord.ofLog r).payload.length ≤ 5 := by
  cases r <;> simp [JournalRecord.ofLog, JournalRecord.payload]

/-- The frames of a journal that are not there yet leave room for a record, unless reverse moves
were settled as not applied too often. -/
structure Spare (records : List JournalRecord) (record : JournalRecord) (error : JournalError) :
    Prop where
  bytes : error ≠ .notAppended 5
  frames : error = .notAppended 3 → ∃ plan steps rest, records = .intent plan steps :: rest ∧
    maxJournalFrames < 4 * steps.length + 2 + 2 * refusedMoves (records ++ [record])

/-- An accepted journal that another record follows. -/
theorem exists_logs_append {records : List JournalRecord} {record : JournalRecord}
    (h : (replayJournal (records ++ [record])).isCorrupt = false) :
    ∃ plan steps phase, Logs (records ++ [record]) plan steps phase :=
  (isCorrupt_replayJournal_eq_false_iff.1 h).resolve_left (by simp)

/-- The frames of an accepted journal are small, whatever the number of its records. -/
theorem length_le_of_accepted {records : List JournalRecord} {record : JournalRecord}
    {bytes : List UInt8} (h : (replayJournal (records ++ [record])).isCorrupt = false)
    (hframes : Frames 0 bytes records) (hfew : records.length < maxJournalFrames)
    (hstorable : record.Storable) :
    bytes.length + headerBytes + record.payload.length ≤ maxJournalFileBytes := by
  obtain ⟨plan, steps, phase, log, hrecords, -⟩ := exists_logs_append h
  cases records with
  | nil =>
      cases hframes
      have hpayload := hstorable.payload_le
      simp only [List.length_nil, headerBytes, maxJournalFrameBytes, maxJournalFileBytes]
        at hpayload ⊢
      omega
  | cons first rest =>
      obtain ⟨rfl, hrest⟩ := List.cons.inj hrecords
      obtain ⟨before, last, rfl, rfl, hlast⟩ := List.map_eq_append_iff.1 hrest.symm
      have hmem : record ∈ last.map JournalRecord.ofLog := by simp [hlast]
      obtain ⟨r, -, rfl⟩ := List.mem_map.1 hmem
      have hbytes := hframes.length_le_of_intent
      have hpayload := length_payload_ofLog_le r
      rw [List.length_cons, List.length_map] at hfew
      simp only [headerBytes, maxJournalFrameBytes, maxJournalFileBytes, maxJournalFrames,
        maxJournalSteps] at hbytes hfew ⊢
      omega

/-- What is refused to a journal whose records go on with the record. -/
theorem FileJournal.Appends.spare_of_accepted {journal : FileJournal} {record : JournalRecord}
    {error : JournalError} {journal' : FileJournal}
    (h : journal.Appends record (.error error, journal'))
    (haccepted : (replayJournal (journal.records ++ [record])).isCorrupt = false) :
    Spare journal.records record error where
  bytes := by
    rintro rfl
    obtain ⟨bytes, hframes, hfew, hstorable, hlarge⟩ := h.large rfl
    exact absurd (length_le_of_accepted haccepted hframes hfew hstorable) (Nat.not_le.2 hlarge)
  frames := by
    rintro rfl
    have hfull := h.full rfl
    obtain ⟨plan, steps, phase, log, hrecords, hphase⟩ := exists_logs_append haccepted
    have hlength := Phase.length_le_of_ofLog hphase
    have hcount := congrArg List.length hrecords
    rw [List.length_append, List.length_singleton, List.length_cons, List.length_map] at hcount
    cases hjournal : journal.records with
    | nil =>
        rw [hjournal] at hfull
        exact absurd hfull (by decide)
    | cons first rest =>
        have hfirst : first = .intent plan steps := by
          rw [hjournal] at hrecords
          exact (List.cons.inj hrecords).1
        refine ⟨plan, steps, rest, by rw [hfirst], ?_⟩
        rw [← hjournal, hrecords, refusedMoves_logs]
        omega

namespace Place

variable {s t : Place B}

/-- An append that is refused in a run of a program that keeps the journal accepted. -/
theorem exists_refused {α : Type} {p : Engine α} {post : α → World B → Prop}
    {front back : List EngineEvent} {record : JournalRecord} {error : JournalError}
    {r : Option α} (htracks : s.journal.Tracks s.disk)
    (hspec : Spec (engineEnv backend) (fun w => (replayJournal w.records).isCorrupt = false) p post
      s.world)
    (run : Runs (placeEnv backend) p s
      (front ++ ⟨.journal (.append record), .error error⟩ :: back) r t) :
    ∃ u v, Runs (placeEnv backend) p s front none u ∧
      placeEnv backend u (.journal (.append record)) (.error error) v ∧
      Spare u.journal.records record error := by
  obtain ⟨u, v, hcut, hcall⟩ := run.exists_call
  refine ⟨u, v, hcut, hcall, ?_⟩
  obtain ⟨hu, hworld⟩ := runs_world htracks hcut
  -- the journal accepts the record, since the append may as well have succeeded
  have haccepted := (hspec.sound ((runs_world htracks run).2.reanswer hworld.admitted
    (show engineEnv backend u.world (.journal (.append record)) (.ok ())
      ⟨u.backend, u.journal.records ++ [record]⟩ from ⟨rfl, rfl⟩))).1
  obtain ⟨-, files, hfiles⟩ := hcall
  obtain ⟨-, happends⟩ := ((appends_write hu u.authorization record).sound hfiles).2 _ rfl
  exact happends.spare_of_accepted haccepted

theorem spec_rollback_accepted {w : World B} (h : (replayJournal w.records).isCorrupt = false) :
    Spec (engineEnv backend) (fun w => (replayJournal w.records).isCorrupt = false)
      Recovery.rollback (fun _ _ => True) w := by
  have hconsistent : ∃ plan steps, Consistent (fun _ _ => True) plan steps w := by
    rcases isCorrupt_replayJournal_eq_false_iff.1 h with hempty | ⟨plan, steps, phase, hlogs⟩
    · exact ⟨⟨0⟩, [], .inl ⟨hempty, trivial⟩⟩
    · exact ⟨plan, steps, .inr ⟨phase, hlogs, by cases phase with
        | ended value => cases value <;> trivial
        | _ => simp [Phase.Holds]⟩⟩
  obtain ⟨plan, steps, hconsistent⟩ := hconsistent
  have hspec := Recovery.spec_rollback within_engineEnv (carries_true backend steps)
    (Recovery.settles_true backend plan steps) (fun _ => trivial) hconsistent
  exact (hspec.mono_crash fun t ht => ht.isCorrupt_eq_false).mono fun _ _ _ => trivial

theorem spec_execute_accepted {w : World B} (confirmed : ConfirmedPlan) (h : w.records = []) :
    Spec (engineEnv backend) (fun w => (replayJournal w.records).isCorrupt = false)
      (Executor.executeWithControl confirmed).run (fun _ _ => True) w :=
  (Executor.spec_execute_consistent backend confirmed h).mono_crash
    fun _ ⟨_, hconsistent⟩ => hconsistent.isCorrupt_eq_false

/-- An event that refuses no record for want of room. -/
def Roomy (event : EngineEvent) : Prop :=
  ∀ record error, event = ⟨.journal (.append record), .error error⟩ →
    error ≠ .notAppended 3 ∧ error ≠ .notAppended 5

/-- The journal that an execution found, with no room asked for. -/
def Kept (s : Place B) (t : Place B × List EngineEvent) : Prop :=
  t.1.journal = s.journal ∧ t.1.authorization = none ∧ t.1.disk = s.disk ∧
    ∀ event ∈ t.2, Roomy event

/-- A call that appends nothing and asks for no snapshot. -/
theorem Kept.step {p q : Place B × List EngineEvent} {call : Call} {answer : Answer call}
    (h : Kept s p) (hcall : call.Observes ∨ ∃ control, call = .control control)
    (hstep : (placeEnv backend).logged p call answer q) : Kept s q := by
  obtain ⟨hstep, hlog⟩ := hstep
  obtain ⟨hjournal, hnone, hdisk, hroomy⟩ := h
  have hother : ∀ record, call ≠ .journal (.append record) := by
    rintro record rfl
    rcases hcall with h | ⟨control, h⟩
    · exact h
    · cases h
  have hevents : ∀ event ∈ q.2, Roomy event := by
    rw [hlog]
    intro event hevent
    rcases List.mem_append.1 hevent with hevent | hevent
    · exact hroomy event hevent
    · intro record error hsame
      rw [List.mem_singleton.1 hevent] at hsame
      exact absurd (congrArg Event.call hsame) (hother record)
  cases call with
  | backend call =>
      obtain ⟨-, hsame⟩ := hstep
      rw [Kept, hsame]
      exact ⟨hjournal, hnone, hdisk, hevents⟩
  | control call =>
      rw [Kept, show q.1 = p.1 from hstep]
      exact ⟨hjournal, hnone, hdisk, hevents⟩
  | journal call =>
      cases call with
      | append record => exact absurd rfl (hother record)
      | snapshot => rcases hcall with h | ⟨control, h⟩ <;> cases h

/-- A journal that has records refuses to begin, and not for want of room. -/
theorem Kept.begin {p q : Place B × List EngineEvent} {plan : PlanId} {steps : List JournalStep}
    {answer : Except JournalError Unit} (h : Kept s p) (hrecords : s.journal.records ≠ [])
    (hstep : (placeEnv backend).logged p (.journal (.append (.intent plan steps))) answer q) :
    Kept s q ∧ ∃ error, answer = .error error := by
  obtain ⟨⟨-, files, run⟩, hlog⟩ := hstep
  obtain ⟨hjournal, hnone, hdisk, hroomy⟩ := h
  obtain ⟨error, hfull, hlarge, hbegin⟩ := FileJournal.begin_of_records hrecords plan steps
  rw [hjournal, hnone, FileJournal.write, FileJournal.store, hbegin] at run
  obtain ⟨hsame, hfiles⟩ := run.eq_of_pure
  obtain ⟨houtcome, hauthorization⟩ := Prod.mk.inj hsame
  obtain ⟨rfl, hjournal'⟩ := Prod.mk.inj houtcome
  refine ⟨⟨hjournal', hauthorization, hfiles.trans hdisk, ?_⟩, error, rfl⟩
  rw [hlog]
  intro event hevent
  rcases List.mem_append.1 hevent with hevent | hevent
  · exact hroomy event hevent
  · intro record error hsame
    rw [List.mem_singleton.1 hevent] at hsame
    cases hsame
    exact ⟨hfull, hlarge⟩

/-- An execution on a journal that has records leaves it as it is. -/
theorem spec_execute_kept (confirmed : ConfirmedPlan) (hrecords : s.journal.records ≠ [])
    {p : Place B × List EngineEvent} (h : Kept s p) :
    Spec (placeEnv backend).logged (Kept s) (Executor.executeWithControl confirmed).run
      (fun _ => Kept s) p := by
  unfold Executor.executeWithControl
  rw [Spec.except_bind_iff]
  refine ((Executor.tries_prepare confirmed.plan).spec (I := Kept s)
    (fun _ _ _ _ hreads hkept hstep => hkept.step (.inl hreads) hstep) h).mono ?_
  rintro result q ⟨hq, -⟩
  cases result with
  | error error => exact ⟨hq, hq⟩
  | ok prepared =>
      obtain ⟨schedule, manifest, entries⟩ := prepared
      refine Spec.except_ask_bind hq fun answer q' hstep => ?_
      replace hq := hq.step (.inr ⟨_, rfl⟩) hstep
      by_cases hschedule : schedule = []
      · rw [if_pos hschedule]
        exact ⟨hq, hq⟩
      rw [if_neg hschedule]
      refine Spec.except_ask_bind hq fun begun q'' hstep => ?_
      replace hq := hq.step (.inr ⟨_, rfl⟩) hstep
      cases begun with
      | false => exact ⟨hq, hq⟩
      | true =>
          refine Spec.except_ask_bind hq fun answer t hstep => ?_
          obtain ⟨ht, error, rfl⟩ := hq.begin hrecords hstep
          dsimp only
          split_ifs <;> exact ⟨ht, ht⟩

section Attempt

variable {front back trace : List EngineEvent} {record : JournalRecord} {error : JournalError}

theorem sound_of_spec {α : Type} {p : Engine α} {post : α → World B → Prop} {r : Option α}
    (htracks : s.journal.Tracks s.disk)
    (hspec : Spec (engineEnv backend) (fun w => (replayJournal w.records).isCorrupt = false) p post
      s.world) (run : Runs (placeEnv backend) p s trace r t) : t.Sound := by
  obtain ⟨ht, hworld⟩ := runs_world htracks run
  exact ⟨ht, (hspec.sound hworld).1⟩

/-- The authorization has no part in it. -/
theorem Sound.unauthorized (h : s.Sound) : Sound { s with authorization := none } :=
  ⟨h.tracks, h.accepted⟩

section Executed

variable {confirmed : ConfirmedPlan} {r : Option (Except ExecuteError ExecutionReport)}

theorem kept_of_run (hrecords : s.journal.records ≠ [])
    (run : Runs (placeEnv backend) (Executor.executeWithControl confirmed).run
      { s with authorization := none } trace r t) : Kept s (t, trace) :=
  ((spec_execute_kept confirmed hrecords ⟨rfl, rfl, rfl, by simp⟩).sound (run.logged [])).1

theorem Sound.executed (h : s.Sound)
    (run : Runs (placeEnv backend) (Executor.executeWithControl confirmed).run
      { s with authorization := none } trace r t) : t.Sound := by
  by_cases hrecords : s.journal.records = []
  · exact sound_of_spec h.unauthorized.tracks (spec_execute_accepted confirmed hrecords) run
  · obtain ⟨hjournal, -, hdisk, -⟩ := kept_of_run hrecords run
    refine ⟨?_, ?_⟩
    · rw [hjournal, hdisk]
      exact h.tracks
    · rw [hjournal]
      exact h.accepted

theorem Sound.exists_refused_executed (h : s.Sound)
    (run : Runs (placeEnv backend) (Executor.executeWithControl confirmed).run
      { s with authorization := none } (front ++ ⟨.journal (.append record), .error error⟩ :: back)
      r t) : ∃ u v, Runs (placeEnv backend) (Executor.executeWithControl confirmed).run
        { s with authorization := none } front none u ∧
        placeEnv backend u (.journal (.append record)) (.error error) v ∧
        Spare u.journal.records record error := by
  by_cases hrecords : s.journal.records = []
  · exact exists_refused h.unauthorized.tracks (spec_execute_accepted confirmed hrecords) run
  · obtain ⟨u, v, hcut, hcall⟩ := run.exists_call
    obtain ⟨-, -, -, hroomy⟩ := kept_of_run hrecords run
    obtain ⟨hframes, hbytes⟩ := hroomy ⟨.journal (.append record), .error error⟩ (by simp) _ _ rfl
    exact ⟨u, v, hcut, hcall, hbytes, fun herror => absurd herror hframes⟩

end Executed

end Attempt

end Place

end DarkReNamer
