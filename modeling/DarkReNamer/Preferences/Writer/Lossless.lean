import DarkReNamer.Preferences.Writer.History

/-!
# No given snapshot is lost

Every snapshot given to the writer reaches `save` and has its result sent, or was replaced
by a later one, before the terminal event. A `shutdown_with` after shutdown was requested
is not such a call: it answers with the last generation and drops its snapshot.
-/

namespace DarkReNamer

open Machine

variable {T : Type}

/-- A move of the worker, not a call of the owner. -/
def WriterAction.isMove : WriterAction T → Bool
  | .worker _ => true
  | _ => false

namespace CoalescingWriter

variable {w t : CoalescingWriter T} {h o : List (WriterObservation T)}
  {stopped shuttingDown : String} {r : PreferenceRequest T}

/-- How many moves the worker makes before it next looks at the queue, this one included. -/
def movesToTake (w : CoalescingWriter T) : ℕ :=
  match w.worker with
  | .saving _ => 3
  | .sending _ _ => 2
  | .polling => 1
  | _ => 0

theorem movesToTake_le (w : CoalescingWriter T) : w.movesToTake ≤ 3 := by
  unfold movesToTake
  split <;> omega

/-- The worker is not asleep and not gone while a request is pending. -/
theorem Follows.movesToTake_pos (hw : Follows w h) (hr : w.queue.pending = some r) :
    0 < w.movesToTake := by
  unfold movesToTake
  split
  · omega
  · omega
  · omega
  · rename_i hsaving hsending hpolling
    cases hphase : w.worker with
    | polling => exact (hpolling hphase).elim
    | waiting =>
        have := hw.asleep hphase
        simp [this] at hr
    | saving request => exact (hsaving _ hphase).elim
    | sending generation outcome => exact (hsending _ _ hphase).elim
    | stopping | exiting | ended =>
        have := (hw.leaves (by simp [leaving, hphase])).2
        simp [this] at hr

/-- With a request pending the worker moves towards it, or takes it. -/
theorem workerStep_of_pending (hr : w.queue.pending = some r) (hpos : 0 < w.movesToTake)
    (outcome : Except String Unit) :
    ∃ t o, w.workerStep outcome = some (t, o) ∧
      (.handed r.generation r.snapshot ∈ o ∨
        t.queue.pending = some r ∧ w.movesToTake = 1 + t.movesToTake ∧
          (o = [] ∨ ∃ event, o = [.emitted event])) := by
  cases hphase : w.worker with
  | polling =>
      exact ⟨{ w with queue := { w.queue with pending := none }, worker := .saving r },
        [.handed r.generation r.snapshot], by simp [workerStep, hphase, hr], .inl (by simp)⟩
  | saving request =>
      exact ⟨{ w with worker := .sending request.generation outcome }, [],
        by simp [workerStep, hphase], .inr ⟨hr, by simp [movesToTake, hphase], by simp⟩⟩
  | sending generation outcome' =>
      exact ⟨{ w with worker := .polling, events := w.events ++ [eventOf generation outcome'] },
        [.emitted (eventOf generation outcome')], by simp [workerStep, hphase],
        .inr ⟨hr, by simp [movesToTake, hphase], by simp⟩⟩
  | waiting | stopping | exiting | ended => simp [movesToTake, hphase] at hpos

/-- The moves of the worker among the actions. -/
def movesOf (actions : List (WriterAction T)) : ℕ := actions.countP (·.isMove)

theorem notify_movesToTake (hpos : 0 < w.movesToTake) :
    w.notify.movesToTake = w.movesToTake := by
  unfold notify
  split
  · next hphase => simp [movesToTake, hphase] at hpos
  · rfl

/-- A step with a request pending hands it, or gives a later one, or brings the worker as much
closer as it is a move of the worker. -/
theorem step_of_pending (hr : w.queue.pending = some r) (hpos : 0 < w.movesToTake)
    {a : WriterAction T} (hstep : step stopped shuttingDown w a = some (t, o)) :
    .handed r.generation r.snapshot ∈ o ∨
    (a.isMove = false ∧ ∃ x q, o = [x] ∧ x.accepted w.queue.shutdown = some q) ∨
    t.queue.pending = some r ∧ w.movesToTake = movesOf [a] + t.movesToTake ∧
      (o = [] ∨ ∃ x, o = [x] ∧ x.accepted w.queue.shutdown = none) := by
  cases hmove : a.isMove with
  | true =>
      obtain ⟨outcome, rfl⟩ : ∃ outcome, a = .worker outcome := by
        cases a with
        | worker outcome => exact ⟨outcome, rfl⟩
        | submit | shutdownWith | requestShutdown => cases hmove
      obtain ⟨t', o', hstep', hnext⟩ := workerStep_of_pending hr hpos outcome
      obtain ⟨rfl, rfl⟩ : t' = t ∧ o' = o := by simpa using hstep'.symm.trans hstep
      refine hnext.imp_right fun ⟨hr', hcount, hemitted⟩ => .inr ⟨hr', hcount, ?_⟩
      exact hemitted.imp_right fun ⟨event, ho⟩ => ⟨_, ho, rfl⟩
  | false =>
      have hnone : movesOf [a] = 0 := by simp [movesOf, hmove]
      rw [hnone, Nat.zero_add]
      rcases step_cases hstep with ⟨x, rfl, rfl, haccepted, -⟩ |
        ⟨x, snapshot, rfl, hopen, haccepted, rfl⟩ | ⟨rfl, rfl⟩ | ⟨outcome, rfl, -⟩
      · exact .inr (.inr ⟨hr, rfl, .inr ⟨x, rfl, haccepted⟩⟩)
      · exact .inr (.inl ⟨rfl, x, _, rfl, by rw [hopen, haccepted]⟩)
      · have hcount : w.requestShutdown.movesToTake = w.movesToTake :=
          notify_movesToTake (w := { w with queue := { w.queue with shutdown := true } }) hpos
        refine .inr (.inr ⟨?_, hcount.symm, .inr ⟨_, rfl, rfl⟩⟩)
        rw [requestShutdown, notify_queue]
        exact hr
      · cases hmove

/-- So many moves of the worker hand the pending request to `save`, whatever the owner calls in
between and whatever the saves answer, unless one of these calls gives a later request. -/
theorem handed_of_pending (hw : Follows w h) {i : ℕ} (hnewest : Newest h i r)
    (hr : w.queue.pending = some r) {more : List (WriterAction T)}
    (hmoves : w.movesToTake ≤ movesOf more)
    (hrun : Machine.run (step stopped shuttingDown) w more = some (t, o)) :
    HandedAfter (h ++ o) i r ∨
      Superseded (h ++ o) i (h ++ o).length ∧ ∃ a ∈ more, a.isMove = false := by
  have hpos := hw.movesToTake_pos hr
  induction more generalizing w h o with
  | nil =>
      rw [movesOf, List.countP_nil] at hmoves
      omega
  | cons a more ih =>
      obtain ⟨u, first, rest, hstep, hrest, rfl⟩ := run_cons_eq_some.1 hrun
      have hi := lt_length_of_acceptedAt hnewest.1
      rw [← List.append_assoc]
      rcases step_of_pending hr hpos hstep with hhanded | ⟨hcall, x, q, rfl, hq⟩ |
        ⟨hr', hcount, hquiet⟩
      · obtain ⟨j, hj⟩ := List.getElem?_of_mem hhanded
        refine .inl (HandedAfter.append ⟨h.length + j, by omega, ?_⟩ rest)
        rw [List.getElem?_append_right (by omega), Nat.add_sub_cancel_left, hj]
      · have hat : acceptedAt (h ++ [x]) h.length = some q :=
          acceptedAt_snoc.2 (.inr ⟨rfl, hw.closed ▸ hq⟩)
        refine .inr ⟨?_, a, List.mem_cons_self, hcall⟩
        exact Superseded.append (k := h.length + 1)
          ⟨h.length, q, hi, Nat.lt_succ_self _, hat⟩ rest (by simp)
      · have hnewest' : Newest (h ++ first) i r := by
          rcases hquiet with rfl | ⟨x, rfl, hx⟩
          · rwa [List.append_nil]
          · exact hnewest.snoc (hw.closed ▸ hx)
        have hw' : Follows u (h ++ first) := hw.step hstep
        have hmore : movesOf (a :: more) = movesOf [a] + movesOf more := by
          rw [movesOf, movesOf, movesOf, ← List.countP_append, List.singleton_append]
        refine (ih hw' hnewest' hr' (by omega) hrest (hw'.movesToTake_pos hr')).imp_right ?_
        exact fun ⟨hlater, call, hcall, hmove⟩ =>
          ⟨hlater, call, List.mem_cons_of_mem a hcall, hmove⟩

/-- A request that is not pending any more, and that no later call replaced, was handed. -/
theorem Follows.handedAfter (hw : Follows w h) {i : ℕ} (hr : Newest h i r) :
    w.queue.pending = some r ∨ HandedAfter h i r := by
  refine (hw.settled i r hr.1).imp_right ?_
  rintro (⟨j, q, hij, -, hj⟩ | ⟨j, -, -, hij, -, -, hj, -⟩ | ⟨hhanded, -⟩)
  · rw [hr.2 j hij] at hj
    cases hj
  · exact ⟨j, hij, hj⟩
  · exact hhanded

/-- In every run of the owner's calls and the worker's moves:
a snapshot that a call gave to the writer was, before the terminal event, handed to `save`
with its result sent under its generation, or replaced by a later call;
the last one given is handed to `save` within three moves of the worker, whatever the owner
calls in between, unless one of these calls replaces it, and the worker can move until then;
the generations of the results increase;
and a repeated shutdown answers with the generation of the last snapshot given. -/
theorem coalescingWriter_lossless {actions : List (WriterAction T)}
    (hrun : Machine.run (step stopped shuttingDown) spawn actions = some (w, h)) :
    (∀ k, h[k]? = some (.emitted .stopped) → ∀ i r, acceptedAt h i = some r →
      i < k ∧ (Reported h i k r ∨ Superseded h i k)) ∧
    (∀ i r, Newest h i r →
      (HandedAfter h i r ∨ ∀ outcome, (w.workerStep outcome).isSome = true) ∧
      ∀ (more : List (WriterAction T)) (t o), 3 ≤ movesOf more →
        Machine.run (step stopped shuttingDown) w more = some (t, o) →
          HandedAfter (h ++ o) i r ∨
            Superseded (h ++ o) i (h ++ o).length ∧ ∃ a ∈ more, a.isMove = false) ∧
    (emittedGenerations h).Pairwise (· < ·) ∧
    ∀ i snapshot g, h[i]? = some (.shutdownWith snapshot (.ok g)) → acceptedAt h i = none →
      ∀ j r, Newest h j r → r.generation = g := by
  have hw : Follows w h := Follows.run hrun
  refine ⟨?_, ?_, ?_, ?_⟩
  · intro k hk i r hr
    obtain ⟨hik, hdone⟩ := (hw.stopped k hk).2 i r hr
    exact ⟨hik, hdone.symm⟩
  · intro i r hr
    constructor
    · refine (hw.handedAfter hr).symm.imp_right fun hpending outcome => ?_
      obtain ⟨t, o, hstep, -⟩ :=
        workerStep_of_pending hpending (hw.movesToTake_pos hpending) outcome
      simp [hstep]
    · intro more t o hmoves hmore
      rcases hw.handedAfter hr with hpending | hhanded
      · exact handed_of_pending hw hr hpending ((movesToTake_le w).trans hmoves) hmore
      · exact .inl (hhanded.append o)
  · exact (List.pairwise_append.1 hw.increasing).1
  · intro i snapshot g hi hnone j r hr
    exact (hw.generation_of_newest hr).trans (hw.repeated i snapshot g hi hnone).symm

/-- A submission and a shutdown while it is being saved, through to the terminal event. -/
def twoSnapshots : List (WriterAction ℕ) :=
  [.submit 7 false, .worker (.ok ()), .shutdownWith 8 false, .worker (.error "full"),
    .worker (.ok ()), .worker (.ok ()), .worker (.ok ()), .worker (.ok ()), .worker (.ok ()),
    .worker (.ok ())]

def twoSnapshotsHistory : List (WriterObservation ℕ) :=
  [.submit 7 (.ok 1), .handed 1 7, .shutdownWith 8 (.ok 2), .emitted (.failed 1 "full"),
    .handed 2 8, .emitted (.saved 2), .emitted .stopped]

theorem coalescingWriter_lossless_twoSnapshots :
    (∀ i r, acceptedAt twoSnapshotsHistory i = some r →
      i < 6 ∧ (Reported twoSnapshotsHistory i 6 r ∨ Superseded twoSnapshotsHistory i 6)) ∧
      (emittedGenerations twoSnapshotsHistory).Pairwise (· < ·) := by
  have hrun : Machine.run (step "stopped" "closing") spawn twoSnapshots =
      some (⟨⟨none, true⟩, [.failed 1 "full", .saved 2, .stopped], .exiting, 2⟩,
        twoSnapshotsHistory) := rfl
  have h := coalescingWriter_lossless hrun
  exact ⟨h.1 6 rfl, h.2.2.1⟩

/-- The second of two shutdowns: its call answers `Ok(1)` and its snapshot goes nowhere. -/
def repeatedShutdown : List (WriterAction ℕ) :=
  [.shutdownWith 7 false, .shutdownWith 8 false, .worker (.ok ()), .worker (.ok ()),
    .worker (.ok ()), .worker (.ok ()), .worker (.ok ())]

def repeatedShutdownHistory : List (WriterObservation ℕ) :=
  [.shutdownWith 7 (.ok 1), .shutdownWith 8 (.ok 1), .handed 1 7, .emitted (.saved 1),
    .emitted .stopped]

theorem coalescingWriter_loses_repeatedShutdown :
    ¬ ∀ (actions : List (WriterAction ℕ)) (w : CoalescingWriter ℕ)
      (h : List (WriterObservation ℕ)),
      Machine.run (step "stopped" "closing") spawn actions = some (w, h) →
        ∀ k, h[k]? = some (.emitted .stopped) →
          ∀ i r, h[i]?.bind (·.returned) = some r →
            Reported h i k r ∨ Superseded h i k := by
  intro hlossless
  have hrun : Machine.run (step "stopped" "closing") spawn repeatedShutdown =
      some (⟨⟨none, true⟩, [.saved 1, .stopped], .exiting, 1⟩,
        repeatedShutdownHistory) := rfl
  rcases hlossless _ _ _ hrun 4 rfl 1 ⟨1, 8⟩ rfl with
    ⟨j, l, event, hij, hjl, hlk, hj, -⟩ | ⟨j, r, hij, hjk, hj⟩
  · have hj' : j = 2 := by omega
    subst hj'
    cases hj
  · have hj' : j = 2 ∨ j = 3 := by omega
    rcases hj' with rfl | rfl
    · cases hj
    · cases hj

end CoalescingWriter

end DarkReNamer
