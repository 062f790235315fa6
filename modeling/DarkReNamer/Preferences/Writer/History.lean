import DarkReNamer.Preferences.Writer
import Mathlib.Order.Nat

/-!
# Accepted snapshots

Reads off a history which calls gave the writer a snapshot, and what became of each of
them: it reached `save` and its result was sent, or a later call gave another one. A
`shutdown_with` that finds shutdown already requested answers with a generation but
gives nothing.
-/

namespace DarkReNamer

open Machine

variable {T : Type}

namespace WriterObservation

/-- The calls after which the queue takes no more snapshots. -/
def shuts : WriterObservation T → Bool
  | .shutdownWith _ (.ok _) => true
  | .requestShutdown => true
  | _ => false

/-- What the call gave to a queue that is `closed` or not. -/
def accepted (closed : Bool) : WriterObservation T → Option (PreferenceRequest T)
  | .submit snapshot (.ok generation) => some ⟨generation, snapshot⟩
  | .shutdownWith snapshot (.ok generation) =>
    if closed then none else some ⟨generation, snapshot⟩
  | _ => none

/-- What the call answered with `Ok`, whether or not it gave anything. -/
def returned : WriterObservation T → Option (PreferenceRequest T)
  | .submit snapshot (.ok generation) => some ⟨generation, snapshot⟩
  | .shutdownWith snapshot (.ok generation) => some ⟨generation, snapshot⟩
  | _ => none

def emittedGeneration : WriterObservation T → Option ℕ
  | .emitted event => event.generation?
  | _ => none

end WriterObservation

namespace CoalescingWriter

/-- The request that the call at position `i` gave to the writer. -/
def acceptedAt (h : List (WriterObservation T)) (i : ℕ) : Option (PreferenceRequest T) :=
  h[i]?.bind (·.accepted ((h.take i).any (·.shuts)))

def emittedGenerations (h : List (WriterObservation T)) : List ℕ :=
  h.filterMap (·.emittedGeneration)

/-- Another snapshot was given after position `i` and before `k`. -/
def Superseded (h : List (WriterObservation T)) (i k : ℕ) : Prop :=
  ∃ j r, i < j ∧ j < k ∧ acceptedAt h j = some r

def HandedAfter (h : List (WriterObservation T)) (i : ℕ) (r : PreferenceRequest T) : Prop :=
  ∃ j, i < j ∧ h[j]? = some (.handed r.generation r.snapshot)

/-- `save` was given the snapshot after position `i`, and then, before `k`, the result went
out under its generation. -/
def Reported (h : List (WriterObservation T)) (i k : ℕ) (r : PreferenceRequest T) : Prop :=
  ∃ j l event, i < j ∧ j < l ∧ l < k ∧ h[j]? = some (.handed r.generation r.snapshot) ∧
    h[l]? = some (.emitted event) ∧ event.generation? = some r.generation

/-- `save` was given the snapshot after position `i` and succeeded. -/
def SavedAfter (h : List (WriterObservation T)) (i : ℕ) (r : PreferenceRequest T) : Prop :=
  ∃ j l, i < j ∧ j < l ∧ h[j]? = some (.handed r.generation r.snapshot) ∧
    h[l]? = some (.emitted (.saved r.generation))

/-- The request is the last one given. -/
def Newest (h : List (WriterObservation T)) (i : ℕ) (r : PreferenceRequest T) : Prop :=
  acceptedAt h i = some r ∧ ∀ j, i < j → acceptedAt h j = none

theorem Newest.unique {h : List (WriterObservation T)} {i j : ℕ} {r q : PreferenceRequest T}
    (hr : Newest h i r) (hq : Newest h j q) : r = q := by
  obtain ⟨hi, hafter⟩ := hr
  obtain ⟨hj, hafter'⟩ := hq
  rcases Nat.lt_trichotomy i j with hij | rfl | hij
  · rw [hafter j hij] at hj
    cases hj
  · exact Option.some.inj (hi.symm.trans hj)
  · rw [hafter' i hij] at hi
    cases hi

section Append

variable {h o : List (WriterObservation T)} {x : WriterObservation T} {i k : ℕ}
  {r : PreferenceRequest T}

theorem lt_length_of_acceptedAt (hi : acceptedAt h i = some r) : i < h.length := by
  obtain ⟨x, hx, -⟩ := Option.bind_eq_some_iff.1 hi
  exact (List.getElem?_eq_some_iff.1 hx).1

theorem acceptedAt_append_of_lt (hi : i < h.length) (o : List (WriterObservation T)) :
    acceptedAt (h ++ o) i = acceptedAt h i := by
  simp only [acceptedAt, List.getElem?_append_left hi, List.take_append_of_le_length hi.le]

theorem acceptedAt_snoc :
    acceptedAt (h ++ [x]) i = some r ↔
      acceptedAt h i = some r ∨ i = h.length ∧ x.accepted (h.any (·.shuts)) = some r := by
  rcases Nat.lt_trichotomy i h.length with hi | rfl | hi
  · simp [acceptedAt_append_of_lt hi, hi.ne]
  · have hnone : acceptedAt h h.length = none := by simp [acceptedAt]
    simp [acceptedAt]
  · have hnone : acceptedAt h i = none := by
      simp [acceptedAt, List.getElem?_eq_none hi.le]
    have hnone' : acceptedAt (h ++ [x]) i = none := by
      simp only [acceptedAt]
      rw [List.getElem?_eq_none (by simp; omega), Option.bind_none]
    simp [hnone, hnone', hi.ne']

theorem acceptedAt_snoc_of_none (hx : x.accepted (h.any (·.shuts)) = none) :
    acceptedAt (h ++ [x]) i = acceptedAt h i := by
  refine Option.ext fun r => ?_
  rw [acceptedAt_snoc, hx]
  simp

theorem Superseded.append (hs : Superseded h i k) (o : List (WriterObservation T)) {k' : ℕ}
    (hk : k ≤ k') : Superseded (h ++ o) i k' := by
  obtain ⟨j, r, hij, hjk, hj⟩ := hs
  exact ⟨j, r, hij, hjk.trans_le hk,
    (acceptedAt_append_of_lt (lt_length_of_acceptedAt hj) o).trans hj⟩

theorem HandedAfter.append (hr : HandedAfter h i r) (o : List (WriterObservation T)) :
    HandedAfter (h ++ o) i r := by
  obtain ⟨j, hij, hj⟩ := hr
  exact ⟨j, hij, getElem?_append_of_some hj o⟩

theorem Reported.append (hr : Reported h i k r) (o : List (WriterObservation T)) {k' : ℕ}
    (hk : k ≤ k') : Reported (h ++ o) i k' r := by
  obtain ⟨j, l, event, hij, hjl, hlk, hj, hl, hevent⟩ := hr
  exact ⟨j, l, event, hij, hjl, hlk.trans_le hk, getElem?_append_of_some hj o,
    getElem?_append_of_some hl o, hevent⟩

end Append

/-- The generation that the worker is saving or about to report. -/
def busy (w : CoalescingWriter T) : Option ℕ :=
  match w.worker with
  | .saving request => some request.generation
  | .sending generation _ => some generation
  | _ => none

/-- The worker has seen the shutdown and takes no more requests. -/
def leaving (w : CoalescingWriter T) : Bool :=
  match w.worker with
  | .stopping | .exiting | .ended => true
  | _ => false

/-- The generations taken from the queue or still in it, the oldest first. -/
def inFlight (w : CoalescingWriter T) : List ℕ :=
  w.busy.toList ++ (w.queue.pending.map (·.generation)).toList

/-- What a history says of the state it leads to. -/
structure Follows (w : CoalescingWriter T) (h : List (WriterObservation T)) : Prop where
  closed : w.queue.shutdown = h.any (·.shuts)
  newest : (w.nextGeneration = 0 ∧ ∀ i, acceptedAt h i = none) ∨
    ∃ i r, Newest h i r ∧ r.generation = w.nextGeneration
  pending : ∀ r, w.queue.pending = some r → ∃ i, Newest h i r
  ordered : ∀ i r, acceptedAt h i = some r → r.generation ≤ w.nextGeneration ∧
    ∀ j q, i < j → acceptedAt h j = some q → r.generation < q.generation
  settled : ∀ i r, acceptedAt h i = some r → w.queue.pending = some r ∨
    Superseded h i h.length ∨ Reported h i h.length r ∨
      HandedAfter h i r ∧ w.busy = some r.generation
  stopped : ∀ k, h[k]? = some (.emitted .stopped) → w.leaving = true ∧
    ∀ i r, acceptedAt h i = some r → i < k ∧ (Superseded h i k ∨ Reported h i k r)
  working : ∀ g, w.busy = some g → ∃ i r, acceptedAt h i = some r ∧ r.generation = g ∧
    HandedAfter h i r
  origin : ∀ l event g, h[l]? = some (.emitted event) → event.generation? = some g →
    ∃ i r j, acceptedAt h i = some r ∧ r.generation = g ∧ i < j ∧ j < l ∧
      h[j]? = some (.handed r.generation r.snapshot)
  increasing : (emittedGenerations h ++ w.inFlight).Pairwise (· < ·)
  bounded : ∀ g ∈ emittedGenerations h ++ w.inFlight, g ≤ w.nextGeneration
  repeated : ∀ i snapshot g, h[i]? = some (.shutdownWith snapshot (.ok g)) →
    acceptedAt h i = none → g = w.nextGeneration
  asleep : w.worker = .waiting → w.queue = {}
  leaves : w.leaving = true → w.queue.shutdown = true ∧ w.queue.pending = none

/-- The last snapshot given has the writer's current generation. -/
theorem Follows.generation_of_newest {w : CoalescingWriter T}
    {h : List (WriterObservation T)} (hw : Follows w h) {i : ℕ} {r : PreferenceRequest T}
    (hr : Newest h i r) : r.generation = w.nextGeneration := by
  rcases hw.newest with ⟨-, hnever⟩ | ⟨j, q, hq, hgeneration⟩
  · have := (hnever i).symm.trans hr.1
    cases this
  · rw [hr.unique hq, hgeneration]

theorem Follows.origin_append {w : CoalescingWriter T} {h : List (WriterObservation T)}
    (hw : Follows w h) {l g : ℕ} {event : PreferenceWriteEvent}
    (hl : h[l]? = some (.emitted event)) (hevent : event.generation? = some g)
    (o : List (WriterObservation T)) :
    ∃ i r j, acceptedAt (h ++ o) i = some r ∧ r.generation = g ∧ i < j ∧ j < l ∧
      (h ++ o)[j]? = some (.handed r.generation r.snapshot) := by
  obtain ⟨i, r, j, hr, hrg, hij, hjl, hj⟩ := hw.origin l event g hl hevent
  exact ⟨i, r, j, (acceptedAt_append_of_lt (lt_length_of_acceptedAt hr) o).trans hr, hrg, hij,
    hjl, getElem?_append_of_some hj o⟩

/-! ### One step -/

section Step

variable {w t : CoalescingWriter T} {h o : List (WriterObservation T)}
  {x : WriterObservation T} {stopped shuttingDown : String}

@[simp] theorem notify_queue (w : CoalescingWriter T) : w.notify.queue = w.queue := by
  unfold notify
  split <;> rfl

@[simp] theorem notify_nextGeneration (w : CoalescingWriter T) :
    w.notify.nextGeneration = w.nextGeneration := by
  unfold notify
  split <;> rfl

@[simp] theorem notify_busy (w : CoalescingWriter T) : w.notify.busy = w.busy := by
  unfold notify
  split
  · rename_i hw
    simp [busy, hw]
  · rfl

@[simp] theorem notify_leaving (w : CoalescingWriter T) : w.notify.leaving = w.leaving := by
  unfold notify
  split
  · rename_i hw
    simp [leaving, hw]
  · rfl

theorem notify_worker_ne (w : CoalescingWriter T) : w.notify.worker ≠ .waiting := by
  unfold notify
  split
  · simp
  · assumption

/-- What one step can do: a call that gives nothing, a call that gives a snapshot, a
request to shut down, or a move of the worker. -/
theorem step_cases {a : WriterAction T}
    (hstep : step stopped shuttingDown w a = some (t, o)) :
    (∃ x, o = [x] ∧ t = w ∧ x.accepted w.queue.shutdown = none ∧
      (x.shuts = true → w.queue.shutdown = true) ∧ (∀ event, x ≠ .emitted event) ∧
      ∀ snapshot g, x = .shutdownWith snapshot (.ok g) → g = w.nextGeneration) ∨
    (∃ x snapshot, o = [x] ∧ w.queue.shutdown = false ∧
      x.accepted false = some ⟨w.nextGeneration + 1, snapshot⟩ ∧
      t = (w.accept (w.nextGeneration + 1) snapshot x.shuts).notify) ∨
    (o = [.requestShutdown] ∧ t = w.requestShutdown) ∨
    ∃ outcome, a = .worker outcome ∧ w.workerStep outcome = some (t, o) := by
  cases a with
  | submit snapshot finished =>
      simp only [step] at hstep
      split at hstep
      · obtain ⟨rfl, rfl⟩ := Prod.mk.inj (Option.some.inj hstep)
        unfold submit
        split
        · exact .inl ⟨_, rfl, rfl, rfl, by simp [WriterObservation.shuts], by simp, by simp⟩
        · split
          · exact .inl ⟨_, rfl, rfl, rfl, by simp [WriterObservation.shuts], by simp, by simp⟩
          · rename_i generation hgeneration
            obtain ⟨-, rfl⟩ := checkedAdd_eq_some.1 hgeneration
            split
            · exact .inl ⟨_, rfl, rfl, rfl, by simp [WriterObservation.shuts], by simp, by simp⟩
            · rename_i hopen
              exact .inr (.inl ⟨_, snapshot, rfl, by simpa using hopen, rfl, rfl⟩)
      · cases hstep
  | shutdownWith snapshot finished =>
      simp only [step] at hstep
      split at hstep
      · obtain ⟨rfl, rfl⟩ := Prod.mk.inj (Option.some.inj hstep)
        unfold shutdownWith
        split
        · exact .inl ⟨_, rfl, rfl, rfl, by simp [WriterObservation.shuts], by simp, by simp⟩
        · split
          · exact .inl ⟨_, rfl, rfl, rfl, by simp [WriterObservation.shuts], by simp, by simp⟩
          · rename_i generation hgeneration
            obtain ⟨-, rfl⟩ := checkedAdd_eq_some.1 hgeneration
            split
            · rename_i hclosed
              exact .inl ⟨_, rfl, rfl, by simp [WriterObservation.accepted, hclosed],
                fun _ => hclosed, by simp, by simp⟩
            · rename_i hopen
              exact .inr (.inl ⟨_, snapshot, rfl, by simpa using hopen, rfl, rfl⟩)
      · cases hstep
  | requestShutdown =>
      obtain ⟨rfl, rfl⟩ := Prod.mk.inj (Option.some.inj hstep)
      exact .inr (.inr (.inl ⟨rfl, rfl⟩))
  | worker outcome => exact .inr (.inr (.inr ⟨outcome, rfl, hstep⟩))

theorem emittedGenerations_snoc :
    emittedGenerations (h ++ [x]) = emittedGenerations h ++ x.emittedGeneration.toList := by
  simp only [emittedGenerations, List.filterMap_append, List.filterMap_cons, List.filterMap_nil]
  cases x.emittedGeneration <;> rfl

theorem emittedGeneration_eq_none (hx : ∀ event, x ≠ .emitted event) :
    x.emittedGeneration = none := by
  cases x with
  | emitted event => exact (hx event rfl).elim
  | submit | shutdownWith | requestShutdown | handed => rfl

theorem not_emitted_of_accepted {closed : Bool} {r : PreferenceRequest T}
    (hx : x.accepted closed = some r) (event : PreferenceWriteEvent) : x ≠ .emitted event := by
  rintro rfl
  cases hx

theorem Newest.snoc {i : ℕ} {r : PreferenceRequest T} (hr : Newest h i r)
    (hx : x.accepted (h.any (·.shuts)) = none) : Newest (h ++ [x]) i r := by
  simpa only [Newest, acceptedAt_snoc_of_none hx] using hr

namespace Follows

/-- A step that neither gives a snapshot nor sends a result, nor takes a request. -/
theorem quiet (hw : Follows w h) (o : Option (WriterObservation T))
    (haccepted : ∀ x ∈ o, x.accepted w.queue.shutdown = none)
    (hemitted : ∀ x ∈ o, ∀ event, x ≠ .emitted event)
    (hrepeated : ∀ x ∈ o, ∀ snapshot g, x = .shutdownWith snapshot (.ok g) →
      g = w.nextGeneration)
    (hpending : t.queue.pending = w.queue.pending)
    (hshutdown : t.queue.shutdown = (w.queue.shutdown || o.any (·.shuts)))
    (hgeneration : t.nextGeneration = w.nextGeneration) (hbusy : t.busy = w.busy)
    (hleaving : w.leaving = true → t.leaving = true)
    (hasleep : t.worker = .waiting → t.queue = {})
    (hleaves : t.leaving = true → t.queue.shutdown = true ∧ t.queue.pending = none) :
    Follows t (h ++ o.toList) := by
  have hinFlight : t.inFlight = w.inFlight := by simp [inFlight, hbusy, hpending]
  cases o with
  | none =>
      simp only [Option.toList_none, List.append_nil]
      exact
        { closed := by rw [hshutdown, ← hw.closed]; simp
          newest := hgeneration ▸ hw.newest
          pending := hpending ▸ hw.pending
          ordered := hgeneration ▸ hw.ordered
          settled := hpending ▸ hbusy ▸ hw.settled
          working := hbusy ▸ hw.working
          origin := hw.origin
          stopped := fun k hk => ⟨hleaving (hw.stopped k hk).1, (hw.stopped k hk).2⟩
          increasing := hinFlight ▸ hw.increasing
          bounded := hinFlight ▸ hgeneration ▸ hw.bounded
          repeated := hgeneration ▸ hw.repeated
          asleep := hasleep
          leaves := hleaves }
  | some x =>
      have hx : x.accepted (h.any (·.shuts)) = none := hw.closed ▸ haccepted x rfl
      have hx' : ∀ event, x ≠ .emitted event := hemitted x rfl
      have hgenerations : emittedGenerations (h ++ [x]) = emittedGenerations h := by
        rw [emittedGenerations_snoc, emittedGeneration_eq_none hx']
        simp
      simp only [Option.toList_some]
      exact
        { closed := by rw [hshutdown, hw.closed]; simp
          newest := by
            rw [hgeneration]
            refine hw.newest.imp ?_ ?_
            · rintro ⟨hzero, hnone⟩
              exact ⟨hzero, fun i => (acceptedAt_snoc_of_none hx).trans (hnone i)⟩
            · rintro ⟨i, r, hr, hnext⟩
              exact ⟨i, r, hr.snoc hx, hnext⟩
          pending := by
            intro r hr
            obtain ⟨i, hi⟩ := hw.pending r (hpending ▸ hr)
            exact ⟨i, hi.snoc hx⟩
          ordered := by
            simpa only [acceptedAt_snoc_of_none hx, hgeneration] using hw.ordered
          working := by
            intro g hg
            obtain ⟨i, r, hr, hrg, hhanded⟩ := hw.working g (hbusy ▸ hg)
            exact ⟨i, r, (acceptedAt_snoc_of_none hx).trans hr, hrg, hhanded.append _⟩
          origin := by
            intro l event g hl hevent
            rcases getElem?_snoc.1 hl with hl | ⟨-, hl⟩
            · exact hw.origin_append hl hevent _
            · exact (hx' _ hl.symm).elim
          settled := by
            intro i r hr
            rw [acceptedAt_snoc_of_none hx] at hr
            rw [hpending, hbusy]
            refine (hw.settled i r hr).imp_right fun hr => ?_
            refine hr.imp (·.append _ (by simp)) fun hr => ?_
            exact hr.imp (·.append _ (by simp)) fun hr => ⟨hr.1.append _, hr.2⟩
          stopped := by
            intro k hk
            rcases getElem?_snoc.1 hk with hk | ⟨-, hk⟩
            · obtain ⟨hgone, hr⟩ := hw.stopped k hk
              refine ⟨hleaving hgone, fun i r hi => ?_⟩
              rw [acceptedAt_snoc_of_none hx] at hi
              exact ⟨(hr i r hi).1, (hr i r hi).2.imp (·.append _ le_rfl) (·.append _ le_rfl)⟩
            · exact (hx' _ hk.symm).elim
          increasing := by rw [hgenerations, hinFlight]; exact hw.increasing
          bounded := by rw [hgenerations, hinFlight, hgeneration]; exact hw.bounded
          repeated := by
            intro i snapshot g hi hnone
            rw [acceptedAt_snoc_of_none hx] at hnone
            rw [hgeneration]
            rcases getElem?_snoc.1 hi with hi | ⟨-, rfl⟩
            · exact hw.repeated i snapshot g hi hnone
            · exact hrepeated _ rfl snapshot g rfl
          asleep := hasleep
          leaves := hleaves }

/-- A call that gives a snapshot. -/
theorem accept (hw : Follows w h) {snapshot : T} (hopen : w.queue.shutdown = false)
    (hx : x.accepted false = some ⟨w.nextGeneration + 1, snapshot⟩) :
    Follows (w.accept (w.nextGeneration + 1) snapshot x.shuts).notify (h ++ [x]) := by
  set r : PreferenceRequest T := ⟨w.nextGeneration + 1, snapshot⟩ with hr
  have hclosed : h.any (·.shuts) = false := hw.closed ▸ hopen
  have hat : acceptedAt (h ++ [x]) h.length = some r :=
    acceptedAt_snoc.2 (.inr ⟨rfl, hclosed ▸ hx⟩)
  have hnewest : Newest (h ++ [x]) h.length r := by
    refine ⟨hat, fun j hj => ?_⟩
    by_contra hne
    obtain ⟨q, hq⟩ := Option.ne_none_iff_exists'.1 hne
    have := lt_length_of_acceptedAt hq
    simp only [List.length_append, List.length_singleton] at this
    omega
  have hstays : w.leaving = false := by
    by_contra hleaving
    have := (hw.leaves (by simpa using hleaving)).1
    simp [hopen] at this
  have hgenerations : emittedGenerations (h ++ [x]) = emittedGenerations h := by
    rw [emittedGenerations_snoc, emittedGeneration_eq_none (not_emitted_of_accepted hx)]
    simp
  have hbusy : (w.accept (w.nextGeneration + 1) snapshot x.shuts).busy = w.busy := rfl
  have hsub : (emittedGenerations h ++ w.busy.toList).Sublist
      (emittedGenerations h ++ w.inFlight) := by
    simp [inFlight]
  have hinFlight : (w.accept (w.nextGeneration + 1) snapshot x.shuts).notify.inFlight =
      w.busy.toList ++ [w.nextGeneration + 1] := by
    rw [inFlight, notify_busy, hbusy, notify_queue]
    rfl
  exact
    { closed := by simp [CoalescingWriter.accept, hclosed]
      newest := .inr ⟨_, r, hnewest, by simp [CoalescingWriter.accept, hr]⟩
      pending := by
        intro q hq
        obtain rfl : r = q := by simpa [CoalescingWriter.accept, hr] using hq
        exact ⟨_, hnewest⟩
      ordered := by
        intro i q hq
        rcases acceptedAt_snoc.1 hq with hq' | ⟨rfl, hq'⟩
        · have hle := (hw.ordered i q hq').1
          refine ⟨hle.trans (by simp [CoalescingWriter.accept]), fun j q' hij hj => ?_⟩
          rcases acceptedAt_snoc.1 hj with hj | ⟨-, hj⟩
          · exact (hw.ordered i q hq').2 j q' hij hj
          · obtain rfl : r = q' := by simpa [hclosed, hx] using hj
            exact Nat.lt_succ_of_le hle
        · obtain rfl : r = q := by simpa [hclosed, hx] using hq'
          refine ⟨by simp [CoalescingWriter.accept, hr], fun j q' hij hj => ?_⟩
          rw [hnewest.2 j hij] at hj
          cases hj
      working := by
        intro g hg
        rw [notify_busy, hbusy] at hg
        obtain ⟨i, q, hq, hqg, hhanded⟩ := hw.working g hg
        exact ⟨i, q, acceptedAt_snoc.2 (.inl hq), hqg, hhanded.append _⟩
      origin := by
        intro l event g hl hevent
        rcases getElem?_snoc.1 hl with hl | ⟨-, hl⟩
        · exact hw.origin_append hl hevent _
        · exact (not_emitted_of_accepted hx _ hl.symm).elim
      settled := by
        intro i q hq
        rcases acceptedAt_snoc.1 hq with hq | ⟨-, hq⟩
        · exact .inr (.inl ⟨h.length, r, lt_length_of_acceptedAt hq, by simp, hat⟩)
        · rw [hclosed, hx] at hq
          exact .inl (by simpa [CoalescingWriter.accept] using hq)
      stopped := by
        intro k hk
        rcases getElem?_snoc.1 hk with hk | ⟨-, hk⟩
        · have := (hw.stopped k hk).1
          simp [hstays] at this
        · exact (not_emitted_of_accepted hx _ hk.symm).elim
      increasing := by
        rw [hgenerations, hinFlight, ← List.append_assoc, List.pairwise_append]
        refine ⟨hw.increasing.sublist hsub, by simp, fun g hg g' hg' => ?_⟩
        obtain rfl : g' = w.nextGeneration + 1 := by simpa using hg'
        exact Nat.lt_succ_of_le (hw.bounded g (hsub.subset hg))
      bounded := by
        intro g hg
        rw [hgenerations, hinFlight, ← List.append_assoc, List.mem_append] at hg
        rcases hg with hg | hg
        · exact (hw.bounded g (hsub.subset hg)).trans (by simp [CoalescingWriter.accept])
        · obtain rfl : g = w.nextGeneration + 1 := by simpa using hg
          simp [CoalescingWriter.accept]
      repeated := by
        intro i snapshot' g hi hnone
        rcases getElem?_snoc.1 hi with hi | ⟨rfl, -⟩
        · -- Nothing was shut down before a call that gives a snapshot.
          have := List.any_eq_false.1 hclosed _ (List.mem_of_getElem? hi)
          simp [WriterObservation.shuts] at this
        · rw [hat] at hnone
          cases hnone
      asleep := fun hasleep => (notify_worker_ne _ hasleep).elim
      leaves := by
        intro hleaving
        rw [notify_leaving] at hleaving
        exact absurd hleaving (by simpa [leaving, CoalescingWriter.accept] using hstays) }

/-- The worker takes the pending request and hands it to `save`. -/
theorem take (hw : Follows w h) (hpolling : w.worker = .polling) {r : PreferenceRequest T}
    (hr : w.queue.pending = some r) :
    Follows { w with queue := { w.queue with pending := none }, worker := .saving r }
      (h ++ [.handed r.generation r.snapshot]) := by
  have hbusy : w.busy = none := by simp [busy, hpolling]
  have hinFlight : w.inFlight = [r.generation] := by simp [inFlight, hbusy, hr]
  have hx (i : ℕ) : acceptedAt (h ++ [.handed r.generation r.snapshot]) i = acceptedAt h i :=
    acceptedAt_snoc_of_none rfl
  have hstays : w.leaving = false := by simp [leaving, hpolling]
  have hgenerations : emittedGenerations (h ++ [.handed r.generation r.snapshot]) =
      emittedGenerations h := by
    rw [emittedGenerations_snoc, emittedGeneration_eq_none (by simp)]
    simp
  exact
    { closed := by simp [hw.closed, WriterObservation.shuts]
      newest := by
        refine hw.newest.imp ?_ ?_
        · rintro ⟨hzero, hnone⟩
          exact ⟨hzero, fun i => (hx i).trans (hnone i)⟩
        · rintro ⟨i, q, hq, hnext⟩
          exact ⟨i, q, hq.snoc rfl, hnext⟩
      pending := by simp
      ordered := by simpa only [hx] using hw.ordered
      working := by
        intro g hg
        obtain rfl : r.generation = g := by simpa [busy] using hg
        obtain ⟨i, hi, -⟩ := hw.pending r hr
        exact ⟨i, r, (hx i).trans hi, rfl, h.length, lt_length_of_acceptedAt hi, by simp⟩
      origin := by
        intro l event g hl hevent
        rcases getElem?_snoc.1 hl with hl | ⟨-, hl⟩
        · exact hw.origin_append hl hevent _
        · cases hl
      settled := by
        intro i q hq
        rw [hx] at hq
        refine .inr ?_
        rcases hw.settled i q hq with hpending | hdone | hdone | ⟨-, hbusy'⟩
        · obtain rfl : r = q := by simpa [hr] using hpending
          exact .inr (.inr ⟨⟨h.length, lt_length_of_acceptedAt hq, by simp⟩, rfl⟩)
        · exact .inl (hdone.append _ (by simp))
        · exact .inr (.inl (hdone.append _ (by simp)))
        · simp [hbusy] at hbusy'
      stopped := by
        intro k hk
        rcases getElem?_snoc.1 hk with hk | ⟨-, hk⟩
        · have := (hw.stopped k hk).1
          simp [hstays] at this
        · cases hk
      increasing := by
        have := hw.increasing
        rwa [hinFlight, ← hgenerations] at this
      bounded := by
        have := hw.bounded
        rwa [hinFlight, ← hgenerations] at this
      repeated := by
        intro i snapshot g hi hnone
        rw [hx] at hnone
        rcases getElem?_snoc.1 hi with hi | ⟨-, hi⟩
        · exact hw.repeated i snapshot g hi hnone
        · cases hi
      asleep := by simp
      leaves := by simp [leaving] }

theorem eventOf_generation? (generation : ℕ) (outcome : Except String Unit) :
    (eventOf generation outcome).generation? = some generation := by
  cases outcome <;> rfl

/-- The worker sends the result of a save. -/
theorem send (hw : Follows w h) {generation : ℕ} {outcome : Except String Unit}
    (hsending : w.worker = .sending generation outcome) :
    Follows { w with worker := .polling, events := w.events ++ [eventOf generation outcome] }
      (h ++ [.emitted (eventOf generation outcome)]) := by
  set event := eventOf generation outcome
  have hgeneration : event.generation? = some generation := eventOf_generation? ..
  have hbusy : w.busy = some generation := by simp [busy, hsending]
  have hx (i : ℕ) : acceptedAt (h ++ [.emitted event]) i = acceptedAt h i :=
    acceptedAt_snoc_of_none rfl
  have hstays : w.leaving = false := by simp [leaving, hsending]
  -- The reported generation moves from the worker to the history.
  have hgenerations : emittedGenerations (h ++ [.emitted event]) ++
      (w.queue.pending.map (·.generation)).toList = emittedGenerations h ++ w.inFlight := by
    simp [emittedGenerations_snoc, WriterObservation.emittedGeneration, hgeneration, inFlight,
      hbusy]
  exact
    { closed := by simp [hw.closed, WriterObservation.shuts]
      newest := by
        refine hw.newest.imp ?_ ?_
        · rintro ⟨hzero, hnone⟩
          exact ⟨hzero, fun i => (hx i).trans (hnone i)⟩
        · rintro ⟨i, q, hq, hnext⟩
          exact ⟨i, q, hq.snoc rfl, hnext⟩
      pending := by
        intro q hq
        obtain ⟨i, hi⟩ := hw.pending q hq
        exact ⟨i, hi.snoc rfl⟩
      ordered := by simpa only [hx] using hw.ordered
      working := by simp [busy]
      origin := by
        intro l event' g hl hevent
        rcases getElem?_snoc.1 hl with hl | ⟨rfl, hsent⟩
        · exact hw.origin_append hl hevent _
        · rw [WriterObservation.emitted.inj hsent, hgeneration] at hevent
          obtain ⟨i, q, hq, hqg, j, hij, hj⟩ := hw.working g (hbusy.trans hevent)
          exact ⟨i, q, j, (hx i).trans hq, hqg, hij, (List.getElem?_eq_some_iff.1 hj).1,
            getElem?_append_of_some hj _⟩
      settled := by
        intro i q hq
        rw [hx] at hq
        refine (hw.settled i q hq).imp_right ?_
        rintro (hdone | hdone | ⟨⟨j, hij, hj⟩, hbusy'⟩)
        · exact .inl (hdone.append _ (by simp))
        · exact .inr (.inl (hdone.append _ (by simp)))
        · obtain rfl : generation = q.generation := by simpa [hbusy] using hbusy'
          exact .inr (.inl ⟨j, h.length, event, hij, (List.getElem?_eq_some_iff.1 hj).1,
            by simp, getElem?_append_of_some hj _, by simp, hgeneration⟩)
      stopped := by
        intro k hk
        rcases getElem?_snoc.1 hk with hk | ⟨-, hk⟩
        · have := (hw.stopped k hk).1
          simp [hstays] at this
        · rw [← WriterObservation.emitted.inj hk] at hgeneration
          cases hgeneration
      increasing := by
        have := hw.increasing
        rwa [← hgenerations] at this
      bounded := by
        have := hw.bounded
        rwa [← hgenerations] at this
      repeated := by
        intro i snapshot g hi hnone
        rw [hx] at hnone
        rcases getElem?_snoc.1 hi with hi | ⟨-, hi⟩
        · exact hw.repeated i snapshot g hi hnone
        · cases hi
      asleep := by simp
      leaves := by simp [leaving] }

/-- The worker sends the terminal event: by then nothing given is still on its way. -/
theorem stop (hw : Follows w h) (hstopping : w.worker = .stopping) :
    Follows { w with worker := .exiting, events := w.events ++ [.stopped] }
      (h ++ [.emitted .stopped]) := by
  have hbusy : w.busy = none := by simp [busy, hstopping]
  have hleaves := hw.leaves (by simp [leaving, hstopping])
  have hx (i : ℕ) : acceptedAt (h ++ [.emitted .stopped]) i = acceptedAt h i :=
    acceptedAt_snoc_of_none rfl
  have hdone {i : ℕ} {q : PreferenceRequest T} (hq : acceptedAt h i = some q) :
      Superseded h i h.length ∨ Reported h i h.length q := by
    rcases hw.settled i q hq with hpending | hdone | hdone | ⟨-, hbusy'⟩
    · simp [hleaves.2] at hpending
    · exact .inl hdone
    · exact .inr hdone
    · simp [hbusy] at hbusy'
  have hgenerations : emittedGenerations (h ++ [.emitted .stopped]) =
      emittedGenerations h := by
    rw [emittedGenerations_snoc]
    simp [WriterObservation.emittedGeneration, PreferenceWriteEvent.generation?]
  have hinFlight : ({ w with
      worker := .exiting, events := w.events ++ [.stopped] } : CoalescingWriter T).inFlight =
      w.inFlight := by
    simp [inFlight, busy, hstopping]
  exact
    { closed := by simp [hw.closed, WriterObservation.shuts]
      newest := by
        refine hw.newest.imp ?_ ?_
        · rintro ⟨hzero, hnone⟩
          exact ⟨hzero, fun i => (hx i).trans (hnone i)⟩
        · rintro ⟨i, q, hq, hnext⟩
          exact ⟨i, q, hq.snoc rfl, hnext⟩
      pending := by
        intro q hq
        obtain ⟨i, hi⟩ := hw.pending q hq
        exact ⟨i, hi.snoc rfl⟩
      ordered := by simpa only [hx] using hw.ordered
      working := by simp [busy]
      origin := by
        intro l event g hl hevent
        rcases getElem?_snoc.1 hl with hl | ⟨-, hl⟩
        · exact hw.origin_append hl hevent _
        · rw [WriterObservation.emitted.inj hl] at hevent
          cases hevent
      settled := by
        intro i q hq
        rw [hx] at hq
        exact .inr ((hdone hq).imp (·.append _ (by simp)) fun hq =>
          .inl (hq.append _ (by simp)))
      stopped := by
        intro k hk
        refine ⟨rfl, fun i q hq => ?_⟩
        rw [hx] at hq
        rcases getElem?_snoc.1 hk with hk | ⟨rfl, -⟩
        · obtain ⟨-, hr⟩ := hw.stopped k hk
          exact ⟨(hr i q hq).1, (hr i q hq).2.imp (·.append _ le_rfl) (·.append _ le_rfl)⟩
        · exact ⟨lt_length_of_acceptedAt hq,
            (hdone hq).imp (·.append _ le_rfl) (·.append _ le_rfl)⟩
      increasing := by rw [hgenerations, hinFlight]; exact hw.increasing
      bounded := by rw [hgenerations, hinFlight]; exact hw.bounded
      repeated := by
        intro i snapshot g hi hnone
        rw [hx] at hnone
        rcases getElem?_snoc.1 hi with hi | ⟨-, hi⟩
        · exact hw.repeated i snapshot g hi hnone
        · cases hi
      asleep := by simp
      leaves := fun _ => hleaves }

theorem spawn : Follows (CoalescingWriter.spawn : CoalescingWriter T) [] where
  closed := rfl
  newest := .inl ⟨rfl, fun i => by simp [acceptedAt]⟩
  pending := by simp [CoalescingWriter.spawn]
  ordered := by simp [acceptedAt]
  working := by simp [busy, CoalescingWriter.spawn]
  origin := by simp
  settled := by simp [acceptedAt]
  stopped := by simp
  increasing := by simp [emittedGenerations, inFlight, busy, CoalescingWriter.spawn]
  bounded := by simp [emittedGenerations, inFlight, busy, CoalescingWriter.spawn]
  repeated := by simp
  asleep := by simp [CoalescingWriter.spawn]
  leaves := by simp [leaving, CoalescingWriter.spawn]

theorem workerStep (hw : Follows w h) {outcome : Except String Unit}
    (hstep : w.workerStep outcome = some (t, o)) : Follows t (h ++ o) := by
  unfold CoalescingWriter.workerStep at hstep
  split at hstep
  · rename_i hphase
    split at hstep
    · rename_i r hr
      obtain ⟨rfl, rfl⟩ := Prod.mk.inj (Option.some.inj hstep)
      exact hw.take hphase hr
    · rename_i hr
      obtain ⟨rfl, rfl⟩ := Prod.mk.inj (Option.some.inj hstep)
      cases hshutdown : w.queue.shutdown with
      | false =>
          have hempty : w.queue = {} := by
            rw [PreferenceQueue.mk.injEq]
            exact ⟨hr, hshutdown⟩
          exact hw.quiet none (by simp) (by simp) (by simp) rfl (by simp [hshutdown]) rfl
            (by simp [busy, hphase]) (by simp [leaving, hphase]) (fun _ => hempty)
            (by simp [leaving])
      | true =>
          exact hw.quiet none (by simp) (by simp) (by simp) rfl (by simp [hshutdown]) rfl
            (by simp [busy, hphase]) (by simp [leaving]) (by simp) (fun _ => ⟨hshutdown, hr⟩)
  · rename_i hphase
    obtain ⟨rfl, rfl⟩ := Prod.mk.inj (Option.some.inj hstep)
    exact hw.quiet none (by simp) (by simp) (by simp) rfl (by simp) rfl (by simp [busy, hphase])
      (by simp [leaving, hphase]) (by simp) (by simp [leaving])
  · rename_i r hphase
    obtain ⟨rfl, rfl⟩ := Prod.mk.inj (Option.some.inj hstep)
    exact hw.quiet none (by simp) (by simp) (by simp) rfl (by simp) rfl (by simp [busy, hphase])
      (by simp [leaving, hphase]) (by simp) (by simp [leaving])
  · rename_i generation outcome hphase
    obtain ⟨rfl, rfl⟩ := Prod.mk.inj (Option.some.inj hstep)
    exact hw.send hphase
  · rename_i hphase
    obtain ⟨rfl, rfl⟩ := Prod.mk.inj (Option.some.inj hstep)
    exact hw.stop hphase
  · rename_i hphase
    obtain ⟨rfl, rfl⟩ := Prod.mk.inj (Option.some.inj hstep)
    exact hw.quiet none (by simp) (by simp) (by simp) rfl (by simp) rfl (by simp [busy, hphase])
      (by simp [leaving]) (by simp) fun _ => hw.leaves (by simp [leaving, hphase])
  · cases hstep

theorem step {a : WriterAction T} (hw : Follows w h)
    (hstep : CoalescingWriter.step stopped shuttingDown w a = some (t, o)) :
    Follows t (h ++ o) := by
  rcases step_cases hstep with ⟨x, rfl, rfl, haccepted, hshuts, hemitted, hrepeated⟩ |
    ⟨x, snapshot, rfl, hopen, haccepted, rfl⟩ | ⟨rfl, rfl⟩ | ⟨outcome, -, hmove⟩
  · refine hw.quiet (some x) (by simpa using haccepted) (by simpa using hemitted)
      (by simpa using hrepeated) rfl ?_ rfl rfl id hw.asleep hw.leaves
    cases hx : x.shuts with
    | false => simp [hx]
    | true => simp [hx, hshuts hx]
  · exact hw.accept hopen haccepted
  · refine hw.quiet (some .requestShutdown) (by simp [WriterObservation.accepted]) (by simp)
      (by simp) ?_ ?_ ?_ ?_ ?_ ?_ ?_
    · simp [requestShutdown]
    · simp [requestShutdown, WriterObservation.shuts]
    · simp [requestShutdown]
    · rw [requestShutdown, notify_busy]
      rfl
    · rw [requestShutdown, notify_leaving]
      exact id
    · exact fun hwaiting => (notify_worker_ne _ hwaiting).elim
    · rw [requestShutdown, notify_leaving, notify_queue]
      exact fun hleaving => ⟨rfl, (hw.leaves hleaving).2⟩
  · exact hw.workerStep hmove

/-- Every run of the owner and the worker from the spawn. -/
theorem run {actions : List (WriterAction T)}
    (hrun : Machine.run (CoalescingWriter.step stopped shuttingDown) CoalescingWriter.spawn
      actions = some (w, h)) : Follows w h :=
  run_invariant (fun hw hstep => hw.step hstep) spawn hrun

end Follows

end Step

end CoalescingWriter

end DarkReNamer
