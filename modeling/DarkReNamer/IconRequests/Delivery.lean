import DarkReNamer.IconRequests.Slots

/-!
# Delivery of icon results

What a history of calls can hold. A token is admitted once, dispatched at most once and published
at most once, in this order, and between its admission and its publication nothing has been
advanced or retired, whatever reports of other tokens come in between.
-/

namespace DarkReNamer

open Machine

namespace IconRequests

variable {K R : Type} {requests after : IconRequests K R} {history : List Observation}

/-- The token was admitted, and nothing has been advanced or retired since. -/
def AdmittedSince (history : List Observation) (token : RequestToken) : Prop :=
  ∃ before since, history = before ++ .admitted token :: since ∧ .advanced ∉ since ∧
    .retired ∉ since

/-- What is true where a token is published. -/
structure Deliverable (history : List Observation) (token : RequestToken) : Prop where
  dispatched : .dispatched token ∈ history
  unpublished : .published token ∉ history
  since : AdmittedSince history token
  unretired : .retired ∉ history

/-- One kind of observation is made of tokens in the order of their serials, and so of no token
twice. -/
def InOrder (kind : RequestToken → Observation) (history : List Observation) : Prop :=
  history.Pairwise fun earlier later => ∀ token token',
    earlier = kind token → later = kind token' → token.serial < token'.serial

/-- How the history and the slots belong together. -/
structure Recorded (requests : IconRequests K R) (history : List Observation) : Prop where
  sound : Sound requests
  retired : .retired ∈ history ↔ requests.retired = true
  admitted : ∀ token, .admitted token ∈ history → token.serial ≤ requests.nextSerial
  inFlight : ∀ request ∈ requests.inFlight, .dispatched request.token ∈ history
  since : requests.retired = false → ∀ request ∈ requests.inFlight.toList ++ requests.queued,
    request.token.generation = requests.generation → AdmittedSince history request.token
  dispatched : ∀ token, .dispatched token ∈ history → token.serial ≤ requests.nextSerial ∧
    ∀ request ∈ requests.queued, token.serial < request.token.serial
  published : ∀ token, .published token ∈ history → token.serial ≤ requests.nextSerial ∧
    ∀ request ∈ requests.inFlight.toList ++ requests.queued,
      token.serial < request.token.serial
  admissions : InOrder .admitted history
  dispatches : InOrder .dispatched history
  publications : InOrder .published history
  deliverable : ∀ before token rest, history = before ++ .published token :: rest →
    Deliverable before token

theorem AdmittedSince.self (history : List Observation) (token : RequestToken) :
    AdmittedSince (history ++ [.admitted token]) token :=
  ⟨history, [], rfl, by simp, by simp⟩

theorem AdmittedSince.snoc {token : RequestToken} {observation : Observation}
    (h : AdmittedSince history token) (hadvanced : observation ≠ .advanced)
    (hretired : observation ≠ .retired) :
    AdmittedSince (history ++ [observation]) token := by
  obtain ⟨before, since, rfl, hnotAdvanced, hnotRetired⟩ := h
  exact ⟨before, since ++ [observation], by simp, by simp [hnotAdvanced, hadvanced.symm],
    by simp [hnotRetired, hretired.symm]⟩

theorem InOrder.snoc {kind : RequestToken → Observation} {observation : Observation}
    (h : InOrder kind history) (hlater : ∀ earlier token, kind earlier ∈ history →
      observation = kind token → earlier.serial < token.serial) :
    InOrder kind (history ++ [observation]) := by
  refine List.pairwise_append.2 ⟨h, List.pairwise_singleton _ _, ?_⟩
  rintro _ hearlier _ hlast earlier token rfl rfl
  exact hlater earlier token hearlier (List.mem_singleton.1 hlast).symm

theorem InOrder.snoc_other {kind : RequestToken → Observation} {observation : Observation}
    (h : InOrder kind history) (hother : ∀ token, observation ≠ kind token) :
    InOrder kind (history ++ [observation]) :=
  h.snoc fun _ token _ heq => absurd heq (hother token)

/-- A place in a history that has become longer is an old one or the last. -/
theorem split_snoc {before rest : List Observation} {observation last : Observation}
    (h : history ++ [last] = before ++ observation :: rest) :
    (∃ rest', history = before ++ observation :: rest') ∨
      before = history ∧ observation = last := by
  rcases List.eq_nil_or_concat rest with rfl | ⟨rest', last', rfl⟩
  · obtain ⟨rfl, hlast⟩ := List.append_inj' h rfl
    exact .inr ⟨rfl, (List.cons.inj hlast).1.symm⟩
  · rw [List.concat_eq_append, ← List.cons_append, ← List.append_assoc] at h
    exact .inl ⟨rest', (List.append_inj' h rfl).1⟩

theorem mem_snoc_of_ne {observation last : Observation} (h : observation ≠ last) :
    observation ∈ history ++ [last] ↔ observation ∈ history := by
  simp [h]

/-- What is not a publication leaves the publications as they were. -/
theorem deliverable_snoc {last : Observation} (hother : ∀ token, last ≠ .published token)
    (h : ∀ before token rest, history = before ++ .published token :: rest →
      Deliverable before token) (before : List Observation) (token : RequestToken)
    (rest : List Observation) (heq : history ++ [last] = before ++ .published token :: rest) :
    Deliverable before token := by
  rcases split_snoc heq with ⟨rest', hold⟩ | ⟨-, hlast⟩
  · exact h before token rest' hold
  · exact absurd hlast.symm (hother token)

theorem recorded_new (session : ℕ) : Recorded (new session : IconRequests K R) [] where
  sound := sound_new session
  retired := by simp [new]
  admitted _ h := by cases h
  inFlight _ h := by cases h
  since _ _ h := by cases h
  dispatched _ h := by cases h
  published _ h := by cases h
  admissions := .nil
  dispatches := .nil
  publications := .nil
  deliverable before token rest h := by simp at h

/-- A change of which nothing is recorded gives up results only. -/
theorem Recorded.acknowledgement (h : Recorded requests history) (count : ℕ) :
    Recorded { requests with completed := requests.completed.drop count } history where
  sound := h.sound.change (.acknowledged count)
  retired := h.retired
  admitted := h.admitted
  inFlight := h.inFlight
  since := h.since
  dispatched := h.dispatched
  published := h.published
  admissions := h.admissions
  dispatches := h.dispatches
  publications := h.publications
  deliverable := h.deliverable

theorem Recorded.admission {key : RequestKey K} (h : Recorded requests history)
    (live : requests.retired = false) (room : requests.slots.length ≠ maxPendingIconRequests)
    (fresh : key ∉ requests.slots.map (·.key)) (serial : requests.nextSerial + 1 ≤ u64Max) :
    Recorded
      { requests with
        nextSerial := requests.nextSerial + 1
        queued := requests.queued ++
          [⟨⟨requests.session, requests.generation, requests.nextSerial + 1⟩, key⟩] }
      (history ++
        [.admitted ⟨requests.session, requests.generation, requests.nextSerial + 1⟩]) where
  sound := h.sound.change (.admitted live room fresh serial)
  retired := by
    rw [mem_snoc_of_ne (by simp)]
    exact h.retired
  admitted token htoken := by
    rcases List.mem_append.1 htoken with hold | hnew
    · exact Nat.le_succ_of_le (h.admitted token hold)
    · cases List.mem_singleton.1 hnew
      exact Nat.le_refl _
  inFlight request hrequest := List.mem_append_left _ (h.inFlight request hrequest)
  since _ request hrequest hgeneration := by
    rw [← List.append_assoc] at hrequest
    rcases List.mem_append.1 hrequest with hold | hnew
    · exact (h.since live request hold hgeneration).snoc (by simp) (by simp)
    · rw [List.mem_singleton.1 hnew]
      exact .self ..
  dispatched token htoken := by
    rw [mem_snoc_of_ne (by simp)] at htoken
    obtain ⟨hserial, hqueued⟩ := h.dispatched token htoken
    refine ⟨Nat.le_succ_of_le hserial, fun request hrequest => ?_⟩
    rcases List.mem_append.1 hrequest with hold | hnew
    · exact hqueued request hold
    · rw [List.mem_singleton.1 hnew]
      exact Nat.lt_succ_of_le hserial
  published token htoken := by
    rw [mem_snoc_of_ne (by simp)] at htoken
    obtain ⟨hserial, hwaiting⟩ := h.published token htoken
    refine ⟨Nat.le_succ_of_le hserial, fun request hrequest => ?_⟩
    rw [← List.append_assoc] at hrequest
    rcases List.mem_append.1 hrequest with hold | hnew
    · exact hwaiting request hold
    · rw [List.mem_singleton.1 hnew]
      exact Nat.lt_succ_of_le hserial
  admissions := by
    refine h.admissions.snoc fun earlier token hearlier heq => ?_
    cases heq
    exact Nat.lt_succ_of_le (h.admitted earlier hearlier)
  dispatches := h.dispatches.snoc_other (by simp)
  publications := h.publications.snoc_other (by simp)
  deliverable := deliverable_snoc (by simp) h.deliverable

theorem Recorded.dispatch {request : Request K} {queued : List (Request K)}
    (h : Recorded requests history) (live : requests.retired = false)
    (free : requests.inFlight = none) (front : requests.queued = request :: queued) :
    Recorded { requests with queued := queued, inFlight := some request }
      (history ++ [.dispatched request.token]) where
  sound := h.sound.change (.dispatched live free front)
  retired := by
    rw [mem_snoc_of_ne (by simp)]
    exact h.retired
  admitted token htoken := h.admitted token ((mem_snoc_of_ne (by simp)).1 htoken)
  inFlight other hother := by
    cases hother
    simp
  since _ other hother hgeneration := by
    refine (h.since live other ?_ hgeneration).snoc (by simp) (by simp)
    simpa [free, front] using hother
  dispatched token htoken := by
    have hslots : requests.slots = requests.completed.map (·.request) ++ request :: queued := by
      simp [slots, free, front]
    rcases List.mem_append.1 htoken with hold | hnew
    · obtain ⟨hserial, hqueued⟩ := h.dispatched token hold
      exact ⟨hserial, fun other hother => hqueued other (by simp [front, hother])⟩
    · cases List.mem_singleton.1 hnew
      refine ⟨(h.sound.issued request (by simp [hslots])).1, fun other hother => ?_⟩
      have hserials := h.sound.serials
      rw [hslots, List.map_append] at hserials
      exact List.rel_of_pairwise_cons (List.pairwise_append.1 hserials).2.1
        (List.mem_map_of_mem hother)
  published token htoken := by
    rw [mem_snoc_of_ne (by simp)] at htoken
    obtain ⟨hserial, hwaiting⟩ := h.published token htoken
    refine ⟨hserial, fun other hother => hwaiting other ?_⟩
    simpa [free, front] using hother
  admissions := h.admissions.snoc_other (by simp)
  dispatches := by
    refine h.dispatches.snoc fun earlier token hearlier heq => ?_
    cases heq
    exact (h.dispatched earlier hearlier).2 request (by simp [front])
  publications := h.publications.snoc_other (by simp)
  deliverable := deliverable_snoc (by simp) h.deliverable

theorem Recorded.publication {request : Request K} {result : R}
    (h : Recorded requests history) (live : requests.retired = false)
    (held : requests.inFlight = some request)
    (current : request.token.generation = requests.generation) :
    Recorded
      { requests with
        inFlight := none
        completed := requests.completed ++ [⟨request, result⟩] }
      (history ++ [.published request.token]) where
  sound := h.sound.change (.published live held current)
  retired := by
    rw [mem_snoc_of_ne (by simp)]
    exact h.retired
  admitted token htoken := h.admitted token ((mem_snoc_of_ne (by simp)).1 htoken)
  inFlight _ hother := by cases hother
  since _ other hother hgeneration := by
    refine (h.since live other ?_ hgeneration).snoc (by simp) (by simp)
    exact List.mem_append_right _ hother
  dispatched token htoken := h.dispatched token ((mem_snoc_of_ne (by simp)).1 htoken)
  published token htoken := by
    rcases List.mem_append.1 htoken with hold | hnew
    · obtain ⟨hserial, hwaiting⟩ := h.published token hold
      exact ⟨hserial, fun other hother => hwaiting other (List.mem_append_right _ hother)⟩
    · cases List.mem_singleton.1 hnew
      have hserials := h.sound.serials
      have hslots : requests.slots =
          requests.completed.map (·.request) ++ request :: requests.queued := by
        simp [slots, held]
      refine ⟨(h.sound.issued request (by simp [hslots])).1, fun other hother => ?_⟩
      rw [hslots, List.map_append] at hserials
      exact List.rel_of_pairwise_cons (List.pairwise_append.1 hserials).2.1
        (List.mem_map_of_mem hother)
  admissions := h.admissions.snoc_other (by simp)
  dispatches := h.dispatches.snoc_other (by simp)
  publications := by
    refine h.publications.snoc fun earlier token hearlier heq => ?_
    cases heq
    exact (h.published earlier hearlier).2 request (by simp [held])
  deliverable before token rest heq := by
    rcases split_snoc heq with ⟨rest', hold⟩ | ⟨rfl, hlast⟩
    · exact h.deliverable before token rest' hold
    · cases hlast
      have hunretired : .retired ∉ before := fun hmem => by simp [h.retired.1 hmem] at live
      refine ⟨h.inFlight request held, fun hpublished => ?_, ?_, hunretired⟩
      · exact absurd ((h.published _ hpublished).2 request (by simp [held])) (Nat.lt_irrefl _)
      · exact h.since live request (by simp [held]) current

theorem Recorded.discarding {request : Request K} (h : Recorded requests history)
    (held : requests.inFlight = some request)
    (stale : requests.retired = true ∨ request.token.generation ≠ requests.generation) :
    Recorded { requests with inFlight := none } (history ++ [.discarded request.token]) where
  sound := h.sound.change (.discarded held stale)
  retired := by
    rw [mem_snoc_of_ne (by simp)]
    exact h.retired
  admitted token htoken := h.admitted token ((mem_snoc_of_ne (by simp)).1 htoken)
  inFlight _ hother := by cases hother
  since live other hother hgeneration := by
    refine (h.since live other ?_ hgeneration).snoc (by simp) (by simp)
    exact List.mem_append_right _ hother
  dispatched token htoken := h.dispatched token ((mem_snoc_of_ne (by simp)).1 htoken)
  published token htoken := by
    obtain ⟨hserial, hwaiting⟩ := h.published token ((mem_snoc_of_ne (by simp)).1 htoken)
    exact ⟨hserial, fun other hother => hwaiting other (List.mem_append_right _ hother)⟩
  admissions := h.admissions.snoc_other (by simp)
  dispatches := h.dispatches.snoc_other (by simp)
  publications := h.publications.snoc_other (by simp)
  deliverable := deliverable_snoc (by simp) h.deliverable

/-- An invalidation leaves only the request in flight, which is of an older generation or of a
retired state. -/
theorem Recorded.invalidation {observation : Observation} (h : Recorded requests history)
    (hsound : Sound after) (hserial : after.nextSerial = requests.nextSerial)
    (hinFlight : after.inFlight = requests.inFlight) (hqueued : after.queued = [])
    (hkind : observation = .advanced ∧ after.retired = requests.retired ∧
        after.generation = requests.generation + 1 ∨
      observation = .retired ∧ after.retired = true) :
    Recorded after (history ++ [observation]) where
  sound := hsound
  retired := by
    rcases hkind with ⟨rfl, hretired, -⟩ | ⟨rfl, hretired⟩
    · rw [mem_snoc_of_ne (by simp), hretired]
      exact h.retired
    · simp [hretired]
  admitted token htoken := by
    rw [hserial]
    refine h.admitted token ((mem_snoc_of_ne ?_).1 htoken)
    rcases hkind with ⟨rfl, -⟩ | ⟨rfl, -⟩ <;> simp
  inFlight request hrequest := List.mem_append_left _ (h.inFlight request (hinFlight ▸ hrequest))
  since live request hrequest hgeneration := by
    rw [hqueued, List.append_nil, hinFlight, Option.mem_toList] at hrequest
    rcases hkind with ⟨-, -, hnext⟩ | ⟨-, hretired⟩
    · have hle := h.sound.inFlight request hrequest
      omega
    · rw [hretired] at live
      cases live
  dispatched token htoken := by
    rw [hserial, hqueued]
    refine ⟨(h.dispatched token ((mem_snoc_of_ne ?_).1 htoken)).1, by simp⟩
    rcases hkind with ⟨rfl, -⟩ | ⟨rfl, -⟩ <;> simp
  published token htoken := by
    have hmem : .published token ∈ history := by
      refine (mem_snoc_of_ne ?_).1 htoken
      rcases hkind with ⟨rfl, -⟩ | ⟨rfl, -⟩ <;> simp
    rw [hserial, hqueued, hinFlight, List.append_nil]
    obtain ⟨hle, hwaiting⟩ := h.published token hmem
    exact ⟨hle, fun request hrequest => hwaiting request (List.mem_append_left _ hrequest)⟩
  admissions := h.admissions.snoc_other (by rcases hkind with ⟨rfl, -⟩ | ⟨rfl, -⟩ <;> simp)
  dispatches := h.dispatches.snoc_other (by rcases hkind with ⟨rfl, -⟩ | ⟨rfl, -⟩ <;> simp)
  publications := h.publications.snoc_other (by rcases hkind with ⟨rfl, -⟩ | ⟨rfl, -⟩ <;> simp)
  deliverable :=
    deliverable_snoc (by rcases hkind with ⟨rfl, -⟩ | ⟨rfl, -⟩ <;> simp) h.deliverable

/-- Every change keeps the record. -/
theorem Recorded.change {observed : List Observation} (h : Recorded requests history)
    (hchange : Change requests after observed) : Recorded after (history ++ observed) := by
  have hsound := h.sound.change hchange
  cases hchange with
  | kept => rwa [List.append_nil]
  | admitted live room fresh serial => exact h.admission live room fresh serial
  | dispatched live free front => exact h.dispatch live free front
  | published live held current => exact h.publication live held current
  | discarded held stale => exact h.discarding held stale
  | acknowledged count =>
      rw [List.append_nil]
      exact h.acknowledgement count
  | advanced live next => exact h.invalidation hsound rfl rfl rfl (.inl ⟨rfl, rfl, rfl⟩)
  | retired => exact h.invalidation hsound rfl rfl rfl (.inr ⟨rfl, rfl⟩)

section Runs

variable [DecidableEq K]

theorem recorded_of_run {session : ℕ} {actions : List (Action K R)}
    (h : run step (new session) actions = some (after, history)) : Recorded after history :=
  run_invariant (fun hrecorded hstep => hrecorded.change (change_of_step hstep))
    (recorded_new session) h

/-- Every call is possible in every state. -/
theorem exists_run (requests : IconRequests K R) (actions : List (Action K R)) :
    ∃ after history, run step requests actions = some (after, history) := by
  induction actions generalizing requests with
  | nil => exact ⟨_, _, rfl⟩
  | cons action actions ih =>
      obtain ⟨next, observed, hstep⟩ :
          ∃ next observed, step requests action = some (next, observed) := by
        cases action <;> exact ⟨_, _, rfl⟩
      obtain ⟨after, history, hrun⟩ := ih next
      exact ⟨after, _, run_cons_eq_some.2 ⟨_, _, _, hstep, hrun, rfl⟩⟩

/-- In every state of every run the slots are few, of different keys and in the order of their
serials; results are of the current generation; a token is dispatched and published at most
once, and published only while the generation it was admitted in is current and the state is not
retired; a request in flight stays there until its own token is reported. -/
theorem iconRequests_run (session : ℕ) (actions : List (Action K R)) :
    ∃ (after : IconRequests K R) (history : List Observation),
      run step (new session) actions = some (after, history) ∧
      after.pendingCount ≤ maxPendingIconRequests ∧
      (after.slots.map (·.key)).Nodup ∧
      (after.slots.map (·.token.serial)).Pairwise (· < ·) ∧ InOrder .admitted history ∧
      (∀ completion ∈ after.completed, completion.request.token.generation = after.generation) ∧
      InOrder .dispatched history ∧ InOrder .published history ∧
      (∀ before token rest, history = before ++ .published token :: rest →
        Deliverable before token) ∧
      ∀ request, after.inFlight = some request → ∀ (actions' : List (Action K R)) later history',
        (∀ result, .complete request.token result ∉ actions') →
        run step after actions' = some (later, history') → later.inFlight = some request := by
  obtain ⟨after, history, hrun⟩ := exists_run (new session) actions
  have hrecorded := recorded_of_run hrun
  refine ⟨after, history, hrun, ?_, hrecorded.sound.keys, hrecorded.sound.serials,
    hrecorded.admissions, hrecorded.sound.completed, hrecorded.dispatches,
    hrecorded.publications, hrecorded.deliverable, ?_⟩
  · rw [pendingCount_eq]
    exact hrecorded.sound.bounded
  · exact fun request hheld actions' later history' hother hrun' =>
      inFlight_of_run hheld hother hrun'

/-- A key asked for again while its old call is still in flight waits for that call to end; the
late report is discarded. -/
theorem iconRequests_run_lateReport :
    ∃ (after : IconRequests ℕ Bool) (history : List Observation),
      run step (new 7) [.submit (.ofClass 3), .takeNext, .advanceGeneration,
        .submit (.ofClass 3), .complete ⟨7, 0, 1⟩ true, .submit (.ofClass 3), .takeNext,
        .complete ⟨7, 0, 1⟩ true, .complete ⟨7, 1, 2⟩ false] = some (after, history) ∧
      history = [.admitted ⟨7, 0, 1⟩, .dispatched ⟨7, 0, 1⟩, .advanced, .discarded ⟨7, 0, 1⟩,
        .admitted ⟨7, 1, 2⟩, .dispatched ⟨7, 1, 2⟩, .published ⟨7, 1, 2⟩] ∧
      after.pendingCount ≤ maxPendingIconRequests := by
  obtain ⟨after, history, hrun, hbounded, -⟩ := iconRequests_run (R := Bool) 7
    [.submit (.ofClass 3), .takeNext, .advanceGeneration, .submit (.ofClass 3),
      .complete ⟨7, 0, 1⟩ true, .submit (.ofClass 3), .takeNext, .complete ⟨7, 0, 1⟩ true,
      .complete ⟨7, 1, 2⟩ false]
  refine ⟨after, history, hrun, ?_, hbounded⟩
  have hhistory : (run step (new 7 : IconRequests ℕ Bool) [.submit (.ofClass 3), .takeNext,
      .advanceGeneration, .submit (.ofClass 3), .complete ⟨7, 0, 1⟩ true, .submit (.ofClass 3),
      .takeNext, .complete ⟨7, 0, 1⟩ true, .complete ⟨7, 1, 2⟩ false]).map (·.2) =
        some [.admitted ⟨7, 0, 1⟩, .dispatched ⟨7, 0, 1⟩, .advanced, .discarded ⟨7, 0, 1⟩,
          .admitted ⟨7, 1, 2⟩, .dispatched ⟨7, 1, 2⟩, .published ⟨7, 1, 2⟩] := by
    decide
  rw [hrun] at hhistory
  exact Option.some.inj hhistory

end Runs

end IconRequests

end DarkReNamer
