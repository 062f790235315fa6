import DarkReNamer.IconRequests

/-!
# The slots of icon requests

What one call may change, and what holds of the slots in every state of a run. The slots in
order of their serials are the results, then the call in flight, then the queue.
-/

namespace DarkReNamer

open Machine

namespace IconRequests

variable {K R : Type} {requests after : IconRequests K R}

/-- All requests that hold a slot, oldest first. -/
def slots (requests : IconRequests K R) : List (Request K) :=
  requests.completed.map (·.request) ++ requests.inFlight.toList ++ requests.queued

theorem inFlightCount_eq (requests : IconRequests K R) :
    requests.inFlightCount = requests.inFlight.toList.length := by
  unfold inFlightCount
  cases requests.inFlight with
  | none => rfl
  | some request => rfl

theorem pendingCount_eq (requests : IconRequests K R) :
    requests.pendingCount = requests.slots.length := by
  simp only [pendingCount, inFlightCount_eq, slots, List.length_append, List.length_map]
  omega

/-- The changes a call can make, with what each leaves in the history. -/
inductive Change (requests : IconRequests K R) :
    IconRequests K R → List Observation → Prop where
  | kept : Change requests requests []
  | admitted {key : RequestKey K} (live : requests.retired = false)
      (room : requests.slots.length ≠ maxPendingIconRequests)
      (fresh : key ∉ requests.slots.map (·.key)) (serial : requests.nextSerial + 1 ≤ u64Max) :
      Change requests
        { requests with
          nextSerial := requests.nextSerial + 1
          queued := requests.queued ++
            [⟨⟨requests.session, requests.generation, requests.nextSerial + 1⟩, key⟩] }
        [.admitted ⟨requests.session, requests.generation, requests.nextSerial + 1⟩]
  | dispatched {request : Request K} {queued : List (Request K)}
      (live : requests.retired = false) (free : requests.inFlight = none)
      (front : requests.queued = request :: queued) :
      Change requests { requests with queued := queued, inFlight := some request }
        [.dispatched request.token]
  | published {request : Request K} {result : R} (live : requests.retired = false)
      (held : requests.inFlight = some request)
      (current : request.token.generation = requests.generation) :
      Change requests
        { requests with
          inFlight := none
          completed := requests.completed ++ [⟨request, result⟩] }
        [.published request.token]
  | discarded {request : Request K} (held : requests.inFlight = some request)
      (stale : requests.retired = true ∨ request.token.generation ≠ requests.generation) :
      Change requests { requests with inFlight := none } [.discarded request.token]
  | acknowledged (count : ℕ) :
      Change requests { requests with completed := requests.completed.drop count } []
  | advanced (live : requests.retired = false) (next : requests.generation + 1 ≤ u64Max) :
      Change requests
        { requests with generation := requests.generation + 1, queued := [], completed := [] }
        [.advanced]
  | retired : Change requests requests.retire [.retired]

theorem inFlight_advanceGeneration (requests : IconRequests K R) :
    requests.advanceGeneration.2.inFlight = requests.inFlight := by
  unfold advanceGeneration
  split
  · rfl
  · split <;> rfl

section Calls

variable [DecidableEq K]

theorem fresh_of_refusal {key : RequestKey K} (h : requests.refusal key = none) :
    requests.retired = false ∧ requests.slots.length ≠ maxPendingIconRequests ∧
      key ∉ requests.slots.map (·.key) := by
  rw [refusal] at h
  split at h
  · cases h
  · next hlive =>
      split at h
      · split at h <;> cases h
      · next hflight =>
          split at h
          · cases h
          · next hheld =>
              split at h
              · cases h
              · next hroom =>
                  refine ⟨by simpa using hlive, pendingCount_eq requests ▸ hroom, ?_⟩
                  simp only [Bool.or_eq_true, List.any_eq_true, not_or, not_exists, not_and,
                    decide_eq_true_eq] at hheld
                  simp only [Option.filter_eq_none_iff, decide_eq_true_eq] at hflight
                  simp only [slots, List.mem_map, List.mem_append, Option.mem_toList, not_exists,
                    not_and]
                  rintro request ((⟨completion, hcompletion, rfl⟩ | hrequest) | hrequest) hkey
                  · exact hheld.2 completion hcompletion hkey
                  · exact hflight request hrequest hkey
                  · exact hheld.1 request hrequest hkey

theorem refusal_ne_queued (requests : IconRequests K R) (key : RequestKey K) :
    requests.refusal key ≠ some .queued := by
  unfold refusal
  split
  · simp
  · split
    · split <;> simp
    · split
      · simp
      · split <;> simp

theorem change_submit {key : RequestKey K} {observed : List Observation}
    (h : step requests (.submit key) = some (after, observed)) :
    Change requests after observed := by
  simp only [step, submit] at h
  cases hrefusal : requests.refusal key with
  | some disposition =>
      have hne : disposition ≠ .queued := by
        rintro rfl
        exact refusal_ne_queued requests key hrefusal
      cases disposition with
      | queued => exact absurd rfl hne
      | coalesced | deferredStaleInFlight | saturated | identifierExhausted | retired =>
          rw [hrefusal] at h
          cases h
          exact .kept
  | none =>
      obtain ⟨hlive, hroom, hfresh⟩ := fresh_of_refusal hrefusal
      rw [hrefusal] at h
      cases hserial : checkedAdd u64Max requests.nextSerial 1 with
      | none =>
          rw [hserial] at h
          cases h
          exact .kept
      | some serial =>
          obtain ⟨hmax, rfl⟩ := checkedAdd_eq_some.1 hserial
          rw [hserial] at h
          cases h
          exact .admitted hlive hroom hfresh hmax

/-- A call makes one of the changes. -/
theorem change_of_step {action : Action K R} {observed : List Observation}
    (h : step requests action = some (after, observed)) : Change requests after observed := by
  cases action with
  | submit key => exact change_submit h
  | takeNext =>
      simp only [step, takeNext] at h
      split at h
      · cases h
        exact .kept
      · next hidle =>
          simp only [Bool.or_eq_true, not_or, Bool.not_eq_true, Option.isSome_eq_false_iff,
            Option.isNone_iff_eq_none] at hidle
          cases hqueued : requests.queued with
          | nil =>
              rw [hqueued] at h
              cases h
              exact .kept
          | cons request queued =>
              rw [hqueued] at h
              cases h
              exact .dispatched hidle.1 hidle.2 hqueued
  | complete token result =>
      simp only [step, complete] at h
      cases hheld : requests.inFlight with
      | none =>
          rw [hheld] at h
          cases h
          exact .kept
      | some request =>
          rw [hheld] at h
          dsimp only at h
          by_cases htoken : request.token = token
          · subst htoken
            rw [if_neg (not_not.2 rfl)] at h
            by_cases hstale : (requests.retired || request.token.generation !=
                requests.generation) = true
            · rw [if_pos hstale] at h
              cases h
              exact .discarded hheld (by simpa using hstale)
            · rw [if_neg hstale] at h
              cases h
              simp only [Bool.or_eq_true, bne_iff_ne, not_or, Bool.not_eq_true, not_not] at hstale
              exact .published hstale.1 hheld hstale.2
          · rw [if_pos htoken] at h
            cases h
            exact .kept
  | acknowledgeCompletions count =>
      cases h
      exact .acknowledged _
  | advanceGeneration =>
      cases hlive : requests.retired with
      | true =>
          have hcall : requests.advanceGeneration = (false, requests) := if_pos hlive
          simp only [step, hcall, hlive] at h
          cases h
          exact .kept
      | false =>
          cases hnext : checkedAdd u64Max requests.generation 1 with
          | none =>
              have hcall : requests.advanceGeneration = (false, requests.retire) := by
                simp [advanceGeneration, hlive, hnext]
              simp only [step, hcall, hlive] at h
              cases h
              exact .retired
          | some next =>
              obtain ⟨hmax, rfl⟩ := checkedAdd_eq_some.1 hnext
              have hcall : requests.advanceGeneration = (true, { requests with
                  generation := requests.generation + 1, queued := [], completed := [] }) := by
                simp [advanceGeneration, hlive, hnext]
              simp only [step, hcall] at h
              cases h
              exact .advanced hlive hmax
  | retire =>
      cases h
      exact .retired

theorem inFlight_submit (requests : IconRequests K R) (key : RequestKey K) :
    (requests.submit key).2.inFlight = requests.inFlight := by
  unfold submit
  split
  · rfl
  · split <;> rfl

/-- A call other than the report of its token leaves the request in flight. -/
theorem inFlight_of_step {action : Action K R} {observed : List Observation} {request : Request K}
    (hheld : requests.inFlight = some request)
    (hother : ∀ result, action ≠ .complete request.token result)
    (h : step requests action = some (after, observed)) : after.inFlight = some request := by
  cases action with
  | submit key =>
      cases h
      exact (inFlight_submit requests key).trans hheld
  | takeNext =>
      have hcall : requests.takeNext = (none, requests) := by
        rw [takeNext, hheld, Option.isSome_some, Bool.or_true, if_pos rfl]
      simp only [step, hcall] at h
      cases h
      exact hheld
  | complete token result =>
      have htoken : request.token ≠ token := fun heq => hother result (heq ▸ rfl)
      simp only [step, complete, hheld, if_pos htoken] at h
      cases h
      exact hheld
  | acknowledgeCompletions count =>
      cases h
      exact hheld
  | advanceGeneration =>
      cases h
      exact (inFlight_advanceGeneration requests).trans hheld
  | retire =>
      cases h
      exact hheld

/-- The same over a run. -/
theorem inFlight_of_run {actions : List (Action K R)} {history : List Observation}
    {request : Request K} (hheld : requests.inFlight = some request)
    (hother : ∀ result, .complete request.token result ∉ actions)
    (h : run step requests actions = some (after, history)) :
    after.inFlight = some request := by
  induction actions generalizing requests history with
  | nil =>
      cases h
      exact hheld
  | cons action actions ih =>
      obtain ⟨next, observed, history', hstep, hrun, rfl⟩ := run_cons_eq_some.1 h
      refine ih (inFlight_of_step hheld ?_ hstep) ?_ hrun
      · rintro result rfl
        exact hother result (by simp)
      · exact fun result hmem => hother result (List.mem_cons_of_mem _ hmem)

end Calls

/-! ### What holds of the slots -/

/-- The slots are few, of different keys, in order of their serials, and of this session; what
is queued or completed is of this generation. -/
structure Sound (requests : IconRequests K R) : Prop where
  bounded : requests.slots.length ≤ maxPendingIconRequests
  keys : (requests.slots.map (·.key)).Nodup
  serials : (requests.slots.map (·.token.serial)).Pairwise (· < ·)
  issued : ∀ request ∈ requests.slots, request.token.serial ≤ requests.nextSerial ∧
    request.token.session = requests.session
  queued : ∀ request ∈ requests.queued, request.token.generation = requests.generation
  completed : ∀ completion ∈ requests.completed,
    completion.request.token.generation = requests.generation
  inFlight : ∀ request ∈ requests.inFlight, request.token.generation ≤ requests.generation
  emptied : requests.retired = true → requests.queued = [] ∧ requests.completed = []

theorem sound_new (session : ℕ) : Sound (new session : IconRequests K R) where
  bounded := Nat.zero_le _
  keys := .nil
  serials := .nil
  issued _ h := by cases h
  queued _ h := by cases h
  completed _ h := by cases h
  inFlight _ h := by cases h
  emptied _ := ⟨rfl, rfl⟩

/-- Slots given up leave the others sound. -/
theorem Sound.sublist (h : Sound requests) (hsub : after.slots.Sublist requests.slots)
    (hsession : after.session = requests.session) (hserial : after.nextSerial = requests.nextSerial)
    (hqueued : ∀ request ∈ after.queued, request.token.generation = after.generation)
    (hcompleted : ∀ completion ∈ after.completed,
      completion.request.token.generation = after.generation)
    (hinFlight : ∀ request ∈ after.inFlight, request.token.generation ≤ after.generation)
    (hemptied : after.retired = true → after.queued = [] ∧ after.completed = []) :
    Sound after where
  bounded := Nat.le_trans hsub.length_le h.bounded
  keys := h.keys.sublist (hsub.map _)
  serials := h.serials.sublist (hsub.map _)
  issued request hrequest := by
    rw [hsession, hserial]
    exact h.issued request (hsub.subset hrequest)
  queued := hqueued
  completed := hcompleted
  inFlight := hinFlight
  emptied := hemptied

theorem slots_admitted (requests : IconRequests K R) (serial : ℕ) (request : Request K) :
    slots { requests with nextSerial := serial, queued := requests.queued ++ [request] } =
      requests.slots ++ [request] := by
  simp only [slots, List.append_assoc]

theorem slots_dispatched {request : Request K} {queued : List (Request K)}
    (free : requests.inFlight = none) (front : requests.queued = request :: queued) :
    slots { requests with queued := queued, inFlight := some request } = requests.slots := by
  simp [slots, free, front]

theorem slots_published {request : Request K} (result : R)
    (held : requests.inFlight = some request) :
    slots { requests with
      inFlight := none, completed := requests.completed ++ [⟨request, result⟩] } =
        requests.slots := by
  simp [slots, held]

/-- Every change keeps the slots sound. -/
theorem Sound.change {observed : List Observation} (h : Sound requests)
    (hchange : Change requests after observed) : Sound after := by
  cases hchange with
  | kept => exact h
  | @admitted key live room fresh serial =>
      have hlater : ∀ request ∈ requests.slots,
          request.token.serial < requests.nextSerial + 1 := fun request hrequest =>
        Nat.lt_succ_of_le (h.issued request hrequest).1
      refine ⟨?_, ?_, ?_, ?_, ?_, h.completed, h.inFlight, fun hretired => ?_⟩
      · rw [slots_admitted, List.length_append, List.length_singleton]
        exact Nat.lt_of_le_of_ne h.bounded room
      · rw [slots_admitted, List.map_append]
        refine List.nodup_append.2 ⟨h.keys, List.pairwise_singleton _ _, ?_⟩
        rintro other hother other' hother' rfl
        obtain rfl : other = key := List.mem_singleton.1 hother'
        exact fresh hother
      · rw [slots_admitted, List.map_append]
        refine List.pairwise_append.2 ⟨h.serials, List.pairwise_singleton _ _, ?_⟩
        simpa using hlater
      · rw [slots_admitted]
        intro request hrequest
        rcases List.mem_append.1 hrequest with hold | hnew
        · exact ⟨Nat.le_of_lt (hlater request hold), (h.issued request hold).2⟩
        · obtain rfl := List.mem_singleton.1 hnew
          exact ⟨Nat.le_refl _, rfl⟩
      · intro request hrequest
        rcases List.mem_append.1 hrequest with hold | hnew
        · exact h.queued request hold
        · rw [List.mem_singleton.1 hnew]
      · rw [live] at hretired
        cases hretired
  | @dispatched request queued live free front =>
      have hrequest := h.queued request (by simp [front])
      refine h.sublist (slots_dispatched free front ▸ .refl _) rfl rfl ?_ h.completed ?_ ?_
      · exact fun other hother => h.queued other (by simp [front, hother])
      · rintro other ⟨⟩
        exact Nat.le_of_eq hrequest
      · intro hretired
        rw [live] at hretired
        cases hretired
  | @published request result live held current =>
      refine h.sublist (slots_published result held ▸ .refl _) rfl rfl h.queued ?_ ?_ ?_
      · intro completion hcompletion
        rcases List.mem_append.1 hcompletion with hold | hnew
        · exact h.completed completion hold
        · rw [List.mem_singleton.1 hnew]
          exact current
      · rintro other ⟨⟩
      · intro hretired
        rw [live] at hretired
        cases hretired
  | discarded held stale =>
      refine h.sublist ?_ rfl rfl h.queued h.completed ?_ h.emptied
      · exact ((List.Sublist.refl _).append (List.nil_sublist _)).append (.refl _)
      · rintro other ⟨⟩
  | acknowledged count =>
      have hsub : (requests.completed.drop count).Sublist requests.completed :=
        List.drop_sublist _ _
      refine h.sublist ((hsub.map _).append (.refl _) |>.append (.refl _)) rfl rfl h.queued ?_
        h.inFlight ?_
      · exact fun completion hcompletion => h.completed completion (hsub.subset hcompletion)
      · intro hretired
        obtain ⟨hqueued, hcompleted⟩ := h.emptied hretired
        exact ⟨hqueued, by simp [hcompleted]⟩
  | advanced live next =>
      refine h.sublist ?_ rfl rfl ?_ ?_ ?_ fun _ => ⟨rfl, rfl⟩
      · exact ((List.nil_sublist _).append (.refl _)).append (List.nil_sublist _)
      · exact fun request hrequest => by cases hrequest
      · exact fun completion hcompletion => by cases hcompletion
      · exact fun request hrequest => Nat.le_succ_of_le (h.inFlight request hrequest)
  | retired =>
      refine h.sublist ?_ rfl rfl ?_ ?_ h.inFlight fun _ => ⟨rfl, rfl⟩
      · exact ((List.nil_sublist _).append (.refl _)).append (List.nil_sublist _)
      · exact fun request hrequest => by cases hrequest
      · exact fun completion hcompletion => by cases hcompletion

end IconRequests

end DarkReNamer
