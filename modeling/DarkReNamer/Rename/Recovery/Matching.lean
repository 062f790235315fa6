import DarkReNamer.Rename.Recovery.Occupancy
import DarkReNamer.Rename.Recovery.Undoing

/-!
# What recovery reads

Of the backend only this is asked: the entry key of a leaf in a parent is always the same. Then
the maps of recovery hold the occupants of entry keys. The completed records are replayed from the
initial occupants, every endpoint of every step is observed, and recovery goes on only where all
that it observed is what the records lead to, with the step in doubt settled one way and not the
other. The records are taken as they are; what phase they are in does not matter here.
-/

namespace DarkReNamer

open Std Interaction Occupancy UndoLog

namespace Recovery

variable {key : EntryIdentity → LegacyText → PathKey} {steps : List JournalStep}
  {o b : State PathKey EntryIdentity} {records : List JournalRecord}

/-- The answer keeps to the entry keys. -/
def Keyed (key : EntryIdentity → LegacyText → PathKey) : (call : Call) → Answer call → Prop
  | .backend (.plannedEntryKey parent leaf), answer => ∀ k, answer = .ok k → k = key parent leaf
  | _, _ => True

/-- The initial occupants: each entry where its first step expects it, and nothing else. -/
def Initial (key : EntryIdentity → LegacyText → PathKey) (steps : List JournalStep)
    (o : State PathKey EntryIdentity) : Prop :=
  ∀ k id, o k = some id ↔ StartsAt key steps k id

/-- The move of a step, in either direction. -/
def directedMove (key : EntryIdentity → LegacyText → PathKey) (step : JournalStep)
    (reverse : Bool) : KeyMove :=
  if reverse then (plannedMove key step).reverse else plannedMove key step

/-- An endpoint was observed in its parent, with the occupant that `b` gives it. -/
def Observed (key : EntryIdentity → LegacyText → PathKey) (b : State PathKey EntryIdentity)
    (step : JournalStep) (path : LegacyText) (parent : EntryIdentity) (events : List EngineEvent) :
    Prop :=
  ∃ snapshot, ⟨.backend (.observe path), .ok snapshot⟩ ∈ events ∧ snapshot.parent = parent ∧
    snapshot.entry.map ObservedEntry.identity = b (key parent (pathLeaf path)) ∧
    ∀ entry ∈ snapshot.entry, entry.isReparsePoint = false ∧
      (entry.identity = step.expectedSource → ∀ kind ∈ step.kind, entry.kind = kind)

/-- The completed moves of the records, in their order: each is possible when its turn comes. -/
def Replays (key : EntryIdentity → LegacyText → PathKey) (steps : List JournalStep) :
    List JournalRecord → State PathKey EntryIdentity → State PathKey EntryIdentity → Prop
  | [], b, b' => b' = b
  | .completed i direction :: records, b, b' => ∃ step, steps[i]? = some step ∧
      (directedMove key step (direction == .rollback)).Enabled b ∧
      Replays key steps records ((directedMove key step (direction == .rollback)).apply b) b'
  | _ :: records, b, b' => Replays key steps records b b'

/-- The record that says how the last one ended, when that leaves its step in doubt. -/
def settlement (records : List JournalRecord) (applied : Bool) : List JournalRecord :=
  match records.getLast? with
  | some (.prepared i direction) => [.ofLog (resolution i direction applied)]
  | _ => []

/-- The records with the step in doubt settled. -/
def settled (records : List JournalRecord) (applied : Bool) : List JournalRecord :=
  records ++ settlement records applied

/-- What recovery has read when it goes on with `applied`. -/
structure Matched (key : EntryIdentity → LegacyText → PathKey) (records : List JournalRecord)
    (steps : List JournalStep) (applied : Bool) (events : List EngineEvent)
    (o b : State PathKey EntryIdentity) : Prop where
  initial : Initial key steps o
  replays : Replays key steps (settled records applied) o b
  agrees : ∀ path answer, ⟨.backend (.observe path), answer⟩ ∈ events →
    ∃ snapshot, answer = .ok snapshot ∧
      snapshot.entry.map ObservedEntry.identity = b (key snapshot.parent (pathLeaf path))
  source : ∀ step ∈ steps, Observed key b step step.source step.expectedSourceParent events
  destination : ∀ step ∈ steps, Observed key b step step.destination
    step.expectedDestinationParent events
  unambiguous : ∀ i direction, records.getLast? = some (.prepared i direction) →
    ∃ b', Replays key steps (settled records !applied) o b' ∧
      ∃ k ∈ endpointKeys key steps, b' k ≠ b k

theorem Replays.append {front back : List JournalRecord} {b' b'' : State PathKey EntryIdentity}
    (h : Replays key steps front b b') (h' : Replays key steps back b' b'') :
    Replays key steps (front ++ back) b b'' := by
  induction front generalizing b with
  | nil =>
      obtain rfl : b' = b := h
      exact h'
  | cons record front ih =>
      cases record with
      | completed i direction =>
          obtain ⟨step, hstep, henabled, hrest⟩ := h
          exact ⟨step, hstep, henabled, ih hrest⟩
      | _ => exact ih h

theorem settled_of_getLast? {i : ℕ} {direction : JournalDirection} (applied : Bool)
    (h : records.getLast? = some (.prepared i direction)) :
    settled records applied = records ++ [.ofLog (resolution i direction applied)] := by
  simp only [settled, settlement, h]

theorem settled_of_not_prepared {applied : Bool}
    (h : ∀ i direction, records.getLast? ≠ some (.prepared i direction)) :
    settled records applied = records := by
  unfold settled settlement
  split
  · next i direction hlast => exact absurd hlast (h i direction)
  · exact List.append_nil _

/-- Both ways to settle the step in doubt. -/
theorem Replays.resolved {i : ℕ} {direction : JournalDirection} {b' : State PathKey EntryIdentity}
    (h : Replays key steps records o b) (hlast : records.getLast? = some (.prepared i direction))
    (happlied : Replays key steps [.completed i direction] b b') :
    Replays key steps (settled records false) o b ∧
      Replays key steps (settled records true) o b' := by
  rw [settled_of_getLast? false hlast, settled_of_getLast? true hlast]
  exact ⟨h.append rfl, h.append happlied⟩

/-- The step in doubt is that of the last record. -/
theorem pending_eq_some_iff {plan : PlanId} {phase : Phase} {i : ℕ} {direction : JournalDirection}
    (hlogs : Logs records plan steps phase) :
    phase.pending = some (i, direction) ↔ records.getLast? = some (.prepared i direction) := by
  obtain ⟨log, rfl, hlog⟩ := hlogs
  rw [Phase.pending_eq_some_iff_of_ofLog hlog, List.getLast?_cons, List.getLast?_map]
  cases log.getLast? with
  | none => simp
  | some r => cases r <;> simp [JournalRecord.ofLog]

/-- The settled records are a journal in which nothing is in doubt. -/
theorem logs_settled {plan : PlanId} {phase : Phase} (hlogs : Logs records plan steps phase)
    (hopen : ∀ value, phase ≠ .ended value) (applied : Bool) :
    ∃ k phase', Logs (settled records applied) plan steps phase' ∧
      Ready k (phase.left applied) phase' := by
  obtain ⟨st, -, hst, hagrees⟩ := exists_agrees hlogs
  have hpending := prepared_eq_pending hst hagrees hopen
  have hb := hlogs.bounded
  cases hprepared : (transitionSets records).prepared with
  | none =>
      obtain ⟨k, hready, -⟩ := ready_of_prepared_none hst hagrees hb hopen hprepared applied
      refine ⟨k, phase, ?_, hready⟩
      rwa [settled_of_not_prepared]
      intro i direction hlast
      rw [← pending_eq_some_iff hlogs, ← hpending, hprepared] at hlast
      cases hlast
  | some prepared =>
      obtain ⟨i, direction⟩ := prepared
      obtain ⟨k, phase', hnext, hready, -⟩ :=
        ready_of_prepared_some hst hagrees hb hopen hprepared applied
      refine ⟨k, phase', ?_, hready⟩
      rw [settled_of_getLast? applied
        ((pending_eq_some_iff hlogs).1 (by rw [← hpending, hprepared]))]
      exact hlogs.append hnext

/-! ### The maps of the records -/

/-- The calls that ask for an entry key. -/
def AsksKey : Call → Prop
  | .backend (.plannedEntryKey _ _) => True
  | _ => False

theorem asksKey_plannedEntryKey (parent : EntryIdentity) (leaf : LegacyText) :
    AsksKey (.backend (.plannedEntryKey parent leaf)) := trivial

theorem shows_endpointKey (path : LegacyText) (parent : EntryIdentity) :
    Shows (Keyed key) (endpointKey path parent) fun k _ => k = key parent (pathLeaf path) := by
  refine Shows.call fun answer hanswer => ?_
  cases answer with
  | error error => exact Shows.throw _
  | ok k => exact Shows.pure (hanswer k rfl)

theorem shows_initialOccupancyFrom {rest done : List JournalStep} {m : EndpointMap}
    {seen : ExtTreeSet EntryId} (hplaces : Places key done m seen) :
    Shows (Keyed key) (initialOccupancyFrom rest m seen) fun m' _ =>
      ∃ seen', Places key (done ++ rest) m' seen' := by
  induction rest generalizing done m seen with
  | nil => exact Shows.pure ⟨seen, by rwa [List.append_nil]⟩
  | cons step rest ih =>
      rw [initialOccupancyFrom]
      refine Shows.bind (shows_endpointKey _ _) fun source _ hsource => ?_
      refine Shows.bind (shows_endpointKey _ _) fun destination _ hdestination => ?_
      obtain rfl : source = (plannedMove key step).source := hsource
      obtain rfl : destination = (plannedMove key step).destination := hdestination
      rw [List.append_cons]
      dsimp only
      split
      · next hseen => exact ih (hplaces.later hseen)
      · next hseen =>
          split
          · exact Shows.throw _
          · next hfree => exact ih (hplaces.first hseen (Bool.eq_false_of_not_eq_true hfree))

/-- The initial map holds initial occupants. -/
theorem shows_initialOccupancy (key : EntryIdentity → LegacyText → PathKey)
    (steps : List JournalStep) :
    Shows (Keyed key) (initialOccupancy steps) fun m _ =>
      ∃ o, Initial key steps o ∧ Represents (endpointKeys key steps) o m := by
  refine (shows_initialOccupancyFrom Places.start).mono ?_
  rintro m events ⟨seen, hplaces⟩
  rw [List.nil_append] at hplaces
  refine ⟨fun k => m[k]?.join, fun k identity => ?_, fun k => ?_⟩
  · rw [← hplaces.occupied k identity, Option.join_eq_some_iff]
  · split
    · next hk =>
        obtain ⟨value, hvalue⟩ := Option.ne_none_iff_exists'.1 ((hplaces.present k).2 hk)
        simp [hvalue]
    · next hk => exact not_not.1 fun hne => hk ((hplaces.present k).1 hne)

theorem shows_applyStep {m : EndpointMap} {step : JournalStep} (hstep : step ∈ steps)
    (reverse : Bool) (hm : Represents (endpointKeys key steps) b m) :
    Shows (Keyed key) (applyStep m step reverse) fun m' _ =>
      (directedMove key step reverse).Enabled b ∧
        Represents (endpointKeys key steps) ((directedMove key step reverse).apply b) m' := by
  have hfinish : ∀ source destination,
      source = (directedMove key step reverse).source →
      destination = (directedMove key step reverse).destination →
      source ∈ endpointKeys key steps → destination ∈ endpointKeys key steps →
      Shows (Keyed key)
        (if m[source]? != some (some step.expectedSource) || m[destination]? != some none then
          throw .journalCorrupt
        else pure ((m.insert source none).insert destination (some step.expectedSource)) :
          ExceptT RecoveryBlockKind Engine EndpointMap)
        fun m' _ => (directedMove key step reverse).Enabled b ∧
          Represents (endpointKeys key steps) ((directedMove key step reverse).apply b) m' := by
    rintro source destination rfl rfl hsource hdestination
    have hoccupant : (directedMove key step reverse).occupant = step.expectedSource := by
      cases reverse <;> rfl
    split
    · exact Shows.throw _
    · next hfits =>
        rw [hm.getElem? hsource, hm.getElem? hdestination] at hfits
        simp only [bne_iff_ne, ne_eq, Option.some.injEq, Bool.or_eq_true, not_or,
          not_not] at hfits
        have henabled : (directedMove key step reverse).Enabled b :=
          ⟨by rw [hoccupant]; exact hfits.1, hfits.2⟩
        refine Shows.pure ⟨henabled, ?_⟩
        rw [← hoccupant]
        exact hm.move henabled hsource hdestination
  unfold applyStep
  cases reverse with
  | false =>
      refine Shows.bind (shows_endpointKey _ _) fun source _ hsource => ?_
      refine Shows.bind (shows_endpointKey _ _) fun destination _ hdestination => ?_
      refine hfinish source destination hsource hdestination ?_ ?_
      · exact hsource ▸ source_mem_endpointKeys hstep
      · exact hdestination ▸ destination_mem_endpointKeys hstep
  | true =>
      refine Shows.bind (shows_endpointKey _ _) fun source _ hsource => ?_
      refine Shows.bind (shows_endpointKey _ _) fun destination _ hdestination => ?_
      refine hfinish source destination hsource hdestination ?_ ?_
      · exact hsource ▸ destination_mem_endpointKeys hstep
      · exact hdestination ▸ source_mem_endpointKeys hstep

/-- The completed records are replayed on the map as they are on the occupants. -/
theorem shows_replayOccupancy {m : EndpointMap} (hm : Represents (endpointKeys key steps) b m) :
    Shows (Keyed key) (replayOccupancy steps records m) fun m' _ =>
      ∃ b', Replays key steps records b b' ∧ Represents (endpointKeys key steps) b' m' := by
  induction records generalizing b m with
  | nil => exact Shows.pure ⟨b, rfl, hm⟩
  | cons record records ih =>
      cases record with
      | completed i direction =>
          rw [replayOccupancy]
          split
          · exact Shows.throw _
          · next step hstep =>
              refine Shows.bind (shows_applyStep (List.mem_of_getElem? hstep) _ hm)
                fun m₁ events hm₁ => ?_
              obtain ⟨henabled, hm₁⟩ := hm₁
              refine (ih hm₁).mono ?_
              rintro m' - ⟨b', hreplays, hm'⟩
              exact ⟨b', ⟨step, hstep, henabled, hreplays⟩, hm'⟩
      | _ => exact ih hm

/-- The candidate in which the step in doubt was applied. -/
theorem shows_candidate {m : EndpointMap} {i : ℕ} {direction : JournalDirection}
    {step : JournalStep} (hstep : steps[i]? = some step)
    (hm : Represents (endpointKeys key steps) b m) :
    Shows (Keyed key) (applyStep m step (direction == .rollback)) fun m' _ =>
      ∃ b', Replays key steps [.completed i direction] b b' ∧
        Represents (endpointKeys key steps) b' m' := by
  refine (shows_applyStep (List.mem_of_getElem? hstep) _ hm).mono ?_
  rintro m' - ⟨henabled, hm'⟩
  exact ⟨_, ⟨step, hstep, henabled, rfl⟩, hm'⟩

/-! ### The observed occupants -/

/-- Every observation was answered, and the map holds what it showed. -/
def Recorded (key : EntryIdentity → LegacyText → PathKey) (m : EndpointMap)
    (events : List EngineEvent) : Prop :=
  ∀ path answer, ⟨.backend (.observe path), answer⟩ ∈ events → ∃ snapshot, answer = .ok snapshot ∧
    m[key snapshot.parent (pathLeaf path)]? = some (snapshot.entry.map ObservedEntry.identity)

/-- The observations so far are in the map, which holds nothing else. -/
structure Sees (key : EntryIdentity → LegacyText → PathKey) (done : List JournalStep)
    (m : EndpointMap) (events : List EngineEvent) : Prop where
  present : ∀ k, m[k]? ≠ none ↔ k ∈ endpointKeys key done
  recorded : Recorded key m events
  source : ∀ step ∈ done, Observed key (fun k => m[k]?.join) step step.source
    step.expectedSourceParent events
  destination : ∀ step ∈ done, Observed key (fun k => m[k]?.join) step step.destination
    step.expectedDestinationParent events

/-- Later events, and a state that agrees on the endpoint. -/
theorem Observed.mono {step : JournalStep} {path : LegacyText} {parent : EntryIdentity}
    {events later : List EngineEvent} {b' : State PathKey EntryIdentity}
    (h : Observed key b step path parent events) (hevents : events ⊆ later)
    (hb : b (key parent (pathLeaf path)) = b' (key parent (pathLeaf path))) :
    Observed key b' step path parent later := by
  obtain ⟨snapshot, hmem, hparent, hidentity, hentry⟩ := h
  exact ⟨snapshot, hevents hmem, hparent, hidentity.trans hb, hentry⟩

/-- The map with the key `k` more, at most. -/
structure Extends (m m' : EndpointMap) (k : PathKey) : Prop where
  other : ∀ k' : PathKey, k' ≠ k → m'[k']? = m[k']?
  kept : ∀ (k' : PathKey) (value : Option EntryIdentity),
    m[k']? = some value → m'[k']? = some value
  present : m'[k]? ≠ none

theorem Extends.ne_none_iff {m m' : EndpointMap} {k k' : PathKey} (h : Extends m m' k) :
    m'[k']? ≠ none ↔ m[k']? ≠ none ∨ k' = k := by
  by_cases hk : k' = k
  · subst hk
    simp [h.present]
  · simp [h.other k' hk, hk]

/-- An endpoint in the map stays observed. -/
theorem Observed.extends {step : JournalStep} {path : LegacyText} {parent : EntryIdentity}
    {events later : List EngineEvent} {m m' : EndpointMap} {k : PathKey}
    (h : Observed key (fun k => m[k]?.join) step path parent events) (hextends : Extends m m' k)
    (hpresent : m[key parent (pathLeaf path)]? ≠ none) :
    Observed key (fun k => m'[k]?.join) step path parent (events ++ later) := by
  refine h.mono (List.subset_append_left _ _) ?_
  obtain ⟨value, hvalue⟩ := Option.ne_none_iff_exists'.1 hpresent
  simp only [hvalue, hextends.kept _ _ hvalue]

theorem Recorded.extends {m m' : EndpointMap} {k : PathKey} {events : List EngineEvent}
    (h : Recorded key m events) (hextends : Extends m m' k) : Recorded key m' events := by
  intro path answer hmem
  obtain ⟨snapshot, hanswer, hentry⟩ := h path answer hmem
  exact ⟨snapshot, hanswer, hextends.kept _ _ hentry⟩

theorem Recorded.append {m : EndpointMap} {events later : List EngineEvent}
    (h : Recorded key m events) (h' : Recorded key m later) : Recorded key m (events ++ later) :=
  fun path answer hmem => (List.mem_append.1 hmem).elim (h path answer) (h' path answer)

/-- Asking for entry keys observes nothing. -/
theorem recorded_of_asksKey {m : EndpointMap} {events : List EngineEvent}
    (h : ∀ event ∈ events, AsksKey event.call) : Recorded key m events :=
  fun _ _ hmem => (h _ hmem).elim

/-- What is observed is new to the map or already there. -/
theorem extends_insert {m : EndpointMap} {k : PathKey} {identity : Option EntryIdentity}
    (hsame : (m[k]?.any fun previous => previous != identity) = false) :
    Extends m (m.insert k identity) k := by
  refine ⟨fun k' hk' => ?_, fun k' value hvalue => ?_, by simp⟩
  · simp [ExtTreeMap.getElem?_insert, Ne.symm hk']
  · rw [ExtTreeMap.getElem?_insert]
    simp only [LawfulEqCmp.compare_eq_iff_eq]
    split
    · next heq =>
        subst heq
        rw [hvalue] at hsame
        simp only [Option.any_some, bne_eq_false_iff_eq] at hsame
        rw [hsame]
    · exact hvalue

/-- One observation: its key is new or already has what is observed. -/
theorem shows_observeEndpoint (step : JournalStep) (path : LegacyText) (parent : EntryIdentity)
    (m : EndpointMap) :
    Shows (Keyed key) (observeEndpoint path parent step.expectedSource step.kind m) fun m' events =>
      Extends m m' (key parent (pathLeaf path)) ∧ Recorded key m' events ∧
        Observed key (fun k => m'[k]?.join) step path parent events := by
  unfold observeEndpoint
  refine Shows.call fun answer _ => ?_
  cases answer with
  | error error => exact Shows.throw _
  | ok snapshot =>
      dsimp only
      split
      · exact Shows.throw _
      · next hparent =>
          have hparent : snapshot.parent = parent := by simpa using hparent
          split
          · exact Shows.throw _
          · next hreparse =>
              split
              · exact Shows.throw _
              · next hkind =>
                  refine Shows.bind ((shows_endpointKey path parent).confined
                    (tries_endpointKey asksKey_plannedEntryKey _ _))
                    fun k events hk => ?_
                  obtain ⟨rfl, hasks⟩ := hk
                  split
                  · exact Shows.throw _
                  · next hsame =>
                      have hextends := extends_insert (Bool.eq_false_of_not_eq_true hsame)
                      refine Shows.pure ⟨hextends, ?_, snapshot, by simp, hparent, by simp,
                        fun entry hentry => ⟨?_, fun hidentity kind hk => ?_⟩⟩
                      · rw [List.append_nil]
                        rintro path' answer hmem
                        rcases List.mem_cons.1 hmem with hfirst | hmem
                        · cases hfirst
                          exact ⟨snapshot, rfl, by rw [hparent]; simp⟩
                        · exact (hasks _ hmem).elim
                      · rw [Option.mem_def] at hentry
                        rw [hentry] at hreparse
                        simpa using hreparse
                      · rw [Option.mem_def] at hentry hk
                        rw [hentry, hk] at hkind
                        simpa [hidentity] using hkind

/-- The endpoints of one more step. -/
theorem Sees.step {done : List JournalStep} {step : JournalStep} {m m₁ m₂ : EndpointMap}
    {events events₁ events₂ : List EngineEvent} (hsees : Sees key done m events)
    (hextends₁ : Extends m m₁ (plannedMove key step).source) (hrecorded₁ : Recorded key m₁ events₁)
    (hobserved₁ : Observed key (fun k => m₁[k]?.join) step step.source step.expectedSourceParent
      events₁)
    (hextends₂ : Extends m₁ m₂ (plannedMove key step).destination)
    (hrecorded₂ : Recorded key m₂ events₂)
    (hobserved₂ : Observed key (fun k => m₂[k]?.join) step step.destination
      step.expectedDestinationParent events₂) :
    Sees key (done ++ [step]) m₂ (events ++ (events₁ ++ events₂)) := by
  have hearlier : ∀ path parent other,
      Observed key (fun k => m[k]?.join) other path parent events →
      m[key parent (pathLeaf path)]? ≠ none →
      Observed key (fun k => m₂[k]?.join) other path parent (events ++ (events₁ ++ events₂)) := by
    intro path parent other hobserved hpresent
    rw [← List.append_assoc]
    exact (hobserved.extends hextends₁ hpresent).extends hextends₂
      (hextends₁.ne_none_iff.2 (.inl hpresent))
  have hnow : ∀ path parent other,
      Observed key (fun k => m₂[k]?.join) other path parent (events₁ ++ events₂) →
      Observed key (fun k => m₂[k]?.join) other path parent (events ++ (events₁ ++ events₂)) :=
    fun path parent other hobserved => hobserved.mono (List.subset_append_right _ _) rfl
  refine ⟨fun k => ?_, ?_, fun other hother => ?_, fun other hother => ?_⟩
  · rw [hextends₂.ne_none_iff, hextends₁.ne_none_iff, hsees.present, endpointKeys_append]
    simp only [List.mem_append, List.mem_cons, List.not_mem_nil, or_false, or_assoc]
  · exact ((hsees.recorded.extends hextends₁).extends hextends₂).append
      ((hrecorded₁.extends hextends₂).append hrecorded₂)
  · rcases List.mem_append.1 hother with hother | hother
    · exact hearlier _ _ _ (hsees.source other hother)
        ((hsees.present _).2 (source_mem_endpointKeys hother))
    · obtain rfl := List.mem_singleton.1 hother
      exact hnow _ _ _ (hobserved₁.extends hextends₂ hextends₁.present)
  · rcases List.mem_append.1 hother with hother | hother
    · exact hearlier _ _ _ (hsees.destination other hother)
        ((hsees.present _).2 (destination_mem_endpointKeys hother))
    · obtain rfl := List.mem_singleton.1 hother
      exact hnow _ _ _ (hobserved₂.mono (List.subset_append_right _ _) rfl)

theorem shows_observeFrom {rest done : List JournalStep} {m : EndpointMap}
    {events : List EngineEvent} (hsees : Sees key done m events) :
    Shows (Keyed key) (observeFrom rest m) fun m' later =>
      Sees key (done ++ rest) m' (events ++ later) := by
  induction rest generalizing done m events with
  | nil => exact Shows.pure (by rwa [List.append_nil, List.append_nil])
  | cons step rest ih =>
      rw [observeFrom]
      refine Shows.bind (shows_observeEndpoint step _ _ m) fun m₁ events₁ h₁ => ?_
      refine Shows.bind (shows_observeEndpoint step _ _ m₁) fun m₂ events₂ h₂ => ?_
      obtain ⟨hextends₁, hrecorded₁, hobserved₁⟩ := h₁
      obtain ⟨hextends₂, hrecorded₂, hobserved₂⟩ := h₂
      have hstep := hsees.step hextends₁ hrecorded₁ hobserved₁ hextends₂ hrecorded₂ hobserved₂
      refine (ih hstep).mono fun m' later hlater => ?_
      simpa only [List.append_assoc, List.singleton_append] using hlater

theorem Sees.later {m : EndpointMap} {events later : List EngineEvent}
    (h : Sees key steps m events) (hlater : ∀ event ∈ later, AsksKey event.call) :
    Sees key steps m (events ++ later) :=
  ⟨h.present, h.recorded.append (recorded_of_asksKey hlater),
    fun step hstep => (h.source step hstep).mono (List.subset_append_left _ _) rfl,
    fun step hstep => (h.destination step hstep).mono (List.subset_append_left _ _) rfl⟩

/-- Where the observed map is the one that the records lead to, so are the observations. -/
theorem Sees.matched {m expected : EndpointMap} {events : List EngineEvent} {applied : Bool}
    (hsees : Sees key steps m events) (hinitial : Initial key steps o)
    (hreplays : Replays key steps (settled records applied) o b)
    (hexpected : Represents (endpointKeys key steps) b expected)
    (hmatches : occupancyMatches expected m = true)
    (hother : ∀ i direction, records.getLast? = some (.prepared i direction) →
      ∃ b', Replays key steps (settled records !applied) o b' ∧
        ∃ k ∈ endpointKeys key steps, b' k ≠ b k) :
    Matched key records steps applied events o b := by
  obtain rfl : expected = m := eq_of_beq hmatches
  have hsame : ∀ k ∈ endpointKeys key steps, expected[k]?.join = b k := fun k hk => by
    rw [hexpected.getElem? hk]
    rfl
  refine ⟨hinitial, hreplays, fun path answer hmem => ?_, fun step hstep => ?_,
    fun step hstep => ?_, hother⟩
  · obtain ⟨snapshot, hanswer, hentry⟩ := hsees.recorded path answer hmem
    have hk := (hsees.present _).1 (Option.ne_none_iff_exists'.2 ⟨_, hentry⟩)
    rw [hexpected.getElem? hk, Option.some.injEq] at hentry
    exact ⟨snapshot, hanswer, hentry.symm⟩
  · exact (hsees.source step hstep).mono (List.Subset.refl _)
      (hsame _ (source_mem_endpointKeys hstep))
  · exact (hsees.destination step hstep).mono (List.Subset.refl _)
      (hsame _ (destination_mem_endpointKeys hstep))

/-- Two maps over the endpoints that differ hold different occupants of some. -/
theorem exists_ne_of_not_matches {b' : State PathKey EntryIdentity} {m m' : EndpointMap}
    (h : Represents (endpointKeys key steps) b m) (h' : Represents (endpointKeys key steps) b' m')
    (hmatches : occupancyMatches m m' = false) : ∃ k ∈ endpointKeys key steps, b k ≠ b' k := by
  by_contra hnone
  have hsame : ∀ k ∈ endpointKeys key steps, b k = b' k :=
    fun k hk => by_contra fun hne => hnone ⟨k, hk, hne⟩
  rw [(h.matches_iff h').2 hsame] at hmatches
  cases hmatches

/-- One way to settle the step in doubt fits the observations and the other does not. -/
theorem Sees.decided {observed chosen other : EndpointMap} {events : List EngineEvent}
    {applied : Bool} {b' : State PathKey EntryIdentity} (hsees : Sees key steps observed events)
    (hinitial : Initial key steps o) (hreplays : Replays key steps (settled records applied) o b)
    (hreplays' : Replays key steps (settled records !applied) o b')
    (hchosen : Represents (endpointKeys key steps) b chosen)
    (hother : Represents (endpointKeys key steps) b' other)
    (hmatches : occupancyMatches chosen observed = true)
    (hdiffers : occupancyMatches other observed = false) :
    Matched key records steps applied events o b := by
  have hne : occupancyMatches other chosen = false := by
    rwa [eq_of_beq hmatches]
  exact hsees.matched hinitial hreplays hchosen hmatches fun _ _ _ =>
    ⟨b', hreplays', exists_ne_of_not_matches hother hchosen hne⟩

/-- The reads of recovery. -/
theorem finds_matched (key : EntryIdentity → LegacyText → PathKey) :
    Finds (Keyed key) fun records steps _ applied events =>
      ∃ o b, Matched key records steps applied events o b := by
  intro records plan steps phase hlogs hopen
  have hlast : ∀ i direction, (transitionSets records).prepared = some (i, direction) ↔
      records.getLast? = some (.prepared i direction) := by
    obtain ⟨st, -, hst, hagrees⟩ := exists_agrees hlogs
    intro i direction
    rw [prepared_eq_pending hst hagrees hopen, pending_eq_some_iff hlogs]
  obtain ⟨log, hrecords, -⟩ := id hlogs
  have hdrop : ∀ b b', Replays key steps (records.drop 1) b b' →
      Replays key steps records b b' := by
    rw [hrecords]
    exact fun _ _ h => h
  unfold transitionState
  refine Shows.bind ((shows_initialOccupancy key steps).confined
    (tries_initialOccupancyFrom asksKey_plannedEntryKey _ _ _))
    fun initial events₀ hinitial => ?_
  obtain ⟨⟨o, hinitial, hrepresents⟩, hasks₀⟩ := hinitial
  refine Shows.bind ((shows_replayOccupancy hrepresents).confined
    (tries_replayOccupancy asksKey_plannedEntryKey _ _ _))
    fun expected events₁ hexpected => ?_
  obtain ⟨⟨b, hreplays, hexpected⟩, hasks₁⟩ := hexpected
  replace hreplays := hdrop _ _ hreplays
  have hnothing : Sees key [] ∅ (events₀ ++ events₁) :=
    ⟨by simp [endpointKeys], (recorded_of_asksKey hasks₀).append (recorded_of_asksKey hasks₁),
      by simp, by simp⟩
  refine Shows.bind (shows_observeFrom hnothing) fun observed events₂ hsees => ?_
  rw [List.nil_append, List.append_assoc] at hsees
  cases hprepared : (transitionSets records).prepared with
  | none =>
      have hnone : ∀ i direction, records.getLast? ≠ some (.prepared i direction) :=
        fun i direction h => by
          have := (hlast i direction).2 h
          simp [hprepared] at this
      dsimp only
      split
      · next hmatches =>
          refine Shows.pure ⟨false, by simp [TransitionSets.resolved, hprepared], o, b, ?_⟩
          rw [List.append_nil]
          exact hsees.matched hinitial (by rwa [settled_of_not_prepared hnone]) hexpected hmatches
            fun i direction h => absurd h (hnone i direction)
      · exact Shows.throw _
  | some prepared =>
      obtain ⟨i, direction⟩ := prepared
      have hdoubt := (hlast i direction).1 hprepared
      dsimp only
      split
      · exact Shows.throw _
      · next step hstep =>
          refine Shows.bind ((shows_candidate hstep hexpected).confined
            (tries_applyStep asksKey_plannedEntryKey _ _ _)) fun candidate events₃ hcandidate => ?_
          obtain ⟨⟨b', happlied, hcandidate⟩, hasks₃⟩ := hcandidate
          replace hsees := hsees.later hasks₃
          have hresolved := hreplays.resolved hdoubt happlied
          split
          · next hmatches hdiffers =>
              refine Shows.pure ⟨false, by simp [TransitionSets.resolved, hprepared], o, b, ?_⟩
              simpa only [List.append_assoc, List.append_nil] using hsees.decided hinitial
                hresolved.1 hresolved.2 hexpected hcandidate hmatches hdiffers
          · next hdiffers hmatches =>
              refine Shows.pure ⟨true, by simp [TransitionSets.resolved, hprepared], o, b', ?_⟩
              simpa only [List.append_assoc, List.append_nil] using hsees.decided hinitial
                hresolved.2 hresolved.1 hcandidate hexpected hmatches hdiffers
          · exact Shows.throw _

end Recovery

end DarkReNamer
