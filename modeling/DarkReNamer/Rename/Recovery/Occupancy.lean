import DarkReNamer.Rename.Recovery.Endpoints
import DarkReNamer.Rename.Recovery.Restore
import DarkReNamer.Rename.Transaction.Volume

/-!
# What recovery finds out over a volume

Recovery computes the occupancy of the endpoints that the records describe and compares
it with what it observes. Over a volume whose occupancy is that after some of the steps
of a well laid out manifest, each of its maps represents such an occupancy on the
endpoints, so the comparison decides whether the step in doubt happened.
-/

namespace DarkReNamer

open Std Interaction Occupancy UndoLog

namespace Recovery

variable {V : Volume} {o b : VolumeState} {steps : List JournalStep}

theorem journalMove_eq (step : JournalStep) : V.journalMove step =
    ⟨V.entryKey step.expectedSourceParent (pathLeaf step.source),
      V.entryKey step.expectedDestinationParent (pathLeaf step.destination),
      step.expectedSource⟩ := by
  simp only [Volume.journalMove, Volume.operationMove, forwardOperation, operation]
  cases step.kind <;> rfl

/-- The keys that the steps move between. -/
def endpoints (V : Volume) (steps : List JournalStep) : List PathKey :=
  steps.flatMap fun step => [(V.journalMove step).source, (V.journalMove step).destination]

theorem endpoints_append (done : List JournalStep) (step : JournalStep) :
    endpoints V (done ++ [step]) =
      endpoints V done ++ [(V.journalMove step).source, (V.journalMove step).destination] := by
  simp [endpoints]

theorem source_mem_endpoints {step : JournalStep} (h : step ∈ steps) :
    (V.journalMove step).source ∈ endpoints V steps :=
  List.mem_flatMap.2 ⟨step, h, by simp⟩

theorem destination_mem_endpoints {step : JournalStep} (h : step ∈ steps) :
    (V.journalMove step).destination ∈ endpoints V steps :=
  List.mem_flatMap.2 ⟨step, h, by simp⟩

/-- The key is the source of the first step of some entry. -/
def Firsts (V : Volume) (steps : List JournalStep) (key : PathKey) : Prop :=
  ∃ front step back, steps = front ++ step :: back ∧
    (∀ earlier ∈ front, earlier.entry ≠ step.entry) ∧ (V.journalMove step).source = key

/-- A manifest laid out over a volume: its moves can be executed, the first step of every
entry starts from the identity it expects, nothing else is at an endpoint, and the
paths of the endpoints are in the parents that the steps expect. -/
structure Layout (V : Volume) (o : VolumeState) (steps : List JournalStep) : Prop where
  executable : Executable o (steps.map V.journalMove)
  first : ∀ front step back, steps = front ++ step :: back →
    (∀ earlier ∈ front, earlier.entry ≠ step.entry) →
      o (V.journalMove step).source = some step.expectedSource
  occupied : ∀ key ∈ endpoints V steps, o key ≠ none → Firsts V steps key
  parent_source : ∀ step ∈ steps, V.parent step.source = step.expectedSourceParent
  parent_destination : ∀ step ∈ steps,
    V.parent step.destination = step.expectedDestinationParent
  plain : ∀ step ∈ steps, V.isReparsePoint step.expectedSource = false
  kind : ∀ step ∈ steps, ∀ kind ∈ step.kind, V.kind step.expectedSource = kind

/-- The map holds the occupancy of the keys, and nothing else. -/
def Represents (keys : List PathKey) (b : VolumeState) (m : EndpointMap) : Prop :=
  ∀ key, m[key]? = if key ∈ keys then some (b key) else none

theorem Represents.getElem? {keys : List PathKey} {m : EndpointMap}
    (h : Represents keys b m) {key : PathKey} (hkey : key ∈ keys) : m[key]? = some (b key) := by
  rw [h, if_pos hkey]

theorem Represents.insert {keys : List PathKey} {m : EndpointMap} (h : Represents keys b m)
    (key : PathKey) : Represents (keys ++ [key]) b (m.insert key (b key)) := by
  intro key'
  rw [ExtTreeMap.getElem?_insert, h]
  simp only [LawfulEqCmp.compare_eq_iff_eq, List.mem_append, List.mem_singleton]
  by_cases hkey : key = key'
  · subst hkey
    simp
  · simp [hkey, Ne.symm hkey]

/-- Two maps of the same keys are equal exactly when the occupancies agree there. -/
theorem Represents.matches_iff {keys : List PathKey} {b b' : VolumeState}
    {m m' : EndpointMap} (h : Represents keys b m) (h' : Represents keys b' m') :
    occupancyMatches m m' = true ↔ ∀ key ∈ keys, b key = b' key := by
  rw [occupancyMatches, beq_iff_eq]
  constructor
  · rintro rfl key hkey
    exact Option.some.inj ((h.getElem? hkey).symm.trans (h'.getElem? hkey))
  · intro hsame
    refine ExtTreeMap.ext_getElem? fun key => ?_
    rw [h, h']
    split
    · next hkey => rw [hsame key hkey]
    · rfl

/-- Executing a move on a map. -/
theorem Represents.move {keys : List PathKey} {m : EndpointMap} (h : Represents keys b m)
    {move : KeyMove} (henabled : move.Enabled b) (hsource : move.source ∈ keys)
    (hdestination : move.destination ∈ keys) :
    Represents keys (move.apply b)
      ((m.insert move.source none).insert move.destination (some move.occupant)) := by
  intro key
  rw [ExtTreeMap.getElem?_insert, ExtTreeMap.getElem?_insert, h]
  simp only [LawfulEqCmp.compare_eq_iff_eq]
  by_cases hkd : move.destination = key
  · subst hkd
    simp [hdestination]
  · by_cases hks : move.source = key
    · subst hks
      simp [hkd, hsource, henabled.apply_source]
    · rw [if_neg hkd, if_neg hks, Move.apply_of_ne (Ne.symm hks) (Ne.symm hkd)]

section Reading

variable {env : Environment (World VolumeState) Call Answer} {s : World VolumeState}
  {E : RecoveryBlockKind → Prop}

/-- The environment answers as the volume may, and its reads fail only where `E` admits
the error. -/
structure Reading (V : Volume) (env : Environment (World VolumeState) Call Answer)
    (s : World VolumeState) (E : RecoveryBlockKind → Prop) : Prop where
  admits : V.Admits env s
  key : ∀ {parent leaf error t},
    env s (.backend (.plannedEntryKey parent leaf)) (.error error) t → E (.backend error)
  observe : ∀ {path error t}, env s (.backend (.observe path)) (.error error) t →
    E (.backend error)

theorem Reading.checks_endpointKey (h : Reading V env s E) (path : LegacyText)
    (parent : EntryIdentity) :
    Checks env (endpointKey path parent) s (fun key => key = V.entryKey parent (pathLeaf path))
      E := by
  have hkey : Reads env (plannedEntryKey parent (pathLeaf path)) s
      (ExceptPost (fun key => key = V.entryKey parent (pathLeaf path))
        fun error => E (.backend error)) := by
    refine Reads.ask fun answer t step => ⟨h.admits.read step (by simp), ?_⟩
    cases answer with
    | ok key => exact (h.admits _ _ _ step).1.1
    | error error => exact h.key step
  refine Checks.bind (Checks.lift hkey) fun answer hanswer => ?_
  cases answer with
  | ok key => exact Checks.pure hanswer
  | error error => exact Checks.throw hanswer

/-- The move of a step, in either direction. -/
def stepMove (V : Volume) (step : JournalStep) (reverse : Bool) : KeyMove :=
  if reverse then (V.journalMove step).reverse else V.journalMove step

theorem checks_applyStep (h : Reading V env s E) {m : EndpointMap} {step : JournalStep}
    (hstep : step ∈ steps) {reverse : Bool} (hm : Represents (endpoints V steps) b m)
    (henabled : (stepMove V step reverse).Enabled b) :
    Checks env (applyStep m step reverse) s
      (Represents (endpoints V steps) ((stepMove V step reverse).apply b)) E := by
  have hsource : (stepMove V step reverse).source ∈ endpoints V steps := by
    cases reverse
    · exact source_mem_endpoints hstep
    · exact destination_mem_endpoints hstep
  have hdestination : (stepMove V step reverse).destination ∈ endpoints V steps := by
    cases reverse
    · exact destination_mem_endpoints hstep
    · exact source_mem_endpoints hstep
  have hoccupant : (stepMove V step reverse).occupant = step.expectedSource := by
    cases reverse <;> simp [stepMove, Move.reverse, journalMove_eq]
  have hfinish : ∀ source destination, source = (stepMove V step reverse).source →
      destination = (stepMove V step reverse).destination →
      Checks env
        (if m[source]? != some (some step.expectedSource) || m[destination]? != some none then
          throw .journalCorrupt
        else pure ((m.insert source none).insert destination (some step.expectedSource))) s
        (Represents (endpoints V steps) ((stepMove V step reverse).apply b)) E := by
    rintro source destination rfl rfl
    rw [hm.getElem? hsource, hm.getElem? hdestination, henabled.1, henabled.2, hoccupant]
    simp only [bne_self_eq_false, Bool.or_self, Bool.false_eq_true, if_false]
    refine Checks.pure ?_
    rw [← hoccupant]
    exact hm.move henabled hsource hdestination
  unfold applyStep
  cases reverse with
  | false =>
      refine Checks.bind (h.checks_endpointKey _ _) fun source hkey => ?_
      refine Checks.bind (h.checks_endpointKey _ _) fun destination hkey' => ?_
      exact hfinish source destination (by rw [hkey, stepMove, journalMove_eq]; rfl)
        (by rw [hkey', stepMove, journalMove_eq]; rfl)
  | true =>
      refine Checks.bind (h.checks_endpointKey _ _) fun source hkey => ?_
      refine Checks.bind (h.checks_endpointKey _ _) fun destination hkey' => ?_
      exact hfinish source destination (by rw [hkey, stepMove, journalMove_eq]; rfl)
        (by rw [hkey', stepMove, journalMove_eq]; rfl)

/-! ### The initial occupancy -/

theorem endpoints_eq : endpoints V steps = endpointKeys V.entryKey steps := by
  simp only [endpoints, endpointKeys, plannedMove, journalMove_eq]

theorem firsts_iff {key : PathKey} :
    Firsts V steps key ↔ ∃ id, StartsAt V.entryKey steps key id := by
  simp only [Firsts, StartsAt, plannedMove, journalMove_eq]
  constructor
  · rintro ⟨front, step, back, hsplit, hnew, hkey⟩
    exact ⟨_, front, step, back, hsplit, hnew, hkey, rfl⟩
  · rintro ⟨id, front, step, back, hsplit, hnew, hkey, -⟩
    exact ⟨front, step, back, hsplit, hnew, hkey⟩

variable {done rest : List JournalStep} {m : EndpointMap} {seen : ExtTreeSet EntryId}

theorem Layout.startsAt (h : Layout V o steps) (hsplit : steps = done ++ rest) {key : PathKey}
    {id : EntryIdentity} (hstarts : StartsAt V.entryKey done key id) : o key = some id := by
  obtain ⟨front, step, back, rfl, hnew, rfl, rfl⟩ := hstarts
  have hfirst := h.first front step (back ++ rest) (by simp [hsplit]) hnew
  rwa [journalMove_eq] at hfirst

/-- Nothing else is expected at the source of a first step. -/
theorem Layout.source_free {step : JournalStep} (h : Layout V o steps)
    (hsplit : steps = done ++ step :: rest) (hplaces : Places V.entryKey done m seen)
    (hseen : ¬seen.contains step.entry = true) :
    ((widened V.entryKey m step)[(plannedMove V.entryKey step).source]?.any fun entry =>
      entry.any fun entry => entry != step.expectedSource) = false := by
  have hoccupant := h.first done step rest hsplit fun earlier hearlier heq =>
    hseen (hplaces.contains_iff.2 ⟨earlier, hearlier, heq⟩)
  rw [journalMove_eq] at hoccupant
  cases hvalue : (widened V.entryKey m step)[(plannedMove V.entryKey step).source]? with
  | none => rfl
  | some entry =>
      cases entry with
      | none => rfl
      | some id =>
          have hid := h.startsAt hsplit ((hplaces.widened_occupied _ _).1 hvalue)
          obtain rfl := Option.some.inj (hid.symm.trans hoccupant)
          simp

/-- The map of all steps holds what is at their endpoints. -/
theorem Layout.represents (h : Layout V o steps) (hplaces : Places V.entryKey steps m seen) :
    Represents (endpoints V steps) o m := by
  intro key
  rw [endpoints_eq]
  split
  · next hkey =>
      obtain ⟨value, hvalue⟩ := Option.ne_none_iff_exists'.1 ((hplaces.present key).2 hkey)
      cases value with
      | some id =>
          have hstarts := (hplaces.occupied key id).1 hvalue
          rw [hvalue, h.startsAt (List.append_nil steps).symm hstarts]
      | none =>
          rw [hvalue]
          refine congrArg some (not_not.1 fun ho => ?_)
          have hfirsts := h.occupied key (by rwa [endpoints_eq]) (Ne.symm ho)
          obtain ⟨id, hstarts⟩ := firsts_iff.1 hfirsts
          rw [(hplaces.occupied key id).2 hstarts] at hvalue
          cases hvalue
  · next hkey => exact not_not.1 fun hne => hkey ((hplaces.present key).1 hne)

theorem checks_initialOccupancyFrom (h : Reading V env s E) (hlayout : Layout V o steps)
    (hsplit : steps = done ++ rest) (hplaces : Places V.entryKey done m seen) :
    Checks env (initialOccupancyFrom rest m seen) s (Represents (endpoints V steps) o) E := by
  induction rest generalizing done m seen with
  | nil =>
      rw [List.append_nil] at hsplit
      subst hsplit
      exact Checks.pure (hlayout.represents hplaces)
  | cons step rest ih =>
      have hsplit' : steps = (done ++ [step]) ++ rest := by simp [hsplit]
      rw [initialOccupancyFrom]
      refine Checks.bind (h.checks_endpointKey _ _) fun source hsource => ?_
      refine Checks.bind (h.checks_endpointKey _ _) fun destination hdestination => ?_
      obtain rfl : source = (plannedMove V.entryKey step).source := hsource
      obtain rfl : destination = (plannedMove V.entryKey step).destination := hdestination
      dsimp only
      split
      · next hseen => exact ih hsplit' (hplaces.later hseen)
      · next hseen =>
          have hfree := hlayout.source_free hsplit hplaces hseen
          split
          · next hopposed => exact absurd hopposed (ne_true_of_eq_false hfree)
          · exact ih hsplit' (hplaces.first hseen hfree)

/-- The initial occupancy that recovery computes is the one before the first step. -/
theorem checks_initialOccupancy (h : Reading V env s E) (hlayout : Layout V o steps) :
    Checks env (initialOccupancy steps) s (Represents (endpoints V steps) o) E :=
  checks_initialOccupancyFrom h hlayout (List.nil_append steps).symm Places.start

/-! ### The occupancy of the records -/

/-- The move of the step `i` from what stands before it to what stands after it. -/
theorem Layout.forward (h : Layout V o steps) {i : ℕ} {step : JournalStep}
    (hstep : steps[i]? = some step) :
    (stepMove V step false).Enabled (V.occupancyAfter o steps i) ∧
      (stepMove V step false).apply (V.occupancyAfter o steps i) =
        V.occupancyAfter o steps (i + 1) := by
  have hmove : (steps.map V.journalMove)[i]? = some (V.journalMove step) := by
    rw [List.getElem?_map, hstep]
    rfl
  exact ⟨h.executable.enabled hmove, (afterMoves_take_succ hmove).symm⟩

theorem Layout.reverse (h : Layout V o steps) {i : ℕ} {step : JournalStep}
    (hstep : steps[i]? = some step) :
    (stepMove V step true).Enabled (V.occupancyAfter o steps (i + 1)) ∧
      (stepMove V step true).apply (V.occupancyAfter o steps (i + 1)) =
        V.occupancyAfter o steps i := by
  have hmove : (steps.map V.journalMove)[i]? = some (V.journalMove step) := by
    rw [List.getElem?_map, hstep]
    rfl
  exact ⟨h.executable.reverse_enabled hmove, h.executable.reverse_apply hmove⟩

theorem checks_replayOccupancy (h : Reading V env s E) (hlayout : Layout V o steps)
    {log : List UndoLog.Record} {phase phase' : Phase} (hb : phase.Bounded steps.length)
    (hlog : phase.run steps.length log = some phase') (hopen : ∀ value, phase' ≠ .ended value)
    {m : EndpointMap}
    (hm : Represents (endpoints V steps) (V.occupancyAfter o steps (phase.left false)) m) :
    Checks env (replayOccupancy steps (log.map .ofLog) m) s
      (Represents (endpoints V steps) (V.occupancyAfter o steps (phase'.left false))) E := by
  induction log generalizing phase m with
  | nil =>
      obtain rfl := Option.some.inj hlog
      exact Checks.pure hm
  | cons r log ih =>
      obtain ⟨next, hnext, hrest⟩ := Option.bind_eq_some_iff.1 hlog
      have hb' := hb.next hnext
      cases r with
      | prepared i direction =>
          refine ih hb' hrest ?_
          rwa [Phase.left_of_next_prepared hnext]
      | notApplied i direction =>
          refine ih hb' hrest ?_
          rwa [Phase.left_of_next_notApplied hnext]
      | terminal value =>
          rw [Phase.next_terminal hnext] at hrest
          exact absurd (Phase.run_ended hrest) (hopen value)
      | completed i direction =>
          cases direction with
          | forward =>
              obtain ⟨rfl, rfl⟩ := Phase.next_completed_forward hnext
              have hstep : steps[i]? = some steps[i] := List.getElem?_eq_getElem hb
              obtain ⟨henabled, happly⟩ := hlayout.forward hstep
              rw [List.map_cons, JournalRecord.ofLog, replayOccupancy, hstep]
              refine Checks.bind (checks_applyStep h (List.getElem_mem hb) hm henabled)
                fun m' hm' => ih hb' hrest ?_
              exact happly ▸ hm'
          | rollback =>
              obtain ⟨k, rfl, rfl⟩ := Phase.next_completed_rollback hnext
              have hi : i < steps.length := Nat.lt_of_lt_of_le hb.2 hb.1
              have hstep : steps[i]? = some steps[i] := List.getElem?_eq_getElem hi
              obtain ⟨henabled, happly⟩ := hlayout.reverse hstep
              rw [List.map_cons, JournalRecord.ofLog, replayOccupancy, hstep]
              refine Checks.bind (checks_applyStep h (List.getElem_mem hi) hm henabled)
                fun m' hm' => ih hb' hrest ?_
              exact happly ▸ hm'

/-! ### The observed occupancy -/

/-- What is at an endpoint after some of the steps is one of the identities of the
manifest. -/
theorem Layout.occupant (h : Layout V o steps) {k : ℕ} {key : PathKey}
    (hkey : key ∈ endpoints V steps) {identity : EntryIdentity}
    (hoccupied : V.occupancyAfter o steps k key = some identity) :
    ∃ step ∈ steps, step.expectedSource = identity := by
  rcases afterMoves_eq_some hoccupied with ho | ⟨move, hmove, hidentity⟩
  · obtain ⟨front, step, back, hsplit, hnew, rfl⟩ :=
      h.occupied key hkey (by rw [ho]; simp)
    refine ⟨step, by simp [hsplit], ?_⟩
    exact Option.some.inj ((h.first front step back hsplit hnew).symm.trans ho)
  · obtain ⟨step, hstep, rfl⟩ := List.mem_map.1 (List.mem_of_mem_take hmove)
    rw [journalMove_eq] at hidentity
    exact ⟨step, hstep, hidentity⟩

theorem checks_observeEndpoint (h : Reading V env s E) {path : LegacyText}
    {expectedParent expectedSource : EntryIdentity} {expectedKind : Option EntryKind}
    {keys : List PathKey} {m : EndpointMap} (hm : Represents keys s.backend m)
    (hparent : V.parent path = expectedParent)
    (hplain : ∀ identity, s.backend (V.entryKey expectedParent (pathLeaf path)) = some identity →
      V.isReparsePoint identity = false)
    (hkind : ∀ kind ∈ expectedKind, V.kind expectedSource = kind) :
    Checks env (observeEndpoint path expectedParent expectedSource expectedKind m) s
      (Represents (keys ++ [V.entryKey expectedParent (pathLeaf path)]) s.backend) E := by
  have hobserve : Reads env (observe path) s
      (ExceptPost (fun snapshot => snapshot = V.snapshot s.backend path)
        fun error => E (.backend error)) := by
    refine Reads.ask fun answer t step => ⟨h.admits.read step (by simp), ?_⟩
    cases answer with
    | ok snapshot => exact (h.admits _ _ _ step).1.1
    | error error => exact h.observe step
  refine Checks.bind (Checks.lift hobserve) fun answer hanswer => ?_
  cases answer with
  | error error => exact Checks.throw hanswer
  | ok snapshot =>
      have hsnapshot : snapshot = ⟨expectedParent,
          V.observed s.backend (V.entryKey expectedParent (pathLeaf path))⟩ := by
        rw [← hparent]
        exact hanswer
      subst hsnapshot
      have hany : ((V.observed s.backend (V.entryKey expectedParent (pathLeaf path))).any
          fun entry => entry.isReparsePoint) = false := by
        rw [Volume.observed, Option.any_map]
        cases hoccupied : s.backend (V.entryKey expectedParent (pathLeaf path)) with
        | none => rfl
        | some identity => exact hplain identity hoccupied
      have hsame : ((V.observed s.backend (V.entryKey expectedParent (pathLeaf path))).any
          fun entry => entry.identity == expectedSource &&
            expectedKind.any fun kind => entry.kind != kind) = false := by
        rw [Volume.observed, Option.any_map]
        cases s.backend (V.entryKey expectedParent (pathLeaf path)) with
        | none => rfl
        | some identity =>
            by_cases hidentity : identity = expectedSource
            · subst hidentity
              cases expectedKind with
              | none => simp
              | some kind => simp [hkind kind rfl]
            · simp [hidentity]
      simp only [bne_self_eq_false, Bool.false_eq_true, if_false, hany, hsame]
      refine Checks.bind (h.checks_endpointKey _ _) ?_
      rintro key rfl
      have hidentity : (V.observed s.backend (V.entryKey expectedParent (pathLeaf path))).map
          ObservedEntry.identity = s.backend (V.entryKey expectedParent (pathLeaf path)) := by
        rw [Volume.observed, Option.map_map]
        cases s.backend (V.entryKey expectedParent (pathLeaf path)) <;> rfl
      have hagrees : (m[V.entryKey expectedParent (pathLeaf path)]?.any fun previous =>
          previous != s.backend (V.entryKey expectedParent (pathLeaf path))) = false := by
        rw [hm]
        split <;> simp
      rw [hidentity, hagrees]
      exact Checks.pure (hm.insert _)

theorem checks_observeFrom (h : Reading V env s E) (hlayout : Layout V o steps) {k : ℕ}
    (hs : s.backend = V.occupancyAfter o steps k) {rest done : List JournalStep}
    {m : EndpointMap} (hsplit : steps = done ++ rest)
    (hm : Represents (endpoints V done) s.backend m) :
    Checks env (observeFrom rest m) s (Represents (endpoints V steps) s.backend) E := by
  induction rest generalizing done m with
  | nil =>
      rw [List.append_nil] at hsplit
      subst hsplit
      exact Checks.pure hm
  | cons step rest ih =>
      have hstep : step ∈ steps := by simp [hsplit]
      have hplain : ∀ key ∈ endpoints V steps, ∀ identity, s.backend key = some identity →
          V.isReparsePoint identity = false := by
        intro key hkey identity hoccupied
        rw [hs] at hoccupied
        obtain ⟨other, hother, rfl⟩ := hlayout.occupant hkey hoccupied
        exact hlayout.plain other hother
      have hsource := source_mem_endpoints (V := V) hstep
      have hdestination := destination_mem_endpoints (V := V) hstep
      rw [journalMove_eq] at hsource hdestination
      rw [observeFrom]
      refine Checks.bind (checks_observeEndpoint h hm (hlayout.parent_source step hstep)
        (hplain _ hsource) (hlayout.kind step hstep)) fun m₁ hm₁ => ?_
      refine Checks.bind (checks_observeEndpoint h hm₁ (hlayout.parent_destination step hstep)
        (hplain _ hdestination) (hlayout.kind step hstep)) fun m₂ hm₂ => ?_
      have hsplit' : steps = (done ++ [step]) ++ rest := by simp [hsplit]
      refine ih hsplit' ?_
      rw [endpoints_append, journalMove_eq]
      simpa using hm₂

/-- The move of the step in doubt leads from the occupancy without it to the one with it. -/
theorem Layout.pending (h : Layout V o steps) {i : ℕ} {step : JournalStep}
    {direction : JournalDirection} {phase : Phase}
    (hpending : phase.pending = some (i, direction)) (hstep : steps[i]? = some step) :
    (stepMove V step (direction == .rollback)).Enabled
        (V.occupancyAfter o steps (phase.left false)) ∧
      (stepMove V step (direction == .rollback)).apply
        (V.occupancyAfter o steps (phase.left false)) =
          V.occupancyAfter o steps (phase.left true) := by
  cases phase <;> simp [Phase.pending] at hpending
  · obtain ⟨rfl, rfl⟩ := hpending
    exact h.forward hstep
  · obtain ⟨rfl, rfl⟩ := hpending
    exact h.reverse hstep

/-- A move changes what is at its destination. -/
theorem not_matches_of_enabled {keys : List PathKey} {m m' : EndpointMap} {move : KeyMove}
    (henabled : move.Enabled b) (hdestination : move.destination ∈ keys)
    (h : Represents keys b m) (h' : Represents keys (move.apply b) m') :
    occupancyMatches m m' = false ∧ occupancyMatches m' m = false := by
  have hne : b move.destination ≠ move.apply b move.destination := by
    rw [henabled.2, Move.apply_destination]
    simp
  rw [Bool.eq_false_iff, Bool.eq_false_iff, Ne, Ne, h.matches_iff h', h'.matches_iff h]
  exact ⟨fun hsame => hne (hsame _ hdestination), fun hsame => hne (hsame _ hdestination).symm⟩

/-- The comparison finds out whether the step in doubt happened. -/
theorem checks_transitionState (h : Reading V env s E) (hlayout : Layout V o steps)
    {records : List JournalRecord} {plan : PlanId} {phase : Phase}
    (hlogs : Logs records plan steps phase) (hopen : ∀ value, phase ≠ .ended value)
    (hat : ∃ applied, s.backend = V.occupancyAfter o steps (phase.left applied)) :
    Checks env (transitionState records steps) s
      (fun transitions => ∃ applied, transitions = (transitionSets records).resolved applied ∧
        s.backend = V.occupancyAfter o steps (phase.left applied)) E := by
  obtain ⟨st, -, hst, hagrees⟩ := exists_agrees hlogs
  have hpending := prepared_eq_pending hst hagrees hopen
  have hb := hlogs.bounded
  obtain ⟨log, rfl, hlog⟩ := hlogs
  refine Checks.bind (checks_initialOccupancy h hlayout) fun initial hinitial => ?_
  refine Checks.bind (checks_replayOccupancy h hlayout (Nat.zero_le _) hlog hopen hinitial)
    fun expected hexpected => ?_
  obtain ⟨taken, hs⟩ := id hat
  refine Checks.bind (checks_observeFrom h hlayout hs (List.nil_append steps).symm
    (fun key => by simp [endpoints])) fun observed hobserved => ?_
  rw [hpending]
  cases hdoubt : phase.pending with
  | none =>
      -- nothing is in doubt, so both resolutions are the same
      have hsame : phase.left taken = phase.left false := by
        cases phase <;> simp [Phase.pending] at hdoubt <;> rfl
      have hmatches : occupancyMatches expected observed = true :=
        (hexpected.matches_iff hobserved).2 fun key _ => by rw [hs, hsame]
      rw [hdoubt] at hpending
      simp only [hmatches, if_true]
      exact Checks.pure ⟨taken, by simp [TransitionSets.resolved, hpending], hs⟩
  | some pending =>
      obtain ⟨i, direction⟩ := pending
      rw [hdoubt] at hpending
      have hi := hb.pending_lt hdoubt
      have hstep : steps[i]? = some steps[i] := List.getElem?_eq_getElem hi
      obtain ⟨henabled, happly⟩ := hlayout.pending hdoubt hstep
      have hmem : (stepMove V steps[i] (direction == .rollback)).destination ∈
          endpoints V steps := by
        cases direction
        · exact destination_mem_endpoints (List.getElem_mem hi)
        · exact source_mem_endpoints (List.getElem_mem hi)
      simp only [hstep]
      refine Checks.bind (checks_applyStep h (List.getElem_mem hi) hexpected henabled)
        fun candidate hcandidate => ?_
      obtain ⟨hne, hne'⟩ := not_matches_of_enabled henabled hmem hexpected hcandidate
      cases taken with
      | false =>
          have hmatches : expected = observed :=
            eq_of_beq ((hexpected.matches_iff hobserved).2 fun key _ => by rw [hs])
          have hother : occupancyMatches candidate observed = false := hmatches ▸ hne'
          have hmatches' : occupancyMatches expected observed = true := by simp [hmatches,
            occupancyMatches]
          simp only [hmatches', hother]
          exact Checks.pure ⟨false, by simp [TransitionSets.resolved, hpending], hs⟩
      | true =>
          have hmatches : candidate = observed :=
            eq_of_beq ((hcandidate.matches_iff hobserved).2 fun key _ => by rw [hs, happly])
          have hother : occupancyMatches expected observed = false := hmatches ▸ hne
          have hmatches' : occupancyMatches candidate observed = true := by simp [hmatches,
            occupancyMatches]
          simp only [hmatches', hother]
          exact Checks.pure ⟨true, by simp [TransitionSets.resolved, hpending], hs⟩

end Reading

/-- Over a volume recovery finds out how the step in doubt ended, unless a read fails. -/
theorem settles_volume {env : Environment (World VolumeState) Call Answer} {faulty : Prop}
    (hreading : ∀ s, Reading V env s fun _ => faulty) (hlayout : Layout V o steps)
    (plan : PlanId) :
    Settles env (fun k b => b = V.occupancyAfter o steps k) plan steps faulty := by
  intro s phase hlogs hopen hholds
  have hat := (Phase.holds_iff_left hopen).1 hholds
  have hreads := checks_transitionState (hreading s) hlayout hlogs hopen hat
  refine Spec.mono (Reads.spec hreads ⟨rfl, hholds⟩) ?_
  rintro result t ⟨rfl, hresult⟩
  exact ⟨⟨rfl, hholds⟩, hresult⟩

end Recovery

end DarkReNamer
