import DarkReNamer.Rename.Executor.Freeze
import DarkReNamer.Rename.Executor.Transact
import DarkReNamer.Rename.Transaction.Volume

/-!
# The report tells the truth

What the entries of a report say about a volume. A report reads off where each row
stands: restored at its source, applied at its destination, and indeterminate at a
temporary path or where a step is in doubt. The states that the loops set follow the
relocations of the schedule, so `spec_transact` applies to this reading.
-/

namespace DarkReNamer

open Std Interaction Occupancy UndoLog Schedule

variable {V : Volume} {plan : RenamePlan} {o : VolumeState}

/-- The state of a row that stands there. -/
def Schedule.Standing.state : Standing → RenameState
  | .source => .restored
  | .temporary _ => .indeterminate
  | .destination => .applied

section Moves

/-! ### The manifest of a schedule -/

/-- A journalled step moves between the keys of its row. -/
theorem journalMove_of_stepMoves (hplan : CheckedPlan V plan) {step : ScheduleStep}
    {move : KeyMove} (h : StepMoves V plan step move) :
    V.journalMove (journalStep step) = move := by
  cases h with
  | straight row hrow identity hidentity =>
      rw [hplan.source_key row hrow, hplan.destination_key row hrow]
      rfl
  | intoTemporary row hrow temporary identity hidentity =>
      rw [hplan.source_key row hrow]
      rfl
  | fromTemporary row hrow temporary identity hidentity =>
      rw [hplan.destination_key row hrow]
      rfl

theorem manifest_moves (hplan : CheckedPlan V plan) {schedule : List ScheduleStep}
    {moves : List KeyMove} (h : List.Forall₂ (StepMoves V plan) schedule moves) :
    (schedule.map journalStep).map V.journalMove = moves := by
  induction h with
  | nil => rfl
  | cons hstep _ ih => rw [List.map_cons, List.map_cons, ih, journalMove_of_stepMoves hplan hstep]

theorem Schedule.Follows.getElem? {standing : plan.Row → Standing} {steps : List ScheduleStep}
    {rs : List (plan.Row × Standing)} (h : Follows V plan o standing steps rs) {i : ℕ}
    {step : ScheduleStep} (hstep : steps[i]? = some step) :
    ∃ row next, rs[i]? = some (row, next) ∧
      Relocates V plan o (placesAfter standing (rs.take i)) step row next := by
  induction steps generalizing standing rs i with
  | nil => simp at hstep
  | cons first steps ih =>
      cases rs with
      | nil => exact h.elim
      | cons r rs =>
          cases i with
          | zero =>
              obtain rfl : first = step := by simpa using hstep
              exact ⟨r.1, r.2, rfl, h.1⟩
          | succ i => exact ih h.2 (by simpa using hstep)

end Moves

/-- The entries read off where the rows stand, in plan order. -/
structure Reports (plan : RenamePlan) (standing : plan.Row → Standing)
    (entries : IndexedEntryExecutions) : Prop where
  values : entries.values = List.ofFn fun i => ⟨(plan.row i).id, (standing i).state⟩
  byId : ∀ i : plan.Row, entries.byId[(plan.row i).id]? = some i.1

/-- The entries are found by their ids, so these are distinct. -/
theorem Reports.ids_injective {standing : plan.Row → Standing} {entries : IndexedEntryExecutions}
    (h : Reports plan standing entries) :
    Function.Injective fun i : plan.Row => (plan.row i).id := by
  intro i j hij
  have hi := h.byId i
  rw [show (plan.row i).id = (plan.row j).id from hij, h.byId j] at hi
  exact Fin.ext (Option.some.inj hi).symm

namespace IndexedEntryExecutions

theorem fromRows_spec {rows : List PlanRow} {indexed indexed' : IndexedEntryExecutions}
    (h : fromRows rows indexed = .ok indexed') :
    indexed'.values = indexed.values ++ rows.map (fun row => ⟨row.id, .restored⟩) ∧
      (∀ (id : EntryId) (index : ℕ), indexed.byId[id]? = some index →
        indexed'.byId[id]? = some index) ∧
      ∀ (i : ℕ) (row : PlanRow), rows[i]? = some row →
        indexed'.byId[row.id]? = some (indexed.values.length + i) := by
  induction rows generalizing indexed with
  | nil =>
      cases h
      simp
  | cons row rows ih =>
      rw [fromRows] at h
      split at h
      · cases h
      · next hnew =>
          obtain ⟨hvalues, hkept, hrows⟩ := ih h
          refine ⟨by simp [hvalues], fun id index hid => hkept id index ?_, ?_⟩
          · rw [ExtTreeMap.getElem?_insert, if_neg]
            · exact hid
            · intro heq
              rw [LawfulEqCmp.compare_eq_iff_eq] at heq
              subst heq
              simp [ExtTreeMap.contains_eq_isSome_getElem?, hid] at hnew
          · intro i other hother
            cases i with
            | zero =>
                obtain rfl : row = other := by simpa using hother
                exact hkept _ _ (by simp)
            | succ i =>
                rw [hrows i other (by simpa using hother)]
                simp only [List.length_append, List.length_singleton]
                congr 1
                omega

/-- The first reading of a plan: every row stands at its source. -/
theorem reports_fromPlan {entries : IndexedEntryExecutions}
    (h : fromPlan plan.entries = .ok entries) : Reports plan (atSource plan) entries := by
  obtain ⟨hvalues, -, hbyId⟩ := fromRows_spec h
  refine ⟨?_, fun i => ?_⟩
  · rw [hvalues, List.nil_append]
    refine List.ext_getElem (by simp) fun i hi hi' => ?_
    simp [atSource, Standing.state, RenamePlan.row]
  · have hrow := hbyId i.1 (plan.row i) (by simp [RenamePlan.row])
    simpa using hrow

@[simp] theorem setState_byId (entries : IndexedEntryExecutions) (id : EntryId)
    (state : RenameState) : (entries.setState id state).byId = entries.byId := by
  unfold setState
  split <;> rfl

theorem setState_values {entries : IndexedEntryExecutions} {standing : plan.Row → Standing}
    (h : Reports plan standing entries) (i : plan.Row) (state : RenameState) :
    (entries.setState (plan.row i).id state).values = List.ofFn fun j =>
      ⟨(plan.row j).id, if j = i then state else (standing j).state⟩ := by
  simp only [setState, h.byId, h.values]
  refine List.ext_getElem (by simp) fun k hk hk' => ?_
  rw [List.getElem_modify]
  simp only [List.getElem_ofFn, Fin.ext_iff]
  by_cases hki : i.1 = k
  · simp [hki]
  · simp [hki, Ne.symm hki]

/-- Setting the state of a row to that of the place it goes to. -/
theorem reports_setState {entries : IndexedEntryExecutions} {standing : plan.Row → Standing}
    (h : Reports plan standing entries) (i : plan.Row) (next : Standing) :
    Reports plan (Function.update standing i next)
      (entries.setState (plan.row i).id next.state) := by
  refine ⟨?_, fun j => by rw [setState_byId, h.byId]⟩
  rw [setState_values h]
  congr 1
  funext j
  by_cases hj : j = i
  · subst hj
    simp
  · simp [hj]

end IndexedEntryExecutions

namespace Executor

open IndexedEntryExecutions

variable {schedule : List ScheduleStep} {rs : List (plan.Row × Standing)}

/-- Where the rows stand after the first `j` relocations. -/
def standingAfter (plan : RenamePlan) (rs : List (plan.Row × Standing)) (j : ℕ) :
    plan.Row → Standing :=
  placesAfter (atSource plan) (rs.take j)

theorem standingAfter_succ {i : ℕ} {row : plan.Row} {next : Standing}
    (h : rs[i]? = some (row, next)) :
    standingAfter plan rs (i + 1) = Function.update (standingAfter plan rs i) row next := by
  rw [standingAfter, List.take_add_one, h, placesAfter_append]
  rfl

/-- The states that the loops set follow the relocations. -/
theorem tells_standing (h : Follows V plan o (atSource plan) schedule rs) :
    Tells (fun j entries => Reports plan (standingAfter plan rs j) entries) schedule where
  forward {i step entries} hstep hentries := by
    obtain ⟨row, next, hrow, hmoves⟩ := h.getElem? hstep
    have hnext := reports_setState hentries row next
    rw [standingAfter_succ hrow]
    cases hmoves with
    | straight _ hstanding => exact hnext
    | intoTemporary _ temporary hstanding htemporary => exact hnext
    | fromTemporary _ temporary hstanding htemporary => exact hnext
  reverse {i step entries} hstep hentries := by
    obtain ⟨row, next, hrow, hmoves⟩ := h.getElem? hstep
    rw [standingAfter_succ hrow] at hentries
    have hback := reports_setState hentries row (standingAfter plan rs i row)
    rw [Function.update_idem, Function.update_eq_self] at hback
    change Relocates V plan o (standingAfter plan rs i) step row next at hmoves
    cases hmoves with
    | straight _ hstanding =>
        rw [hstanding] at hback
        exact hback
    | intoTemporary _ temporary hstanding htemporary =>
        rw [hstanding] at hback
        exact hback
    | fromTemporary _ temporary hstanding htemporary =>
        rw [hstanding] at hback
        exact hback

/-- A schedule that can be executed over the volume, with the relocations it makes. -/
structure Executes (V : Volume) (plan : RenamePlan) (o : VolumeState)
    (schedule : List ScheduleStep) (rs : List (plan.Row × Standing)) : Prop where
  checked : CheckedPlan V plan
  frozen : Frozen V o plan
  ids : Function.Injective fun i : plan.Row => (plan.row i).id
  authorized : ∀ step ∈ schedule, (forwardOperation step).authorizationError = none
  follows : Follows V plan o (atSource plan) schedule rs
  standing : placesAfter (atSource plan) rs = atDestination plan
  executable : Executable o ((schedule.map journalStep).map V.journalMove)
  placed : ∀ j, Placed (plan.rest o) plan.identity
    (places V plan (standingAfter plan rs j)) (V.occupancyAfter o (schedule.map journalStep) j)
  simultaneous : V.occupancyAfter o (schedule.map journalStep) schedule.length =
    plan.simultaneous o

theorem Prepared.exists_executes (hplan : CheckedPlan V plan)
    {result : List ScheduleStep × List JournalStep × IndexedEntryExecutions}
    (h : Prepared V o plan result) : ∃ rs, Executes V plan o result.1 rs := by
  have hfits := hplan.schedulable h.frozen
  obtain ⟨rs, hfollows, hstanding, hexecutable, hplaced, hlast⟩ :=
    Scheduled.execute hfits h.scheduled
  have hmoves := manifest_moves hplan (stepMoves_of_follows hfits hfollows)
  have hlength : (relocationMoves V plan (atSource plan) rs).length = result.1.length := by
    rw [← hmoves, List.length_map, List.length_map]
  refine ⟨rs, hplan, h.frozen, (reports_fromPlan h.entries).ids_injective, h.authorized,
    hfollows, hstanding, ?_, fun j => ?_, ?_⟩
  · rwa [hmoves]
  · rw [Volume.occupancyAfter, hmoves]
    exact hplaced j
  · rw [Volume.occupancyAfter, hmoves, List.take_of_length_le (Nat.le_of_eq hlength), hlast]

/-- What is journalled is consistent with the volume. -/
def Journalled (V : Volume) (plan : RenamePlan) (o : VolumeState)
    (schedule : List ScheduleStep) (s : World VolumeState) : Prop :=
  Consistent (fun j b => b = V.occupancyAfter o (schedule.map journalStep) j) plan.id
    (schedule.map journalStep) s

/-- Execution over a volume: an error leaves everything as it was, a report is
truthful, and at every call the journal is consistent with the volume. -/
theorem spec_execute (hplan : CheckedPlan V plan) {s : World VolumeState}
    (hempty : s.records = []) :
    Spec (engineEnv V.backendRel)
      (fun t => t = s ∨ ∃ schedule rs, Executes V plan s.backend schedule rs ∧
        Journalled V plan s.backend schedule t)
      (executeWithControl ⟨plan⟩).run
      (fun result t => match result with
        | .ok report => ∃ schedule rs, Executes V plan s.backend schedule rs ∧
            Reported (fun j b => b = V.occupancyAfter s.backend (schedule.map journalStep) j)
              (fun j entries => Reports plan (standingAfter plan rs j) entries) plan.id
              schedule report t
        | .error _ => t = s) s := by
  unfold executeWithControl
  rw [Spec.except_bind_iff]
  refine ((checks_prepare hplan s).mono_crash fun t ht => .inl ht).mono ?_
  rintro result t ⟨rfl, hresult⟩
  cases result with
  | error error => exact ⟨.inl rfl, rfl⟩
  | ok prepared =>
      obtain ⟨schedule, manifest, entries⟩ := prepared
      obtain rfl : manifest = schedule.map journalStep := hresult.manifest
      obtain ⟨rs, hexecutes⟩ := hresult.exists_executes hplan
      refine (Spec.mono_crash (spec_transact (Volume.carries hexecutes.executable)
        (tells_standing hexecutes.follows) hempty Volume.occupancyAfter_zero.symm
        (reports_fromPlan hresult.entries)) fun u hu =>
          .inr ⟨schedule, rs, hexecutes, hu⟩).mono ?_
      intro result u hu
      cases result with
      | error error => exact hu
      | ok report => exact ⟨schedule, rs, hexecutes, hu⟩

section Refusals

/-! ### A refusal makes no move -/

/-- The calls that are not renames. -/
def keepsFiles : Call → Prop
  | .backend (.renameNoReplace _) => False
  | _ => True

theorem keepsFiles_of_isRead {call : Call} (h : call.IsRead) : keepsFiles call := by
  cases call with
  | backend call =>
      cases call with
      | renameNoReplace op => exact h
      | _ => trivial
  | _ => trivial

/-- A transaction that is refused has not renamed anything. -/
theorem spec_transact_logged {B : Type} {env : Environment B Call Answer}
    {s : B × List EngineEvent} (id : PlanId) (schedule : List ScheduleStep)
    (manifest : List JournalStep) (entries : IndexedEntryExecutions)
    (hs : ∀ event ∈ s.2, keepsFiles event.call) :
    Spec env.logged (fun _ => True) (transact id schedule manifest entries).run
      (fun result t => ∀ error, result = .error error →
        ∀ event ∈ t.2, keepsFiles event.call) s := by
  have hstep : ∀ {s t : B × List EngineEvent} (call : Call) {answer : Answer call},
      keepsFiles call → (∀ event ∈ s.2, keepsFiles event.call) →
      env.logged s call answer t → ∀ event ∈ t.2, keepsFiles event.call := by
    rintro s t call answer hcall hpast ⟨-, hlog⟩ event hevent
    rw [hlog] at hevent
    rcases List.mem_append.1 hevent with hevent | hevent
    · exact hpast event hevent
    · rw [List.mem_singleton.1 hevent]
      exact hcall
  refine Spec.except_ask_bind trivial fun answer s₁ step₁ => ?_
  have hs₁ := hstep (.control _) trivial hs step₁
  split
  · exact ⟨trivial, by simp⟩
  refine Spec.except_ask_bind trivial fun begun s₂ step₂ => ?_
  have hs₂ := hstep (.control _) trivial hs₁ step₂
  cases begun with
  | false => exact ⟨trivial, fun _ _ => hs₂⟩
  | true =>
      refine Spec.except_ask_bind trivial fun answer s₃ step₃ => ?_
      have hs₃ := hstep (.journal _) trivial hs₂ step₃
      cases answer with
      | ok value =>
          refine (Spec.except_lift_iff _ _ _).2 ?_
          exact (Spec.invariant (fun _ _ _ _ _ _ => trivial) _ trivial).mono (by simp)
      | error error =>
          dsimp only
          split
          · exact ⟨trivial, by simp⟩
          · exact ⟨trivial, fun _ _ => hs₃⟩

/-- An execution that returns an error has not renamed anything, over any backend. -/
theorem keepsFiles_of_error {B : Type} {env : Environment B Call Answer}
    {confirmed : ConfirmedPlan} {s t : B} {trace : List EngineEvent} {error : ExecuteError}
    (run : Runs env (executeWithControl confirmed).run s trace (some (.error error)) t) :
    ∀ event ∈ trace, keepsFiles event.call := by
  have hspec : Spec env.logged (fun _ => True) (executeWithControl confirmed).run
      (fun result t => ∀ error, result = .error error →
        ∀ event ∈ t.2, keepsFiles event.call) (s, []) := by
    unfold executeWithControl
    rw [Spec.except_bind_iff]
    refine (Spec.mono_crash (Confined.spec_logged (tries_prepare confirmed.plan) (by simp))
      fun _ _ => trivial).mono ?_
    rintro result u ⟨hreads, -⟩
    have hkeeps : ∀ event ∈ u.2, keepsFiles event.call := fun event hevent =>
      keepsFiles_of_isRead (hreads event hevent).isRead
    cases result with
    | error error => exact ⟨trivial, fun _ _ => hkeeps⟩
    | ok prepared => exact spec_transact_logged _ _ _ _ hkeeps
  have hlogged := run.logged []
  rw [List.nil_append] at hlogged
  exact (hspec.sound hlogged).2 _ rfl error rfl

end Refusals

section Truth

variable {b : VolumeState} {entries : IndexedEntryExecutions}

/-- An entry of a report tells where its row is. -/
structure EntryTold (b : VolumeState) (row : PlanRow) (entry : EntryExecution) : Prop where
  id : entry.entry = row.id
  applied : entry.state = .applied → ∃ source, row.sourceSnapshot.entry = some source ∧
    b row.destinationEntryKey = some source.identity
  restored : entry.state = .restored → ∃ source, row.sourceSnapshot.entry = some source ∧
    b row.sourceEntryKey = some source.identity

/-- Entries tell where the rows are when those that are not indeterminate stand there. -/
theorem told_of_reports (hfits : Schedulable plan o) {standing : plan.Row → Standing}
    (hreports : Reports plan standing entries)
    (hplaces : ∀ i, (standing i).state ≠ .indeterminate →
      b (places V plan standing i) = some (plan.identity i)) :
    List.Forall₂ (EntryTold b) plan.entries entries.values := by
  rw [hreports.values]
  refine List.forall₂_iff_get.2 ⟨by simp, fun k hk hk' => ?_⟩
  have hidentity : ∀ i : plan.Row, ∃ source, (plan.row i).sourceSnapshot.entry = some source ∧
      source.identity = plan.identity i := fun i =>
    Option.map_eq_some_iff.1 (sourceSnapshot_entry hfits i)
  obtain ⟨source, hsource, hsame⟩ := hidentity ⟨k, hk⟩
  have hplace := hplaces ⟨k, hk⟩
  simp only [List.get_eq_getElem, List.getElem_ofFn]
  refine ⟨rfl, fun happlied => ⟨source, hsource, ?_⟩, fun hrestored => ⟨source, hsource, ?_⟩⟩
  · rw [hsame]
    cases hstanding : standing ⟨k, hk⟩ with
    | destination =>
        rw [places_of_destination hstanding] at hplace
        exact hplace (by simp [hstanding, Standing.state])
    | _ => simp [hstanding, Standing.state] at happlied
  · rw [hsame]
    cases hstanding : standing ⟨k, hk⟩ with
    | source =>
        rw [places_of_source hstanding] at hplace
        exact hplace (by simp [hstanding, Standing.state])
    | _ => simp [hstanding, Standing.state] at hrestored

/-- The entries of a report tell where the rows are, in doubt or not. -/
theorem told_of_told (h : Executes V plan o schedule rs)
    (htold : Told (fun j b => b = V.occupancyAfter o (schedule.map journalStep) j)
      (fun j entries => Reports plan (standingAfter plan rs j) entries) schedule entries b) :
    List.Forall₂ (EntryTold b) plan.entries entries.values := by
  have hfits := h.checked.schedulable h.frozen
  rcases htold with ⟨j, -, hreports, rfl⟩ | ⟨i, step, before, hstep, rfl, hbefore, hb⟩
  · exact told_of_reports hfits hreports fun row _ => (h.placed j).occupied row
  · obtain ⟨row, next, hrow, hmoves⟩ := h.follows.getElem? hstep
    have hentry : step.entry = (plan.row row).id := by
      cases hmoves with
      | straight _ _ => rfl
      | intoTemporary _ _ _ _ => rfl
      | fromTemporary _ _ _ _ => rfl
    -- the other rows stand where they stood
    have hsame : ∀ other, other ≠ row →
        standingAfter plan rs (i + 1) other = standingAfter plan rs i other := by
      intro other hother
      rw [standingAfter_succ hrow, Function.update_of_ne hother]
    have hplace : ∀ other, other ≠ row →
        b (places V plan (standingAfter plan rs i) other) = some (plan.identity other) := by
      intro other hother
      rcases hb with rfl | rfl
      · exact (h.placed i).occupied other
      · have hoccupied := (h.placed (i + 1)).occupied other
        rwa [places, hsame other hother] at hoccupied
    have hdoubt : ∀ standing, Reports plan standing before →
        (∀ other, other ≠ row → standing other = standingAfter plan rs i other) →
        List.Forall₂ (EntryTold b) plan.entries
          (before.setState step.entry .indeterminate).values := by
      intro standing hreports hothers
      have hset := reports_setState hreports row (.temporary ⟨[]⟩)
      rw [← hentry] at hset
      refine told_of_reports (V := V) hfits hset fun other hstate => ?_
      have hother : other ≠ row := by
        rintro rfl
        simp [Standing.state] at hstate
      rw [places, Function.update_of_ne hother, hothers other hother]
      exact hplace other hother
    rcases hbefore with hbefore | hbefore
    · exact hdoubt _ hbefore fun _ _ => rfl
    · exact hdoubt _ hbefore hsame

/-- When every row stands at one end, every entry has that state. -/
theorem state_of_reports {standing : plan.Row → Standing} {state : RenameState}
    (hreports : Reports plan standing entries) (hstanding : ∀ i, (standing i).state = state) :
    ∀ entry ∈ entries.values, entry.state = state := by
  intro entry hentry
  rw [hreports.values, List.mem_ofFn] at hentry
  obtain ⟨i, rfl⟩ := hentry
  exact hstanding i

/-- What a report says of the world it leaves. -/
def Truthful (plan : RenamePlan) (s t : World VolumeState) (report : ExecutionReport) : Prop :=
  List.Forall₂ (EntryTold t.backend) plan.entries report.entries ∧
    match report.outcome with
    | .completed => (∀ entry ∈ report.entries, entry.state = .applied) ∧
        t.backend = plan.simultaneous s.backend ∧
        (plan.entries = [] ∧ t.records = [] ∨
          t.records.getLast? = some (.terminal .committed))
    | .rolledBack _ => (∀ entry ∈ report.entries, entry.state = .restored) ∧
        t.backend = s.backend ∧ t.records.getLast? = some (.terminal .rolledBack)
    | .recoveryRequired _ _ => True

theorem truthful_of_reported {s t : World VolumeState} {report : ExecutionReport}
    (h : Executes V plan s.backend schedule rs)
    (hreport : Reported (fun j b => b = V.occupancyAfter s.backend (schedule.map journalStep) j)
      (fun j entries => Reports plan (standingAfter plan rs j) entries) plan.id
      schedule report t) : Truthful plan s t report := by
  obtain ⟨-, entries, hentries, houtcome⟩ := hreport
  have hlength := h.follows.length_eq
  have hlast : standingAfter plan rs schedule.length = atDestination plan := by
    rw [standingAfter, hlength, List.take_length, h.standing]
  unfold Truthful
  rw [hentries]
  cases hkind : report.outcome with
  | completed =>
      rw [hkind] at houtcome
      obtain ⟨hreports, hat, hrecords⟩ := houtcome
      refine ⟨told_of_told h (.inl ⟨_, Nat.le_refl _, hreports, hat⟩), ?_, ?_, ?_⟩
      · exact state_of_reports hreports fun i => by rw [hlast]; rfl
      · exact hat.trans h.simultaneous
      · refine hrecords.imp (fun hnone => ?_) Logs.getLast?
        obtain ⟨rfl, hempty⟩ := hnone
        refine ⟨?_, hempty⟩
        -- without a step the sources are the destinations
        by_contra hrows
        obtain ⟨row, rest, hentries⟩ := List.exists_cons_of_ne_nil hrows
        have hpos : 0 < plan.entries.length := by simp [hentries]
        have hsame := congrFun hlast ⟨0, hpos⟩
        simp [standingAfter, placesAfter, atSource, atDestination] at hsame
  | rolledBack failure =>
      rw [hkind] at houtcome
      obtain ⟨hreports, hat, hrecords⟩ := houtcome
      refine ⟨told_of_told h (.inl ⟨0, Nat.zero_le _, hreports, hat⟩), ?_, hat,
        hrecords.getLast?⟩
      exact state_of_reports hreports fun i => rfl
  | recoveryRequired failure failures =>
      rw [hkind] at houtcome
      exact ⟨told_of_told h houtcome, trivial⟩

end Truth

/-- A truthful report: an execution that is refused has renamed and journalled nothing,
and a report says where every entry is, whatever the backend, the journal and the
control answered. -/
theorem executeWithControl_truthful (V : Volume) (request : PlanRequest) (plan : RenamePlan)
    {s₀ t₀ : World VolumeState} {trace₀ : List EngineEvent}
    (planned : Runs (engineEnv V.backendRel) (Planner.planCancellable request).run s₀ trace₀
      (some (.ok plan)) t₀) {displayedId : PlanId} {displayedRevision : ModelRevision}
    {confirmed : ConfirmedPlan}
    (hconfirmed : plan.confirmPresented displayedId displayedRevision = .ok confirmed)
    {s t : World VolumeState} {trace : List EngineEvent}
    {result : Except ExecuteError ExecutionReport} (hempty : s.records = [])
    (run : Runs (engineEnv V.backendRel) (executeWithControl confirmed).run s trace
      (some result) t) :
    match result with
    | .error _ => t = s ∧ ∀ event ∈ trace, ∀ op, event.call ≠ .backend (.renameNoReplace op)
    | .ok report => Truthful plan s t report := by
  obtain ⟨-, hpost⟩ :=
    (Planner.checks_planCancellable (V.admits_self s₀) request).sound planned
  have hplanned : Planned V s₀.backend request plan := (hpost _ rfl).2
  obtain rfl : confirmed = ⟨plan⟩ := by
    unfold RenamePlan.confirmPresented at hconfirmed
    split_ifs at hconfirmed
    exact (Except.ok.inj hconfirmed).symm
  have hresult := ((spec_execute hplanned.checked hempty).sound run).2 _ rfl
  cases result with
  | error error =>
      refine ⟨hresult, fun event hevent op hop => ?_⟩
      have hkeeps := keepsFiles_of_error run event hevent
      rw [hop] at hkeeps
      exact hkeeps
  | ok report =>
      obtain ⟨schedule, rs, hexecutes, hreport⟩ := hresult
      exact truthful_of_reported hexecutes hreport

/-- The swap is planned, confirmed and completed. -/
theorem executeWithControl_truthful_swap : ∃ (plan : RenamePlan) (report : ExecutionReport)
    (t : World VolumeState), plan.entries.length = 2 ∧ report.outcome = .completed ∧
      Truthful plan ⟨swapState, []⟩ t report := by
  let handler := ((flatVolume sampleParent).ports 5).handler
  have hallowed := (flatVolume sampleParent).ports_allowed 5
  have hplan : (((Planner.planCancellable Planner.swapRequest).run.run handler
      ⟨swapState, []⟩).1.toOption.map fun plan => (plan.entries.length,
        ((executeWithControl ⟨plan⟩).run.run handler ⟨swapState, []⟩).1.toOption.map
          ExecutionReport.outcome)) = some (2, some .completed) := by decide +kernel
  obtain ⟨plan, trace₀, hexecuted, planned⟩ := Runs.of_toOption hallowed hplan
  obtain ⟨htwo, hcompleted⟩ := Prod.mk.inj hexecuted
  obtain ⟨report, trace, houtcome, run⟩ := Runs.of_toOption hallowed hcompleted
  have hconfirmed : plan.confirmPresented plan.id plan.revision = .ok ⟨plan⟩ := by
    simp [RenamePlan.confirmPresented]
  have htruthful := executeWithControl_truthful _ _ _ planned hconfirmed rfl run
  exact ⟨plan, report, _, htwo, houtcome, htruthful⟩

end Executor

end DarkReNamer
