import DarkReNamer.Preferences.Persistence
import DarkReNamer.Preferences.Writer.History

/-!
# The acknowledgement report

The three writers and the shadows of them move together in any order. A report of
complete acknowledgements is sound for what was submitted. It says nothing of the final
snapshots that `shutdown` gives to the writers without noting them.
-/

namespace DarkReNamer

open Machine CoalescingWriter

variable {T C A L : Type}

namespace CoalescingWriter

@[simp] theorem notify_events (w : CoalescingWriter T) : w.notify.events = w.events := by
  unfold notify
  split <;> rfl

section

variable {w t : CoalescingWriter T} {o h : List (WriterObservation T)} {a : WriterAction T}
  {stopped shuttingDown : String}

/-- A move of the worker shows nothing, or a request handed over, or an event sent. -/
theorem workerStep_cases {outcome : Except String Unit}
    (hstep : w.workerStep outcome = some (t, o)) :
    t.events = w.events ∧ (o = [] ∨ ∃ g snapshot, o = [.handed g snapshot]) ∨
      ∃ event, t.events = w.events ++ [event] ∧ o = [.emitted event] := by
  unfold workerStep at hstep
  split at hstep
  · split at hstep
    · obtain ⟨rfl, rfl⟩ := Prod.mk.inj (Option.some.inj hstep)
      exact .inl ⟨rfl, .inr ⟨_, _, rfl⟩⟩
    · obtain ⟨rfl, rfl⟩ := Prod.mk.inj (Option.some.inj hstep)
      exact .inl ⟨rfl, .inl rfl⟩
  · obtain ⟨rfl, rfl⟩ := Prod.mk.inj (Option.some.inj hstep)
    exact .inl ⟨rfl, .inl rfl⟩
  · obtain ⟨rfl, rfl⟩ := Prod.mk.inj (Option.some.inj hstep)
    exact .inl ⟨rfl, .inl rfl⟩
  · obtain ⟨rfl, rfl⟩ := Prod.mk.inj (Option.some.inj hstep)
    exact .inr ⟨_, rfl, rfl⟩
  · obtain ⟨rfl, rfl⟩ := Prod.mk.inj (Option.some.inj hstep)
    exact .inr ⟨_, rfl, rfl⟩
  · obtain ⟨rfl, rfl⟩ := Prod.mk.inj (Option.some.inj hstep)
    exact .inl ⟨rfl, .inl rfl⟩
  · cases hstep

/-- What is in the channel was sent by the worker. -/
theorem emitted_of_mem_events (hstep : step stopped shuttingDown w a = some (t, o))
    {event : PreferenceWriteEvent} (hevent : event ∈ t.events) :
    event ∈ w.events ∨ .emitted event ∈ o := by
  rcases step_cases hstep with ⟨x, rfl, rfl, -⟩ | ⟨x, snapshot, rfl, -, -, rfl⟩ |
    ⟨rfl, rfl⟩ | ⟨outcome, -, hmove⟩
  · exact .inl hevent
  · exact .inl (by simpa [accept] using hevent)
  · exact .inl (by simpa [requestShutdown] using hevent)
  · rcases workerStep_cases hmove with ⟨hevents, -⟩ | ⟨sent, hevents, rfl⟩
    · exact .inl (hevents ▸ hevent)
    · simpa [hevents] using hevent

theorem acceptedAt_of_submit {i g : ℕ} {snapshot : T}
    (hi : h[i]? = some (.submit snapshot (.ok g))) :
    acceptedAt h i = some ⟨g, snapshot⟩ := by
  simp [acceptedAt, hi, WriterObservation.accepted]

/-- Every submitted snapshot, or one given to the writer after it, was saved. -/
def SubmitsSaved (h : List (WriterObservation T)) : Prop :=
  ∀ (i : ℕ) snapshot g, h[i]? = some (.submit snapshot (.ok g)) →
    ∃ j r, i ≤ j ∧ acceptedAt h j = some r ∧ SavedAfter h j r

/-- The last snapshot given to the writer was saved. -/
def LatestSaved (h : List (WriterObservation T)) : Prop :=
  ∀ i r, Newest h i r → SavedAfter h i r

/-- Where only submissions give snapshots, the last one is the last submission. -/
theorem SubmitsSaved.latest (hsaved : SubmitsSaved h)
    (hshutdown : ∀ snapshot result, .shutdownWith snapshot result ∉ h) : LatestSaved h := by
  rintro i r ⟨hi, hafter⟩
  obtain ⟨x, hx, haccepted⟩ := Option.bind_eq_some_iff.1 hi
  cases x with
  | submit snapshot result =>
      cases result with
      | error error => cases haccepted
      | ok g =>
          obtain ⟨j, q, hij, hj, hq⟩ := hsaved i snapshot g hx
          rcases hij.eq_or_lt with rfl | hij
          · obtain rfl : r = q := Option.some.inj (hi.symm.trans hj)
            exact hq
          · rw [hafter j hij] at hj
            cases hj
  | shutdownWith snapshot result => exact (hshutdown _ _ (List.mem_of_getElem? hx)).elim
  | requestShutdown | handed | emitted => cases haccepted

end

end CoalescingWriter

/-! ### A writer and its shadow -/

/-- The shadow knows the last submission, and only successes that were sent. -/
structure Tracks (status : WriterStatus) (w : CoalescingWriter T)
    (h : List (WriterObservation T)) : Prop where
  follows : w.Follows h
  requested : ∀ (i : ℕ) snapshot g, h[i]? = some (.submit snapshot (.ok g)) →
    ∃ q, status.requestedGeneration = some q ∧ g ≤ q
  saved : ∀ g, status.savedGeneration = some g → .emitted (.saved g) ∈ h
  channel : ∀ event ∈ w.events, .emitted event ∈ h

namespace Tracks

variable {status status' : WriterStatus} {w t : CoalescingWriter T}
  {h o : List (WriterObservation T)} {stopped shuttingDown : String}

theorem spawn : Tracks {} (CoalescingWriter.spawn : CoalescingWriter T) [] where
  follows := .spawn
  requested := by simp
  saved := by simp
  channel := by simp [CoalescingWriter.spawn]

/-- A step of the writer under which the shadow notes a submission, if there is one. -/
theorem step {a : WriterAction T} (hw : Tracks status w h)
    (hstep : CoalescingWriter.step stopped shuttingDown w a = some (t, o))
    (hsaved : status'.savedGeneration = status.savedGeneration)
    (hrequested : status'.requestedGeneration = status.requestedGeneration ∨
      ∃ g, status'.requestedGeneration = some g ∧ t.nextGeneration ≤ g)
    (hsubmitted : ∀ snapshot g, .submit snapshot (.ok g) ∈ o →
      status'.requestedGeneration = some g) :
    Tracks status' t (h ++ o) := by
  have hfollows : t.Follows (h ++ o) := hw.follows.step hstep
  refine ⟨hfollows, ?_, ?_, ?_⟩
  · intro i snapshot g hi
    have hle : g ≤ t.nextGeneration :=
      (hfollows.ordered i _ (acceptedAt_of_submit hi)).1
    rcases Nat.lt_or_ge i h.length with hlt | hge
    · rw [List.getElem?_append_left hlt] at hi
      rcases hrequested with heq | ⟨q, hq, hnext⟩
      · exact heq ▸ hw.requested i snapshot g hi
      · exact ⟨q, hq, hle.trans hnext⟩
    · rw [List.getElem?_append_right hge] at hi
      exact ⟨g, hsubmitted snapshot g (List.mem_of_getElem? hi), le_rfl⟩
  · intro g hg
    exact List.mem_append_left _ (hw.saved g (hsaved ▸ hg))
  · intro event hevent
    rcases emitted_of_mem_events hstep hevent with hold | hnew
    · exact List.mem_append_left _ (hw.channel event hold)
    · exact List.mem_append_right _ hnew

theorem submit (hw : Tracks status w h) {snapshot : T} {finished : Bool}
    (hread : w.canRead finished = true) :
    Tracks (status.noteSubmission (w.submit snapshot finished stopped shuttingDown).1)
      (w.submit snapshot finished stopped shuttingDown).2
      (h ++ [.submit snapshot (w.submit snapshot finished stopped shuttingDown).1]) := by
  have hstep : CoalescingWriter.step stopped shuttingDown w (.submit snapshot finished) =
      some ((w.submit snapshot finished stopped shuttingDown).2,
        [.submit snapshot (w.submit snapshot finished stopped shuttingDown).1]) := by
    simp [CoalescingWriter.step, hread]
  cases hresult : (w.submit snapshot finished stopped shuttingDown).1 with
  | error error =>
      rw [hresult] at hstep
      exact hw.step hstep rfl (.inl rfl) (by simp)
  | ok generation =>
      rw [hresult] at hstep
      refine hw.step hstep rfl (.inr ⟨generation, rfl, ?_⟩) (by simp [WriterStatus.noteSubmission])
      have hfollows := hw.follows.step hstep
      have hnewest : Newest (h ++ [.submit snapshot (.ok generation)]) h.length
          ⟨generation, snapshot⟩ := by
        refine ⟨acceptedAt_of_submit (by simp), fun j hj => ?_⟩
        by_contra hne
        obtain ⟨q, hq⟩ := Option.ne_none_iff_exists'.1 hne
        have := lt_length_of_acceptedAt hq
        simp only [List.length_append, List.length_singleton] at this
        omega
      exact (hfollows.generation_of_newest hnewest).ge

theorem shutdownWith (hw : Tracks status w h) {snapshot : T} {finished : Bool}
    (hread : w.canRead finished = true) :
    Tracks status (w.shutdownWith snapshot finished stopped).2
      (h ++ [.shutdownWith snapshot (w.shutdownWith snapshot finished stopped).1]) := by
  have hstep : CoalescingWriter.step stopped "" w (.shutdownWith snapshot finished) =
      some ((w.shutdownWith snapshot finished stopped).2,
        [.shutdownWith snapshot (w.shutdownWith snapshot finished stopped).1]) := by
    simp [CoalescingWriter.step, hread]
  exact hw.step hstep rfl (.inl rfl) (by simp)

theorem requestShutdown (hw : Tracks status w h) :
    Tracks status w.requestShutdown (h ++ [.requestShutdown]) := by
  have hstep : CoalescingWriter.step "" "" w .requestShutdown =
      some (w.requestShutdown, [.requestShutdown]) := rfl
  exact hw.step hstep rfl (.inl rfl) (by simp)

theorem workerStep (hw : Tracks status w h) {outcome : Except String Unit}
    (hstep : w.workerStep outcome = some (t, o)) : Tracks status t (h ++ o) := by
  have hmove : CoalescingWriter.step "" "" w (.worker outcome) = some (t, o) := hstep
  refine hw.step hmove rfl (.inl rfl) fun snapshot g hmem => ?_
  rcases workerStep_cases hstep with ⟨-, rfl | ⟨g', snapshot', rfl⟩⟩ | ⟨event, -, rfl⟩
  · cases hmem
  · simp at hmem
  · simp at hmem

/-- The owner reads the channel. -/
theorem drainEvents (hw : Tracks status w h)
    (hrequested : status'.requestedGeneration = status.requestedGeneration)
    (hsaved : ∀ g, status'.savedGeneration = some g →
      status.savedGeneration = some g ∨ .saved g ∈ w.events) :
    Tracks status' w.drainEvents.2 h where
  follows := by
    have := hw.follows
    exact ⟨this.closed, this.newest, this.pending, this.ordered, this.settled, this.stopped,
      this.working, this.origin, this.increasing, this.bounded, this.repeated, this.asleep,
      this.leaves⟩
  requested := hrequested ▸ hw.requested
  saved := by
    intro g hg
    rcases hsaved g hg with hold | hnew
    · exact hw.saved g hold
    · exact hw.channel _ hnew
  channel := by simp [CoalescingWriter.drainEvents]

/-- What an acknowledged shadow says of its writer. -/
theorem submitsSaved (hw : Tracks status w h) (hack : status.acknowledged = true) :
    SubmitsSaved h := by
  intro i snapshot g hi
  obtain ⟨q, hq, hgq⟩ := hw.requested i snapshot g hi
  obtain ⟨s, hs, hqs⟩ : ∃ s, status.savedGeneration = some s ∧ q ≤ s := by
    simp only [WriterStatus.acknowledged, hq, Option.all_some, Bool.and_eq_true,
      Option.any_eq_true, decide_eq_true_eq] at hack
    obtain ⟨-, -, s, hs, hqs, -⟩ := hack
    exact ⟨s, hs, hqs⟩
  obtain ⟨l, hl⟩ := List.getElem?_of_mem (hw.saved s hs)
  obtain ⟨j, r, k, hr, rfl, hjk, hkl, hk⟩ := hw.follows.origin l _ s hl rfl
  refine ⟨j, r, ?_, hr, k, l, hjk, hkl, hk, hl⟩
  -- An earlier request has a smaller generation.
  by_contra hji
  have := (hw.follows.ordered j r hr).2 i _ (by omega) (acceptedAt_of_submit hi)
  simp only at this
  omega

end Tracks

/-! ### Draining -/

/-- Only a drained `Saved` event changes what the shadow holds for saved, and none what it
holds for requested. -/
def Learns (status status' : WriterStatus) (events : List PreferenceWriteEvent) : Prop :=
  status'.requestedGeneration = status.requestedGeneration ∧
    ∀ g, status'.savedGeneration = some g →
      status.savedGeneration = some g ∨ .saved g ∈ events

namespace Learns

variable {status status' status'' : WriterStatus} {event : PreferenceWriteEvent}
  {events : List PreferenceWriteEvent}

theorem refl (status : WriterStatus) (events : List PreferenceWriteEvent) :
    Learns status status events :=
  ⟨rfl, fun _ => .inl⟩

theorem cons (hfirst : Learns status status' [event])
    (hrest : Learns status' status'' events) : Learns status status'' (event :: events) := by
  refine ⟨hrest.1.trans hfirst.1, fun g hg => ?_⟩
  rcases hrest.2 g hg with hold | hnew
  · refine (hfirst.2 g hold).imp_right fun hmem => ?_
    obtain rfl : PreferenceWriteEvent.saved g = event := by simpa using hmem
    exact List.mem_cons_self
  · exact .inr (List.mem_cons_of_mem _ hnew)

theorem noteSaved (status : WriterStatus) (generation : ℕ) :
    Learns status (status.noteSaved generation).1 [.saved generation] := by
  have hsaved : (status.noteSaved generation).1.savedGeneration =
      some (status.savedGeneration.elim generation (max · generation)) := by
    unfold WriterStatus.noteSaved
    split <;> rfl
  refine ⟨by unfold WriterStatus.noteSaved; split <;> rfl, fun g hg => ?_⟩
  rw [hsaved] at hg
  cases hold : status.savedGeneration with
  | none =>
      rw [hold] at hg
      obtain rfl : generation = g := by simpa using hg
      exact .inr List.mem_cons_self
  | some old =>
      rw [hold] at hg
      obtain rfl : max old generation = g := by simpa using hg
      rcases Nat.le_total generation old with hle | hle
      · exact .inl (by rw [Nat.max_eq_left hle])
      · exact .inr (by rw [Nat.max_eq_right hle]; exact List.mem_cons_self)

theorem observe (status : WriterStatus) (kind : PreferenceKind)
    (events : List PreferenceWriteEvent) (closing : Bool) :
    Learns status (status.observe kind events closing).1 events := by
  induction events generalizing status with
  | nil => exact refl status []
  | cons event events ih =>
      have hfirst : Learns status (status.observeEvent kind closing event).1 [event] := by
        cases event with
        | saved generation => exact noteSaved status generation
        | failed generation error => exact ⟨rfl, fun _ => .inl⟩
        | stopped => exact ⟨rfl, fun _ => .inl⟩
        | panicked => exact ⟨rfl, fun _ => .inl⟩
      exact hfirst.cons (ih _)

end Learns

namespace PreferencePersistence

theorem drainLanguageEvent_learns (closing : Bool) (p : PreferencePersistence C A L)
    (event : PreferenceWriteEvent) :
    Learns p.languageStatus (p.drainLanguageEvent closing event).1.languageStatus [event] := by
  cases event with
  | saved generation =>
      unfold drainLanguageEvent
      dsimp only
      split
      · exact Learns.noteSaved p.languageStatus generation
      · exact Learns.noteSaved p.languageStatus generation
  | failed generation error => exact ⟨rfl, fun _ => .inl⟩
  | stopped => exact ⟨rfl, fun _ => .inl⟩
  | panicked => exact ⟨rfl, fun _ => .inl⟩

/-- The other parts are as they were after a language event. -/
theorem drainLanguageEvent_frame (closing : Bool) (p : PreferencePersistence C A L)
    (event : PreferenceWriteEvent) :
    (p.drainLanguageEvent closing event).1.columns = p.columns ∧
      (p.drainLanguageEvent closing event).1.appearance = p.appearance ∧
      (p.drainLanguageEvent closing event).1.language = p.language ∧
      (p.drainLanguageEvent closing event).1.columnStatus = p.columnStatus ∧
      (p.drainLanguageEvent closing event).1.appearanceStatus = p.appearanceStatus := by
  cases event with
  | saved generation =>
      unfold drainLanguageEvent
      dsimp only
      split
      · exact ⟨rfl, rfl, rfl, rfl, rfl⟩
      · exact ⟨rfl, rfl, rfl, rfl, rfl⟩
  | failed generation error => exact ⟨rfl, rfl, rfl, rfl, rfl⟩
  | stopped => exact ⟨rfl, rfl, rfl, rfl, rfl⟩
  | panicked => exact ⟨rfl, rfl, rfl, rfl, rfl⟩

theorem drainLanguageEvents_learns (closing : Bool) (p : PreferencePersistence C A L)
    (events : List PreferenceWriteEvent) :
    Learns p.languageStatus (p.drainLanguageEvents closing events).1.languageStatus events ∧
      (p.drainLanguageEvents closing events).1.columns = p.columns ∧
      (p.drainLanguageEvents closing events).1.appearance = p.appearance ∧
      (p.drainLanguageEvents closing events).1.language = p.language ∧
      (p.drainLanguageEvents closing events).1.columnStatus = p.columnStatus ∧
      (p.drainLanguageEvents closing events).1.appearanceStatus = p.appearanceStatus := by
  induction events generalizing p with
  | nil => exact ⟨.refl _ _, rfl, rfl, rfl, rfl, rfl⟩
  | cons event events ih =>
      obtain ⟨hlearns, hcolumns, happearance, hlanguage, hcolumn, hshape⟩ :=
        ih (p.drainLanguageEvent closing event).1
      obtain ⟨hcolumns', happearance', hlanguage', hcolumn', hshape'⟩ :=
        p.drainLanguageEvent_frame closing event
      exact ⟨(p.drainLanguageEvent_learns closing event).cons hlearns,
        hcolumns.trans hcolumns', happearance.trans happearance', hlanguage.trans hlanguage',
        hcolumn.trans hcolumn', hshape.trans hshape'⟩

/-! ### The three writers together -/

/-- What is seen of a run, by the writer it belongs to. -/
inductive Observation (C A L : Type) where
  | columns (o : WriterObservation C)
  | appearance (o : WriterObservation A)
  | language (o : WriterObservation L)

/-- The calls of the user-interface thread and the moves of the three workers. -/
inductive Action (C A L : Type) where
  | submitColumns (columns : C) (finished : Bool)
  | submitAppearance (appearance : A) (finished : Bool)
  | submitLanguage (preference : L) (finished : Bool)
  | shutdown (columns : C) (appearance : A) (finished : Finished)
  | drain (closing : Bool)
  | columnsWorker (outcome : Except String Unit)
  | appearanceWorker (outcome : Except String Unit)
  | languageWorker (outcome : Except String Unit)

def columnsOf (h : List (Observation C A L)) : List (WriterObservation C) :=
  h.filterMap fun
    | .columns o => some o
    | _ => none

def appearanceOf (h : List (Observation C A L)) : List (WriterObservation A) :=
  h.filterMap fun
    | .appearance o => some o
    | _ => none

def languageOf (h : List (Observation C A L)) : List (WriterObservation L) :=
  h.filterMap fun
    | .language o => some o
    | _ => none

/-- A reading of `is_finished` that the writer, if there is one, allows. -/
def canRead (writer : Option (CoalescingWriter T)) (finished : Bool) : Bool :=
  writer.all (·.canRead finished)

def step (p : PreferencePersistence C A L) :
    Action C A L → Option (PreferencePersistence C A L × List (Observation C A L))
  | .submitColumns columns finished =>
    if canRead p.columns finished then
      let (_, p', answer) := p.submitColumns columns finished
      some (p', answer.toList.map fun result => .columns (.submit columns result))
    else
      none
  | .submitAppearance appearance finished =>
    if canRead p.appearance finished then
      let (_, p', answer) := p.submitAppearance appearance finished
      some (p', answer.toList.map fun result => .appearance (.submit appearance result))
    else
      none
  | .submitLanguage preference finished =>
    if canRead p.language finished then
      let (_, p', answer) := p.submitLanguage preference finished
      some (p', answer.toList.map fun result => .language (.submit preference result))
    else
      none
  | .shutdown columns appearance finished =>
    if canRead p.columns finished.columns && canRead p.appearance finished.appearance then
      let (p', _, column, shape) := p.shutdown columns appearance finished
      some (p', (p.language.map fun _ => .language .requestShutdown).toList ++
        (column.toList.map fun result => .columns (.shutdownWith columns result)) ++
        (shape.toList.map fun result => .appearance (.shutdownWith appearance result)))
    else
      none
  | .drain closing => some ((p.drain closing).1, [])
  | .columnsWorker outcome =>
    (p.columns.bind (·.workerStep outcome)).map fun (writer, o) =>
      ({ p with columns := some writer }, o.map .columns)
  | .appearanceWorker outcome =>
    (p.appearance.bind (·.workerStep outcome)).map fun (writer, o) =>
      ({ p with appearance := some writer }, o.map .appearance)
  | .languageWorker outcome =>
    (p.language.bind (·.workerStep outcome)).map fun (writer, o) =>
      ({ p with language := some writer }, o.map .language)

@[simp] theorem columnsOf_append (h o : List (Observation C A L)) :
    columnsOf (h ++ o) = columnsOf h ++ columnsOf o := List.filterMap_append

@[simp] theorem appearanceOf_append (h o : List (Observation C A L)) :
    appearanceOf (h ++ o) = appearanceOf h ++ appearanceOf o := List.filterMap_append

@[simp] theorem languageOf_append (h o : List (Observation C A L)) :
    languageOf (h ++ o) = languageOf h ++ languageOf o := List.filterMap_append

@[simp] theorem columnsOf_map (o : List (WriterObservation C)) :
    columnsOf (o.map (.columns : _ → Observation C A L)) = o := by
  simp [columnsOf, List.filterMap_map]

@[simp] theorem appearanceOf_map (o : List (WriterObservation A)) :
    appearanceOf (o.map (.appearance : _ → Observation C A L)) = o := by
  simp [appearanceOf, List.filterMap_map]

@[simp] theorem languageOf_map (o : List (WriterObservation L)) :
    languageOf (o.map (.language : _ → Observation C A L)) = o := by
  simp [languageOf, List.filterMap_map]

/-- Each writer is there and its shadow tracks its own history; nothing is given to the
language writer on shutdown. -/
structure Watches (p : PreferencePersistence C A L) (h : List (Observation C A L)) : Prop where
  columns : ∃ w, p.columns = some w ∧ Tracks p.columnStatus w (columnsOf h)
  appearance : ∃ w, p.appearance = some w ∧ Tracks p.appearanceStatus w (appearanceOf h)
  language : ∃ w, p.language = some w ∧ Tracks p.languageStatus w (languageOf h)
  keeps : ∀ snapshot result, .shutdownWith snapshot result ∉ languageOf h

namespace Watches

variable {p p' : PreferencePersistence C A L} {h o : List (Observation C A L)}

theorem spawned : Watches (spawned : PreferencePersistence C A L) [] where
  columns := ⟨_, rfl, .spawn⟩
  appearance := ⟨_, rfl, .spawn⟩
  language := ⟨_, rfl, .spawn⟩
  keeps := by simp [languageOf]

theorem drain (hp : Watches p h) (closing : Bool) : Watches (p.drain closing).1 h := by
  obtain ⟨⟨columns, hcolumns, htracks⟩, ⟨appearance, happearance, htracks'⟩,
    ⟨language, hlanguage, htracks''⟩, hkeeps⟩ := hp
  unfold PreferencePersistence.drain
  simp only [hcolumns, happearance, hlanguage, drained]
  obtain ⟨hlearns, hc, ha, hl, hcs, has⟩ := drainLanguageEvents_learns closing
    { p with
      columns := some columns.drainEvents.2
      columnStatus := (p.columnStatus.observe .columns columns.drainEvents.1 closing).1
      appearance := some appearance.drainEvents.2
      appearanceStatus :=
        (p.appearanceStatus.observe .appearance appearance.drainEvents.1 closing).1
      language := some language.drainEvents.2 } language.drainEvents.1
  have hcolumn := Learns.observe p.columnStatus .columns columns.drainEvents.1 closing
  have hshape := Learns.observe p.appearanceStatus .appearance appearance.drainEvents.1 closing
  refine ⟨⟨_, hc, ?_⟩, ⟨_, ha, ?_⟩, ⟨_, hl, ?_⟩, hkeeps⟩
  · rw [hcs]
    exact htracks.drainEvents hcolumn.1 hcolumn.2
  · rw [has]
    exact htracks'.drainEvents hshape.1 hshape.2
  · exact htracks''.drainEvents hlearns.1 hlearns.2

theorem step {a : Action C A L} (hp : Watches p h) (hstep : p.step a = some (p', o)) :
    Watches p' (h ++ o) := by
  obtain ⟨⟨columns, hcolumns, htracks⟩, ⟨appearance, happearance, htracks'⟩,
    ⟨language, hlanguage, htracks''⟩, hkeeps⟩ := id hp
  cases a with
  | submitColumns snapshot finished =>
      simp only [PreferencePersistence.step, submitColumns, canRead, hcolumns,
        Option.all_some] at hstep
      split at hstep
      · rename_i hread
        obtain ⟨rfl, rfl⟩ := Prod.mk.inj (Option.some.inj hstep)
        refine ⟨⟨_, rfl, ?_⟩, ⟨_, happearance, ?_⟩, ⟨_, hlanguage, ?_⟩, ?_⟩
        · simpa [columnsOf] using htracks.submit hread
        · simpa [appearanceOf] using htracks'
        · simpa [languageOf] using htracks''
        · simpa [languageOf] using hkeeps
      · cases hstep
  | submitAppearance snapshot finished =>
      simp only [PreferencePersistence.step, submitAppearance, canRead, happearance,
        Option.all_some] at hstep
      split at hstep
      · rename_i hread
        obtain ⟨rfl, rfl⟩ := Prod.mk.inj (Option.some.inj hstep)
        refine ⟨⟨_, hcolumns, ?_⟩, ⟨_, rfl, ?_⟩, ⟨_, hlanguage, ?_⟩, ?_⟩
        · simpa [columnsOf] using htracks
        · simpa [appearanceOf] using htracks'.submit hread
        · simpa [languageOf] using htracks''
        · simpa [languageOf] using hkeeps
      · cases hstep
  | submitLanguage snapshot finished =>
      simp only [PreferencePersistence.step, submitLanguage, canRead, hlanguage,
        Option.all_some] at hstep
      split at hstep
      · rename_i hread
        obtain ⟨rfl, rfl⟩ := Prod.mk.inj (Option.some.inj hstep)
        refine ⟨⟨_, hcolumns, ?_⟩, ⟨_, happearance, ?_⟩, ⟨_, rfl, ?_⟩, ?_⟩
        · simpa [columnsOf] using htracks
        · simpa [appearanceOf] using htracks'
        · simpa [languageOf] using htracks''.submit hread
        · simpa [languageOf] using hkeeps
      · cases hstep
  | shutdown final final' finished =>
      simp only [PreferencePersistence.step, shutdown, canRead, hcolumns, happearance,
        hlanguage, Option.all_some, Option.map_some] at hstep
      split at hstep
      · rename_i hread
        obtain ⟨hread, hread'⟩ := Bool.and_eq_true_iff.1 hread
        obtain ⟨rfl, rfl⟩ := Prod.mk.inj (Option.some.inj hstep)
        refine ⟨⟨_, rfl, ?_⟩, ⟨_, rfl, ?_⟩, ⟨_, rfl, ?_⟩, ?_⟩
        · simpa [columnsOf] using htracks.shutdownWith hread
        · simpa [appearanceOf] using htracks'.shutdownWith hread'
        · simpa [languageOf] using htracks''.requestShutdown
        · simpa [languageOf] using hkeeps
      · cases hstep
  | drain closing =>
      obtain ⟨rfl, rfl⟩ := Prod.mk.inj (Option.some.inj hstep)
      simpa using hp.drain closing
  | columnsWorker outcome =>
      simp only [PreferencePersistence.step, hcolumns, Option.bind_some,
        Option.map_eq_some_iff] at hstep
      obtain ⟨⟨w, o'⟩, hmove, heq⟩ := hstep
      obtain ⟨rfl, rfl⟩ := Prod.mk.inj heq
      refine ⟨⟨_, rfl, ?_⟩, ⟨_, happearance, ?_⟩, ⟨_, hlanguage, ?_⟩, ?_⟩
      · simpa using htracks.workerStep hmove
      · simpa [appearanceOf, List.filterMap_map] using htracks'
      · simpa [languageOf, List.filterMap_map] using htracks''
      · simpa [languageOf, List.filterMap_map] using hkeeps
  | appearanceWorker outcome =>
      simp only [PreferencePersistence.step, happearance, Option.bind_some,
        Option.map_eq_some_iff] at hstep
      obtain ⟨⟨w, o'⟩, hmove, heq⟩ := hstep
      obtain ⟨rfl, rfl⟩ := Prod.mk.inj heq
      refine ⟨⟨_, hcolumns, ?_⟩, ⟨_, rfl, ?_⟩, ⟨_, hlanguage, ?_⟩, ?_⟩
      · simpa [columnsOf, List.filterMap_map] using htracks
      · simpa using htracks'.workerStep hmove
      · simpa [languageOf, List.filterMap_map] using htracks''
      · simpa [languageOf, List.filterMap_map] using hkeeps
  | languageWorker outcome =>
      simp only [PreferencePersistence.step, hlanguage, Option.bind_some,
        Option.map_eq_some_iff] at hstep
      obtain ⟨⟨w, o'⟩, hmove, heq⟩ := hstep
      obtain ⟨rfl, rfl⟩ := Prod.mk.inj heq
      refine ⟨⟨_, hcolumns, ?_⟩, ⟨_, happearance, ?_⟩, ⟨_, rfl, ?_⟩, ?_⟩
      · simpa [columnsOf, List.filterMap_map] using htracks
      · simpa [appearanceOf, List.filterMap_map] using htracks'
      · simpa using htracks''.workerStep hmove
      · intro snapshot result hmem
        rw [languageOf_append, List.mem_append, languageOf_map] at hmem
        rcases hmem with hmem | hmem
        · exact hkeeps snapshot result hmem
        · rcases workerStep_cases hmove with ⟨-, rfl | ⟨g, x, rfl⟩⟩ | ⟨event, -, rfl⟩
          · cases hmem
          · simp at hmem
          · simp at hmem

end Watches

/-- A report of complete acknowledgements, however stale its readings of `is_finished`,
means that for each writer the last submitted snapshot, or one given after it, was saved.
If `shutdown` was not called, the last snapshot given to each writer was saved; for the
language writer also if it was. -/
theorem requiredAcknowledgmentsComplete_sound {actions : List (Action C A L)}
    {p : PreferencePersistence C A L} {h : List (Observation C A L)} (finished : Finished)
    (hrun : Machine.run PreferencePersistence.step spawned actions = some (p, h))
    (hreport : p.requiredAcknowledgmentsComplete finished = true) :
    SubmitsSaved (columnsOf h) ∧ SubmitsSaved (appearanceOf h) ∧
      SubmitsSaved (languageOf h) ∧ LatestSaved (languageOf h) ∧
      ((∀ snapshot result, .shutdownWith snapshot result ∉ columnsOf h) →
        LatestSaved (columnsOf h)) ∧
      ((∀ snapshot result, .shutdownWith snapshot result ∉ appearanceOf h) →
        LatestSaved (appearanceOf h)) := by
  obtain ⟨⟨columns, hcolumns, htracks⟩, ⟨appearance, happearance, htracks'⟩,
    ⟨language, hlanguage, htracks''⟩, hkeeps⟩ :=
    run_invariant (fun hp hstep => Watches.step hp hstep) Watches.spawned hrun
  simp only [requiredAcknowledgmentsComplete, hcolumns, happearance, hlanguage,
    Option.any_some, Bool.and_eq_true] at hreport
  obtain ⟨⟨⟨-, hcolumn⟩, -, hshape⟩, -, hlanguage⟩ := hreport
  have hsaved := htracks.submitsSaved hcolumn
  have hsaved' := htracks'.submitsSaved hshape
  have hsaved'' := htracks''.submitsSaved hlanguage
  exact ⟨hsaved, hsaved', hsaved'', hsaved''.latest hkeeps, hsaved.latest, hsaved'.latest⟩

/-- A column snapshot is submitted, saved and its result drained. -/
def savedColumns : List (Action ℕ ℕ ℕ) :=
  [.submitColumns 7 false, .columnsWorker (.ok ()), .columnsWorker (.ok ()),
    .columnsWorker (.ok ()), .drain false]

def savedColumnsHistory : List (Observation ℕ ℕ ℕ) :=
  [.columns (.submit 7 (.ok 1)), .columns (.handed 1 7), .columns (.emitted (.saved 1))]

def savedColumnsState : PreferencePersistence ℕ ℕ ℕ :=
  { (spawned : PreferencePersistence ℕ ℕ ℕ) with
    columns := some ⟨{}, [], .polling, 1⟩
    columnStatus := { requestedGeneration := some 1, savedGeneration := some 1 } }

theorem requiredAcknowledgmentsComplete_sound_savedColumns :
    SubmitsSaved (columnsOf savedColumnsHistory) ∧
      LatestSaved (columnsOf savedColumnsHistory) := by
  have hrun : Machine.run PreferencePersistence.step spawned savedColumns =
      some (savedColumnsState, savedColumnsHistory) := rfl
  have h := requiredAcknowledgmentsComplete_sound ⟨false, false, false⟩ hrun rfl
  exact ⟨h.1, h.2.2.2.2.1 (by simp [columnsOf, savedColumnsHistory])⟩

/-- Right after `shutdown` the report is as it was before, though the writers have just been
given snapshots that are not even handed to `save` yet. -/
theorem requiredAcknowledgmentsComplete_ignores_shutdown :
    ¬ ∀ (actions : List (Action ℕ ℕ ℕ)) (p : PreferencePersistence ℕ ℕ ℕ)
      (h : List (Observation ℕ ℕ ℕ)) (finished : Finished),
      Machine.run PreferencePersistence.step spawned actions = some (p, h) →
        (canRead p.columns finished.columns && canRead p.appearance finished.appearance &&
          canRead p.language finished.language) = true →
        p.requiredAcknowledgmentsComplete finished = true →
          LatestSaved (columnsOf h) ∧ LatestSaved (appearanceOf h) ∧
            LatestSaved (languageOf h) := by
  intro hsound
  have hrun : Machine.run PreferencePersistence.step
      (spawned : PreferencePersistence ℕ ℕ ℕ) [.shutdown 7 8 ⟨false, false, false⟩] =
      some (⟨some ⟨⟨some ⟨1, 7⟩, true⟩, [], .polling, 1⟩,
          some ⟨⟨some ⟨1, 8⟩, true⟩, [], .polling, 1⟩, {}, {},
          some ⟨⟨none, true⟩, [], .polling, 0⟩, {}, false⟩,
        [.language .requestShutdown, .columns (.shutdownWith 7 (.ok 1)),
          .appearance (.shutdownWith 8 (.ok 1))]) := rfl
  have hnewest : Newest [.shutdownWith 7 (.ok 1)] 0 (⟨1, 7⟩ : PreferenceRequest ℕ) := by
    refine ⟨rfl, fun j hj => ?_⟩
    rw [acceptedAt, List.getElem?_eq_none (Nat.succ_le_of_lt hj), Option.bind_none]
  obtain ⟨j, l, hj, -, hhanded, -⟩ :=
    (hsound _ _ _ ⟨false, false, false⟩ hrun rfl rfl).1 0 ⟨1, 7⟩ hnewest
  simp only [columnsOf, List.filterMap_cons, List.filterMap_nil] at hhanded
  rw [List.getElem?_eq_none (Nat.succ_le_of_lt hj)] at hhanded
  cases hhanded

end PreferencePersistence

end DarkReNamer
