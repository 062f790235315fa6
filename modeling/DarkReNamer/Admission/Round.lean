import DarkReNamer.Admission.Queue

/-!
# One round of the traversal

What one round does to the collector, for every answer of the adapter: it takes the top of the
stack, starts one inspection, and either queues children within the read bounds or admits one
path within the budget or only reports. The log of calls is read for the number of
inspections started and for the identities of the directories enumerated.
-/

namespace DarkReNamer

namespace Admission

open Interaction

variable {P σ : Type} {adapter : Environment σ (AdmissionCall P) AdmissionAnswer}

/-- What a log of calls tells: the inspections started, the identity last observed, and the
identities of the directories that were enumerated. -/
structure LogReading where
  started : ℕ := 0
  identity : Option EntryIdentity := none
  enumerated : List EntryIdentity := []

def LogReading.note (r : LogReading) :
    Event (AdmissionCall P) AdmissionAnswer → LogReading
  | ⟨.inspectionStarted _, _⟩ => { r with started := r.started + 1 }
  | ⟨.metadata _, .ok metadata⟩ => { r with identity := metadata.directoryIdentity }
  | ⟨.metadata _, .error _⟩ => { r with identity := none }
  | ⟨.readChildrenCancellable _ _, _⟩ =>
    { r with enumerated := r.enumerated ++ r.identity.toList }
  | _ => r

def readLog (log : List (Event (AdmissionCall P) AdmissionAnswer)) : LogReading :=
  log.foldl .note {}

@[simp] theorem readLog_snoc (log : List (Event (AdmissionCall P) AdmissionAnswer))
    (event : Event (AdmissionCall P) AdmissionAnswer) :
    readLog (log ++ [event]) = (readLog log).note event := by
  simp [readLog]

theorem note_of_quiet {c : AdmissionCall P} (hquiet : Quiet c) (r : LogReading)
    (a : AdmissionAnswer c) : r.note ⟨c, a⟩ = r := by
  cases c with
  | inspectionStarted | metadata | readChildrenCancellable => exact hquiet.elim
  | cancellationRequested | validatePath | legacyPath | pathUtf16Units => rfl

/-- The bound on inspections, and no identity enumerated twice. -/
def Fine (capacity : ℕ) (s : σ × List (Event (AdmissionCall P) AdmissionAnswer)) : Prop :=
  (readLog s.2).started ≤ capacity ∧ (readLog s.2).enumerated.Nodup

/-- The log agrees with the collector that the calls have led to. -/
structure Recorded (c : Collector P) (r : LogReading) : Prop where
  started : r.started = c.inspected
  nodup : r.enumerated.Nodup
  seen : ∀ identity ∈ r.enumerated, identity ∈ c.seenDirectories

theorem Recorded.of_queues {c c' : Collector P} {queued : List (QueuedPath P)} {r : LogReading}
    (h : Recorded c r) (hqueues : Queues adapter c c' queued) : Recorded c' r :=
  ⟨h.started.trans hqueues.inspected.symm, h.nodup, hqueues.seenDirectories ▸ h.seen⟩

theorem Recorded.fine {c : Collector P} {capacity : ℕ} (e : σ)
    {log : List (Event (AdmissionCall P) AdmissionAnswer)} (h : Recorded c (readLog log))
    (hroom : c.inspected ≤ capacity) : Fine capacity (e, log) :=
  ⟨h.started.trans_le hroom, h.nodup⟩

/-- A program of quiet calls leaves the reading of the log alone. -/
theorem spec_quiet {α : Type} {p : Admission P α} {ok ok' : α → Prop} {capacity : ℕ}
    (h : Yields adapter ok p) (hquiet : Tries Measuring ok' p) {e : σ}
    {log : List (Event (AdmissionCall P) AdmissionAnswer)} (hfine : Fine capacity (e, log)) :
    Spec adapter.logged (Fine capacity) p.run
      (fun r t => readLog t.2 = readLog log ∧ ∀ a, r = .ok a → ok a) (e, log) := by
  refine (Yields.quiet (fun log' => readLog log' = readLog log) h hquiet ?_ rfl).mono_crash
    fun t ht => ?_
  · intro log' c a hc hlog'
    rw [readLog_snoc, note_of_quiet hc.quiet, hlog']
  · have ht' : readLog t.2 = readLog log := ht
    exact ⟨ht' ▸ hfine.1, ht' ▸ hfine.2⟩

/-- A probe, and what follows it. -/
theorem spec_poll {α : Type} {f : Unit → Admission P α} {capacity : ℕ}
    {post : Except AdmissionCancelled α → σ × List (Event (AdmissionCall P) AdmissionAnswer) →
      Prop} {e : σ} {log : List (Event (AdmissionCall P) AdmissionAnswer)}
    (hfine : Fine capacity (e, log)) (herror : ∀ err t, post (.error err) t)
    (h : ∀ e' log', readLog log' = readLog log →
      Spec adapter.logged (Fine capacity) (f ()).run post (e', log')) :
    Spec adapter.logged (Fine capacity) (poll >>= f).run post (e, log) := by
  refine Spec.except_bind (spec_quiet (Yields.of_tries tries_poll) tries_poll hfine) ?_
    fun err t _ _ => herror err t
  rintro ⟨⟩ ⟨e', log'⟩ ⟨hlog', -⟩
  exact h e' log' hlog'

/-- A call, and what follows it. -/
theorem spec_call {α : Type} {c : AdmissionCall P} {f : AdmissionAnswer c → Admission P α}
    {capacity : ℕ} {post : Except AdmissionCancelled α →
      σ × List (Event (AdmissionCall P) AdmissionAnswer) → Prop} {e : σ}
    {log : List (Event (AdmissionCall P) AdmissionAnswer)} (hfine : Fine capacity (e, log))
    (h : ∀ a e', adapter e c a e' →
      Spec adapter.logged (Fine capacity) (f a).run post (e', log ++ [⟨c, a⟩])) :
    Spec adapter.logged (Fine capacity) (call c >>= f).run post (e, log) := by
  refine Spec.except_ask_bind hfine ?_
  rintro a ⟨e', log'⟩ ⟨hstep, hlog'⟩
  have heq : log' = log ++ [⟨c, a⟩] := hlog'
  exact heq ▸ h a e' hstep

section Round

variable (isAbsolute : P → Bool) (comparePaths : P → P → Ordering) (mode : AdmissionMode)
  (capacity : ℕ)

/-- What enumerating an entry can do. -/
def Enumerates (adapter : Environment σ (AdmissionCall P) AdmissionAnswer) (capacity : ℕ)
    (entry : QueuedPath P) (c c' : Collector P) : Prop :=
  ∃ queued, Queues adapter c c' queued ∧
    queued.length ≤ capacity - c.inspected - c.stack.length ∧
    (∀ q ∈ queued, q.depth = entry.depth + 1 ∧ q.depth ≤ maxAdmissionDepth) ∧
    ∀ measure, Measures adapter measure →
      queuedBytes queued ≤ c.pathBudget.remainingBytes - c.stackPathBytes

theorem Enumerates.skip (entry : QueuedPath P) (c : Collector P) (path : P)
    (kind : AdmissionIssueKind) (error : Option AdmissionAdapterError) :
    Enumerates adapter capacity entry c (c.pushIssue path kind error) :=
  ⟨[], (Queues.refl adapter c).pushIssue path kind error, by simp, by simp, by simp⟩

theorem spec_enumerate (entry : QueuedPath P) (c : Collector P) (e : σ)
    {log : List (Event (AdmissionCall P) AdmissionAnswer)}
    (hstarted : (readLog log).started = c.inspected) (hroom : c.inspected ≤ capacity)
    (hnodup : ((readLog log).enumerated ++ (readLog log).identity.toList).Nodup)
    (hseen : ∀ identity ∈ (readLog log).enumerated ++ (readLog log).identity.toList,
      identity ∈ c.seenDirectories) :
    Spec adapter.logged (Fine capacity) (enumerate comparePaths capacity entry c).run
      (LoopPost (fun c' s => Enumerates adapter capacity entry c c' ∧ Recorded c' (readLog s.2))
        (fun c' _ => c'.report.items = c.report.items) fun _ _ => True) (e, log) := by
  have hfine : Fine capacity (e, log) :=
    ⟨hstarted.trans_le hroom, (List.nodup_append.1 hnodup).1⟩
  have hrecorded : Recorded c (readLog log) :=
    ⟨hstarted, hfine.2, fun identity h => hseen identity (List.mem_append_left _ h)⟩
  unfold enumerate
  split
  · exact ⟨hfine, .skip capacity entry c _ _ _, hrecorded.of_queues
      ((Queues.refl adapter c).pushIssue _ _ _)⟩
  · rename_i hdepth
    dsimp only
    split
    · exact ⟨hfine, rfl⟩
    · refine spec_call hfine fun answer e' _ => ?_
      -- The read is in the log before its children are looked at.
      have hfine' : Fine capacity (e', log ++ [⟨.readChildrenCancellable entry.path
          ⟨capacity - c.inspected - c.stack.length,
            c.pathBudget.remainingBytes - c.stackPathBytes⟩, answer⟩]) := by
        rw [Fine, readLog_snoc]
        exact ⟨hstarted.trans_le hroom, hnodup⟩
      have hrecorded' : Recorded c (readLog (log ++ [⟨.readChildrenCancellable entry.path
          ⟨capacity - c.inspected - c.stack.length,
            c.pathBudget.remainingBytes - c.stackPathBytes⟩, answer⟩])) := by
        rw [readLog_snoc]
        exact ⟨hstarted, hnodup, hseen⟩
      cases answer with
      | ok children =>
          refine Spec.except_bind (spec_quiet (yields_takeChildren comparePaths entry _ children c
            adapter) (tries_takeChildren comparePaths entry _ children c) hfine') ?_
            fun _ _ _ _ => trivial
          rintro c' ⟨e'', log''⟩ ⟨hlog'', hc'⟩
          have hlog : readLog log'' = _ := hlog''
          obtain ⟨queued, hqueues, hlength, hchild, hbytes⟩ := hc' c' rfl
          refine ⟨by rw [Fine, hlog]; exact hfine', ⟨queued, hqueues, hlength, ?_, ?_⟩, ?_⟩
          · intro q hq
            have := hchild q hq
            omega
          · intro measure hmeasure
            exact (queuedBytes_le_measuredBytes (hqueues.measured measure hmeasure)).trans
              (hbytes measure hmeasure)
          · rw [hlog]
            exact hrecorded'.of_queues hqueues
      | error error =>
          cases error with
          | cancelled => exact ⟨hfine', trivial⟩
          | adapter error =>
              exact ⟨hfine', .skip capacity entry c _ _ _, hrecorded'.of_queues
                ((Queues.refl adapter c).pushIssue _ _ _)⟩

/-- What admitting an entry can do. -/
structure Admits (adapter : Environment σ (AdmissionCall P) AdmissionAnswer)
    (entry : QueuedPath P) (c c' : Collector P) : Prop where
  stack : c'.stack = c.stack
  stackPathBytes : c'.stackPathBytes = c.stackPathBytes
  seenDirectories : c'.seenDirectories = c.seenDirectories
  inspected : c'.inspected = c.inspected
  item : ∃ item : LegacyListItem, c'.report.items = c.report.items ++ [item] ∧
    item.sourcePath.units.length * sizeOfU16 ≤ c.pathBudget.remainingBytes ∧
    c'.pathBudget = c.pathBudget.spend (item.sourcePath.units.length * sizeOfU16) ∧
    ∀ measure, Measures adapter measure →
      item.sourcePath.units.length = measure entry.path

theorem spec_admitEntry (entry : QueuedPath P) (metadata : AdmissionMetadata) (c : Collector P)
    (e : σ) {log : List (Event (AdmissionCall P) AdmissionAnswer)}
    (hrecorded : Recorded c (readLog log)) (hroom : c.inspected ≤ capacity) :
    Spec adapter.logged (Fine capacity) (admitEntry entry metadata c).run
      (LoopPost (fun c' s => Admits adapter entry c c' ∧ Recorded c' (readLog s.2))
        (fun c' _ => c'.report.items = c.report.items) fun _ _ => True) (e, log) := by
  have hfine : Fine capacity (e, log) := hrecorded.fine e hroom
  unfold admitEntry
  refine spec_call hfine fun legacyPath e' hlegacy => ?_
  have hlog : readLog (log ++ [⟨.legacyPath entry.path, legacyPath⟩]) = readLog log := by
    rw [readLog_snoc, note_of_quiet (c := .legacyPath entry.path) trivial]
  have hfine' : Fine capacity (e', log ++ [⟨.legacyPath entry.path, legacyPath⟩]) := by
    rw [Fine, hlog]
    exact hfine
  rcases Nat.lt_or_ge c.pathBudget.remainingBytes (legacyPath.units.length * sizeOfU16)
    with hlt | hle
  · simp only [PathBudget.reserveUtf16Units_of_lt hlt]
    exact ⟨hfine', rfl⟩
  · simp only [PathBudget.reserveUtf16Units_of_le hle]
    refine ⟨hfine', ?_, hlog ▸ ⟨hrecorded.started, hrecorded.nodup, hrecorded.seen⟩⟩
    exact
      { stack := rfl
        stackPathBytes := rfl
        seenDirectories := rfl
        inspected := rfl
        item := ⟨_, rfl, hle, rfl,
          fun measure hmeasure => hmeasure.legacy e entry.path legacyPath e' hlegacy⟩ }

/-- One round, by the entry it takes and the entries it queues. -/
structure Advances (adapter : Environment σ (AdmissionCall P) AdmissionAnswer) (capacity : ℕ)
    (c c' : Collector P) (entry : QueuedPath P) (rest queued : List (QueuedPath P)) : Prop where
  top : c.stack = entry :: rest
  inspected : c'.inspected = c.inspected + 1
  stack : c'.stack = queued ++ rest
  limit : queued.length ≤ capacity - c'.inspected - rest.length
  stackPathBytes : c'.stackPathBytes = countBytes (c.stackPathBytes - entry.pathBytes) queued
  depth : ∀ q ∈ queued, q.depth = entry.depth + 1 ∧ q.depth ≤ maxAdmissionDepth
  measured : ∀ measure, Measures adapter measure →
    (∀ q ∈ queued, q.pathBytes = pathBytesOf (measure q.path)) ∧
    queuedBytes queued ≤ c.pathBudget.remainingBytes - (c.stackPathBytes - entry.pathBytes)
  settled : c'.pathBudget = c.pathBudget ∧ c'.report.items = c.report.items ∨
    queued = [] ∧ ∃ item : LegacyListItem, c'.report.items = c.report.items ++ [item] ∧
      item.sourcePath.units.length * sizeOfU16 ≤ c.pathBudget.remainingBytes ∧
      c'.pathBudget = c.pathBudget.spend (item.sourcePath.units.length * sizeOfU16) ∧
      ∀ measure, Measures adapter measure →
        item.sourcePath.units.length = measure entry.path

/-- The collector once the entry is taken and its inspection has started. -/
def taken (c : Collector P) (entry : QueuedPath P) (rest : List (QueuedPath P))
    (seen : List EntryIdentity) : Collector P :=
  { c.pop entry rest with inspected := c.inspected + 1, seenDirectories := seen }

variable {capacity}

theorem Advances.of_enumerates {c c' : Collector P} {entry : QueuedPath P}
    {rest : List (QueuedPath P)} {seen : List EntryIdentity} (htop : c.stack = entry :: rest)
    (h : Enumerates adapter capacity entry (taken c entry rest seen) c') :
    ∃ queued, Advances adapter capacity c c' entry rest queued := by
  obtain ⟨queued, hqueues, hlength, hdepth, hbytes⟩ := h
  exact ⟨queued,
    { top := htop
      inspected := hqueues.inspected
      stack := hqueues.stack
      limit := by rw [hqueues.inspected]; exact hlength
      stackPathBytes := hqueues.stackPathBytes
      depth := hdepth
      measured := fun measure hmeasure => ⟨hqueues.measured measure hmeasure,
        hbytes measure hmeasure⟩
      settled := .inl ⟨hqueues.pathBudget, hqueues.items⟩ }⟩

theorem Advances.of_admits {c c' : Collector P} {entry : QueuedPath P}
    {rest : List (QueuedPath P)} {seen : List EntryIdentity} (htop : c.stack = entry :: rest)
    (h : Admits adapter entry (taken c entry rest seen) c') :
    ∃ queued, Advances adapter capacity c c' entry rest queued :=
  ⟨[],
    { top := htop
      inspected := h.inspected
      stack := h.stack
      limit := Nat.zero_le _
      stackPathBytes := h.stackPathBytes
      depth := by simp
      measured := by simp
      settled := .inr ⟨rfl, h.item⟩ }⟩

/-- What holds after a round from `c` that does not end the loop. -/
def RoundPost (adapter : Environment σ (AdmissionCall P) AdmissionAnswer) (capacity : ℕ)
    (c : Collector P) : Except AdmissionCancelled (Control (Collector P)) →
      σ × List (Event (AdmissionCall P) AdmissionAnswer) → Prop :=
  LoopPost (fun c' s => (∃ entry rest queued,
      Advances adapter capacity c c' entry rest queued) ∧ Recorded c' (readLog s.2))
    (fun c' _ => c'.report.items = c.report.items) fun _ _ => True

theorem spec_settle {c : Collector P} {entry : QueuedPath P} {rest : List (QueuedPath P)}
    (htop : c.stack = entry :: rest) (metadata : AdmissionMetadata) (e : σ)
    {log : List (Event (AdmissionCall P) AdmissionAnswer)}
    (hrecorded : Recorded (taken c entry rest c.seenDirectories) (readLog log))
    (hidentity : (readLog log).identity = metadata.directoryIdentity)
    (hroom : c.inspected < capacity) :
    Spec adapter.logged (Fine capacity)
      (settle comparePaths mode capacity entry metadata
        (taken c entry rest c.seenDirectories)).run
      (RoundPost adapter capacity c) (e, log) := by
  have hfine : Fine capacity (e, log) := hrecorded.fine e hroom
  have hskip (kind : AdmissionIssueKind) : Spec adapter.logged (Fine capacity)
      (pure (.next ((taken c entry rest c.seenDirectories).pushIssue entry.path kind)) :
        Admission P (Control (Collector P))).run (RoundPost adapter capacity c) (e, log) :=
    ⟨hfine, ⟨entry, rest, Advances.of_enumerates htop (.skip capacity entry _ _ _ _)⟩,
      hrecorded.of_queues ((Queues.refl adapter _).pushIssue _ _ _)⟩
  have hkeep (seen : List EntryIdentity)
      (hrecorded : Recorded (taken c entry rest seen) (readLog log)) :
      Spec adapter.logged (Fine capacity) (admitEntry entry metadata (taken c entry rest seen)).run
        (RoundPost adapter capacity c) (e, log) := by
    refine (spec_admitEntry capacity entry metadata _ e hrecorded hroom).mono ?_
    rintro r t hr
    cases r with
    | error err => trivial
    | ok control =>
        cases control with
        | next c' => exact ⟨⟨entry, rest, Advances.of_admits htop hr.1⟩, hr.2⟩
        | done c' => exact hr
  unfold settle
  split
  · exact hskip _
  · split
    · split
      · exact hskip _
      · rename_i hfresh
        -- The identity observed for this entry is none of those enumerated before.
        have hnew : ∀ identity ∈ metadata.directoryIdentity.toList,
            identity ∉ c.seenDirectories := by
          intro identity hmem hold
          have hidentity : metadata.directoryIdentity = some identity := by simpa using hmem
          refine hfresh ?_
          simpa [hidentity, taken] using hold
        have hseen : ∀ identity ∈ (readLog log).enumerated ++ metadata.directoryIdentity.toList,
            identity ∈ metadata.directoryIdentity.toList ++ c.seenDirectories := by
          intro identity hmem
          rcases List.mem_append.1 hmem with hmem | hmem
          · exact List.mem_append_right _ (hrecorded.seen identity hmem)
          · exact List.mem_append_left _ hmem
        cases mode with
        | direct =>
            exact hkeep (metadata.directoryIdentity.toList ++ c.seenDirectories)
              ⟨hrecorded.started, hrecorded.nodup, fun identity hmem =>
                hseen identity (List.mem_append_left _ hmem)⟩
        | recurse =>
            have hnodup : ((readLog log).enumerated ++
                metadata.directoryIdentity.toList).Nodup := by
              refine List.nodup_append.2 ⟨hrecorded.nodup, ?_, ?_⟩
              · cases metadata.directoryIdentity <;> simp
              · rintro identity hold _ hmem rfl
                exact hnew identity hmem (hrecorded.seen identity hold)
            refine (spec_enumerate comparePaths capacity entry
              (taken c entry rest (metadata.directoryIdentity.toList ++ c.seenDirectories)) e
              hrecorded.started hroom (hidentity ▸ hnodup) (hidentity ▸ hseen)).mono ?_
            rintro r t hr
            cases r with
            | error err => trivial
            | ok control =>
                cases control with
                | next c' => exact ⟨⟨entry, rest, Advances.of_enumerates htop hr.1⟩, hr.2⟩
                | done c' => exact hr
    · exact hkeep _ hrecorded

/-- One round of the traversal, from a collector that its log agrees with. -/
theorem spec_inspect {c : Collector P} (hcount : c.inspected + c.stack.length ≤ capacity)
    (e : σ) {log : List (Event (AdmissionCall P) AdmissionAnswer)}
    (hrecorded : Recorded c (readLog log)) :
    Spec adapter.logged (Fine capacity) (inspect isAbsolute comparePaths mode capacity c).run
      (RoundPost adapter capacity c) (e, log) := by
  have hfine : Fine capacity (e, log) := hrecorded.fine e (by omega)
  unfold inspect
  split
  · exact ⟨hfine, rfl⟩
  · rename_i entry rest htop
    have hroom : c.inspected < capacity := by
      rw [htop, List.length_cons] at hcount
      omega
    refine spec_poll hfine (fun _ _ => trivial) fun e₁ log₁ hlog₁ => ?_
    have hopen : ¬ (c.pop entry rest).inspected ≥ capacity := Nat.not_le.2 hroom
    rw [if_neg hopen]
    have hfine₁ : Fine capacity (e₁, log₁) := by rw [Fine, hlog₁]; exact hfine
    refine spec_call hfine₁ fun _ e₂ _ => ?_
    set log₂ := log₁ ++ [(⟨.inspectionStarted (c.inspected + 1), ()⟩ :
      Event (AdmissionCall P) AdmissionAnswer)] with hlog₂
    have hrecorded₂ : Recorded (taken c entry rest c.seenDirectories) (readLog log₂) := by
      rw [hlog₂, readLog_snoc, hlog₁]
      exact ⟨congrArg (· + 1) hrecorded.started, hrecorded.nodup, hrecorded.seen⟩
    -- An entry that is only reported.
    have hskip {e' : σ} {log' : List (Event (AdmissionCall P) AdmissionAnswer)}
        (hrecorded' : Recorded (taken c entry rest c.seenDirectories) (readLog log'))
        (kind : AdmissionIssueKind) (error : Option AdmissionAdapterError) :
        Spec adapter.logged (Fine capacity)
          (pure (.next ((taken c entry rest c.seenDirectories).pushIssue entry.path kind error)) :
            Admission P (Control (Collector P))).run (RoundPost adapter capacity c) (e', log') :=
      ⟨hrecorded'.fine e' hroom,
        ⟨entry, rest, Advances.of_enumerates htop (.skip capacity entry _ _ _ _)⟩,
        hrecorded'.of_queues ((Queues.refl adapter _).pushIssue _ _ _)⟩
    split
    · exact hskip hrecorded₂ _ _
    · refine spec_call (hrecorded₂.fine e₂ hroom) fun validated e₃ _ => ?_
      have hlog₃ : readLog (log₂ ++ [⟨.validatePath entry.path, validated⟩]) = readLog log₂ := by
        rw [readLog_snoc, note_of_quiet (c := .validatePath entry.path) trivial]
      have hrecorded₃ := hlog₃ ▸ hrecorded₂
      cases validated with
      | error error => exact hskip hrecorded₃ _ _
      | ok _ =>
          refine spec_poll (hrecorded₃.fine e₃ hroom) (fun _ _ => trivial)
            fun e₄ log₄ hlog₄ => ?_
          have hrecorded₄ : Recorded (taken c entry rest c.seenDirectories) (readLog log₄) :=
            hlog₄ ▸ hrecorded₃
          refine spec_call (hrecorded₄.fine e₄ hroom) fun observed e₅ _ => ?_
          have hrecorded₅ : Recorded (taken c entry rest c.seenDirectories)
              (readLog (log₄ ++ [⟨.metadata entry.path, observed⟩])) := by
            rw [readLog_snoc]
            cases observed <;> exact ⟨hrecorded₄.started, hrecorded₄.nodup, hrecorded₄.seen⟩
          cases observed with
          | error error => exact hskip hrecorded₅ _ _
          | ok metadata =>
              refine spec_poll (hrecorded₅.fine e₅ hroom) (fun _ _ => trivial)
                fun e₆ log₆ hlog₆ => ?_
              refine spec_settle comparePaths mode htop metadata e₆ (hlog₆ ▸ hrecorded₅) ?_ hroom
              rw [hlog₆, readLog_snoc]
              rfl

/-- Only the entry on top is enumerated, and only above the depth limit. -/
def ReadsTop (c : Collector P) (call : AdmissionCall P) : Prop :=
  ∀ path budget, call = .readChildrenCancellable path budget →
    ∃ entry rest, c.stack = entry :: rest ∧ path = entry.path ∧ entry.depth < maxAdmissionDepth

theorem tries_inspect (c : Collector P) :
    Tries (ReadsTop c) (fun _ => True) (inspect isAbsolute comparePaths mode capacity c) := by
  have hquiet {call : AdmissionCall P} (h : Quiet call) : ReadsTop c call := by
    rintro path budget rfl
    exact h.elim
  have hpoll : Tries (ReadsTop c) (fun _ => True) (poll : Admission P Unit) :=
    Confined.mono_calls tries_poll fun _ h => hquiet h.quiet
  have hcall {call : AdmissionCall P} (h : ∀ path budget,
      call ≠ .readChildrenCancellable path budget) :
      Tries (ReadsTop c) (fun _ => True) (Admission.call call) :=
    Tries.ask fun path budget heq => (h path budget heq).elim
  unfold inspect
  split
  · exact Tries.pure trivial
  · rename_i entry rest htop
    have hkeep (metadata : AdmissionMetadata) (c' : Collector P) :
        Tries (ReadsTop c) (fun _ => True) (admitEntry entry metadata c') := by
      unfold admitEntry
      refine (hcall (by simp)).bind fun legacyPath _ => ?_
      split
      split
      · exact Tries.pure trivial
      · exact Tries.pure trivial
    have htake (entry : QueuedPath P) (readBudget : AdmissionReadBudget)
        (children : AdmissionChildren P) (c' : Collector P) : Tries (ReadsTop c) (fun _ => True)
        (takeChildren comparePaths entry readBudget children c') :=
      Confined.mono_calls (tries_takeChildren comparePaths entry readBudget children c')
        fun _ h => hquiet h.quiet
    refine hpoll.bind fun _ _ => ?_
    split
    · exact Tries.pure trivial
    · refine (hcall (by simp)).bind fun _ _ => ?_
      split
      · exact Tries.pure trivial
      · refine (hcall (by simp)).bind fun validated _ => ?_
        split
        · exact Tries.pure trivial
        · refine hpoll.bind fun _ _ => (hcall (by simp)).bind fun observed _ => ?_
          split
          · exact Tries.pure trivial
          · refine hpoll.bind fun _ _ => ?_
            unfold settle
            split
            · exact Tries.pure trivial
            · split
              · split
                · exact Tries.pure trivial
                · split
                  · unfold enumerate
                    split
                    · exact Tries.pure trivial
                    · rename_i hdepth
                      dsimp only
                      split
                      · exact Tries.pure trivial
                      · refine (Tries.ask ?_).bind fun answer _ => ?_
                        · rintro path budget heq
                          obtain ⟨rfl, -⟩ := AdmissionCall.readChildrenCancellable.inj heq
                          exact ⟨entry, rest, htop, rfl, Nat.not_le.1 hdepth⟩
                        · split
                          · exact Tries.bind (htake _ _ _ _) fun _ _ => Tries.pure trivial
                          · exact Tries.throw _
                          · exact Tries.pure trivial
                  · exact hkeep _ _
              · exact hkeep _ _

end Round

end Admission

end DarkReNamer
