import DarkReNamer.Admission.Bounds

/-!
# What becomes of the paths

The calls of a run tell which paths were kept to be inspected: the roots within the capacity
and the children of each read within its limit. As long as no issue of the byte budget is
reported, each of them is admitted, enumerated, reported or waiting, as often as it was kept;
and whatever was not kept is owed an issue, which the report has.
-/

namespace DarkReNamer

namespace Admission

open Interaction

variable {P σ : Type} {adapter : Environment σ (AdmissionCall P) AdmissionAnswer}

/-- What a log tells of the paths: those kept, admitted and enumerated, the issues owed for
those that were not kept, and the path of the last inspection when that has found a directory. -/
structure Tally (P : Type) where
  inspected : ℕ
  directory : Option P
  kept : List P
  admitted : List (P × LegacyText)
  enumerated : List P
  owed : List (P × AdmissionIssueKind)

/-- The issues owed for what a read left out. -/
def owedFor (path : P) (budget : AdmissionReadBudget) :
    Except AdmissionReadError (AdmissionChildren P) → List (P × AdmissionIssueKind)
  | .ok children =>
    (if children.hadErrors then [(path, .readDirectory)] else []) ++
      if children.truncated || decide (children.paths.length > budget.pathLimit) then
        [(path, .limitReached)]
      else
        []
  | .error (.adapter _) => [(path, .readDirectory)]
  | .error .cancelled => []

def Tally.note (t : Tally P) : Event (AdmissionCall P) AdmissionAnswer → Tally P
  | ⟨.inspectionStarted _, _⟩ => { t with inspected := t.inspected + 1, directory := none }
  | ⟨.metadata path, .ok metadata⟩ =>
    { t with directory := if metadata.isDirectory then some path else none }
  | ⟨.legacyPath path, text⟩ => { t with admitted := t.admitted ++ [(path, text)] }
  | ⟨.readChildrenCancellable path budget, .ok children⟩ =>
    { t with
      kept := t.kept ++ children.paths.take budget.pathLimit
      enumerated := t.enumerated ++ [path]
      owed := t.owed ++ owedFor path budget (.ok children) }
  | ⟨.readChildrenCancellable path budget, .error error⟩ =>
    { t with owed := t.owed ++ owedFor path budget (.error error) }
  | _ => t

/-- Before the first call the roots within the capacity are kept. -/
def Tally.start (capacity : ℕ) (roots : List P) : Tally P where
  inspected := 0
  directory := none
  kept := roots.take capacity
  admitted := []
  enumerated := []
  owed := roots[capacity]?.toList.map fun root => (root, .limitReached)

def Tally.read (t : Tally P) (log : List (Event (AdmissionCall P) AdmissionAnswer)) : Tally P :=
  log.foldl .note t

@[simp] theorem Tally.read_snoc (t : Tally P)
    (log : List (Event (AdmissionCall P) AdmissionAnswer))
    (event : Event (AdmissionCall P) AdmissionAnswer) :
    t.read (log ++ [event]) = (t.read log).note event := by
  simp [Tally.read]

theorem Tally.note_of_measuring (t : Tally P) {c : AdmissionCall P} (h : Measuring c)
    (a : AdmissionAnswer c) : t.note ⟨c, a⟩ = t := by
  cases c with
  | cancellationRequested | pathUtf16Units => rfl
  | _ => exact h.elim

/-- No issue of the byte budget. -/
def WithinBytes (issues : List (AdmissionIssue P)) : Prop :=
  ∀ issue ∈ issues, issue.kind ≠ .pathBudgetExceeded

/-- The tally and the report agree, with the paths that are still waiting. -/
structure Balanced (t : Tally P) (report : AdmissionReport P) (waiting : List P) : Prop where
  paths : ∃ reported : List (AdmissionIssue P), reported.Sublist report.issues ∧
    t.kept.Perm (t.admitted.map Prod.fst ++ t.enumerated ++ reported.map (·.path) ++ waiting)
  items : report.items.map (·.sourcePath) = t.admitted.map Prod.snd
  owed : ∀ entry ∈ t.owed, ∃ issue ∈ report.issues, issue.path = entry.1 ∧ issue.kind = entry.2

namespace Balanced

variable {t : Tally P} {report : AdmissionReport P} {path : P} {waiting waiting' : List P}

theorem inspect (h : Balanced t report waiting) (inspected : ℕ) (directory : Option P) :
    Balanced { t with inspected := inspected, directory := directory } report waiting :=
  ⟨h.paths, h.items, h.owed⟩

/-- The path on top is reported. -/
theorem skip (h : Balanced t report (path :: waiting)) (kind : AdmissionIssueKind)
    (error : Option AdmissionAdapterError) :
    Balanced t { report with issues := report.issues ++ [issue path kind error] } waiting := by
  obtain ⟨reported, hsublist, hperm⟩ := h.paths
  refine ⟨⟨reported ++ [issue path kind error], hsublist.append (.refl _), ?_⟩, h.items, ?_⟩
  · rw [List.map_append, ← List.append_assoc, List.append_assoc (_ ++ _)]
    exact hperm
  · intro entry hentry
    obtain ⟨issue, hmem, hissue⟩ := h.owed entry hentry
    exact ⟨issue, List.mem_append_left _ hmem, hissue⟩

/-- The path on top is admitted. -/
theorem keep (h : Balanced t report (path :: waiting)) (item : LegacyListItem) :
    Balanced { t with admitted := t.admitted ++ [(path, item.sourcePath)] }
      { report with items := report.items ++ [item] } waiting := by
  classical
  obtain ⟨reported, hsublist, hperm⟩ := h.paths
  refine ⟨⟨reported, hsublist, List.perm_iff_count.2 fun p => ?_⟩, ?_, h.owed⟩
  · have hcount := hperm.count_eq p
    simp only [List.map_append, List.map_cons, List.map_nil, List.count_append,
      List.count_cons, List.count_nil] at hcount ⊢
    omega
  · simp [h.items]

/-- The path on top is read, and its children wait with the rest. -/
theorem enumerate (h : Balanced t report (path :: waiting)) {children : List P}
    {owed : List (P × AdmissionIssueKind)} {issues : List (AdmissionIssue P)}
    (hwaiting : waiting'.Perm (children ++ waiting))
    (howed : ∀ entry ∈ owed, ∃ issue ∈ issues, issue.path = entry.1 ∧ issue.kind = entry.2) :
    Balanced
      { t with
        kept := t.kept ++ children
        enumerated := t.enumerated ++ [path]
        owed := t.owed ++ owed }
      { report with issues := report.issues ++ issues } waiting' := by
  classical
  obtain ⟨reported, hsublist, hperm⟩ := h.paths
  refine ⟨⟨reported, hsublist.trans (List.sublist_append_left _ _),
    List.perm_iff_count.2 fun p => ?_⟩, h.items, ?_⟩
  · have hcount := hperm.count_eq p
    have hcount' := hwaiting.count_eq p
    simp only [List.count_append, List.count_cons, List.count_nil] at hcount hcount' ⊢
    omega
  · intro entry hentry
    rcases List.mem_append.1 hentry with hentry | hentry
    · obtain ⟨issue, hmem, hissue⟩ := h.owed entry hentry
      exact ⟨issue, List.mem_append_left _ hmem, hissue⟩
    · obtain ⟨issue, hmem, hissue⟩ := howed entry hentry
      exact ⟨issue, List.mem_append_right _ hmem, hissue⟩

/-- Reading the path on top fails. -/
theorem unread (h : Balanced t report (path :: waiting)) (budget : AdmissionReadBudget)
    (error : AdmissionAdapterError) :
    Balanced { t with owed := t.owed ++ owedFor path budget (.error (.adapter error)) }
      { report with issues := report.issues ++ [issue path .readDirectory (some error)] }
      waiting := by
  have hskip := h.skip .readDirectory (some error)
  refine ⟨hskip.paths, hskip.items, fun entry hentry => ?_⟩
  rcases List.mem_append.1 hentry with hentry | hentry
  · exact hskip.owed entry hentry
  · obtain rfl := List.mem_singleton.1 hentry
    exact ⟨_, List.mem_append_right _ (List.mem_singleton.2 rfl), rfl, rfl⟩

end Balanced

section Children

/-! ### The children of a read -/

variable (comparePaths : P → P → Ordering) (entry : QueuedPath P)
  (readBudget : AdmissionReadBudget) (children : AdmissionChildren P) (c : Collector P)

/-- Queueing leaves the report alone. -/
theorem tries_pushPaths_stack (depth : ℕ) (paths : List P) (c : Collector P) :
    Tries Measuring (fun c' => c'.inspected = c.inspected ∧ c'.report = c.report ∧
        c'.stack.map (·.path) = paths.reverse ++ c.stack.map (·.path))
      (pushPaths depth paths c) := by
  induction paths generalizing c with
  | nil => exact Tries.pure ⟨rfl, rfl, rfl⟩
  | cons path paths ih =>
      refine tries_poll.bind fun _ _ => ?_
      refine (tries_call (c := .pathUtf16Units path) trivial).bind fun units _ => ?_
      refine (ih _).mono ?_
      rintro c' ⟨hinspected, hreport, hstack⟩
      refine ⟨hinspected, hreport, ?_⟩
      rw [hstack]
      simp [Collector.push]

/-- All children are verified, unless one exceeds the bytes. -/
theorem tries_verifyChildren_all (remaining : ℕ) (children : List P) (bytes len : ℕ) :
    Tries Measuring (fun r => r.2 = false → r.1 = len + children.length)
      (verifyChildren remaining children bytes len) := by
  induction children generalizing bytes len with
  | nil => exact Tries.pure fun _ => rfl
  | cons child children ih =>
      refine (tries_call (c := .pathUtf16Units child) trivial).bind fun units _ => ?_
      have hstop : Tries Measuring
          (fun r : ℕ × Bool => r.2 = false → r.1 = len + (child :: children).length)
          (pure (len, true) : Admission P (ℕ × Bool)) := Tries.pure (by simp)
      split
      · exact hstop
      · split
        · exact hstop
        · split
          · exact hstop
          · refine (ih _ _).mono fun r hr hfalse => ?_
            rw [hr hfalse, List.length_cons]
            omega

theorem pushIssue_if (c : Collector P) (b : Bool) (path : P) (kind : AdmissionIssueKind) :
    (if b then c.pushIssue path kind else c) = { c with
      report := { c.report with
        issues := c.report.issues ++ if b then [issue path kind none] else [] } } := by
  cases b
  · simp
  · rfl

/-- What is kept of a read is queued, and what is not is reported. -/
theorem tries_takeChildren_kept :
    Tries Measuring (fun c' => c'.inspected = c.inspected ∧ ∃ issues, c'.report =
        { c.report with issues := c.report.issues ++ issues } ∧
      (∀ owed ∈ owedFor entry.path readBudget (.ok children), ∃ issue ∈ issues,
        issue.path = owed.1 ∧ issue.kind = owed.2) ∧
      (WithinBytes issues → (c'.stack.map (·.path)).Perm
        (children.paths.take readBudget.pathLimit ++ c.stack.map (·.path))))
      (takeChildren comparePaths entry readBudget children c) := by
  unfold takeChildren
  refine (tries_verifyChildren_all _ _ 0 0).bind fun verified hverified => ?_
  refine (tries_sortPathsCancellable comparePaths _).bind fun sorted hsorted => ?_
  refine (tries_pushPaths_stack _ _ c).bind fun c' hc' => Tries.pure ?_
  obtain ⟨hinspected, hreport, hstack⟩ := hc'
  simp only [pushIssue_if, hreport, List.append_assoc]
  refine ⟨hinspected, _, rfl, fun owed howed => ?_, fun hbytes => ?_⟩
  · rw [owedFor, List.mem_append] at howed
    rcases howed with howed | howed
    · split at howed
      · next herrors =>
          obtain rfl := List.mem_singleton.1 howed
          exact ⟨issue entry.path .readDirectory none, by simp [herrors], rfl, rfl⟩
      · cases howed
    · split at howed
      · next hcut =>
          obtain rfl := List.mem_singleton.1 howed
          exact ⟨issue entry.path .limitReached none, by simp [hcut], rfl, rfl⟩
      · cases howed
  · have hexceeded : verified.2 = false := by
      by_contra htrue
      rw [Bool.not_eq_false] at htrue
      exact hbytes (issue entry.path .pathBudgetExceeded none) (by simp [htrue]) rfl
    have hall := hverified hexceeded
    rw [hall, Nat.zero_add, List.take_length] at hsorted
    rw [hstack, List.reverse_reverse]
    exact hsorted.append_right _

end Children

section Round

/-! ### One round -/

variable (isAbsolute : P → Bool) (comparePaths : P → P → Ordering) (mode : AdmissionMode)
  {capacity : ℕ} (t₀ : Tally P)

/-- The tally of the calls so far agrees with the collector. -/
structure Reckons (t : Tally P) (c : Collector P) : Prop where
  inspected : t.inspected = c.inspected
  balanced : WithinBytes c.report.issues → Balanced t c.report (c.stack.map (·.path))

/-- The directory inspected last found no room left, which ended the traversal with these paths
waiting. -/
structure Stopped (mode : AdmissionMode) (capacity : ℕ) (t : Tally P)
    (report : AdmissionReport P) (waiting : List P) : Prop where
  recurse : mode = .recurse
  last : ∃ path, t.directory = some path ∧
    report.issues.getLast? = some (issue path .limitReached none)
  full : t.inspected + waiting.length = capacity

/-- The traversal is over. -/
structure Finished (mode : AdmissionMode) (capacity : ℕ) (t : Tally P) (c : Collector P) :
    Prop where
  reckons : Reckons t c
  rest : WithinBytes c.report.issues →
    c.stack = [] ∨ Stopped mode capacity t c.report (c.stack.map (·.path))

/-- What holds after a round. -/
def RoundTally (t₀ : Tally P) (mode : AdmissionMode) (capacity : ℕ) :
    Except AdmissionCancelled (Control (Collector P)) →
      σ × List (Event (AdmissionCall P) AdmissionAnswer) → Prop :=
  LoopPost (fun c s => Reckons (t₀.read s.2) c)
    (fun c s => Finished mode capacity (t₀.read s.2) c) fun _ _ => True

theorem WithinBytes.of_append {issues more : List (AdmissionIssue P)}
    (h : WithinBytes (issues ++ more)) : WithinBytes issues ∧ WithinBytes more :=
  ⟨fun issue hissue => h issue (List.mem_append_left _ hissue),
    fun issue hissue => h issue (List.mem_append_right _ hissue)⟩

variable {e : σ} {log : List (Event (AdmissionCall P) AdmissionAnswer)}

/-- A program that only measures leaves the tally alone. -/
theorem spec_measuring {α : Type} {p : Admission P α} {ok : α → Prop}
    (h : Tries Measuring ok p) :
    Spec adapter.logged (fun _ => True) p.run
      (fun r s => t₀.read s.2 = t₀.read log ∧ ∀ a, r = .ok a → ok a) (e, log) := by
  refine Spec.mono_crash (h.spec
    (I := fun s : σ × List (Event (AdmissionCall P) AdmissionAnswer) =>
      t₀.read s.2 = t₀.read log) ?_ rfl) fun _ _ => trivial
  rintro ⟨e, log'⟩ c a ⟨e', log''⟩ hc hread ⟨-, hlog⟩
  rw [show log'' = log' ++ [⟨c, a⟩] from hlog, Tally.read_snoc, Tally.note_of_measuring _ hc]
  exact hread

/-- A probe, and what follows it. -/
theorem spec_poll_tally {α : Type} {f : Unit → Admission P α}
    {post : Except AdmissionCancelled α →
      σ × List (Event (AdmissionCall P) AdmissionAnswer) → Prop}
    (herror : ∀ err s, post (.error err) s)
    (h : ∀ e' log', t₀.read log' = t₀.read log →
      Spec adapter.logged (fun _ => True) (f ()).run post (e', log')) :
    Spec adapter.logged (fun _ => True) (poll >>= f).run post (e, log) := by
  refine Spec.except_bind (spec_measuring t₀ tries_poll) ?_ fun err s _ _ => herror err s
  rintro ⟨⟩ ⟨e', log'⟩ ⟨hlog', -⟩
  exact h e' log' hlog'

/-- A call, and what follows it. -/
theorem spec_call_tally {α : Type} {c : AdmissionCall P} {f : AdmissionAnswer c → Admission P α}
    {post : Except AdmissionCancelled α →
      σ × List (Event (AdmissionCall P) AdmissionAnswer) → Prop}
    (h : ∀ a e' log', t₀.read log' = (t₀.read log).note ⟨c, a⟩ →
      Spec adapter.logged (fun _ => True) (f a).run post (e', log')) :
    Spec adapter.logged (fun _ => True) (call c >>= f).run post (e, log) := by
  refine Spec.except_ask_bind trivial ?_
  rintro a ⟨e', log'⟩ ⟨-, hlog'⟩
  refine h a e' log' ?_
  rw [show log' = log ++ [⟨c, a⟩] from hlog', Tally.read_snoc]

variable {t₀} {c : Collector P} {entry : QueuedPath P}

/-- The collector before an entry is settled: it has been taken, and its inspection started. -/
structure Open (t : Tally P) (c : Collector P) (entry : QueuedPath P) : Prop where
  inspected : t.inspected = c.inspected
  balanced : WithinBytes c.report.issues →
    Balanced t c.report (entry.path :: c.stack.map (·.path))

theorem Open.skip {t : Tally P} (h : Open t c entry) (kind : AdmissionIssueKind)
    (error : Option AdmissionAdapterError) :
    Reckons t (c.pushIssue entry.path kind error) :=
  ⟨h.inspected, fun hbytes => (h.balanced hbytes.of_append.1).skip kind error⟩

theorem Open.observe {t : Tally P} (h : Open t c entry) (directory : Option P) :
    Open { t with directory := directory } c entry :=
  ⟨h.inspected, fun hbytes => (h.balanced hbytes).inspect t.inspected directory⟩

theorem spec_enumerate_tally (hopen : Open (t₀.read log) c entry)
    (hdirectory : (t₀.read log).directory = some entry.path)
    (hcount : c.inspected + c.stack.length ≤ capacity) :
    Spec adapter.logged (fun _ => True) (enumerate comparePaths capacity entry c).run
      (RoundTally t₀ .recurse capacity) (e, log) := by
  unfold enumerate
  split
  · exact ⟨trivial, hopen.skip _ _⟩
  dsimp only
  split
  · next hfull =>
      have hlast : (c.pushIssue entry.path .limitReached).report.issues.getLast? =
          some (issue entry.path .limitReached none) := by simp [Collector.pushIssue]
      refine ⟨trivial, hopen.skip _ _, fun _ => .inr ⟨rfl, ⟨_, hdirectory, hlast⟩, ?_⟩⟩
      rw [hopen.inspected, List.length_map]
      change c.inspected + c.stack.length = capacity
      omega
  refine spec_call_tally t₀ fun answer e' log' hlog' => ?_
  cases answer with
  | error error =>
      cases error with
      | cancelled => exact ⟨trivial, trivial⟩
      | adapter error =>
          refine ⟨trivial, ?_, fun hbytes => ?_⟩
          · rw [hlog']
            exact hopen.inspected
          · rw [hlog']
            exact (hopen.balanced hbytes.of_append.1).unread _ error
  | ok children =>
      refine Spec.except_bind (spec_measuring t₀ (tries_takeChildren_kept comparePaths entry _
        children c)) ?_ fun _ _ _ _ => trivial
      rintro c' ⟨e'', log''⟩ ⟨hlog'', hc'⟩
      obtain ⟨hinspected, issues, hreport, howed, hstack⟩ := hc' c' rfl
      rw [hlog'] at hlog''
      refine ⟨trivial, ?_, fun hbytes => ?_⟩
      · change (t₀.read log'').inspected = _
        rw [hlog'', hinspected]
        exact hopen.inspected
      · have hissues : c'.report.issues = c.report.issues ++ issues := by rw [hreport]
        rw [hissues] at hbytes
        have hread := (hopen.balanced hbytes.of_append.1).enumerate
          (hstack hbytes.of_append.2) howed
        change Balanced (t₀.read log'') _ _
        rw [hlog'', hreport]
        exact hread

theorem spec_admitEntry_tally (metadata : AdmissionMetadata)
    (hopen : Open (t₀.read log) c entry) :
    Spec adapter.logged (fun _ => True) (admitEntry entry metadata c).run
      (RoundTally t₀ mode capacity) (e, log) := by
  unfold admitEntry
  refine spec_call_tally t₀ fun legacyPath e' log' hlog' => ?_
  rcases Nat.lt_or_ge c.pathBudget.remainingBytes (legacyPath.units.length * sizeOfU16)
    with hlt | hle
  · simp only [PathBudget.reserveUtf16Units_of_lt hlt]
    refine ⟨trivial, ⟨?_, fun hbytes => ?_⟩, fun hbytes => ?_⟩
    · rw [hlog']
      exact hopen.inspected
    all_goals exact absurd rfl (hbytes.of_append.2 _ (List.mem_singleton.2 rfl))
  · simp only [PathBudget.reserveUtf16Units_of_le hle]
    refine ⟨trivial, ?_, fun hbytes => ?_⟩
    · rw [hlog']
      exact hopen.inspected
    · rw [hlog']
      exact (hopen.balanced hbytes).keep
        (LegacyListItem.newWithActualSize legacyPath metadata.isDirectory
          metadata.actualSize.toUInt32 metadata.actualSize metadata.created metadata.modified)

theorem spec_settle_tally (metadata : AdmissionMetadata) (hopen : Open (t₀.read log) c entry)
    (hdirectory : (t₀.read log).directory = if metadata.isDirectory then some entry.path else none)
    (hcount : c.inspected + c.stack.length ≤ capacity) :
    Spec adapter.logged (fun _ => True)
      (settle comparePaths mode capacity entry metadata c).run
      (RoundTally t₀ mode capacity) (e, log) := by
  unfold settle
  split
  · exact ⟨trivial, hopen.skip _ _⟩
  split
  · next hisDirectory =>
    rw [if_pos hisDirectory] at hdirectory
    split
    · exact ⟨trivial, hopen.skip _ _⟩
    · have hseen : Open (t₀.read log) { c with
          seenDirectories := metadata.directoryIdentity.toList ++ c.seenDirectories } entry :=
        ⟨hopen.inspected, hopen.balanced⟩
      cases mode with
      | direct => exact spec_admitEntry_tally .direct metadata hseen
      | recurse => exact spec_enumerate_tally comparePaths hseen hdirectory hcount
  · exact spec_admitEntry_tally mode metadata hopen

/-- One round keeps the tally and the report in agreement. -/
theorem spec_inspect_tally (hreckons : Reckons (t₀.read log) c)
    (hcount : c.inspected + c.stack.length ≤ capacity) :
    Spec adapter.logged (fun _ => True) (inspect isAbsolute comparePaths mode capacity c).run
      (RoundTally t₀ mode capacity) (e, log) := by
  unfold inspect
  split
  · next hempty => exact ⟨trivial, hreckons, fun _ => .inl hempty⟩
  next entry rest htop =>
  rw [htop, List.length_cons] at hcount
  refine spec_poll_tally t₀ (fun _ _ => trivial) fun e₁ log₁ hlog₁ => ?_
  have hroom : ¬ (c.pop entry rest).inspected ≥ capacity :=
    Nat.not_le.2 (show c.inspected < capacity by omega)
  rw [if_neg hroom]
  refine spec_call_tally t₀ fun _ e₂ log₂ hlog₂ => ?_
  have hopen₂ : Open (t₀.read log₂)
      { c.pop entry rest with inspected := c.inspected + 1 } entry := by
    rw [hlog₂, hlog₁]
    refine ⟨congrArg (· + 1) hreckons.inspected, fun hbytes => ?_⟩
    have hbalanced := hreckons.balanced hbytes
    rw [htop, List.map_cons] at hbalanced
    exact hbalanced.inspect _ _
  split
  · exact ⟨trivial, hopen₂.skip _ _⟩
  refine spec_call_tally t₀ fun validated e₃ log₃ hlog₃ => ?_
  have hopen₃ := (show t₀.read log₃ = t₀.read log₂ from hlog₃) ▸ hopen₂
  cases validated with
  | error error => exact ⟨trivial, hopen₃.skip _ _⟩
  | ok _ =>
      refine spec_poll_tally t₀ (fun _ _ => trivial) fun e₄ log₄ hlog₄ => ?_
      refine spec_call_tally t₀ fun observed e₅ log₅ hlog₅ => ?_
      rw [hlog₄] at hlog₅
      cases observed with
      | error error =>
          have hopen₅ := (show t₀.read log₅ = t₀.read log₃ from hlog₅) ▸ hopen₃
          exact ⟨trivial, hopen₅.skip _ _⟩
      | ok metadata =>
          refine spec_poll_tally t₀ (fun _ _ => trivial) fun e₆ log₆ hlog₆ => ?_
          rw [hlog₅] at hlog₆
          refine spec_settle_tally comparePaths mode metadata (hlog₆ ▸ hopen₃.observe _) ?_ ?_
          · rw [hlog₆]
            rfl
          · show c.inspected + 1 + rest.length ≤ capacity
            omega

end Round

section Traversal

/-! ### The whole traversal -/

variable (isAbsolute : P → Bool) (comparePaths : P → P → Ordering) (mode : AdmissionMode)
  (capacity : ℕ)

/-- The roots that are kept wait, in some order. -/
theorem tries_queueRoots_kept (roots : List P) (pathBudget : PathBudget) :
    Tries Measuring (fun c => c.inspected = 0 ∧
        c.report = (rooted capacity roots pathBudget).report ∧
        (c.stack.map (·.path)).Perm (roots.take capacity))
      (queueRoots comparePaths capacity roots pathBudget) := by
  unfold queueRoots
  refine tries_poll.bind fun _ _ => ?_
  refine (tries_sortPathsCancellable comparePaths _).bind fun sorted hsorted => ?_
  refine (tries_pushPaths_stack 0 sorted.reverse _).mono ?_
  rintro c ⟨hinspected, hreport, hstack⟩
  obtain ⟨hempty, -, -, hzero, -⟩ := rooted_eq capacity roots pathBudget
  refine ⟨hinspected.trans hzero, hreport, ?_⟩
  rw [hstack, List.reverse_reverse]
  change (sorted ++ (rooted capacity roots pathBudget).stack.map (·.path)).Perm _
  rw [hempty, List.map_nil, List.append_nil]
  exact hsorted

theorem reckons_queueRoots {roots : List P} {pathBudget : PathBudget} {c : Collector P}
    (hinspected : c.inspected = 0)
    (hreport : c.report = (rooted capacity roots pathBudget).report)
    (hstack : (c.stack.map (·.path)).Perm (roots.take capacity)) :
    Reckons (Tally.start capacity roots) c := by
  refine ⟨hinspected.symm, fun _ => ⟨⟨[], List.nil_sublist _, ?_⟩, ?_, ?_⟩⟩
  · exact hstack.symm
  · rw [hreport, (rooted_eq capacity roots pathBudget).2.2.2.2.2]
    rfl
  · intro entry hentry
    obtain ⟨root, hroot, rfl⟩ := List.mem_map.1 hentry
    rw [Option.mem_toList] at hroot
    rw [hreport, rooted, hroot]
    exact ⟨issue root .limitReached none, List.mem_singleton.2 rfl, rfl, rfl⟩

variable {capacity} {t₀ : Tally P}

theorem spec_loop_tally {start : PathBudget} {c : Collector P}
    (hwithin : Within start capacity c) (rounds : ℕ) (e : σ)
    {log : List (Event (AdmissionCall P) AdmissionAnswer)} (hrecorded : Recorded c (readLog log))
    (hreckons : Reckons (t₀.read log) c) :
    Spec adapter.logged (fun _ => True)
      (loop (inspect isAbsolute comparePaths mode capacity) rounds c).run
      (ResultPost (fun last s => Finished mode capacity (t₀.read s.2) last)
        (rounds ≤ capacity - c.inspected) fun _ _ => True) (e, log) := by
  let I : Collector P → σ × List (Event (AdmissionCall P) AdmissionAnswer) → Prop :=
    fun c s => Within start capacity c ∧ Recorded c (readLog s.2) ∧ Reckons (t₀.read s.2) c
  have hstart : I c (e, log) := ⟨hwithin, hrecorded, hreckons⟩
  refine Spec.loop (fun c => capacity - c.inspected) ?_ rounds hstart
  rintro c ⟨e, log⟩ ⟨hwithin, hrecorded, hreckons⟩
  refine Spec.mono (Spec.mono_crash ((spec_inspect isAbsolute comparePaths mode hwithin.count e
    hrecorded).both (spec_inspect_tally isAbsolute comparePaths mode hreckons hwithin.count))
    fun _ _ => trivial) ?_
  rintro r s ⟨hr, htally⟩
  cases r with
  | error err => trivial
  | ok control =>
      cases control with
      | done last => exact htally
      | next c' =>
          obtain ⟨⟨entry, rest, queued, hadvances⟩, hrecorded'⟩ := hr
          have hcount := hwithin.count
          rw [hadvances.top, List.length_cons] at hcount
          refine ⟨⟨hadvances.within hwithin, hrecorded', htally⟩, ?_⟩
          rw [hadvances.inspected]
          omega

variable (capacity)

end Traversal

end Admission

end DarkReNamer
