import DarkReNamer.Admission.Round

/-!
# Bounds of source admission

The invariant of the traversal: inspections and waiting paths share the capacity, admitted
and remaining bytes share the budget, and the running count of the waiting paths is at most
what they were counted with. It is exact as long as nothing saturates. An adapter that
measures each path the same way twice never makes it saturate after the roots, and then no
admitted path is refused for the budget.
-/

namespace DarkReNamer

namespace Admission

open Interaction

variable {P σ : Type} {adapter : Environment σ (AdmissionCall P) AdmissionAnswer}

/-- The code units of all admitted source paths. -/
def admittedUnits (report : AdmissionReport P) : ℕ :=
  (report.items.map fun item => item.sourcePath.units.length).sum

/-- The shared bounds, for a traversal that started with the budget `start`. -/
structure Within (start : PathBudget) (capacity : ℕ) (c : Collector P) : Prop where
  count : c.inspected + c.stack.length ≤ capacity
  items : c.report.items.length ≤ c.inspected
  bytes : admittedUnits c.report * sizeOfU16 + c.pathBudget.remainingBytes ≤
    start.remainingBytes
  frontier : c.stackPathBytes ≤ queuedBytes c.stack
  depth : ∀ entry ∈ c.stack, entry.depth ≤ maxAdmissionDepth

/-- The running count is what the waiting paths were counted with. -/
def Exact (c : Collector P) : Prop := c.stackPathBytes = queuedBytes c.stack

/-- Each waiting path is counted as it measures. -/
def Counted (measure : P → ℕ) (c : Collector P) : Prop :=
  ∀ entry ∈ c.stack, entry.pathBytes = pathBytesOf (measure entry.path)

namespace Advances

variable {capacity : ℕ} {c c' : Collector P} {entry : QueuedPath P}
  {rest queued : List (QueuedPath P)}

theorem within {start : PathBudget} (h : Advances adapter capacity c c' entry rest queued)
    (hc : Within start capacity c) : Within start capacity c' := by
  have hcount := hc.count
  have htop := h.top
  rw [htop, List.length_cons] at hcount
  have hrest : c.stackPathBytes - entry.pathBytes ≤ queuedBytes rest := by
    have hfrontier := hc.frontier
    rw [htop, queuedBytes_cons] at hfrontier
    omega
  refine ⟨?_, ?_, ?_, ?_, ?_⟩
  · have hlimit := h.limit
    rw [h.inspected] at hlimit ⊢
    rw [h.stack, List.length_append]
    omega
  · rw [h.inspected]
    rcases h.settled with ⟨-, hitems⟩ | ⟨-, item, hitems, -⟩
    · rw [hitems]
      exact hc.items.trans (Nat.le_succ _)
    · rw [hitems, List.length_append]
      exact Nat.succ_le_succ hc.items
  · rcases h.settled with ⟨hbudget, hitems⟩ | ⟨-, item, hitems, hfits, hbudget, -⟩
    · rw [admittedUnits, hitems, hbudget]
      exact hc.bytes
    · have hbytes := hc.bytes
      rw [admittedUnits, hitems, hbudget]
      simp only [admittedUnits, List.map_append, List.map_cons, List.map_nil, List.sum_append,
        List.sum_cons, List.sum_nil, PathBudget.spend, Nat.add_mul] at hbytes ⊢
      omega
  · rw [h.stackPathBytes, h.stack, queuedBytes_append]
    exact (countBytes_le _ _).trans (Nat.add_le_add_left hrest _)
  · intro q hq
    rw [h.stack, List.mem_append] at hq
    rcases hq with hq | hq
    · exact (h.depth q hq).2
    · exact hc.depth q (htop ▸ List.mem_cons_of_mem _ hq)

/-- The count stays exact where the bytes of the waiting paths do not overflow. -/
theorem exact (h : Advances adapter capacity c c' entry rest queued) (hc : Exact c)
    (hfits : queuedBytes c'.stack ≤ usizeMax) : Exact c' := by
  have hrest : c.stackPathBytes - entry.pathBytes = queuedBytes rest := by
    rw [hc, h.top, queuedBytes_cons, Nat.add_sub_cancel_left]
  rw [h.stack, queuedBytes_append] at hfits
  rw [Exact, h.stackPathBytes, hrest, h.stack, queuedBytes_append]
  exact countBytes_eq hfits

variable {measure : P → ℕ}

/-- What the children add is left of the budget, so nothing overflows. -/
theorem fits (h : Advances adapter capacity c c' entry rest queued)
    (hmeasure : Measures adapter measure) (hc : Exact c)
    (hfits : queuedBytes c.stack ≤ usizeMax) : queuedBytes c'.stack ≤ usizeMax := by
  have hmax : maxAdmittedPathBytes ≤ usizeMax := by decide
  have hbudget := c.pathBudget.remainingBytes_le
  have hqueued := (h.measured measure hmeasure).2
  rw [Exact, h.top, queuedBytes_cons] at hc
  rw [h.top, queuedBytes_cons] at hfits
  rw [h.stack, queuedBytes_append]
  omega

theorem counted (h : Advances adapter capacity c c' entry rest queued)
    (hmeasure : Measures adapter measure) (hc : Counted measure c) : Counted measure c' := by
  intro q hq
  rw [h.stack, List.mem_append] at hq
  rcases hq with hq | hq
  · exact (h.measured measure hmeasure).1 q hq
  · exact hc q (h.top ▸ List.mem_cons_of_mem _ hq)

/-- If the waiting paths fit what is left of the budget, so do those after the round. -/
theorem affordable (h : Advances adapter capacity c c' entry rest queued)
    (hmeasure : Measures adapter measure) (hexact : Exact c) (hcounted : Counted measure c)
    (hc : queuedBytes c.stack ≤ c.pathBudget.remainingBytes) :
    queuedBytes c'.stack ≤ c'.pathBudget.remainingBytes := by
  have hqueued := (h.measured measure hmeasure).2
  have hmax : maxAdmittedPathBytes ≤ usizeMax := by decide
  have hbudget := c.pathBudget.remainingBytes_le
  rw [Exact, h.top, queuedBytes_cons] at hexact
  rw [h.top, queuedBytes_cons] at hc
  rw [h.stack, queuedBytes_append]
  rcases h.settled with ⟨hsame, -⟩ | ⟨hnone, item, -, hfits, hspend, hlength⟩
  · rw [hsame]
    omega
  · have hentry : entry.pathBytes = pathBytesOf (measure entry.path) :=
      hcounted entry (h.top ▸ List.mem_cons_self)
    rw [hlength measure hmeasure] at hfits hspend
    rw [pathBytesOf, saturatingMul, Nat.min_eq_left (by omega)] at hentry
    simp only [hspend, hnone, queuedBytes_nil, PathBudget.spend]
    omega

end Advances

/-- A path that is waiting within the budget is not refused. -/
theorem reserved_of_affordable {c : Collector P} {entry : QueuedPath P}
    {rest : List (QueuedPath P)} {measure : P → ℕ} (htop : c.stack = entry :: rest)
    (hcounted : Counted measure c) (hc : queuedBytes c.stack ≤ c.pathBudget.remainingBytes) :
    (c.pathBudget.reserveUtf16Units (measure entry.path)).1 = .reserved := by
  have hmax : maxAdmittedPathBytes < usizeMax := by decide
  have hbudget := c.pathBudget.remainingBytes_le
  have hentry : entry.pathBytes = pathBytesOf (measure entry.path) :=
    hcounted entry (htop ▸ List.mem_cons_self)
  rw [htop, queuedBytes_cons] at hc
  have hle : measure entry.path * sizeOfU16 ≤ c.pathBudget.remainingBytes := by
    rw [pathBytesOf, saturatingMul] at hentry
    rcases Nat.le_total (measure entry.path * sizeOfU16) usizeMax with hle | hge
    · rw [Nat.min_eq_left hle] at hentry
      omega
    · rw [Nat.min_eq_right hge] at hentry
      omega
  rw [PathBudget.reserveUtf16Units_of_le hle]

section Traversal

variable (isAbsolute : P → Bool) (comparePaths : P → P → Ordering) (mode : AdmissionMode)
  (capacity : ℕ)

/-- The heads of the traversal's loop: the collectors between two rounds, each with those
before it. -/
def AdmissionHeads (adapter : Environment σ (AdmissionCall P) AdmissionAnswer)
    (roots : List P) (pathBudget : PathBudget) (e : σ) (visited : List (Collector P))
    (c : Collector P) : Prop :=
  ∃ c₀ e₀ trace e',
    Runs adapter (queueRoots comparePaths (admissionCapacity capacity) roots pathBudget).run e
      trace (some (.ok c₀)) e₀ ∧
    Heads adapter (inspect isAbsolute comparePaths mode (admissionCapacity capacity)) c₀ e₀
      visited c e'

/-- The collector that the roots are queued to. -/
def rooted (roots : List P) (pathBudget : PathBudget) : Collector P :=
  match roots[capacity]? with
  | some root => ({ pathBudget := pathBudget } : Collector P).pushIssue root .limitReached
  | none => { pathBudget := pathBudget }

theorem tries_queueRoots (roots : List P) (pathBudget : PathBudget) :
    Tries Measuring (fun _ => True) (queueRoots comparePaths capacity roots pathBudget) := by
  unfold queueRoots
  refine tries_poll.bind fun _ _ => ?_
  refine (tries_sortPathsCancellable comparePaths _).bind fun sorted _ => ?_
  exact tries_pushPaths _ _ _

/-- The roots within the capacity are queued, in some order. -/
theorem yields_queueRoots (adapter : Environment σ (AdmissionCall P) AdmissionAnswer)
    (roots : List P) (pathBudget : PathBudget) :
    Yields adapter (fun c => ∃ queued, Queues adapter (rooted capacity roots pathBudget) c queued ∧
        (queued.map (·.path)).Perm (roots.take capacity) ∧ ∀ entry ∈ queued, entry.depth = 0)
      (queueRoots comparePaths capacity roots pathBudget) := by
  unfold queueRoots
  refine (Yields.of_tries tries_poll).bind fun _ _ => ?_
  refine (Yields.of_tries (tries_sortPathsCancellable comparePaths _)).bind fun sorted hsorted => ?_
  refine (yields_pushPaths adapter 0 sorted.reverse _).mono ?_
  rintro c ⟨queued, hqueues, hpaths, hdepth⟩
  refine ⟨queued, hqueues, ?_, hdepth⟩
  rw [hpaths, List.reverse_reverse]
  exact hsorted

theorem rooted_eq (roots : List P) (pathBudget : PathBudget) :
    (rooted capacity roots pathBudget).stack = [] ∧
      (rooted capacity roots pathBudget).stackPathBytes = 0 ∧
      (rooted capacity roots pathBudget).seenDirectories = [] ∧
      (rooted capacity roots pathBudget).inspected = 0 ∧
      (rooted capacity roots pathBudget).pathBudget = pathBudget ∧
      (rooted capacity roots pathBudget).report.items = [] := by
  unfold rooted
  split <;> exact ⟨rfl, rfl, rfl, rfl, rfl, rfl⟩

variable {capacity}

theorem within_queueRoots {roots : List P} {pathBudget : PathBudget} {c : Collector P}
    {queued : List (QueuedPath P)}
    (hqueues : Queues adapter (rooted capacity roots pathBudget) c queued)
    (hpaths : (queued.map (·.path)).Perm (roots.take capacity))
    (hdepth : ∀ entry ∈ queued, entry.depth = 0) : Within pathBudget capacity c := by
  obtain ⟨hstack, hbytes, -, hinspected, hbudget, hitems⟩ :=
    rooted_eq capacity roots pathBudget
  have hstack' : c.stack = queued := by rw [hqueues.stack, hstack, List.append_nil]
  refine ⟨?_, ?_, ?_, ?_, ?_⟩
  · have hlength := hpaths.length_eq
    rw [List.length_map, List.length_take] at hlength
    rw [hqueues.inspected, hinspected, hstack']
    omega
  · rw [hqueues.items, hitems]
    exact Nat.zero_le _
  · rw [admittedUnits, hqueues.items, hitems, hqueues.pathBudget, hbudget]
    simp
  · rw [hqueues.stackPathBytes, hbytes, hstack']
    exact countBytes_le 0 queued
  · intro entry hentry
    rw [hdepth entry (hstack' ▸ hentry)]
    exact Nat.zero_le _

/-- A log that agrees with a collector, whatever came before. -/
theorem exists_recorded (c : Collector P) :
    ∃ log : List (Event (AdmissionCall P) AdmissionAnswer), Recorded c (readLog log) := by
  have hreading (n : ℕ) : readLog (List.replicate n
      (⟨.inspectionStarted 0, ()⟩ : Event (AdmissionCall P) AdmissionAnswer)) =
      { started := n } := by
    induction n with
    | zero => rfl
    | succ n ih =>
        rw [List.replicate_succ', readLog_snoc, ih]
        rfl
  refine ⟨List.replicate c.inspected ⟨.inspectionStarted 0, ()⟩, ?_⟩
  rw [hreading]
  exact ⟨rfl, List.nodup_nil, by simp⟩

/-- One round of any run. -/
theorem advances_of_runs {c c' : Collector P} {e e' : σ}
    {trace : List (Event (AdmissionCall P) AdmissionAnswer)}
    (hcount : c.inspected + c.stack.length ≤ capacity)
    (hrun : Runs adapter (inspect isAbsolute comparePaths mode capacity c).run e trace
      (some (.ok (.next c'))) e') :
    ∃ entry rest queued, Advances adapter capacity c c' entry rest queued := by
  obtain ⟨log, hlog⟩ := exists_recorded c
  exact (((spec_inspect isAbsolute comparePaths mode hcount e hlog).sound
    (hrun.logged log)).2 _ rfl).1

/-- The bounds that a report keeps. -/
def Bounded (start : PathBudget) (capacity : ℕ) (report : AdmissionReport P) : Prop :=
  report.items.length ≤ capacity ∧
    admittedUnits report * sizeOfU16 ≤ start.remainingBytes

theorem Within.bounded {start : PathBudget} {c c' : Collector P} (h : Within start capacity c)
    (hitems : c'.report.items = c.report.items) : Bounded start capacity c'.report := by
  have hcount := h.count
  have hlength := h.items
  have hbytes := h.bytes
  rw [Bounded, admittedUnits, hitems]
  rw [admittedUnits] at hbytes
  exact ⟨by omega, by omega⟩

/-- The whole traversal, over any adapter. -/
theorem spec_loop {start : PathBudget} {c : Collector P} (hwithin : Within start capacity c)
    (rounds : ℕ) (e : σ) {log : List (Event (AdmissionCall P) AdmissionAnswer)}
    (hrecorded : Recorded c (readLog log)) :
    Spec adapter.logged (Fine capacity)
      (loop (inspect isAbsolute comparePaths mode capacity) rounds c).run
      (ResultPost (fun last _ => Bounded start capacity last.report)
        (rounds ≤ capacity - c.inspected) fun _ _ => True) (e, log) := by
  let I : Collector P → σ × List (Event (AdmissionCall P) AdmissionAnswer) → Prop :=
    fun c s => Within start capacity c ∧ Recorded c (readLog s.2)
  have hstart : I c (e, log) := ⟨hwithin, hrecorded⟩
  refine Spec.loop (fun c => capacity - c.inspected) ?_ rounds hstart
  rintro c ⟨e, log⟩ ⟨hwithin, hrecorded⟩
  refine (spec_inspect isAbsolute comparePaths mode hwithin.count e hrecorded).mono ?_
  rintro r s hr
  cases r with
  | error err => trivial
  | ok control =>
      cases control with
      | done last => exact hwithin.bounded hr
      | next c' =>
          obtain ⟨⟨entry, rest, queued, hadvances⟩, hrecorded'⟩ := hr
          have hcount := hwithin.count
          rw [hadvances.top, List.length_cons] at hcount
          refine ⟨⟨hadvances.within hwithin, hrecorded'⟩, ?_⟩
          rw [hadvances.inspected]
          omega

/-! ### Heads of the loop -/

section Heads

variable {start : PathBudget} {c₀ c : Collector P} {e₀ e : σ} {visited : List (Collector P)}
  {measure : P → ℕ}

theorem within_of_heads (h₀ : Within start capacity c₀)
    (h : Heads adapter (inspect isAbsolute comparePaths mode capacity) c₀ e₀ visited c e) :
    Within start capacity c := by
  refine h.invariant h₀ fun hwithin hround => ?_
  obtain ⟨entry, rest, queued, hadvances⟩ :=
    advances_of_runs isAbsolute comparePaths mode hwithin.count hround
  exact hadvances.within hwithin

/-- Exactness is lost only where the bytes of the waiting paths overflow. -/
theorem exact_of_heads (h₀ : Within start capacity c₀)
    (hexact : queuedBytes c₀.stack ≤ usizeMax → Exact c₀)
    (h : Heads adapter (inspect isAbsolute comparePaths mode capacity) c₀ e₀ visited c e)
    (hfits : ∀ d ∈ c :: visited, queuedBytes d.stack ≤ usizeMax) : Exact c := by
  induction h with
  | start => exact hexact (hfits c₀ List.mem_cons_self)
  | next past hround ih =>
      have hwithin := within_of_heads isAbsolute comparePaths mode h₀ past
      obtain ⟨entry, rest, queued, hadvances⟩ :=
        advances_of_runs isAbsolute comparePaths mode hwithin.count hround
      have hpast := ih fun d hd => hfits d (List.mem_cons_of_mem _ hd)
      exact hadvances.exact hpast (hfits _ List.mem_cons_self)

/-- With a consistent adapter the count stays exact, and what waits stays affordable. -/
theorem measured_of_heads (hmeasure : Measures adapter measure)
    (h₀ : Within start capacity c₀) (hexact : Exact c₀)
    (hfits : queuedBytes c₀.stack ≤ usizeMax) (hcounted : Counted measure c₀)
    (h : Heads adapter (inspect isAbsolute comparePaths mode capacity) c₀ e₀ visited c e) :
    Exact c ∧ Counted measure c ∧
      (queuedBytes c₀.stack ≤ c₀.pathBudget.remainingBytes →
        queuedBytes c.stack ≤ c.pathBudget.remainingBytes) := by
  let I : Collector P → Prop := fun c => Within start capacity c ∧ Exact c ∧
    queuedBytes c.stack ≤ usizeMax ∧ Counted measure c ∧
    (queuedBytes c₀.stack ≤ c₀.pathBudget.remainingBytes →
      queuedBytes c.stack ≤ c.pathBudget.remainingBytes)
  have hI : I c := by
    refine h.invariant (I := I) ⟨h₀, hexact, hfits, hcounted, id⟩ ?_
    rintro c c' e e' trace ⟨hwithin, hexact, hfits, hcounted, hafford⟩ hround
    obtain ⟨entry, rest, queued, hadvances⟩ :=
      advances_of_runs isAbsolute comparePaths mode hwithin.count hround
    have hfits' := hadvances.fits hmeasure hexact hfits
    exact ⟨hadvances.within hwithin, hadvances.exact hexact hfits', hfits',
      hadvances.counted hmeasure hcounted,
      fun hroots => hadvances.affordable hmeasure hexact hcounted (hafford hroots)⟩
  exact ⟨hI.2.1, hI.2.2.2.1, hI.2.2.2.2⟩

end Heads

variable (capacity)

end Traversal

/-- The adapter that answers as the function does. -/
def answering (handler : Unit → (call : AdmissionCall P) → AdmissionAnswer call × Unit) :
    Environment Unit (AdmissionCall P) AdmissionAnswer :=
  fun s call answer t => handler s call = (answer, t)

theorem answering_self (handler : Unit → (call : AdmissionCall P) → AdmissionAnswer call × Unit)
    (s : Unit) (call : AdmissionCall P) :
    answering handler s call (handler s call).1 (handler s call).2 := rfl

/-- One directory with two files in it, each path two units long. -/
def oneDirectory : Unit → (call : AdmissionCall (Fin 3)) → AdmissionAnswer call × Unit
  | _, .cancellationRequested => (false, ())
  | _, .inspectionStarted _ => ((), ())
  | _, .validatePath _ => (.ok (), ())
  | _, .metadata path => (.ok ⟨path == 0, false, some ⟨1, 0⟩, 0, 0, 0⟩, ())
  | _, .readChildrenCancellable _ _ => (.ok ⟨[2, 1], false, false, false⟩, ())
  | _, .legacyPath _ => (⟨[65, 66]⟩, ())
  | _, .pathUtf16Units _ => (⟨2, by decide⟩, ())

theorem measures_oneDirectory : Measures (answering oneDirectory) fun _ => 2 := by
  constructor
  · rintro e path units e' ⟨⟩
    rfl
  · rintro e path text e' ⟨⟩
    rfl

/-- Paths that each measure half of the address space, so that the sum of two saturates. -/
def hugePaths : Unit → (call : AdmissionCall Bool) → AdmissionAnswer call × Unit
  | _, .cancellationRequested => (false, ())
  | _, .inspectionStarted _ => ((), ())
  | _, .validatePath _ => (.ok (), ())
  | _, .metadata _ => (.error ⟨.metadata, none⟩, ())
  | _, .readChildrenCancellable _ _ => (.error .cancelled, ())
  | _, .legacyPath _ => (⟨[]⟩, ())
  | _, .pathUtf16Units _ => (⟨0x7FFFFFFFFFFFFFFF, by decide⟩, ())

end Admission

end DarkReNamer
