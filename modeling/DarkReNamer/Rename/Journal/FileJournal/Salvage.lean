import DarkReNamer.Rename.Attempts
import DarkReNamer.Rename.Journal.FileJournal.InStep

/-!
# What is read back

`salvaged` is what the next start reads off a journal file. An append is all or nothing for it:
whatever a crash leaves of the file, in the middle of any call of any operation, is read back as
the records before the operation or as these with the new one behind them. An operation that
succeeds leaves nothing but the latter, and one that is refused nothing but the former.
-/

namespace DarkReNamer

open Interaction

/-- The records read off a content. A file without a complete first frame has none. -/
def salvaged (content : List UInt8) : List JournalRecord :=
  match inspectJournalRecords content with
  | .ok inspection => inspection.records
  | .error _ => []

section Contents

variable {bytes content : List UInt8} {rs : List JournalRecord} {record : JournalRecord}

theorem salvaged_of_ok {inspection : JournalInspection}
    (h : inspectJournalRecords content = .ok inspection) : salvaged content =
      inspection.records := by
  rw [salvaged, h]

theorem salvaged_of_error {error : JournalCodecError}
    (h : inspectJournalRecords content = .error error) : salvaged content = [] := by
  rw [salvaged, h]

theorem salvaged_frames (h : Frames 0 bytes rs) (hfew : rs.length ≤ maxJournalFrames)
    (hfits : bytes.length ≤ maxJournalFileBytes) (hreplay : (replayJournal rs).isCorrupt = false) :
    salvaged bytes = rs :=
  salvaged_of_ok (inspectJournalRecords_frames h hfew hfits hreplay)

/-- A torn frame behind complete ones adds nothing. -/
theorem salvaged_torn (h : Frames 0 bytes rs) (hfew : rs.length < maxJournalFrames)
    (hstorable : record.Storable) {count : ℕ} (hpos : count ≠ 0)
    (hcount : count < (frameBytes rs.length record).length)
    (hfits : (bytes ++ (frameBytes rs.length record).take count).length ≤ maxJournalFileBytes)
    (hreplay : (replayJournal rs).isCorrupt = false) :
    salvaged (bytes ++ (frameBytes rs.length record).take count) = rs := by
  have hloop : inspectFrom (maxJournalFrames - rs.length + rs.length) [] 0
      (bytes ++ (frameBytes rs.length record).take count) = _ := inspectFrom_frames h
  obtain ⟨budget, hbudget⟩ := Nat.exists_eq_succ_of_ne_zero (Nat.sub_ne_zero_of_lt hfew)
  have hne : (frameBytes rs.length record).take count ≠ [] := by
    simp [frameBytes_ne_nil, hpos]
  rw [Nat.sub_add_cancel hfew.le, List.nil_append, hbudget, inspectFrom, if_neg hne,
    readFrame_take hstorable (lt_two_pow_of_le_maxJournalFrames hfew.le) hcount] at hloop
  dsimp only at hloop
  rw [salvaged, inspectJournalRecords, if_neg (Nat.not_lt.2 hfits), hloop]
  by_cases hnil : rs = []
  · simp [finishInspection, hnil]
  · rw [finishInspection_eq_ok (.inr hnil) hreplay]

/-- Behind complete frames, the beginning of another one is that frame or nothing. -/
theorem salvaged_front (h : Frames 0 bytes rs) (hfew : rs.length < maxJournalFrames)
    (hstorable : record.Storable) {front : List UInt8}
    (hfront : front <+: frameBytes rs.length record)
    (hfits : (bytes ++ frameBytes rs.length record).length ≤ maxJournalFileBytes)
    (hreplay : (replayJournal (rs ++ [record])).isCorrupt = false) :
    salvaged (bytes ++ front) = rs ∨ salvaged (bytes ++ front) = rs ++ [record] := by
  have hbefore := isCorrupt_replayJournal_of_append hreplay
  have hlength := hfront.length_le
  rw [List.length_append] at hfits
  rcases eq_or_ne front [] with rfl | hne
  · rw [List.append_nil]
    exact .inl (salvaged_frames h hfew.le (by omega) hbefore)
  by_cases hwhole : front = frameBytes rs.length record
  · subst hwhole
    have hindex : 0 + rs.length < 2 ^ 64 := by
      rw [Nat.zero_add]
      exact lt_two_pow_of_le_maxJournalFrames hfew.le
    have hconcat := h.concat hstorable hindex
    rw [Nat.zero_add] at hconcat
    refine .inr (salvaged_frames hconcat ?_ ?_ hreplay)
    · rw [List.length_append]
      exact hfew
    · rw [List.length_append]
      exact hfits
  · have htake := List.prefix_iff_eq_take.1 hfront
    have hshort : front.length < (frameBytes rs.length record).length := by
      refine lt_of_le_of_ne hlength fun heq => hwhole ?_
      rw [htake, heq, List.take_length]
    rw [htake]
    refine .inl (salvaged_torn h hfew hstorable (by simpa using hne) hshort ?_ hbefore)
    rw [List.length_append, List.length_take]
    omega

end Contents

namespace FileJournal

variable {journal : FileJournal} {disk disk' : Disk} {record : JournalRecord}

/-- A journal in step with its file has the records that are read back. -/
theorem Intact.salvaged_content {state : FileState} (h : journal.Intact state)
    (hreplay : (replayJournal journal.records).isCorrupt = false) :
    salvaged state.content = journal.records := by
  cases htorn : journal.tornPrefix with
  | none => exact salvaged_frames (h.whole htorn).2 h.few h.fits hreplay
  | some validBytes =>
      obtain ⟨issue, -, hinspect⟩ := h.torn validBytes htorn
      exact salvaged_of_ok hinspect

/-- The contents of the file, now or after a crash. -/
def leavings (disk : Disk) (file : FileId) : Set (List UInt8) :=
  insert (disk.files file).content (disk.files file).survivors

/-- What is read back of the file. -/
def Salvages (file : FileId) (P : List JournalRecord → Prop) (disk : Disk) : Prop :=
  ∀ content ∈ leavings disk file, P (salvaged content)

/-- What is read back of the file, by what was read back of it before. -/
def Leads (file : FileId) (rel : List JournalRecord → List JournalRecord → Prop)
    (disk disk' : Disk) : Prop :=
  ∀ content' ∈ leavings disk' file, ∃ content ∈ leavings disk file,
    rel (salvaged content) (salvaged content')

/-- The record is there or not. -/
def Grown (records : List JournalRecord) (record : JournalRecord) (records' : List JournalRecord) :
    Prop :=
  records' = records ∨ records' = records ++ [record]

theorem Salvages.mono {file : FileId} {P Q : List JournalRecord → Prop} (h : Salvages file P disk)
    (weaker : ∀ rs, P rs → Q rs) : Salvages file Q disk :=
  fun content hcontent => weaker _ (h content hcontent)

theorem Salvages.grown {file : FileId} {rs : List JournalRecord}
    (h : Salvages file (· = rs) disk) : Salvages file (Grown rs record) disk :=
  h.mono fun _ => .inl

theorem Salvages.of_files {file : FileId} {P : List JournalRecord → Prop}
    (h : Salvages file P disk) (hcontent : (disk'.files file).content = (disk.files file).content)
    (hsurvivors : (disk'.files file).survivors = (disk.files file).survivors) :
    Salvages file P disk' := by
  unfold Salvages leavings
  rw [hcontent, hsurvivors]
  exact h

theorem Salvages.synced {file : FileId} {P : List JournalRecord → Prop} (h : Salvages file P disk) :
    Salvages file P (disk.setFile file (disk.files file).synced) := by
  unfold Salvages leavings
  rw [Disk.files_setFile]
  rintro content (rfl | rfl)
  · exact h _ (.inl rfl)
  · exact h _ (.inl rfl)

theorem Salvages.leads {file : FileId} {rel : List JournalRecord → List JournalRecord → Prop}
    {rs : List JournalRecord} (h : Salvages file (· = rs) disk)
    (h' : Salvages file (rel rs) disk') : Leads file rel disk disk' := by
  intro content' hcontent'
  refine ⟨_, .inl rfl, ?_⟩
  rw [h _ (.inl rfl)]
  exact h' content' hcontent'

theorem leads_refl (file : FileId) {rel : List JournalRecord → List JournalRecord → Prop}
    (hrefl : ∀ rs, rel rs rs) (disk : Disk) : Leads file rel disk disk :=
  fun content hcontent => ⟨content, hcontent, hrefl _⟩

section Rules

variable {file : FileId} {P : List JournalRecord → Prop} {crash : Disk → Prop}

/-- A call of a change that the operation ends with when it fails. -/
theorem spec_orPoisoned {call : FileProgram (Except IoError Unit)} {next : FileProgram Outcome}
    {post : Outcome → Disk → Prop}
    (hpoisoned : ∀ error disk', post (.error (journalIoMayHaveAppended error), journal) disk')
    (h : Spec fileEnv crash call
      (fun r disk' => r = .ok () → Spec fileEnv crash next post disk') disk) :
    Spec fileEnv crash (orPoisoned call journal next) post disk := by
  unfold orPoisoned
  rw [Spec.bind_iff]
  refine h.with_crash.mono fun r disk' hr => ?_
  cases r with
  | error error => exact ⟨hr.1, hpoisoned error disk'⟩
  | ok _ => exact hr.2 rfl

/-- A call of which it only matters that what is read back satisfies the condition behind it. -/
theorem salvages_ask {c : FileCall} {post : FileAnswer c → Disk → Prop}
    (h : Salvages file P disk)
    (hstep : ∀ answer disk', fileEnv disk c answer disk' →
      Salvages file P disk' ∧ post answer disk') :
    Spec fileEnv (Salvages file P) (Program.ask c) post disk :=
  ⟨h, fun answer disk' step => hstep answer disk' step⟩

theorem salvages_flush {next : FileProgram Outcome} {post : Outcome → Disk → Prop}
    (h : Salvages file P disk)
    (hnext : Spec fileEnv (Salvages file P) next post disk) :
    Spec fileEnv (Salvages file P) (Disk.flush file)
      (fun r disk' => r = .ok () → Spec fileEnv (Salvages file P) next post disk') disk := by
  refine salvages_ask h fun answer disk' step => ?_
  obtain rfl : disk' = disk := by
    cases answer <;> exact step
  exact ⟨h, fun _ => hnext⟩

theorem salvages_syncAll {next : FileProgram Outcome} {post : Outcome → Disk → Prop}
    (h : Salvages file P disk)
    (hnext : ∀ disk', Salvages file P disk' → Spec fileEnv (Salvages file P) next post disk') :
    Spec fileEnv (Salvages file P) (Disk.syncAll file)
      (fun r disk' => r = .ok () → Spec fileEnv (Salvages file P) next post disk') disk := by
  refine salvages_ask h fun answer disk' step => ?_
  have hkept : Salvages file P disk' := by
    cases answer with
    | error error =>
        obtain rfl : disk' = disk := step
        exact h
    | ok _ =>
        obtain rfl : disk' = disk.setFile file (disk.files file).synced := step
        exact h.synced
  exact ⟨hkept, fun _ => hnext disk' hkept⟩

/-- A seek moves the cursor alone, however it ends. -/
theorem salvages_seekStart {position : ℕ} {next : FileProgram Outcome}
    {post : Outcome → Disk → Prop} (h : Salvages file P disk)
    (hnext : ∀ disk', Salvages file P disk' → Spec fileEnv (Salvages file P) next post disk') :
    Spec fileEnv (Salvages file P) (Disk.seekStart file position)
      (fun r disk' => r = .ok () → Spec fileEnv (Salvages file P) next post disk') disk := by
  refine salvages_ask h fun answer disk' step => ?_
  obtain ⟨cursor, rfl⟩ : ∃ cursor,
      disk' = disk.setFile file { disk.files file with cursor } := by
    cases answer with
    | error error => exact step
    | ok _ => exact ⟨_, step⟩
  have hkept : Salvages file P (disk.setFile file { disk.files file with cursor }) :=
    h.of_files (by simp) (by simp)
  exact ⟨hkept, fun _ => hnext _ hkept⟩

end Rules

section Operations

/-- An operation that is refused leaves what is read back. -/
def Refused (journal : FileJournal) (outcome : Outcome) (disk' : Disk) : Prop :=
  ∀ error, outcome.1 = .error error → error.certainty = .notAppended →
    Salvages journal.file (· = journal.records) disk'

/-- Nothing but the records of the journal is read back, and the replay accepts the new one. -/
structure Writable (journal : FileJournal) (record : JournalRecord) (disk : Disk) : Prop where
  unpoisoned : journal.poisoned = false
  intact : journal.Intact (disk.files journal.file)
  salvages : Salvages journal.file (· = journal.records) disk
  replays : (replayJournal (journal.records ++ [record])).isCorrupt = false

namespace Writable

theorem grown (h : journal.Writable record disk) :
    Salvages journal.file (Grown journal.records record) disk :=
  h.salvages.grown

/-- A beginning of the frame behind the complete ones. -/
theorem written (h : journal.Writable record disk) (hwhole : journal.tornPrefix = none)
    (hfew : journal.records.length < maxJournalFrames) {frame left : List UInt8}
    (hframe : encodeFrame journal.nextSequence record journal.records.length = .ok frame)
    (hfits : journal.byteLength + frame.length ≤ maxJournalFileBytes) (hleft : left <+: frame) :
    Salvages journal.file (Grown journal.records record)
      (disk.setFile journal.file ((disk.files journal.file).written frame left)) := by
  obtain ⟨hstorable, hbytes⟩ := encodeFrame_eq_ok_iff.1 hframe
  rw [h.intact.nextSequence] at hbytes
  rw [h.intact.byteLength, ← List.length_append] at hfits
  have hfront : ∀ front, front <+: frame → Grown journal.records record
      (salvaged (overwrite (disk.files journal.file).content
        (disk.files journal.file).cursor front)) := by
    intro front hfront
    rw [h.intact.cursor, overwrite_end]
    exact salvaged_front (h.intact.whole hwhole).2 hfew hstorable (hbytes ▸ hfront)
      (hbytes ▸ hfits) h.replays
  unfold Salvages leavings
  rw [Disk.files_setFile]
  rintro content (rfl | hmem | ⟨front, hprefix, rfl⟩)
  · exact hfront left hleft
  · exact h.grown _ (.inr hmem)
  · exact hfront front hprefix

end Writable

theorem salvages_refused (h : journal.Writable record disk) {outcome : Outcome} :
    Spec fileEnv (Salvages journal.file (Grown journal.records record)) (pure outcome)
      journal.Refused disk :=
  ⟨h.grown, fun _ _ _ => h.salvages⟩

theorem salvages_append (h : journal.Writable record disk) :
    Spec fileEnv (Salvages journal.file (Grown journal.records record)) (journal.append record)
      journal.Refused disk := by
  unfold append
  split
  · exact salvages_refused h
  split
  · exact salvages_refused h
  next hwhole =>
  rw [Bool.not_eq_true, Option.isSome_eq_false_iff, Option.isNone_iff_eq_none] at hwhole
  split
  · exact salvages_refused h
  next hfew =>
  split
  · exact salvages_refused h
  next frame hframe =>
  split
  · exact salvages_refused h
  next hfits =>
  have hbound := le_of_saturatingAdd_le (by decide) (Nat.not_lt.1 hfits)
  have hpoisoned : ∀ error disk', journal.Refused
      (.error (journalIoMayHaveAppended error), { journal with poisoned := true }) disk' := by
    rintro error disk' _ ⟨⟩ ⟨⟩
  refine spec_orPoisoned hpoisoned (salvages_ask h.grown fun answer disk₁ step => ?_)
  obtain ⟨left, hleft, rfl⟩ : ∃ left, left <+: frame ∧ disk₁ =
      disk.setFile journal.file ((disk.files journal.file).written frame left) := by
    cases answer with
    | error error => exact step
    | ok _ => exact ⟨frame, List.prefix_rfl, step⟩
  have hgrown := h.written hwhole (Nat.not_le.1 hfew) hframe hbound hleft
  refine ⟨hgrown, fun _ => spec_orPoisoned hpoisoned (salvages_flush hgrown ?_)⟩
  refine spec_orPoisoned hpoisoned (salvages_syncAll hgrown fun disk₂ hsynced => ?_)
  refine ⟨hsynced, ?_⟩
  rintro _ ⟨⟩

theorem salvages_appendActive (h : journal.Writable record disk) :
    Spec fileEnv (Salvages journal.file (Grown journal.records record))
      (journal.appendActive record) journal.Refused disk := by
  unfold appendActive
  split
  · exact salvages_refused h
  · exact salvages_append h

/-- A promotion moves the name of the file alone. -/
theorem salvages_promoteCandidate {journal' : FileJournal} {P : List JournalRecord → Prop}
    (h : Salvages journal.file P disk) :
    Spec fileEnv (Salvages journal.file P) journal'.promoteCandidate journal.Refused disk := by
  unfold promoteCandidate
  split
  · rw [Spec.bind_iff]
    refine salvages_ask h fun answer disk' step => ?_
    have hfiles : disk'.files = disk.files := by
      cases answer with
      | error error => rcases step with rfl | ⟨-, rfl⟩ <;> rfl
      | ok _ =>
          obtain ⟨-, rfl⟩ := step
          rfl
    have hkept : Salvages journal.file P disk' :=
      h.of_files (by rw [hfiles]) (by rw [hfiles])
    cases answer with
    | error error => exact ⟨hkept, hkept, by rintro _ ⟨⟩ ⟨⟩⟩
    | ok _ => exact ⟨hkept, hkept, by rintro _ ⟨⟩⟩
  · exact ⟨h, by rintro _ ⟨⟩⟩

theorem salvages_begin {plan : PlanId} {steps : List JournalStep}
    (h : journal.Writable (.intent plan steps) disk) :
    Spec fileEnv (Salvages journal.file (Grown journal.records (.intent plan steps)))
      (journal.begin plan steps) journal.Refused disk := by
  unfold «begin»
  split
  · exact salvages_refused h
  split
  · exact salvages_refused h
  rw [Spec.bind_iff]
  refine (salvages_append h).with_crash.mono fun outcome disk' houtcome => ?_
  obtain ⟨result, journal'⟩ := outcome
  cases result with
  | error error => exact houtcome
  | ok _ => exact salvages_promoteCandidate houtcome.1

theorem salvages_store (h : journal.Writable record disk) :
    Spec fileEnv (Salvages journal.file (Grown journal.records record)) (journal.store record)
      journal.Refused disk := by
  cases record with
  | intent plan steps => exact salvages_begin h
  | prepared | completed | notApplied | terminal => exact salvages_appendActive h

theorem salvages_appendAuthorized (h : journal.Writable record disk)
    (authorization : JournalAuthorization) :
    Spec fileEnv (Salvages journal.file (Grown journal.records record))
      (journal.appendAuthorized authorization record)
      (fun outcome => journal.Refused outcome.1) disk := by
  unfold appendAuthorized
  rw [Spec.bind_iff]
  refine (salvages_append h).with_crash.mono fun outcome disk' houtcome => ?_
  obtain ⟨result, journal'⟩ := outcome
  cases result with
  | error error => exact houtcome
  | ok _ => exact ⟨houtcome.1, by rintro _ ⟨⟩⟩

/-- The tail that a repair cuts off held no record. -/
theorem salvages_repairTornTail (h : journal.Writable record disk) {validBytes : ℕ}
    (htorn : journal.tornPrefix = some validBytes) :
    Spec fileEnv (Salvages journal.file (· = journal.records)) (journal.repairTornTail validBytes)
      (fun _ _ => True) disk := by
  obtain ⟨issue, -, hinspect⟩ := h.intact.torn validBytes htorn
  obtain ⟨hfits, -, -, hle, hframes, hfew, -, hreplays⟩ :=
    exists_cut_of_inspectJournalRecords hinspect
  have hcut : salvaged (resize (disk.files journal.file).content validBytes) =
      journal.records := by
    rw [resize_of_le hle]
    exact salvaged_frames hframes hfew (by rw [List.length_take]; omega) hreplays
  have hresized : Salvages journal.file (· = journal.records)
      (disk.setFile journal.file ((disk.files journal.file).resized validBytes)) := by
    unfold Salvages leavings
    rw [Disk.files_setFile]
    rintro content (rfl | rfl | hmem)
    · exact hcut
    · exact hcut
    · exact h.salvages content (.inr hmem)
  unfold repairTornTail
  refine spec_orPoisoned (fun _ _ => trivial) (salvages_ask h.salvages fun answer disk₁ step => ?_)
  have hkept : Salvages journal.file (· = journal.records) disk₁ := by
    cases answer with
    | error error =>
        rcases step with rfl | rfl
        · exact h.salvages
        · exact hresized
    | ok _ => exact step ▸ hresized
  refine ⟨hkept, fun _ => spec_orPoisoned (fun _ _ => trivial) (salvages_seekStart hkept
    fun disk₂ hkept => ?_)⟩
  refine spec_orPoisoned (fun _ _ => trivial) (salvages_flush hkept ?_)
  refine spec_orPoisoned (fun _ _ => trivial) (salvages_syncAll hkept fun disk₃ hkept => ?_)
  exact ⟨hkept, trivial⟩

/-- A repair leaves the journal ready for the record. -/
theorem Writable.repaired (h : journal.Writable record disk) {outcome : Outcome}
    (hrepairs : journal.Repairs disk outcome disk') (hok : outcome.1 = .ok ())
    (hkept : Salvages journal.file (· = journal.records) disk') :
    outcome.2.Writable record disk' ∧ outcome.2.records = journal.records ∧
      outcome.2.file = journal.file := by
  obtain ⟨hrecords, -⟩ := hrepairs.ok hok
  have hfile := hrepairs.settles.file_eq
  have hunpoisoned := hrepairs.settles.unpoisoned hok
  refine ⟨⟨hunpoisoned, hrepairs.settles.tracks hunpoisoned, ?_, ?_⟩, hrecords, hfile⟩
  · rw [hrecords, hfile]
    exact hkept
  · rw [hrecords]
    exact h.replays

theorem salvages_authorizedAppend (h : journal.Writable record disk)
    (authorization : JournalAuthorization) :
    Spec fileEnv (Salvages journal.file (Grown journal.records record))
      (journal.authorizedAppend authorization record)
      (fun outcome => journal.Refused outcome.1) disk := by
  have hrefused : ∀ outcome : AuthorizedOutcome,
      Spec fileEnv (Salvages journal.file (Grown journal.records record)) (pure outcome)
        (fun outcome => journal.Refused outcome.1) disk :=
    fun outcome => ⟨h.grown, fun _ _ _ => h.salvages⟩
  unfold authorizedAppend
  split
  · exact hrefused _
  split
  · exact hrefused _
  split
  · exact hrefused _
  split
  · exact salvages_appendAuthorized h authorization
  · next validBytes htorn =>
      rw [Spec.bind_iff]
      have hrepair := (salvages_repairTornTail h htorn).with_crash.both
        (gives_repairTornTail (fun _ => h.intact) h.unpoisoned htorn)
      refine (hrepair.mono_crash fun disk' hcrash => hcrash.1.grown).mono
        fun outcome disk' hpost => ?_
      obtain ⟨⟨hkept, -⟩, hrepairs⟩ := hpost
      obtain ⟨result, journal'⟩ := outcome
      cases result with
      | error error =>
          exact ⟨hkept.grown, fun _ _ _ => hkept⟩
      | ok _ =>
          obtain ⟨hwritable, hrecords, hfile⟩ := h.repaired hrepairs rfl hkept
          dsimp only at hwritable hrecords hfile
          have happend := salvages_appendAuthorized hwritable
            { authorization with generation := journal'.generation }
          rw [hrecords, hfile] at happend
          refine happend.mono fun outcome disk'' hrefuses error herror hcertainty => ?_
          have hback := hrefuses error herror hcertainty
          rwa [hrecords, hfile] at hback

theorem salvages_write (h : journal.Writable record disk)
    (authorization : Option JournalAuthorization) :
    Spec fileEnv (Salvages journal.file (Grown journal.records record))
      (journal.write authorization record) (fun r => journal.Refused r.1) disk := by
  cases authorization with
  | none =>
      rw [write, Spec.map_iff]
      exact salvages_store h
  | some authorization =>
      rw [write, Spec.map_iff]
      exact salvages_authorizedAppend h authorization

theorem settles_write (h : journal.Tracks disk) (authorization : Option JournalAuthorization)
    (record : JournalRecord) :
    Gives (journal.write authorization record)
      (fun r disk' => journal.Settles disk r.1 disk' ∧ journal.Appends record r.1) disk := by
  have hstored : Gives (journal.store record)
      (fun outcome disk' => journal.Settles disk outcome disk' ∧ journal.Appends record outcome)
      disk := by
    cases record with
    | intent plan steps =>
        exact ((gives_begin h plan steps).both (appends_begin h plan steps)).mono_crash
          fun _ _ => trivial
    | prepared | completed | notApplied | terminal =>
        exact ((gives_appendActive h _).both (appends_appendActive h _)).mono_crash
          fun _ _ => trivial
  unfold Gives
  cases authorization with
  | none =>
      rw [write, Spec.map_iff]
      exact hstored
  | some authorization =>
      rw [write, Spec.map_iff]
      exact ((gives_authorizedAppend h authorization record).both
        (appends_authorizedAppend h authorization record)).mono_crash fun _ _ => trivial

theorem write_of_poisoned (h : journal.poisoned = true)
    (authorization : Option JournalAuthorization) (record : JournalRecord) :
    ∃ authorization', journal.write authorization record =
      pure ((.error (.mayHaveAppended 8), journal), authorization') := by
  cases authorization with
  | none =>
      have hstore : journal.store record = pure (.error (.mayHaveAppended 8), journal) := by
        cases record with
        | intent plan steps =>
            show journal.begin plan steps = _
            rw [«begin», if_pos h]
        | prepared | completed | notApplied | terminal => exact appendActive_of_poisoned h _
      exact ⟨none, by rw [write, hstore, map_pure]⟩
  | some authorization =>
      exact ⟨some authorization, by rw [write, authorizedAppend, if_pos h, map_pure]⟩

end Operations

/-- The journal is in step with its file, and nothing but its records is read back, as long as it
is not poisoned. -/
structure Kept (journal : FileJournal) (disk : Disk) : Prop where
  tracks : journal.Tracks disk
  salvages : journal.poisoned = false → Salvages journal.file (· = journal.records) disk

/-- What is read back of a journal that is in step with its file, after a sync. -/
theorem Intact.salvages (h : journal.Intact (disk.files journal.file))
    (hsynced : journal.Synced disk)
    (hreplays : (replayJournal journal.records).isCorrupt = false) :
    Salvages journal.file (· = journal.records) disk := by
  unfold Salvages leavings
  rw [show (disk.files journal.file).survivors = _ from hsynced]
  rintro content (rfl | rfl)
  · exact h.salvaged_content hreplays
  · exact h.salvaged_content hreplays

/-- The result of a write tells what is read back. -/
theorem Writable.kept (h : journal.Writable record disk) {outcome : Outcome}
    (hsettles : journal.Settles disk outcome disk') (happends : journal.Appends record outcome)
    (hgrown : Salvages journal.file (Grown journal.records record) disk')
    (hrefused : journal.Refused outcome disk') :
    outcome.2.Kept disk' ∧
      Salvages journal.file (journalRel journal.records (.append record) outcome.1) disk' := by
  obtain ⟨result, journal'⟩ := outcome
  have hfile : journal'.file = journal.file := hsettles.file_eq
  cases result with
  | ok _ =>
      have hrecords : journal'.records = journal.records ++ [record] := happends.ok rfl
      have hintact := hsettles.tracks (hsettles.unpoisoned rfl)
      have hsalvages := hintact.salvages (hsettles.synced rfl) (hrecords ▸ h.replays)
      refine ⟨⟨hsettles.tracks, fun _ => hsalvages⟩, ?_⟩
      dsimp only at hsalvages
      rw [hfile, hrecords] at hsalvages
      exact hsalvages
  | error error =>
      cases hcertainty : error.certainty with
      | notAppended =>
          have hback := hrefused error rfl hcertainty
          have hrecords : journal'.records = journal.records :=
            (hsettles.notAppended error rfl hcertainty).1
          refine ⟨⟨hsettles.tracks, fun _ => ?_⟩, hback.mono fun _ => .inl⟩
          show Salvages journal'.file (· = journal'.records) disk'
          rw [hfile, hrecords]
          exact hback
      | mayHaveAppended =>
          have hpoisoned := hsettles.mayHaveAppended error rfl hcertainty
          refine ⟨⟨hsettles.tracks, fun hunpoisoned => ?_⟩, hgrown.mono fun rs => ?_⟩
          · rw [hpoisoned] at hunpoisoned
            cases hunpoisoned
          · rintro (rfl | rfl)
            · exact .inl rfl
            · exact .inr ⟨hcertainty, rfl⟩

/-- A record is written as the port promises, for whoever reads the file afterwards. -/
theorem Kept.spec_write (h : journal.Kept disk) (authorization : Option JournalAuthorization)
    (hreplays : journal.poisoned = false →
      (replayJournal (journal.records ++ [record])).isCorrupt = false) :
    Spec fileEnv (Leads journal.file (fun rs => Grown rs record) disk)
      (journal.write authorization record)
      (fun r disk' => r.1.2.Kept disk' ∧ r.1.2.file = journal.file ∧
        Leads journal.file (fun rs => journalRel rs (.append record) r.1.1) disk disk') disk := by
  cases hpoisoned : journal.poisoned with
  | true =>
      obtain ⟨authorization', hwrite⟩ := write_of_poisoned hpoisoned authorization record
      rw [hwrite]
      exact ⟨leads_refl _ (fun _ => .inl rfl) _, h, rfl, leads_refl _ (fun _ => .inl rfl) _⟩
  | false =>
      have hwritable : journal.Writable record disk :=
        ⟨hpoisoned, h.tracks hpoisoned, h.salvages hpoisoned, hreplays hpoisoned⟩
      have hboth := (salvages_write hwritable authorization).with_crash.both
        (settles_write h.tracks authorization record)
      refine (hboth.mono_crash fun disk' hcrash => ?_).mono fun r disk' hpost => ?_
      · exact hwritable.salvages.leads hcrash.1
      · obtain ⟨⟨hgrown, hrefused⟩, hsettles, happends⟩ := hpost
        obtain ⟨hkept, hrel⟩ := hwritable.kept hsettles happends hgrown hrefused
        exact ⟨hkept, hsettles.file_eq, hwritable.salvages.leads hrel⟩

end FileJournal

end DarkReNamer
