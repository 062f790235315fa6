import DarkReNamer.Core.Owners
import DarkReNamer.Core.WindowsLeafName
import DarkReNamer.Rename.Ports

/-!
# The planner

`planCancellable` validates a request and freezes what it observes into an immutable
plan (`rename/planner.rs`). Issues are collected pass by pass, and a pass with issues
ends planning before the next one begins; cancellation is polled at every element of
every loop.

The loops of the source share one shape, a list walked with a poll before each element
and an accumulator, which is `foldChecked` here.
-/

namespace DarkReNamer

open Std Interaction

inductive PlanIssueKind where
  | relativeSource
  | relativeDestinationParent
  | invalidDestinationName (error : WindowsLeafNameError)
  | missingSource
  | sourceKindChanged
  | reparseSource
  | duplicateDestination
  | duplicateEntryId
  | duplicateSource
  | crossParent
  | crossVolume
  | directoryMoveUnsupported
  | sourceOverlap
  | pathTooDeep
  | unsupportedCaseSensitiveParent
  | unsupportedWindowsPath
  | unsupportedFilesystem
  | destinationOccupied
  | backend
  | backendFailure (error : BackendError)
  deriving DecidableEq, Repr

/-- One entry-scoped planning blocker. -/
structure PlanIssue where
  entry : EntryId
  kind : PlanIssueKind
  deriving DecidableEq, Repr

/-- Cancellation is told apart from plan blockers. -/
inductive PlanAttemptError where
  | cancelled
  | plan (issues : List PlanIssue)
  deriving DecidableEq, Repr

/-- Maximum number of path components accepted by one direct plan request. -/
def maxPlanPathDepth : ℕ := 256

/-- Whether an intent asks for a change. -/
def RenameIntent.changes (intent : RenameIntent) : Bool :=
  decide (intent.source ≠ intent.destination)

namespace Planner

/-! ### Paths -/

/-- The code unit of `':'`. -/
def colon : UInt16 := 58

def isDriveLetter (unit : UInt16) : Bool :=
  (65 ≤ unit && unit ≤ 90) || (97 ≤ unit && unit ≤ 122)

def isAbsoluteWindowsPath (units : List UInt16) : Bool :=
  let driveAbsolute := match units with
    | drive :: second :: third :: _ =>
        isDriveLetter drive && second == colon && isSeparator third
    | _ => false
  let uncAbsolute := match units with
    | first :: second :: _ => isSeparator first && isSeparator second
    | _ => false
  driveAbsolute || uncAbsolute

/-- The root separator of a path of the form `\\?\C:\`. -/
def verbatimDriveRootSeparator : List UInt16 → Option ℕ
  | a :: b :: c :: d :: drive :: e :: f :: _ =>
      if a == backslash && b == backslash && c == 63 && d == backslash &&
          isDriveLetter drive && e == colon && f == backslash then some 6
      else none
  | _ => none

def isAncestorSeparator (unit : UInt16) (verbatim : Bool) : Bool :=
  unit == backslash || (!verbatim && unit == slash)

def countComponents (verbatim : Bool) : List UInt16 → Bool → ℕ
  | [], _ => 0
  | unit :: units, inComponent =>
      if isAncestorSeparator unit verbatim then countComponents verbatim units false
      else if inComponent then countComponents verbatim units true
      else countComponents verbatim units true + 1

def pathComponentDepth (units : List UInt16) : ℕ :=
  match verbatimDriveRootSeparator units with
  | some root => countComponents true (units.drop (root + 1)) false
  | none =>
      match units with
      | _ :: second :: third :: rest =>
          if second == colon && isSeparator third then countComponents false rest false
          else countComponents false units false
      | _ => countComponents false units false

/-- The position of the last unit that satisfies `p`. -/
def rposition (p : UInt16 → Bool) (units : List UInt16) : Option ℕ :=
  (units.reverse.findIdx? p).map fun i => units.length - 1 - i

/-! ### Loops -/

def checkCancelled : ExceptT PlanAttemptError Engine Unit := do
  if ← cancellationRequested then throw .cancelled else pure ()

/-- Walks a list with a cancellation check before each element. -/
def foldChecked {α β : Type} (step : β → α → ExceptT PlanAttemptError Engine β) :
    List α → β → ExceptT PlanAttemptError Engine β
  | [], acc => pure acc
  | a :: rest, acc => do
      checkCancelled
      let acc ← step acc a
      foldChecked step rest acc

/-- A pass with issues ends planning. -/
def refuse (issues : List PlanIssue) : ExceptT PlanAttemptError Engine Unit :=
  if issues = [] then pure () else throw (.plan issues)

/-- The issues of one entry. -/
def report (entry : EntryId) (kinds : List PlanIssueKind) : List PlanIssue :=
  kinds.map fun kind => ⟨entry, kind⟩

/-- Walks the direct ancestors of a path, the nearest one first, until `visit` stops. -/
def visitFrom {β : Type} (verbatim : Bool) (rootSeparator : ℕ)
    (visit : LegacyText → β → ExceptT PlanAttemptError Engine (β × Bool)) :
    ℕ → LegacyText → β → ExceptT PlanAttemptError Engine β
  | 0, _, acc => pure acc
  | rounds + 1, ancestor, acc => do
      checkCancelled
      match rposition (fun unit => isAncestorSeparator unit verbatim) ancestor.units with
      | none => pure acc
      | some separator =>
          if separator ≤ rootSeparator then pure acc
          else
            let ancestor : LegacyText := ⟨ancestor.units.take separator⟩
            if ancestor.isEmpty then pure acc
            else do
              let (acc, stop) ← visit ancestor acc
              if stop then pure acc
              else visitFrom verbatim rootSeparator visit rounds ancestor acc

def visitDirectAncestors {β : Type} (path : LegacyText)
    (visit : LegacyText → β → ExceptT PlanAttemptError Engine (β × Bool)) (acc : β) :
    ExceptT PlanAttemptError Engine β :=
  visitFrom (verbatimDriveRootSeparator path.units).isSome
    ((verbatimDriveRootSeparator path.units).getD 2) visit maxPlanPathDepth path acc

/-! ### Validation of the request -/

def isNotFoundError (error : BackendError) : Bool := error.code == 2 || error.code == 3

def pathEnvironmentIssue (error : BackendError) : PlanIssueKind :=
  if error.code = 50 then .unsupportedCaseSensitiveParent
  else if error.code = 53 then .unsupportedWindowsPath
  else if error.code = 1005 then .unsupportedFilesystem
  else .backendFailure error

def sourceTooDeep (intent : RenameIntent) : Bool :=
  decide (pathComponentDepth intent.source.units > maxPlanPathDepth)

def relativeSource (intent : RenameIntent) : Bool := !isAbsoluteWindowsPath intent.source.units

/-- What is wrong with the texts of a changed intent. -/
def validateIntent (intent : RenameIntent) : List PlanIssueKind :=
  (if sourceTooDeep intent ||
      decide (pathComponentDepth intent.destinationParent.units > maxPlanPathDepth) then
    [.pathTooDeep] else []) ++
  (if relativeSource intent then [.relativeSource] else []) ++
  (if !isAbsoluteWindowsPath intent.destinationParent.units then
    [.relativeDestinationParent] else []) ++
  (match validateWindowsLeafName intent.destinationName with
    | .error error => [.invalidDestinationName error]
    | .ok _ => [])

/-- What is wrong with the source text of an unchanged intent. -/
def validateSourcePath (intent : RenameIntent) : List PlanIssueKind :=
  (if sourceTooDeep intent then [.pathTooDeep] else []) ++
  (if relativeSource intent then [.relativeSource] else [])

def collectChanged (entries : List RenameIntent) :
    ExceptT PlanAttemptError Engine (List RenameIntent) :=
  foldChecked (fun changed intent =>
    pure (if intent.changes then changed ++ [intent] else changed)) entries []

/-- The texts of the request: changed intents first, then the sources of the others. -/
def validateTexts (entries changed : List RenameIntent) :
    ExceptT PlanAttemptError Engine (List PlanIssue) := do
  let issues ← foldChecked (fun issues intent =>
    pure (issues ++ report intent.id (validateIntent intent))) changed []
  if changed.isEmpty then pure issues
  else
    foldChecked (fun issues intent =>
      pure (issues ++ report intent.id (validateSourcePath intent)))
      (entries.filter fun intent => !intent.changes) issues

/-- Asks the backend about the environment of both paths of an intent. -/
def validateEnvironment (issues : List PlanIssue) (intent : RenameIntent) :
    ExceptT PlanAttemptError Engine (List PlanIssue) :=
  foldChecked (fun issues path => do
    match ← validatePathEnvironment path with
    | .error error => pure (issues ++ [⟨intent.id, pathEnvironmentIssue error⟩])
    | .ok _ => pure issues) [intent.source, intent.destination] issues

/-! ### Textual keys -/

/-- The identifiers under each textual key. -/
structure Owners where
  source : ExtTreeMap PathKey (List EntryId)
  entry : ExtTreeMap EntryId (List EntryId)
  destination : ExtTreeMap PathKey (List EntryId)

def collectOwners (changed : List RenameIntent) : ExceptT PlanAttemptError Engine Owners :=
  foldChecked (fun owners intent => do
    let sourceKey ← pathKey intent.source
    let destinationKey ← pathKey intent.destination
    pure ⟨pushOwner owners.source sourceKey intent.id,
      pushOwner owners.entry intent.id intent.id,
      pushOwner owners.destination destinationKey intent.id⟩) changed ⟨∅, ∅, ∅⟩

/-- One issue for each of the entries. -/
def issueEach (kind : PlanIssueKind) (entries : List EntryId) (issues : List PlanIssue) :
    ExceptT PlanAttemptError Engine (List PlanIssue) :=
  foldChecked (fun issues entry => pure (issues ++ [⟨entry, kind⟩])) entries issues

def appendDuplicateIssues (ownerSets : List (List EntryId)) (kind : PlanIssueKind)
    (issues : List PlanIssue) : ExceptT PlanAttemptError Engine (List PlanIssue) :=
  foldChecked (fun issues owners => issueEach kind owners issues)
    (ownerSets.filter fun owners => decide (owners.length > 1)) issues

/-- The changed sources that are ancestors of one another, by textual key. -/
def collectOverlap (changed : List RenameIntent)
    (sourceOwners : ExtTreeMap PathKey (List EntryId)) :
    ExceptT PlanAttemptError Engine (ExtTreeSet EntryId) :=
  foldChecked (fun overlap intent =>
    visitDirectAncestors intent.source (fun ancestor overlap => do
      let key ← pathKey ancestor
      match sourceOwners[key]? with
      | some owners => pure ((overlap.insert intent.id).insertMany owners, false)
      | none => pure (overlap, false)) overlap) changed ∅

/-- The pass over textual keys. -/
def checkPathKeys (changed : List RenameIntent) :
    ExceptT PlanAttemptError Engine (List PlanIssue) := do
  let owners ← collectOwners changed
  let issues ← appendDuplicateIssues (ownerSets owners.source) .duplicateSource []
  let issues ← appendDuplicateIssues (ownerSets owners.entry) .duplicateEntryId issues
  let issues ← appendDuplicateIssues (ownerSets owners.destination) .duplicateDestination
    issues
  let overlap ← collectOverlap changed owners.source
  issueEach .sourceOverlap overlap.toList issues

/-! ### Observation of the rows -/

/-- The source of a row as the backend has it, or what is wrong with it. -/
def planSource (intent : RenameIntent) : ExceptT PlanAttemptError Engine
    (Except PlanIssueKind (ResolvedSource × ObservedEntry × PathKey)) := do
  match ← resolveSource intent.source with
  | .error error => pure (.error (.backendFailure error))
  | .ok resolved => do
      checkCancelled
      match resolved.snapshot.entry with
      | none => pure (.error .missingSource)
      | some sourceEntry =>
          if sourceEntry.kind ≠ intent.kind then pure (.error .sourceKindChanged)
          else
            match resolved.entryKey with
            | none => pure (.error .backend)
            | some sourceEntryKey =>
                if pathComponentDepth resolved.path.units > maxPlanPathDepth ∨
                    isAbsoluteWindowsPath resolved.path.units = false then
                  pure (.error .backend)
                else
                  match ← plannedEntryKey resolved.snapshot.parent (pathLeaf resolved.path) with
                  | .error error => pure (.error (.backendFailure error))
                  | .ok key =>
                      if key ≠ sourceEntryKey then pure (.error .backend)
                      else if sourceEntry.isReparsePoint then pure (.error .reparseSource)
                      else pure (.ok (resolved, sourceEntry, sourceEntryKey))

/-- The movement boundaries a row would cross. -/
def boundaryIssues (scope : MoveScope) (sourceEntry : ObservedEntry)
    (sourceParent destinationParent : EntryIdentity) : List PlanIssueKind :=
  (if sourceParent ≠ destinationParent ∧ scope = .sameParent then [.crossParent] else []) ++
  (if sourceParent ≠ destinationParent ∧ scope = .sameVolumeFilesOnly ∧
      sourceEntry.kind = .directory then [.directoryMoveUnsupported] else []) ++
  (if sourceEntry.identity.volume ≠ sourceParent.volume ∨
      sourceParent.volume ≠ destinationParent.volume then [.crossVolume] else [])

/-- The row of a changed intent, or the issues that refuse it. -/
def planRow (scope : MoveScope) (intent : RenameIntent) :
    ExceptT PlanAttemptError Engine (Except (List PlanIssueKind) PlanRow) := do
  match ← planSource intent with
  | .error kind => pure (.error [kind])
  | .ok (resolved, sourceEntry, sourceEntryKey) =>
      match ← observe intent.destination with
      | .error error => pure (.error [.backendFailure error])
      | .ok destinationSnapshot => do
          checkCancelled
          let blockers := boundaryIssues scope sourceEntry resolved.snapshot.parent
            destinationSnapshot.parent
          if blockers ≠ [] then pure (.error blockers)
          else
            match ← plannedEntryKey destinationSnapshot.parent intent.destinationName with
            | .error error => pure (.error [.backendFailure error])
            | .ok destinationEntryKey =>
                pure (.ok
                  { id := intent.id
                    source := resolved.path
                    destination := intent.destination
                    kind := intent.kind
                    sourceSnapshot := resolved.snapshot
                    destinationSnapshot
                    sourceEntryKey
                    destinationEntryKey })

/-- The rows planned so far, with the snapshots kept for the directory pass. -/
structure RowsState where
  entries : List PlanRow
  issues : List PlanIssue
  sourceSnapshots : ExtTreeMap EntryId PathSnapshot
  destinationSnapshots : ExtTreeMap EntryId PathSnapshot

def planRows (scope : MoveScope) (hasChangedDirectory : Bool) (changed : List RenameIntent) :
    ExceptT PlanAttemptError Engine RowsState :=
  foldChecked (fun st intent => do
    match ← planRow scope intent with
    | .error kinds => pure { st with issues := st.issues ++ report intent.id kinds }
    | .ok row =>
        let st := { st with entries := st.entries ++ [row] }
        if hasChangedDirectory then
          pure { st with
            sourceSnapshots := st.sourceSnapshots.insert intent.id row.sourceSnapshot
            destinationSnapshots :=
              st.destinationSnapshots.insert intent.id row.destinationSnapshot }
        else pure st) changed ⟨[], [], ∅, ∅⟩

/-! ### Actual keys -/

def checkDestinationKeys (entries : List PlanRow) :
    ExceptT PlanAttemptError Engine (List PlanIssue) := do
  let owners ← foldChecked (fun owners (entry : PlanRow) =>
    pure (pushOwner owners entry.destinationEntryKey entry.id)) entries ∅
  appendDuplicateIssues (ownerSets owners) .duplicateDestination []

/-- The parent and the identity of a source, the key of its candidate group. -/
structure SourceIdentity where
  parent : EntryIdentity
  identity : EntryIdentity
  deriving DecidableEq, Repr

instance : Ord SourceIdentity :=
  ⟨compareLex (compareOn SourceIdentity.parent) (compareOn SourceIdentity.identity)⟩

instance : TransOrd SourceIdentity :=
  inferInstanceAs (TransCmp (compareLex (compareOn SourceIdentity.parent)
    (compareOn SourceIdentity.identity)))

instance : LawfulEqOrd SourceIdentity where
  eq_of_compare {a b} h := by
    obtain ⟨hparent, hidentity⟩ := compareLex_eq_eq.1 h
    cases a
    cases b
    have h₁ := LawfulEqOrd.eq_of_compare (α := EntryIdentity) hparent
    have h₂ := LawfulEqOrd.eq_of_compare (α := EntryIdentity) hidentity
    simp_all

structure SourceCandidate where
  id : EntryId
  path : LegacyText
  entryKey : Option PathKey
  changed : Bool
  deriving DecidableEq, Repr

abbrev Candidates : Type := ExtTreeMap SourceIdentity (List SourceCandidate)

/-- Adds the planned rows. -/
def changedCandidates (entries : List PlanRow) : ExceptT PlanAttemptError Engine Candidates :=
  foldChecked (fun candidates (entry : PlanRow) =>
    match entry.sourceSnapshot.entry with
    | none => pure candidates
    | some source =>
        pure (pushOwner candidates ⟨entry.sourceSnapshot.parent, source.identity⟩
          ⟨entry.id, entry.source, some entry.sourceEntryKey, true⟩)) entries ∅

/-- Adds the unchanged intents whose source is there. -/
def unchangedCandidates (unchanged : List RenameIntent) (candidates : Candidates) :
    ExceptT PlanAttemptError Engine (Candidates × List PlanIssue) :=
  foldChecked (fun (candidates, issues) intent => do
    match ← observe intent.source with
    | .ok ⟨parent, some source⟩ =>
        pure (pushOwner candidates ⟨parent, source.identity⟩
          ⟨intent.id, intent.source, none, false⟩, issues)
    | .ok ⟨_, none⟩ => pure (candidates, issues)
    | .error error =>
        if isNotFoundError error then pure (candidates, issues)
        else pure (candidates, issues ++ [⟨intent.id, .backendFailure error⟩]))
    unchanged (candidates, [])

/-- The entry key of a candidate, resolved again when it has none. -/
def candidateEntryKey (candidate : SourceCandidate) : ExceptT PlanAttemptError Engine
    (Option PathKey × List PlanIssue) := do
  match candidate.entryKey with
  | some key => pure (some key, [])
  | none =>
      match ← resolveSource candidate.path with
      | .ok source => pure (source.entryKey, [])
      | .error error =>
          if isNotFoundError error then pure (none, [])
          else pure (none, [⟨candidate.id, .backendFailure error⟩])

/-- The candidates of one group under their entry keys. -/
def normalizedOwners (group : List SourceCandidate) (issues : List PlanIssue) :
    ExceptT PlanAttemptError Engine
      (ExtTreeMap PathKey (List SourceCandidate) × List PlanIssue) :=
  foldChecked (fun (owners, issues) candidate => do
    let (key, more) ← candidateEntryKey candidate
    match key with
    | some key => pure (pushOwner owners key candidate, issues ++ more)
    | none => pure (owners, issues ++ more)) group (∅, issues)

/-- Whether a group holds two candidates, one of them changed. -/
def isDuplicateGroup (group : List SourceCandidate) : Bool :=
  decide (group.length > 1) && group.any SourceCandidate.changed

/-- Adds the duplicates of one candidate group. -/
def groupDuplicates (acc : ExtTreeSet EntryId × List PlanIssue)
    (group : List SourceCandidate) :
    ExceptT PlanAttemptError Engine (ExtTreeSet EntryId × List PlanIssue) := do
  let (owners, issues) ← normalizedOwners group acc.2
  let duplicates ← foldChecked (fun (duplicates : ExtTreeSet EntryId)
      (owners : List SourceCandidate) =>
    pure (duplicates.insertMany (owners.map SourceCandidate.id)))
    ((ownerSets owners).filter isDuplicateGroup) acc.1
  pure (duplicates, issues)

def appendActualDuplicateSourceIssues (request : List RenameIntent)
    (changedEntries : List PlanRow) : ExceptT PlanAttemptError Engine (List PlanIssue) := do
  if changedEntries.isEmpty then pure []
  else do
    let candidates ← changedCandidates changedEntries
    let (candidates, issues) ← unchangedCandidates
      (request.filter fun intent => !intent.changes) candidates
    if issues ≠ [] then pure issues
    else do
      let (duplicates, issues) ← foldChecked groupDuplicates
        ((ownerSets candidates).filter isDuplicateGroup) (∅, [])
      issueEach .duplicateSource duplicates.toList issues

/-! ### Directories -/

/-- The entries found to overlap a changed directory, and the issues met on the way. -/
structure Inspection where
  overlapEntries : ExtTreeSet EntryId
  issues : List PlanIssue

abbrev DirectoryOwners : Type := ExtTreeMap EntryIdentity (List EntryId)

def recordIdentityOverlap (directoryOwners : DirectoryOwners) (identity : EntryIdentity)
    (candidate : EntryId) (excludeCandidate : Bool) (inspection : Inspection) :
    Bool × Inspection :=
  match directoryOwners[identity]? with
  | none => (false, inspection)
  | some owners =>
      if excludeCandidate && owners.all fun owner => owner == candidate then
        (false, inspection)
      else
        (true, { inspection with
          overlapEntries := (inspection.overlapEntries.insert candidate).insertMany owners })

/-- Compares the entry of a snapshot, when it is a directory, and its parent. -/
def recordSnapshotOverlap (directoryOwners : DirectoryOwners) (snapshot : PathSnapshot)
    (candidate : EntryId) (compareEntry excludeCandidate : Bool) (inspection : Inspection) :
    Bool × Inspection :=
  let (entryMatches, inspection) :=
    match snapshot.entry with
    | some entry =>
        if compareEntry && entry.kind == .directory then
          recordIdentityOverlap directoryOwners entry.identity candidate excludeCandidate
            inspection
        else (false, inspection)
    | none => (false, inspection)
  let (parentMatches, inspection) :=
    recordIdentityOverlap directoryOwners snapshot.parent candidate false inspection
  (entryMatches || parentMatches, inspection)

/-- Compares one ancestor of an endpoint; a match ends the walk. -/
def inspectAncestor (directoryOwners : DirectoryOwners) (candidate : EntryId)
    (ancestor : LegacyText) (inspection : Inspection) :
    ExceptT PlanAttemptError Engine (Inspection × Bool) := do
  match ← observe ancestor with
  | .error error =>
      if isNotFoundError error then pure (inspection, false)
      else
        pure ({ inspection with
          issues := inspection.issues ++ [⟨candidate, .backendFailure error⟩] }, true)
  | .ok snapshot =>
      let (overlaps, inspection) :=
        recordSnapshotOverlap directoryOwners snapshot candidate true false inspection
      pure (inspection, overlaps)

/-- Inspects one endpoint and, unless it matches already, its ancestors. -/
def inspectEndpoint (directoryOwners : DirectoryOwners) (endpoint : LegacyText)
    (candidate : EntryId) (observation : Except BackendError PathSnapshot)
    (compareEndpointEntry : Bool) (inspection : Inspection) :
    ExceptT PlanAttemptError Engine Inspection :=
  let visitAncestors :=
    visitDirectAncestors endpoint (inspectAncestor directoryOwners candidate)
  match observation with
  | .ok snapshot =>
      let (endpointMatches, inspection) := recordSnapshotOverlap directoryOwners snapshot
        candidate compareEndpointEntry true inspection
      if endpointMatches then pure inspection else visitAncestors inspection
  | .error error =>
      if isNotFoundError error then visitAncestors inspection
      else
        pure { inspection with
          issues := inspection.issues ++ [⟨candidate, .backendFailure error⟩] }

/-- A snapshot kept from the rows, or a new observation. -/
def observationOf (snapshots : ExtTreeMap EntryId PathSnapshot) (id : EntryId)
    (path : LegacyText) : Engine (Except BackendError PathSnapshot) :=
  match snapshots[id]? with
  | some snapshot => pure (.ok snapshot)
  | none => observe path

/-- The identities of the changed directories. -/
def collectDirectories (entries : List PlanRow) :
    ExceptT PlanAttemptError Engine DirectoryOwners :=
  foldChecked (fun owners (entry : PlanRow) =>
    match entry.kind, entry.sourceSnapshot.entry with
    | .directory, some source => pure (pushOwner owners source.identity entry.id)
    | _, _ => pure owners) entries ∅

def inspectDirectories (request changed : List RenameIntent) (rows : RowsState)
    (directoryOwners : DirectoryOwners) : ExceptT PlanAttemptError Engine (List PlanIssue) := do
  let inspection ← foldChecked (fun inspection (intent : RenameIntent) => do
    let observation ←
      if intent.changes then observationOf rows.sourceSnapshots intent.id intent.source
      else observe intent.source
    inspectEndpoint directoryOwners intent.source intent.id observation true inspection)
    request ⟨∅, []⟩
  let inspection ← foldChecked (fun inspection (intent : RenameIntent) => do
    let observation ← observationOf rows.destinationSnapshots intent.id intent.destination
    inspectEndpoint directoryOwners intent.destination intent.id observation false inspection)
    changed inspection
  issueEach .sourceOverlap inspection.overlapEntries.toList inspection.issues

/-- The pass over the identities of changed directories. -/
def checkDirectories (request changed : List RenameIntent) (hasChangedDirectory : Bool)
    (rows : RowsState) : ExceptT PlanAttemptError Engine (List PlanIssue) := do
  let directoryOwners ←
    if hasChangedDirectory then collectDirectories rows.entries else pure ∅
  if directoryOwners.isEmpty then pure []
  else inspectDirectories request changed rows directoryOwners

/-! ### Occupied destinations -/

def checkOccupied (entries : List PlanRow) : ExceptT PlanAttemptError Engine (List PlanIssue) := do
  let plannedSourceKeys ← foldChecked (fun (keys : ExtTreeSet PathKey) (entry : PlanRow) =>
    pure (keys.insert entry.sourceEntryKey)) entries ∅
  foldChecked (fun issues (entry : PlanRow) =>
    if entry.destinationSnapshot.entry.isSome &&
        !plannedSourceKeys.contains entry.destinationEntryKey then
      pure (issues ++ [⟨entry.id, .destinationOccupied⟩])
    else pure issues) entries []

/-! ### The plan -/

/-- One value of the fingerprint, its bytes in little-endian order. -/
def hashValue (hash value : UInt64) : UInt64 :=
  (List.range 8).foldl (fun hash i =>
    (hash ^^^ ((value >>> (8 * i).toUInt64) &&& 255)) * 0x100000001b3) hash

def hashText (hash : UInt64) (text : LegacyText) : UInt64 :=
  text.units.foldl (fun hash unit => hashValue hash unit.toUInt64)
    (hashValue hash text.len.toUInt64)

def scopeValue : MoveScope → UInt64
  | .sameParent => 0
  | .sameVolumeFilesOnly => 1

def kindValue : EntryKind → UInt64
  | .file => 0
  | .directory => 1

def planIdCancellable (request : PlanRequest) : ExceptT PlanAttemptError Engine PlanId := do
  let hash := hashValue 0xcbf29ce484222325 0x4452504c414e0001
  let hash := hashValue hash request.revision.value
  let hash := hashValue hash (scopeValue request.scope)
  let hash := hashValue hash request.entries.length.toUInt64
  let hash ← foldChecked (fun hash (intent : RenameIntent) =>
    let hash := hashValue hash intent.id.value.toUInt64
    let hash := hashValue hash (kindValue intent.kind)
    pure (hashText (hashText hash intent.source) intent.destination)) request.entries hash
  pure ⟨hash⟩

/-- Validates a request and freezes its observations. -/
def planCancellable (request : PlanRequest) : ExceptT PlanAttemptError Engine RenamePlan := do
  let changed ← collectChanged request.entries
  let hasChangedDirectory := changed.any fun intent => intent.kind == .directory
  refuse (← validateTexts request.entries changed)
  refuse (← foldChecked validateEnvironment changed [])
  refuse (← checkPathKeys changed)
  let rows ← planRows request.scope hasChangedDirectory changed
  refuse rows.issues
  refuse (← checkDestinationKeys rows.entries)
  refuse (← appendActualDuplicateSourceIssues request.entries rows.entries)
  refuse (← checkDirectories request.entries changed hasChangedDirectory rows)
  refuse (← checkOccupied rows.entries)
  checkCancelled
  let id ← planIdCancellable request
  pure ⟨id, request.revision, rows.entries, request.scope⟩

end Planner

end DarkReNamer
