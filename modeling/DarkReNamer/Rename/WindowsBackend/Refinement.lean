import DarkReNamer.Interaction.Interpret
import DarkReNamer.Interaction.Yields
import DarkReNamer.Rename.Volume
import DarkReNamer.Rename.WindowsBackend.MovesOnce

/-!
# The Windows backend keeps the contract of a volume

`NativeVolume` is what the native functions are about while nobody else touches the directories: a
handle refers to a directory entry, a name opens the entry whose key it has, and a move that
succeeds takes the entry to a free key. Short names that open an entry under another key are left
out. Over such a volume every call of the backend, finished or cut between two native calls, does
what `Volume.backendRel` allows.
-/

namespace DarkReNamer

open Interaction Occupancy

section Keys

/-- Units of two bytes each are read back as the bytes. -/
theorem flatMap_leBytes_leUnits {bytes : List UInt8} (h : bytes.length % 2 = 0) :
    (leUnits bytes).flatMap (fun unit => Bytes.leBytes 2 unit.toNat) = bytes := by
  induction bytes using leUnits.induct with
  | case1 low high rest ih =>
      have hbytes : Bytes.leBytes 2 (Bytes.readLe [low, high]) = [low, high] :=
        Bytes.leBytes_readLe [low, high]
      have hlt : Bytes.readLe [low, high] < 256 ^ 2 := Bytes.readLe_lt [low, high]
      have hunit : (Bytes.readLe [low, high]).toUInt16.toNat = Bytes.readLe [low, high] := by
        rw [Nat.toUInt16, UInt16.toNat_ofNat_of_lt' (by simpa [UInt16.size] using hlt)]
      rw [leUnits, List.flatMap_cons, hunit, hbytes,
        ih (by simp only [List.length_cons] at h; omega)]
      rfl
  | case2 bytes hshort =>
      match bytes, hshort with
      | [], _ => rfl
      | [_], _ => simp at h
      | low :: high :: rest, hshort => exact absurd rfl (hshort low high rest)

theorem leUnits_injective {a b : List UInt8} (ha : a.length % 2 = 0) (hb : b.length % 2 = 0)
    (h : leUnits a = leUnits b) : a = b := by
  rw [← flatMap_leBytes_leUnits ha, h, flatMap_leBytes_leUnits hb]

theorem length_leUnits (bytes : List UInt8) : (leUnits bytes).length = bytes.length / 2 := by
  induction bytes using leUnits.induct with
  | case1 low high rest ih =>
      rw [leUnits, List.length_cons, ih, List.length_cons, List.length_cons]
      omega
  | case2 bytes hshort =>
      match bytes, hshort with
      | [], _ => rfl
      | [_], _ => simp [leUnits]
      | low :: high :: rest, hshort => exact absurd rfl (hshort low high rest)

/-- A key determines the parent and the normalized leaf. -/
theorem entryKeyFromParts_injective {p p' : EntryIdentity} {leaf leaf' : List UInt16}
    (h : entryKeyFromParts p leaf = entryKeyFromParts p' leaf') : p = p' ∧ leaf = leaf' := by
  have hunits := congrArg PathKey.units h
  simp only [entryKeyFromParts, List.append_assoc] at hunits
  obtain ⟨hvolume, hrest⟩ := List.append_inj hunits (by simp [length_leUnits])
  obtain ⟨hfile, hleaf⟩ := List.append_inj hrest (by simp [length_leUnits])
  have hv : p.volume.toNat = p'.volume.toNat :=
    Bytes.leBytes_injective p.volume.toNat_lt p'.volume.toNat_lt
      (leUnits_injective (by simp) (by simp) hvolume)
  have hf : p.fileId.toNat = p'.fileId.toNat :=
    Bytes.leBytes_injective p.fileId.isLt p'.fileId.isLt
      (leUnits_injective (by simp) (by simp) hfile)
  cases p
  cases p'
  simp only [EntryIdentity.mk.injEq]
  exact ⟨⟨UInt64.toNat.inj hv, BitVec.eq_of_toNat_eq hf⟩, hleaf⟩

end Keys

/-- The fixed part of the volume behind the native functions. -/
structure NativeVolume where
  uppercase : List UInt16 → List UInt16
  directory : LegacyText → EntryIdentity
  kind : EntryIdentity → EntryKind
  isReparsePoint : EntryIdentity → Bool

/-- The directory entries, and the key of the entry that a handle refers to. -/
structure NativeState where
  occupancy : VolumeState
  opened : Handle → Option PathKey

/-- The identity of the entry that a handle refers to. -/
def NativeState.occupant (s : NativeState) (file : Handle) : Option EntryIdentity :=
  (s.opened file).bind s.occupancy

namespace NativeVolume

variable (N : NativeVolume)

def key (parent : EntryIdentity) (leaf : List UInt16) : PathKey :=
  entryKeyFromParts parent (N.uppercase leaf)

/-- The volume that the backend shows. -/
def volume : Volume where
  entryKey parent leaf := N.key parent leaf.units
  parent path :=
    match WindowsBackend.splitAbsolutePath path .observe with
    | .ok (parentPath, _) => N.directory parentPath
    | .error _ => ⟨0, 0⟩
  kind := N.kind
  isReparsePoint := N.isReparsePoint
  parent_eq_of_entryKey_eq h := (entryKeyFromParts_injective h).1

/-- The contract of the native functions over the directory entries. A name that is not found has
no entry, and a handle stays with its entry until it moves it. -/
def nativeRel : Environment NativeState NativeCall NativeAnswer
  | s, .openParent path, .ok parent, t => parent.identity = N.directory path ∧ t = s
  | s, .openParentChain path, .ok parent, t => parent.identity = N.directory path ∧ t = s
  | s, .openEntry parent leaf _, .ok file, t => s.occupancy (N.key parent.identity leaf) ≠ none ∧
      t = ⟨s.occupancy, Function.update s.opened file (some (N.key parent.identity leaf))⟩
  | s, .openEntry parent leaf _, .error error, t =>
      (error.isNotFound = true → s.occupancy (N.key parent.identity leaf) = none) ∧ t = s
  | s, .metadata file, .ok attributes, t =>
      (∃ identity, s.occupant file = some identity ∧ attributeKind attributes = N.kind identity ∧
        attributeReparse attributes = N.isReparsePoint identity) ∧ t = s
  | s, .fileIdentity file, .ok identity, t => s.occupant file = some identity ∧ t = s
  | s, .normalizedFinalLeaf file, .ok leaf, t =>
      (∃ parent, s.opened file = some (N.key parent leaf)) ∧ t = s
  | s, .renameNoreplace source parent leaf, .ok _, t =>
      ∃ k identity, s.opened source = some k ∧ s.occupancy k = some identity ∧
        s.occupancy (N.key parent.identity leaf) = none ∧
        t.occupancy = (⟨k, N.key parent.identity leaf, identity⟩ : KeyMove).apply s.occupancy
  | s, .invariantUppercase units, .ok mapped, t => mapped = N.uppercase units ∧ t = s
  | s, _, _, t => t = s

end NativeVolume

namespace WindowsBackend

/-- A path that is split ends in its leaf, whatever the split is for. -/
theorem splitAbsolutePath_eq_ok {path parentPath leaf : LegacyText} {operation : BackendOperation}
    (h : splitAbsolutePath path operation = .ok (parentPath, leaf)) :
    pathLeaf path = leaf ∧
      ∀ other, splitAbsolutePath path other = .ok (parentPath, leaf) := by
  unfold splitAbsolutePath at h ⊢
  cases hposition : rposition isSeparator path.units with
  | none =>
      rw [hposition] at h
      cases h
  | some separator =>
      obtain ⟨front, unit, name, hunits, hlength, hunit, hname⟩ :=
        exists_of_rposition_eq_some hposition
      rw [hposition] at h
      dsimp only at h ⊢
      split at h
      · cases h
      · next hfits =>
          split at h
          · cases h
          · obtain ⟨rfl, rfl⟩ := Prod.mk.inj (Except.ok.inj h)
            refine ⟨?_, fun other => ?_⟩
            · rw [pathLeaf, hunits, afterLastSeparator_append hname hunit, ← hlength]
              simp
            · rw [if_neg hfits]

variable {N : NativeVolume} {o : VolumeState} {α β : Type}

/-- The program leaves the entries alone, and its values satisfy `ok`. -/
def Tells (N : NativeVolume) (o : VolumeState) (p : ExceptT BackendError NativeProgram α)
    (ok : α → NativeState → Prop) (s : NativeState) : Prop :=
  Spec N.nativeRel (fun t => t.occupancy = o) p.run
    (fun r t => t.occupancy = o ∧ ∀ a, r = .ok a → ok a t) s

namespace Tells

variable {p : ExceptT BackendError NativeProgram α} {ok ok' : α → NativeState → Prop}
  {s : NativeState}

theorem pure {a : α} (hs : s.occupancy = o) (h : ok a s) :
    Tells N o (Pure.pure a : ExceptT BackendError NativeProgram α) ok s := by
  refine ⟨hs, hs, ?_⟩
  rintro _ ⟨⟩
  exact h

theorem throw (error : BackendError) (hs : s.occupancy = o) :
    Tells N o (MonadExcept.throw error : ExceptT BackendError NativeProgram α) ok s :=
  ⟨hs, hs, by rintro _ ⟨⟩⟩

theorem bind {f : α → ExceptT BackendError NativeProgram β} {post : β → NativeState → Prop}
    (h : Tells N o p ok s)
    (rest : ∀ a t, t.occupancy = o → ok a t → Tells N o (f a) post t) :
    Tells N o (p >>= f) post s := by
  refine Spec.except_bind h (fun a t ha => rest a t ha.1 (ha.2 a rfl)) ?_
  rintro error t hcrash -
  exact ⟨hcrash, by rintro _ ⟨⟩⟩

/-- A native call with both of its answers at hand. -/
theorem call {c : NativeCall} {f : NativeAnswer c → ExceptT BackendError NativeProgram β}
    {post : β → NativeState → Prop} (hs : s.occupancy = o)
    (h : ∀ answer t, N.nativeRel s c answer t → Tells N o (f answer) post t) :
    Tells N o (liftM (Program.ask c : NativeProgram (NativeAnswer c)) >>= f) post s :=
  Spec.except_ask_bind hs h

/-- A native call whose errors are reported. -/
theorem attempt {report : NativeError → BackendError}
    {call : NativeProgram (Except NativeError α)}
    (h : Spec N.nativeRel (fun t => t.occupancy = o) call
      (fun r t => t.occupancy = o ∧ ∀ a, r = .ok a → ok a t) s) :
    Tells N o (attempt report call) ok s := by
  unfold Tells WindowsBackend.attempt
  rw [Spec.except_lift_bind_iff]
  refine h.mono ?_
  rintro r t ⟨ht, hr⟩
  cases r with
  | ok a => exact Tells.pure ht (hr a rfl)
  | error error => exact Tells.throw _ ht

/-- A native call that leaves the state alone. -/
theorem reads {report : NativeError → BackendError} {call : NativeProgram (Except NativeError α)}
    {post : α → Prop} (hs : s.occupancy = o)
    (h : Interaction.Reads N.nativeRel call s fun r => ∀ a, r = .ok a → post a) :
    Tells N o (WindowsBackend.attempt report call) (fun a t => t = s ∧ post a) s := by
  refine Tells.attempt ((Spec.mono_crash h ?_).mono ?_)
  · rintro t rfl
    exact hs
  · rintro r t ⟨rfl, hr⟩
    exact ⟨hs, fun a ha => ⟨rfl, hr a ha⟩⟩

end Tells

section Reads

variable {s : NativeState} (report : NativeError → BackendError)

theorem tells_split (hs : s.occupancy = o) (path : LegacyText) (operation : BackendOperation) :
    Tells N o (split path operation)
      (fun parts t => t = s ∧ splitAbsolutePath path operation = .ok parts) s :=
  ⟨hs, hs, fun _ hparts => ⟨rfl, hparts⟩⟩

theorem tells_openParent (hs : s.occupancy = o) (path : LegacyText) :
    Tells N o (attempt report (openParent path))
      (fun parent t => t = s ∧ parent.identity = N.directory path) s := by
  refine Tells.reads hs (Reads.ask fun answer t step => ?_)
  cases answer with
  | ok parent =>
      refine ⟨step.2, ?_⟩
      rintro _ ⟨⟩
      exact step.1
  | error error => exact ⟨step, by rintro _ ⟨⟩⟩

theorem tells_openParentChain (hs : s.occupancy = o) (path : LegacyText) :
    Tells N o (attempt report (openParentChain path))
      (fun parent t => t = s ∧ parent.identity = N.directory path) s := by
  refine Tells.reads hs (Reads.ask fun answer t step => ?_)
  cases answer with
  | ok parent =>
      refine ⟨step.2, ?_⟩
      rintro _ ⟨⟩
      exact step.1
  | error error => exact ⟨step, by rintro _ ⟨⟩⟩

theorem tells_invariantUppercase (hs : s.occupancy = o) (units : List UInt16) :
    Tells N o (attempt report (invariantUppercase units))
      (fun mapped t => t = s ∧ mapped = N.uppercase units) s := by
  refine Tells.reads hs (Reads.ask fun answer t step => ?_)
  cases answer with
  | ok mapped =>
      refine ⟨step.2, ?_⟩
      rintro _ ⟨⟩
      exact step.1
  | error error => exact ⟨step, by rintro _ ⟨⟩⟩

theorem tells_metadata (hs : s.occupancy = o) (file : Handle) :
    Tells N o (attempt report (metadata file)) (fun attributes t => t = s ∧
      ∃ identity, s.occupant file = some identity ∧ attributeKind attributes = N.kind identity ∧
        attributeReparse attributes = N.isReparsePoint identity) s := by
  refine Tells.reads hs (Reads.ask fun answer t step => ?_)
  cases answer with
  | ok attributes =>
      refine ⟨step.2, ?_⟩
      rintro _ ⟨⟩
      exact step.1
  | error error => exact ⟨step, by rintro _ ⟨⟩⟩

theorem tells_fileIdentity (hs : s.occupancy = o) (file : Handle) :
    Tells N o (attempt report (fileIdentity file))
      (fun identity t => t = s ∧ s.occupant file = some identity) s := by
  refine Tells.reads hs (Reads.ask fun answer t step => ?_)
  cases answer with
  | ok identity =>
      refine ⟨step.2, ?_⟩
      rintro _ ⟨⟩
      exact step.1
  | error error => exact ⟨step, by rintro _ ⟨⟩⟩

theorem tells_normalizedFinalLeaf (hs : s.occupancy = o) (file : Handle) :
    Tells N o (attempt report (normalizedFinalLeaf file))
      (fun leaf t => t = s ∧ ∃ parent, s.opened file = some (N.key parent leaf)) s := by
  refine Tells.reads hs (Reads.ask fun answer t step => ?_)
  cases answer with
  | ok leaf =>
      refine ⟨step.2, ?_⟩
      rintro _ ⟨⟩
      exact step.1
  | error error => exact ⟨step, by rintro _ ⟨⟩⟩

theorem tells_openEntry (hs : s.occupancy = o) (parent : NativeParent) (leaf : List UInt16)
    (deleteAccess : Bool) :
    Tells N o (attempt report (openEntry parent leaf deleteAccess))
      (fun file t => t.opened file = some (N.key parent.identity leaf)) s := by
  refine Tells.attempt ⟨hs, fun answer t step => ?_⟩
  cases answer with
  | ok file =>
      obtain ⟨-, rfl⟩ := step
      refine ⟨hs, hs, ?_⟩
      rintro _ ⟨⟩
      exact Function.update_self ..
  | error error =>
      obtain rfl : t = s := step.2
      exact ⟨hs, hs, by rintro _ ⟨⟩⟩

/-- An entry is looked for: it is found and opened, or it is not there. -/
theorem tells_found {parent : NativeParent} {leaf : List UInt16} {deleteAccess : Bool}
    {f : Except NativeError Handle → ExceptT BackendError NativeProgram β}
    {post : β → NativeState → Prop} (hs : s.occupancy = o)
    (found : ∀ file t, t.occupancy = o → t.opened file = some (N.key parent.identity leaf) →
      Tells N o (f (.ok file)) post t)
    (missing : ∀ error, (error.isNotFound = true → o (N.key parent.identity leaf) = none) →
      Tells N o (f (.error error)) post s) :
    Tells N o (liftM (openEntry parent leaf deleteAccess) >>= f) post s := by
  refine Tells.call (c := .openEntry parent leaf deleteAccess) hs fun answer t step => ?_
  cases answer with
  | ok file =>
      obtain ⟨-, rfl⟩ := step
      exact found file _ hs (Function.update_self ..)
  | error error =>
      obtain ⟨hnone, rfl⟩ := step
      exact missing error (hs ▸ hnone)

end Reads

section Observations

variable {s : NativeState}

theorem tells_observedEntry (hs : s.occupancy = o) {file : Handle} {k : PathKey}
    (hfile : s.opened file = some k) :
    Tells N o (observedEntry file)
      (fun entry t => t = s ∧ N.volume.observed o k = some entry) s := by
  have hoccupant : s.occupant file = o k := by simp [NativeState.occupant, hfile, hs]
  refine (tells_metadata observeError hs file).bind ?_
  rintro attributes _ - ⟨rfl, identity, hidentity, hkind, hreparse⟩
  refine (tells_fileIdentity observeError hs file).bind ?_
  rintro identity' _ - ⟨rfl, hidentity'⟩
  obtain rfl : identity' = identity := Option.some.inj (hidentity'.symm.trans hidentity)
  refine Tells.pure hs ⟨rfl, ?_⟩
  simp [Volume.observed, ← hoccupant, hidentity, hkind, hreparse, NativeVolume.volume]

theorem tells_plannedEntryKey (hs : s.occupancy = o) (parent : EntryIdentity)
    (leaf : LegacyText) :
    Tells N o (plannedEntryKey parent leaf)
      (fun key t => t = s ∧ key = N.volume.entryKey parent leaf) s := by
  unfold plannedEntryKey
  split
  · exact Tells.throw _ hs
  · refine (tells_invariantUppercase observeError hs leaf.units).bind ?_
    rintro mapped _ - ⟨rfl, rfl⟩
    exact Tells.pure hs ⟨rfl, rfl⟩

/-- Where a path is split, its parent and its key are those of the parts. -/
theorem volume_parts {path parentPath leaf : LegacyText} {operation : BackendOperation}
    (h : splitAbsolutePath path operation = .ok (parentPath, leaf)) :
    N.volume.parent path = N.directory parentPath ∧
      N.volume.key path = N.key (N.directory parentPath) leaf.units := by
  obtain ⟨hleaf, hsplit⟩ := splitAbsolutePath_eq_ok h
  have hparent : N.volume.parent path = N.directory parentPath := by
    simp [NativeVolume.volume, hsplit]
  refine ⟨hparent, ?_⟩
  rw [Volume.key, hparent, hleaf]
  rfl

/-- What is observed at a path is there. -/
theorem tells_observe (hs : s.occupancy = o) (path : LegacyText) :
    Tells N o (observe path) (fun snapshot _ => snapshot = N.volume.snapshot o path) s := by
  refine (tells_split hs path .observe).bind ?_
  rintro ⟨parentPath, leaf⟩ _ - ⟨rfl, hparts⟩
  obtain ⟨hparent, hkey⟩ := volume_parts (N := N) hparts
  refine (tells_openParent observeError hs parentPath).bind ?_
  rintro parent _ - ⟨rfl, hidentity⟩
  refine tells_found hs (fun file t ht hfile => ?_) fun error hmissing => ?_
  · refine (tells_observedEntry ht hfile).bind ?_
    rintro entry _ - ⟨rfl, hentry⟩
    refine Tells.pure ht ?_
    rw [hidentity] at hentry
    rw [Volume.snapshot, hparent, hkey, hentry, hidentity]
  · dsimp only
    split
    · next hfound =>
        have hnone := hmissing hfound
        rw [hidentity] at hnone
        refine Tells.pure hs ?_
        simp [Volume.snapshot, Volume.observed, hparent, hkey, hnone, hidentity]
    · exact Tells.throw _ hs

/-- What a source is resolved to is the entry of the path. -/
theorem tells_resolveSource (hs : s.occupancy = o) (path : LegacyText) :
    Tells N o (resolveSource path) (fun resolved _ => N.volume.Resolves o path resolved) s := by
  refine (tells_split hs path .observe).bind ?_
  rintro ⟨parentPath, leaf⟩ _ - ⟨rfl, hparts⟩
  obtain ⟨hparent, hkey⟩ := volume_parts (N := N) hparts
  refine (tells_openParent observeError hs parentPath).bind ?_
  rintro parent _ - ⟨rfl, hidentity⟩
  rw [← hidentity] at hparent hkey
  refine tells_found hs (fun file t ht hfile => ?_) fun error hmissing => ?_
  · refine (tells_observedEntry ht hfile).bind ?_
    rintro entry _ - ⟨rfl, hentry⟩
    refine (tells_normalizedFinalLeaf observeError ht file).bind ?_
    rintro normalizedLeaf _ - ⟨rfl, parent', hleaf⟩
    obtain ⟨rfl, hupper⟩ : parent.identity = parent' ∧
        N.uppercase leaf.units = N.uppercase normalizedLeaf :=
      entryKeyFromParts_injective (Option.some.inj (hfile.symm.trans hleaf))
    split
    · exact Tells.throw _ ht
    · refine (tells_plannedEntryKey ht parent.identity ⟨normalizedLeaf⟩).bind ?_
      rintro entryKey _ - ⟨rfl, rfl⟩
      have hspelled : N.volume.entryKey parent.identity ⟨normalizedLeaf⟩ =
          N.key parent.identity leaf.units := by
        simp only [NativeVolume.volume, NativeVolume.key, hupper]
      refine Tells.pure ht ⟨?_, ?_, ?_⟩
      · rintro key ⟨⟩
        exact ⟨⟨normalizedLeaf⟩, rfl⟩
      · rintro key ⟨⟩
        rw [hspelled, hentry]
      · rintro -
        rw [Volume.snapshot, hparent, hkey, hentry]
        refine ⟨rfl, ?_⟩
        rintro key ⟨⟩
        exact hspelled
  · dsimp only
    split
    · next hfound =>
        refine Tells.pure hs ⟨by rintro key ⟨⟩, by rintro key ⟨⟩, fun _ => ⟨?_, by rintro key ⟨⟩⟩⟩
        simp [Volume.snapshot, Volume.observed, hparent, hkey, hmissing hfound]
    · exact Tells.throw _ hs

end Observations

section Rename

variable {s : NativeState} {op : RenameOperation}

/-- The source opened for the move is the expected entry. -/
theorem tells_expectedSource (hs : s.occupancy = o) (parent : NativeParent) (leaf : LegacyText) :
    Tells N o (expectedSource op parent leaf)
      (fun source t => source.2 = op.expectedSource ∧
        t.opened source.1 = some (N.key parent.identity leaf.units) ∧
        o (N.key parent.identity leaf.units) = some op.expectedSource) s := by
  refine (tells_openEntry _ hs parent leaf.units true).bind fun source t ht hsource => ?_
  refine (tells_metadata _ ht source).bind ?_
  rintro attributes _ - ⟨rfl, -⟩
  split
  · exact Tells.throw _ ht
  · split
    · exact Tells.throw _ ht
    · refine (tells_fileIdentity _ ht source).bind ?_
      rintro identity t - ⟨rfl, hidentity⟩
      split
      · exact Tells.throw _ ht
      · next hexpected =>
          refine (tells_normalizedFinalLeaf _ ht source).bind ?_
          rintro actualLeaf _ - ⟨rfl, -⟩
          split
          · exact Tells.throw _ ht
          · obtain rfl := not_not.1 hexpected
            refine Tells.pure ht ⟨rfl, hsource, ?_⟩
            rw [← hidentity, NativeState.occupant, hsource, Option.bind_some, ht]

theorem tells_vacantDestination (hs : s.occupancy = o) (parent : NativeParent)
    (leaf : LegacyText) :
    Tells N o (vacantDestination parent leaf)
      (fun _ t => t = s ∧ o (N.key parent.identity leaf.units) = none) s := by
  refine tells_found hs (fun file t ht _ => Tells.throw _ ht) fun error hmissing => ?_
  dsimp only
  split
  · next hfound => exact Tells.pure hs ⟨rfl, hmissing hfound⟩
  · exact Tells.throw _ hs

/-- The boundaries do nothing. -/
theorem tells_boundary (hs : s.occupancy = o) :
    Tells N o (attempt report (pure (.ok ()))) (fun _ t => t = s) s :=
  ⟨hs, hs, fun _ _ => rfl⟩

/-- Where nothing is refused, the handle is that of the source of the operation's move, and the
move can be made. -/
theorem tells_prepareMove (op : RenameOperation) (hs : s.occupancy = o) :
    Tells N o (prepareMove op (pure (.ok ())) (pure (.ok ())))
      (fun move t => t.opened move.1.1 = some (N.volume.operationMove op).source ∧
        N.key move.2.1.identity move.2.2.units = (N.volume.operationMove op).destination ∧
        (N.volume.operationMove op).Enabled o) s := by
  unfold prepareMove
  split
  · exact Tells.throw _ hs
  · refine (tells_split hs op.source .rename).bind ?_
    rintro ⟨sourcePath, sourceLeaf⟩ _ - ⟨rfl, hsource⟩
    refine (tells_split hs op.destination .rename).bind ?_
    rintro ⟨destinationPath, destinationLeaf⟩ _ - ⟨rfl, hdestination⟩
    refine (tells_openParentChain _ hs sourcePath).bind ?_
    rintro sourceParent _ - ⟨rfl, -⟩
    refine (tells_openParentChain _ hs destinationPath).bind ?_
    rintro destinationParent _ - ⟨rfl, -⟩
    split
    · exact Tells.throw _ hs
    · next hparents =>
        obtain ⟨hsourceParent, hdestinationParent⟩ := not_or.1 hparents
        refine (tells_boundary hs).bind ?_
        rintro - _ - rfl
        refine (tells_expectedSource hs sourceParent sourceLeaf).bind ?_
        rintro ⟨source, identity⟩ t ht ⟨-, hopened, hoccupant⟩
        refine (tells_vacantDestination ht destinationParent destinationLeaf).bind ?_
        rintro - _ - ⟨rfl, hvacant⟩
        split
        · exact Tells.throw _ ht
        · refine (tells_boundary ht).bind ?_
          rintro - _ - rfl
          have hfrom : (N.volume.operationMove op).source =
              N.key sourceParent.identity sourceLeaf.units := by
            rw [Volume.operationMove, (splitAbsolutePath_eq_ok hsource).1, not_not.1 hsourceParent]
            rfl
          have hto : (N.volume.operationMove op).destination =
              N.key destinationParent.identity destinationLeaf.units := by
            rw [Volume.operationMove, (splitAbsolutePath_eq_ok hdestination).1,
              not_not.1 hdestinationParent]
            rfl
          refine Tells.pure ht ⟨hopened.trans (congrArg some hfrom.symm), hto.symm, ?_, ?_⟩
          · rw [hfrom, hoccupant]
            rfl
          · rw [hto, hvacant]

/-- After the move nothing more is changed, and an error leaves it in doubt. -/
theorem spec_verifyDestination (hs : s.occupancy = o) (identity : EntryIdentity)
    (parent : NativeParent) (leaf : LegacyText) :
    Spec N.nativeRel (fun t => t.occupancy = o) (verifyDestination identity parent leaf).run
      (fun r t => t.occupancy = o ∧ ∀ error, r = .error error → error.certainty = .mayHaveApplied)
      s := by
  have htells : Tells N o (verifyDestination identity parent leaf) (fun _ _ => True) s := by
    refine (tells_openEntry _ hs parent leaf.units false).bind fun file t ht _ => ?_
    refine (tells_fileIdentity _ ht file).bind ?_
    rintro observed _ - ⟨rfl, -⟩
    split
    · exact Tells.throw _ ht
    · exact Tells.pure ht trivial
  have herrors : Spec N.nativeRel (fun _ => True) (verifyDestination identity parent leaf).run
      (fun r _ => True ∧ ∀ error, r = .error error → error.certainty = .mayHaveApplied) s :=
    (fails_verifyDestination identity parent leaf).spec (fun _ _ _ _ _ _ _ => trivial) trivial
  exact (Spec.mono_crash (htells.both herrors) fun t ht => ht.1).mono
    fun r t hr => ⟨hr.1.1, hr.2.2⟩

/-- A rename does what the contract of the volume allows, also when it is cut. -/
theorem spec_renameNoReplace (op : RenameOperation) (s : NativeState) :
    Spec N.nativeRel
      (fun t => Reaches N.volume.backendRel s.occupancy (.renameNoReplace op) t.occupancy)
      (renameNoReplace op).run
      (fun r t => N.volume.backendRel s.occupancy (.renameNoReplace op) r t.occupancy) s := by
  unfold renameNoReplace renameWithBoundaries
  rw [Spec.except_bind_iff]
  refine (Spec.mono_crash (tells_prepareMove op rfl) fun t ht => .inl ht).mono ?_
  rintro r t ⟨ht, hr⟩
  cases r with
  | error error => exact ⟨.inl ht, .inl ht⟩
  | ok move =>
      obtain ⟨⟨source, identity⟩, destination, leaf⟩ := move
      obtain ⟨hopened, hto, henabled⟩ := hr _ rfl
      refine ⟨.inl ht, fun answer u step => ?_⟩
      cases answer with
      | error error =>
          obtain rfl : u = t := step
          exact ⟨.inl ht, .inl ht⟩
      | ok answer =>
          obtain ⟨k, occupant, hk, hoccupant, -, hmoved⟩ := step
          obtain rfl : k = (N.volume.operationMove op).source :=
            Option.some.inj (hk.symm.trans hopened)
          obtain rfl : occupant = (N.volume.operationMove op).occupant :=
            Option.some.inj (hoccupant.symm.trans (ht ▸ henabled.1))
          have happlied : u.occupancy = (N.volume.operationMove op).apply s.occupancy := by
            rw [hmoved, ht, hto]
          have hreaches : Reaches N.volume.backendRel s.occupancy (.renameNoReplace op)
              ((N.volume.operationMove op).apply s.occupancy) :=
            .inr ⟨.ok (), henabled, rfl⟩
          refine (Spec.mono_crash (spec_verifyDestination happlied identity destination leaf)
            fun v hv => hv ▸ hreaches).mono ?_
          rintro r v ⟨hv, herrors⟩
          cases r with
          | ok answer => exact ⟨henabled, hv⟩
          | error error => exact .inr ⟨herrors error rfl, henabled, hv⟩

end Rename

section Contract

variable {s : NativeState}

/-- A read does what the contract allows, if it may fail and its values are allowed. -/
theorem Tells.spec {c : BackendCall} {p : ExceptT BackendError NativeProgram α} {s : NativeState}
    {ok : α → NativeState → Prop} {rel : Except BackendError α → VolumeState → Prop}
    (h : Tells N s.occupancy p ok s) (error : ∀ error, rel (.error error) s.occupancy)
    (value : ∀ a t, ok a t → rel (.ok a) s.occupancy) :
    Spec N.nativeRel (fun t => Reaches N.volume.backendRel s.occupancy c t.occupancy) p.run
      (fun r t => rel r t.occupancy) s := by
  refine (Spec.mono_crash h fun t ht => .inl ht).mono ?_
  rintro r t ⟨ht, hr⟩
  rw [ht]
  cases r with
  | error e => exact error e
  | ok a => exact value a t (hr a rfl)

theorem tells_validatePathEnvironment (hs : s.occupancy = o) (path : LegacyText) :
    Tells N o (validatePathEnvironment path) (fun _ _ => True) s := by
  refine (tells_split hs path .observe).bind ?_
  rintro ⟨parentPath, leaf⟩ _ - ⟨rfl, -⟩
  refine (tells_openParent observeError hs parentPath).bind ?_
  rintro parent _ - ⟨rfl, -⟩
  exact Tells.pure hs trivial

theorem tells_nextTransactionNonce (hs : s.occupancy = o) :
    Tells N o nextTransactionNonce (fun _ _ => True) s := by
  refine Tells.call (c := .counter) hs ?_
  rintro counter _ rfl
  refine Tells.call (c := .systemTime) hs ?_
  rintro time _ rfl
  cases time with
  | none => exact Tells.throw _ hs
  | some time =>
      refine Tells.call (c := .processId) hs ?_
      rintro process _ rfl
      exact Tells.pure hs trivial

theorem reads_pathKey (path : LegacyText) : Reads N.nativeRel (pathKey path) s fun _ => True := by
  refine ⟨rfl, fun answer t step => ?_⟩
  cases answer with
  | ok mapped =>
      obtain rfl : t = s := step.2
      exact ⟨rfl, rfl, trivial⟩
  | error error =>
      obtain rfl : t = s := step
      exact ⟨rfl, rfl, trivial⟩

/-- The backend over the native functions keeps the contract of the volume. -/
theorem refines_backend (N : NativeVolume) :
    Refines N.nativeRel (fun o s => s.occupancy = o) carry N.volume.backendRel := by
  refine Refines.of_view fun call s => ?_
  cases call with
  | validatePathEnvironment path =>
      exact (tells_validatePathEnvironment rfl path).spec (fun _ => rfl) fun _ _ _ => rfl
  | pathKey path =>
      refine (Spec.mono_crash (reads_pathKey path) fun t ht => .inl (congrArg _ ht)).mono ?_
      rintro key t ⟨rfl, -⟩
      rfl
  | resolveSource path =>
      exact (tells_resolveSource rfl path).spec (fun _ => rfl) fun _ _ h => ⟨h, rfl⟩
  | plannedEntryKey parent leaf =>
      exact (tells_plannedEntryKey rfl parent leaf).spec (fun _ => rfl) fun _ _ h => ⟨h.2, rfl⟩
  | observe path => exact (tells_observe rfl path).spec (fun _ => rfl) fun _ _ h => ⟨h, rfl⟩
  | nextTransactionNonce =>
      exact (tells_nextTransactionNonce rfl).spec (fun _ => rfl) fun _ _ _ => rfl
  | renameNoReplace op => exact spec_renameNoReplace op s

end Contract

end WindowsBackend

end DarkReNamer
