import DarkReNamer.Interaction.Confined
import DarkReNamer.Interaction.Read
import DarkReNamer.Occupancy.Move
import DarkReNamer.Rename.World

/-!
# A volume behind the backend

The part of a filesystem that plans are about: which entry key a leaf of a parent
has, which parent a path resolves to, and what kind of entry an identity names.
These do not change while a transaction runs. What changes is the occupancy: the
identity found under each entry key.

`Volume.backendRel` is the contract of `RenameBackend` over an occupancy. Every
read is truthful when it succeeds and changes nothing. A rename that succeeds took
exactly the expected identity to a free key; one that fails with `NotApplied`
changed nothing, and one that fails with `MayHaveApplied` may have happened.
-/

namespace DarkReNamer

open Interaction Occupancy

/-- Identities under entry keys. -/
abbrev VolumeState : Type := State PathKey EntryIdentity

/-- One primitive move, by entry keys. -/
abbrev KeyMove : Type := Move PathKey EntryIdentity

/-- The fixed part of a volume. An entry key determines its parent. -/
structure Volume where
  entryKey : EntryIdentity → LegacyText → PathKey
  parent : LegacyText → EntryIdentity
  kind : EntryIdentity → EntryKind
  isReparsePoint : EntryIdentity → Bool
  parent_eq_of_entryKey_eq : ∀ {p p' leaf leaf'},
    entryKey p leaf = entryKey p' leaf' → p = p'

namespace Volume

variable (V : Volume)

/-- The entry key of a path. -/
def key (path : LegacyText) : PathKey := V.entryKey (V.parent path) (pathLeaf path)

/-- What is seen at an entry key. -/
def observed (o : VolumeState) (key : PathKey) : Option ObservedEntry :=
  (o key).map fun identity => ⟨identity, V.kind identity, V.isReparsePoint identity⟩

/-- What is seen at a path. -/
def snapshot (o : VolumeState) (path : LegacyText) : PathSnapshot :=
  ⟨V.parent path, V.observed o (V.key path)⟩

/-- The move a rename operation asks for. -/
def operationMove (op : RenameOperation) : KeyMove :=
  ⟨V.entryKey op.expectedSourceParent (pathLeaf op.source),
    V.entryKey op.expectedDestinationParent (pathLeaf op.destination), op.expectedSource⟩

/-- A resolved source is the entry it reports, under its actual key, and it is the
entry of the requested path when the path is spelled as stored. -/
structure Resolves (o : VolumeState) (path : LegacyText) (resolved : ResolvedSource) :
    Prop where
  key_parent : ∀ key ∈ resolved.entryKey, ∃ leaf,
    key = V.entryKey resolved.snapshot.parent leaf
  occupant : ∀ key ∈ resolved.entryKey, V.observed o key = resolved.snapshot.entry
  exact_path : resolved.path = path →
    resolved.snapshot = V.snapshot o path ∧ ∀ key ∈ resolved.entryKey, key = V.key path

/-- The contract of the backend over an occupancy. -/
def backendRel : BackendRel VolumeState
  | o, .observe path, .ok snapshot, o' => snapshot = V.snapshot o path ∧ o' = o
  | o, .plannedEntryKey parent leaf, .ok key, o' => key = V.entryKey parent leaf ∧ o' = o
  | o, .resolveSource path, .ok resolved, o' => V.Resolves o path resolved ∧ o' = o
  | o, .renameNoReplace op, .ok _, o' =>
      (V.operationMove op).Enabled o ∧ o' = (V.operationMove op).apply o
  | o, .renameNoReplace op, .error error, o' =>
      o' = o ∨ (error.certainty = .mayHaveApplied ∧ (V.operationMove op).Enabled o ∧
        o' = (V.operationMove op).apply o)
  | o, _, _, o' => o' = o

section Reads

/-! ### What the reads answer -/

/-- The environment answers as the volume may, in the state `s`. -/
def Admits (env : Environment (World VolumeState) Call Answer) (s : World VolumeState) :
    Prop :=
  ∀ call answer t, env s call answer t → engineEnv V.backendRel s call answer t

theorem admits_self (s : World VolumeState) : V.Admits (engineEnv V.backendRel) s :=
  fun _ _ _ step => step

variable {V} {env : Environment (World VolumeState) Call Answer} {s : World VolumeState}

theorem Admits.polls (h : V.Admits env s) : Polls env s True :=
  fun answer t step => ⟨h _ answer t step, fun _ => trivial⟩

/-- A read leaves the occupancy alone. -/
theorem eq_of_read {o o' : VolumeState} {call : BackendCall} {answer : BackendAnswer call}
    (hrel : V.backendRel o call answer o') (hread : ∀ op, call ≠ .renameNoReplace op) :
    o' = o := by
  cases call with
  | renameNoReplace op => exact absurd rfl (hread op)
  | observe path =>
      cases answer with
      | ok snapshot => exact hrel.2
      | error error => exact hrel
  | plannedEntryKey parent leaf =>
      cases answer with
      | ok key => exact hrel.2
      | error error => exact hrel
  | resolveSource path =>
      cases answer with
      | ok resolved => exact hrel.2
      | error error => exact hrel
  | validatePathEnvironment path => exact hrel
  | pathKey path => exact hrel
  | nextTransactionNonce => exact hrel

/-- A read of the backend leaves the world alone. -/
theorem Admits.read (h : V.Admits env s) {call : BackendCall} {answer : BackendAnswer call}
    {t : World VolumeState} (step : env s (.backend call) answer t)
    (hread : ∀ op, call ≠ .renameNoReplace op) : t = s := by
  obtain ⟨hbackend, hrecords⟩ := h _ _ _ step
  cases t
  cases hrecords
  cases eq_of_read hbackend hread
  rfl

theorem Admits.reads_observe (h : V.Admits env s) (path : LegacyText) :
    Reads env (observe path) s fun answer =>
      ∀ snapshot, answer = .ok snapshot → snapshot = V.snapshot s.backend path := by
  refine Reads.ask fun answer t step => ⟨h.read step (by simp), ?_⟩
  rintro snapshot rfl
  exact (h _ _ _ step).1.1

theorem Admits.reads_plannedEntryKey (h : V.Admits env s) (parent : EntryIdentity)
    (leaf : LegacyText) :
    Reads env (plannedEntryKey parent leaf) s fun answer =>
      ∀ key, answer = .ok key → key = V.entryKey parent leaf := by
  refine Reads.ask fun answer t step => ⟨h.read step (by simp), ?_⟩
  rintro key rfl
  exact (h _ _ _ step).1.1

theorem Admits.reads_resolveSource (h : V.Admits env s) (path : LegacyText) :
    Reads env (resolveSource path) s fun answer =>
      ∀ resolved, answer = .ok resolved → V.Resolves s.backend path resolved := by
  refine Reads.ask fun answer t step => ⟨h.read step (by simp), ?_⟩
  rintro resolved rfl
  exact (h _ _ _ step).1.1

/-- A program of reads leaves the world of a volume alone. -/
theorem Admits.checks_of_tries {α ε : Type} {ok : α → Prop} {p : ExceptT ε Engine α}
    (h : V.Admits env s) (hp : Tries Call.IsRead ok p) :
    Checks env p s ok fun _ => True := by
  refine (Confined.spec (I := fun t => t = s) hp ?_ rfl).mono ?_
  · rintro t call answer u hread rfl step
    cases call with
    | backend call => exact h.read step (by rintro op rfl; exact hread)
    | control call => exact h _ _ _ step
    | journal call =>
        obtain ⟨hjournal, hbackend⟩ := h _ _ _ step
        cases u
        cases hbackend
        cases call with
        | append record => exact hread.elim
        | snapshot =>
            cases answer with
            | ok snapshot =>
                cases hjournal.2
                rfl
            | error error =>
                cases hjournal
                rfl
  · rintro result t ⟨rfl, hresult⟩
    refine ⟨rfl, ?_⟩
    cases result with
    | ok a => exact hresult a rfl
    | error e => trivial

end Reads

/-- The volume without faults: every call succeeds, and a rename is refused only when
its move is not possible. -/
def serve (nonce : BitVec 128) (o : VolumeState) :
    (call : BackendCall) → BackendAnswer call × VolumeState
  | .validatePathEnvironment _ => (.ok (), o)
  | .pathKey path => (V.key path, o)
  | .resolveSource path => (.ok ⟨path, V.snapshot o path, some (V.key path)⟩, o)
  | .plannedEntryKey parent leaf => (.ok (V.entryKey parent leaf), o)
  | .observe path => (.ok (V.snapshot o path), o)
  | .nextTransactionNonce => (.ok nonce, o)
  | .renameNoReplace op =>
      if (V.operationMove op).Enabled o then (.ok (), (V.operationMove op).apply o)
      else (.error ⟨.rename, errorAccessDenied, .notApplied⟩, o)

theorem serve_allowed (nonce : BitVec 128) (o : VolumeState) (call : BackendCall) :
    V.backendRel o call (V.serve nonce o call).1 (V.serve nonce o call).2 := by
  cases call with
  | renameNoReplace op =>
      by_cases h : (V.operationMove op).Enabled o
      · simp only [serve, h, if_true]
        exact ⟨h, rfl⟩
      · simp only [serve, h, if_false]
        exact .inl rfl
  | resolveSource path =>
      refine ⟨⟨?_, ?_, ?_⟩, rfl⟩
      · rintro key ⟨⟩
        exact ⟨pathLeaf path, rfl⟩
      · rintro key ⟨⟩
        rfl
      · rintro -
        refine ⟨rfl, ?_⟩
        rintro key ⟨⟩
        rfl
  | observe path => exact ⟨rfl, rfl⟩
  | plannedEntryKey parent leaf => exact ⟨rfl, rfl⟩
  | validatePathEnvironment path => rfl
  | pathKey path => rfl
  | nextTransactionNonce => rfl

/-- The ports over the volume, without faults. -/
def ports (nonce : BitVec 128) : Ports VolumeState := ⟨V.serve nonce, serveJournal, serveControl⟩

theorem ports_allowed (nonce : BitVec 128) (s : World VolumeState) (call : Call) :
    engineEnv V.backendRel s call ((V.ports nonce).handler s call).1
      ((V.ports nonce).handler s call).2 :=
  Ports.allowed (V.serve_allowed nonce) serveJournal_allowed s call

end Volume

section Flat

/-! A volume to run programs on: one directory of files, with keys that spell out the
parent and the leaf. -/

/-- A number in unary, with its end marked. -/
def unaryUnits (n : ℕ) (rest : List UInt16) : List UInt16 := List.replicate n 0 ++ 1 :: rest

theorem unaryUnits_inj {n m : ℕ} {rest rest' : List UInt16}
    (h : unaryUnits n rest = unaryUnits m rest') : n = m ∧ rest = rest' := by
  unfold unaryUnits at h
  induction n generalizing m with
  | zero =>
      cases m with
      | zero => simpa using h
      | succ m => simp [List.replicate_succ] at h
  | succ n ih =>
      cases m with
      | zero => simp [List.replicate_succ] at h
      | succ m =>
          obtain ⟨h₁, h₂⟩ := ih (m := m) (by simpa [List.replicate_succ] using h)
          exact ⟨by rw [h₁], h₂⟩

def flatKey (parent : EntryIdentity) (leaf : LegacyText) : PathKey :=
  ⟨unaryUnits parent.volume.toNat (unaryUnits parent.fileId.toNat leaf.units)⟩

/-- All paths are in the directory `root`. -/
def flatVolume (root : EntryIdentity) : Volume where
  entryKey := flatKey
  parent _ := root
  kind _ := .file
  isReparsePoint _ := false
  parent_eq_of_entryKey_eq {p p' leaf leaf'} h := by
    obtain ⟨hvolume, hrest⟩ := unaryUnits_inj (congrArg PathKey.units h)
    obtain ⟨hfile, -⟩ := unaryUnits_inj hrest
    cases p
    cases p'
    simp only [EntryIdentity.mk.injEq]
    exact ⟨UInt64.toNat.inj hvolume, BitVec.eq_of_toNat_eq hfile⟩

end Flat

end DarkReNamer
