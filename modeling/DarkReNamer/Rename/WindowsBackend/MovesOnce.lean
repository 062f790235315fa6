import DarkReNamer.Interaction.Leaves
import DarkReNamer.Rename.WindowsBackend

/-!
# One native move, and only the expected one

Whatever else happens on the machine meanwhile, a rename of the backend makes at most one native
move. Before it, the calls have shown that the handle is that of the expected entry, opened for
the move under its exact name in the expected parent, and that nothing was at the destination; and
the certainty of an error says whether the native move was made.
-/

namespace DarkReNamer

open Interaction

def NativeCall.Moves : NativeCall → Prop
  | .renameNoreplace _ _ _ => True
  | _ => False

namespace WindowsBackend

variable {op : RenameOperation} {α β : Type}

/-- What the calls before a native move have shown of it. -/
structure Shown (op : RenameOperation) (before : List NativeEvent) (source : Handle)
    (destination : NativeParent) (leaf : List UInt16) : Prop where
  authorized : op.authorizationError = none
  opened : ∃ path name parent, splitAbsolutePath op.source .rename = .ok (path, name) ∧
    ⟨.openParentChain path, .ok parent⟩ ∈ before ∧ parent.identity = op.expectedSourceParent ∧
    ⟨.openEntry parent name.units true, .ok source⟩ ∈ before ∧
    ⟨.normalizedFinalLeaf source, .ok name.units⟩ ∈ before
  identity : ⟨.fileIdentity source, .ok op.expectedSource⟩ ∈ before
  attributes : ∃ attributes, ⟨.metadata source, .ok attributes⟩ ∈ before ∧
    attributeReparse attributes = false ∧ ∀ kind ∈ op.kind, attributeKind attributes = kind
  retained : ∃ path name, splitAbsolutePath op.destination .rename = .ok (path, name) ∧
    ⟨.openParentChain path, .ok destination⟩ ∈ before ∧
    destination.identity = op.expectedDestinationParent ∧ name.units = leaf
  vacant : ∃ error, ⟨.openEntry destination leaf false, .error error⟩ ∈ before ∧
    error.isNotFound = true

/-- The error promises that nothing was moved. -/
def Unmoved (result : Except BackendError Unit) : Prop :=
  ∃ error, result = .error error ∧ error.certainty = .notApplied

/-- The move was made: it is reported, or left in doubt. -/
def Moved (op : RenameOperation) (destination : NativeParent) (leaf : List UInt16)
    (after : List NativeEvent) : Except BackendError Unit → Prop
  | .ok _ => ∃ file, ⟨.openEntry destination leaf false, .ok file⟩ ∈ after ∧
      ⟨.fileIdentity file, .ok op.expectedSource⟩ ∈ after
  | .error error => error.certainty = .mayHaveApplied

/-- The native moves among the calls, and the result. -/
def MovesOnce (op : RenameOperation) (r : Option (Except BackendError Unit))
    (events : List NativeEvent) : Prop :=
  (∀ event ∈ events, ¬ NativeCall.Moves event.call) ∧ (∀ result, r = some result → Unmoved result) ∨
  ∃ before source destination leaf answer after,
    events = before ++ ⟨.renameNoreplace source destination leaf, answer⟩ :: after ∧
    (∀ event ∈ before ++ after, ¬ NativeCall.Moves event.call) ∧
    Shown op before source destination leaf ∧
    ∀ result, r = some result → match answer with
      | .ok _ => Moved op destination leaf after result
      | .error _ => Unmoved result

section Attempt

variable {allowed : (c : NativeCall) → NativeAnswer c → Prop}
  {call : NativeProgram (Except NativeError α)} {report : NativeError → BackendError}

theorem shows_attempt {ok : α → List NativeEvent → Prop}
    (h : Leaves allowed call fun r events => ∀ a, r = some (.ok a) → ok a events) :
    Shows allowed (attempt report call) ok := by
  refine Shows.lift_bind h fun answer events hanswer => ?_
  cases answer with
  | ok a => exact Shows.pure (by simpa using hanswer a rfl)
  | error error => exact Shows.throw _

/-- The program makes no native move, and its errors have the certainty. -/
def Fails (certainty : MutationCertainty) (p : ExceptT BackendError NativeProgram α) : Prop :=
  Confined (fun c => ¬ NativeCall.Moves c)
    (fun r => ∀ error, r = .error error → error.certainty = certainty) p.run

variable {certainty : MutationCertainty}

theorem Fails.pure {a : α} : Fails certainty (Pure.pure a) := by
  rintro error ⟨⟩

theorem Fails.throw {error : BackendError} (h : error.certainty = certainty) :
    Fails certainty (MonadExcept.throw error : ExceptT BackendError NativeProgram α) := by
  rintro _ ⟨⟩
  exact h

theorem Fails.bind {p : ExceptT BackendError NativeProgram α}
    {f : α → ExceptT BackendError NativeProgram β} (h : Fails certainty p)
    (rest : ∀ a, Fails certainty (f a)) : Fails certainty (p >>= f) := by
  unfold Fails
  rw [ExceptT.run_bind]
  refine Confined.bind h fun r hr => ?_
  cases r with
  | ok a => exact rest a
  | error error =>
      rintro _ ⟨⟩
      exact hr error rfl

theorem Fails.lift_bind {p : NativeProgram β} {f : β → ExceptT BackendError NativeProgram α}
    (h : Confined (fun c => ¬ NativeCall.Moves c) (fun _ => True) p)
    (rest : ∀ answer, Fails certainty (f answer)) : Fails certainty (liftM p >>= f) := by
  have hrun : (liftM p >>= f).run = p >>= fun a => (f a).run := ExceptT.run_bind_lift p f
  unfold Fails
  rw [hrun]
  exact Confined.bind h fun answer _ => rest answer

theorem Fails.attempt (h : Confined (fun c => ¬ NativeCall.Moves c) (fun _ => True) call) :
    Fails certainty (attempt (mutationError certainty) call) := by
  refine Fails.lift_bind h fun answer => ?_
  cases answer with
  | ok a => exact Fails.pure
  | error error => exact Fails.throw rfl

theorem Fails.split (path : LegacyText) :
    Fails .notApplied (WindowsBackend.split path .rename) := by
  intro error herror
  change splitAbsolutePath path .rename = .error error at herror
  unfold splitAbsolutePath at herror
  split at herror
  · cases herror
    rfl
  · split at herror
    · cases herror
      rfl
    · dsimp only at herror
      split at herror
      · cases herror
        rfl
      · cases herror

end Attempt

theorem confined_call (c : NativeCall) (h : ¬ c.Moves) :
    Confined (fun c => ¬ NativeCall.Moves c) (fun _ => True)
      (Program.ask (A := NativeAnswer) c) :=
  Confined.ask h

theorem certainty_of_authorizationError {error : BackendError}
    (h : op.authorizationError = some error) : error.certainty = .notApplied := by
  unfold RenameOperation.authorizationError at h
  split_ifs at h <;> cases h <;> rfl

theorem fails_expectedSource (op : RenameOperation) (parent : NativeParent)
    (name : LegacyText) : Fails .notApplied (expectedSource op parent name) := by
  refine Fails.bind (Fails.attempt (confined_call (.openEntry _ _ _) id)) fun source => ?_
  refine Fails.bind (Fails.attempt (confined_call (.metadata _) id)) fun attributes => ?_
  split
  · exact Fails.throw rfl
  · split
    · exact Fails.throw rfl
    · refine Fails.bind (Fails.attempt (confined_call (.fileIdentity _) id)) fun identity => ?_
      split
      · exact Fails.throw rfl
      · refine Fails.bind (Fails.attempt (confined_call (.normalizedFinalLeaf _) id))
          fun leaf => ?_
        split
        · exact Fails.throw rfl
        · exact Fails.pure

theorem fails_vacantDestination (parent : NativeParent) (name : LegacyText) :
    Fails .notApplied (vacantDestination parent name) := by
  refine Fails.lift_bind (confined_call (.openEntry _ _ _) id) fun answer => ?_
  cases answer with
  | ok file => exact Fails.throw rfl
  | error error =>
      dsimp only
      split
      · exact Fails.pure
      · exact Fails.throw rfl

theorem fails_prepareMove (op : RenameOperation) :
    Fails .notApplied (prepareMove op (pure (.ok ())) (pure (.ok ()))) := by
  unfold prepareMove
  split
  · next error herror => exact Fails.throw (certainty_of_authorizationError herror)
  · refine Fails.bind (Fails.split _) fun _ => Fails.bind (Fails.split _) fun _ => ?_
    refine Fails.bind (Fails.attempt (confined_call (.openParentChain _) id)) fun _ => ?_
    refine Fails.bind (Fails.attempt (confined_call (.openParentChain _) id)) fun _ => ?_
    split
    · exact Fails.throw rfl
    · refine Fails.bind (Fails.attempt trivial) fun _ => ?_
      refine Fails.bind (fails_expectedSource _ _ _) fun _ => ?_
      refine Fails.bind (fails_vacantDestination _ _) fun _ => ?_
      split
      · exact Fails.throw rfl
      · exact Fails.bind (Fails.attempt trivial) fun _ => Fails.pure

theorem shows_split (path : LegacyText) (operation : BackendOperation) :
    Shows (fun _ _ => True) (split path operation) fun parts _ =>
      splitAbsolutePath path operation = .ok parts :=
  Shows.ofExcept fun _ hparts => hparts

/-- A boundary that does nothing. -/
theorem shows_boundary : Shows (fun _ _ => True)
    (attempt (mutationError .notApplied) (pure (.ok ()))) fun _ _ => True :=
  shows_attempt ⟨by simp, by simp⟩

/-- The source that the move is made of. -/
theorem shows_expectedSource (op : RenameOperation) (parent : NativeParent) (name : LegacyText) :
    Shows (fun _ _ => True) (expectedSource op parent name) fun source events =>
      source.2 = op.expectedSource ∧
      ⟨.openEntry parent name.units true, .ok source.1⟩ ∈ events ∧
      ⟨.normalizedFinalLeaf source.1, .ok name.units⟩ ∈ events ∧
      ⟨.fileIdentity source.1, .ok op.expectedSource⟩ ∈ events ∧
      ∃ attributes, ⟨.metadata source.1, .ok attributes⟩ ∈ events ∧
        attributeReparse attributes = false ∧
        ∀ kind ∈ op.kind, attributeKind attributes = kind := by
  unfold expectedSource
  refine Shows.bind (shows_attempt ((Leaves.ask (NativeCall.openEntry parent name.units true)).mono
    fun _ _ h source hsource => h _ hsource)) fun source events₁ h₁ => ?_
  refine Shows.bind (shows_attempt ((Leaves.ask (NativeCall.metadata source)).mono
    fun _ _ h source hsource => h _ hsource)) fun attributes events₂ h₂ => ?_
  split
  · exact Shows.throw _
  · next hreparse =>
      split
      · exact Shows.throw _
      · next hkind =>
          refine Shows.bind (shows_attempt ((Leaves.ask (NativeCall.fileIdentity source)).mono
            fun _ _ h source hsource => h _ hsource)) fun identity events₃ h₃ => ?_
          split
          · exact Shows.throw _
          · next hidentity =>
              refine Shows.bind (shows_attempt
                  ((Leaves.ask (NativeCall.normalizedFinalLeaf source)).mono
                fun _ _ h source hsource => h _ hsource)) fun leaf events₄ h₄ => ?_
              split
              · exact Shows.throw _
              · next hleaf =>
                  obtain rfl := not_not.1 hidentity
                  subst h₁ h₂ h₃ h₄
                  refine Shows.pure ⟨rfl, by simp, ?_, by simp, attributes, by simp, ?_, ?_⟩
                  · simp [not_not.1 hleaf]
                  · simpa using hreparse
                  · intro kind hk
                    rw [Option.mem_def] at hk
                    simpa [hk] using hkind

theorem shows_vacantDestination (parent : NativeParent) (name : LegacyText) :
    Shows (fun _ _ => True) (vacantDestination parent name) fun _ events =>
      ∃ error, ⟨.openEntry parent name.units false, .error error⟩ ∈ events ∧
        error.isNotFound = true := by
  unfold vacantDestination
  refine Shows.lift_bind (Leaves.ask (NativeCall.openEntry parent name.units false))
    fun answer events hevents => ?_
  obtain rfl := hevents answer rfl
  cases answer with
  | ok file => exact Shows.throw _
  | error error =>
      dsimp only
      split
      · next hfound => exact Shows.pure ⟨error, by simp, hfound⟩
      · exact Shows.throw _

/-- Where nothing is refused, everything has been shown. -/
theorem shows_prepareMove (op : RenameOperation) :
    Shows (fun _ _ => True) (prepareMove op (pure (.ok ())) (pure (.ok ()))) fun move events =>
      move.1.2 = op.expectedSource ∧ Shown op events move.1.1 move.2.1 move.2.2.units := by
  unfold prepareMove
  split
  · exact Shows.throw _
  · next hauthorized =>
      refine Shows.bind (shows_split op.source .rename) fun source events₁ hsource => ?_
      refine Shows.bind (shows_split op.destination .rename) fun destination events₂ hdestination =>
        ?_
      refine Shows.bind (shows_attempt ((Leaves.ask (NativeCall.openParentChain source.1)).mono
        fun _ _ h parent hparent => h _ hparent)) fun sourceParent events₃ h₃ => ?_
      refine Shows.bind (shows_attempt ((Leaves.ask
        (NativeCall.openParentChain destination.1)).mono
          fun _ _ h parent hparent => h _ hparent)) fun destinationParent events₄ h₄ => ?_
      split
      · exact Shows.throw _
      · next hparents =>
          obtain ⟨hsourceParent, hdestinationParent⟩ := not_or.1 hparents
          refine Shows.bind shows_boundary fun _ events₅ _ => ?_
          refine Shows.bind (shows_expectedSource op sourceParent source.2)
            fun opened events₆ hopened => ?_
          refine Shows.bind (shows_vacantDestination destinationParent destination.2)
            fun _ events₇ hvacant => ?_
          split
          · exact Shows.throw _
          · refine Shows.bind shows_boundary fun _ events₈ _ => Shows.pure ?_
            obtain ⟨hidentity, hentry, hleaf, hshown, attributes, hattributes, hplain, hkind⟩ :=
              hopened
            obtain ⟨error, hmissing, hfound⟩ := hvacant
            subst h₃ h₄
            refine ⟨hidentity, hauthorized, ⟨source.1, source.2, sourceParent, hsource, by simp,
              not_not.1 hsourceParent, ?_, ?_⟩, ?_, ⟨attributes, ?_, hplain, hkind⟩,
              ⟨destination.1, destination.2, hdestination, by simp,
                not_not.1 hdestinationParent, rfl⟩, error, ?_, hfound⟩ <;>
              simp only [List.mem_append, *, or_true, true_or]

theorem fails_verifyDestination (identity : EntryIdentity) (parent : NativeParent)
    (name : LegacyText) : Fails .mayHaveApplied (verifyDestination identity parent name) := by
  refine Fails.bind (Fails.attempt (confined_call (.openEntry _ _ _) id)) fun destination => ?_
  refine Fails.bind (Fails.attempt (confined_call (.fileIdentity _) id)) fun observed => ?_
  split
  · exact Fails.throw rfl
  · exact Fails.pure

/-- After a move that was made, no other is. -/
theorem leaves_verifyDestination (destination : NativeParent) (name : LegacyText) :
    Leaves (fun _ _ => True) (verifyDestination op.expectedSource destination name).run
      fun r after => (∀ event ∈ after, ¬ NativeCall.Moves event.call) ∧
        ∀ result, r = some result → Moved op destination name.units after result := by
  refine ⟨⟨by simp, by simp⟩, fun answer _ => ?_⟩
  cases answer with
  | error error =>
      refine ⟨⟨by simp [NativeCall.Moves], by simp⟩, by simp [NativeCall.Moves], ?_⟩
      rintro result ⟨⟩
      rfl
  | ok file =>
      refine ⟨⟨by simp [NativeCall.Moves], by simp⟩, fun answer _ => ?_⟩
      cases answer with
      | error error =>
          refine ⟨⟨by simp [NativeCall.Moves], by simp⟩, by simp [NativeCall.Moves], ?_⟩
          rintro result ⟨⟩
          rfl
      | ok observed =>
          by_cases hobserved : observed = op.expectedSource
          · subst hobserved
            change Leaves _ (if op.expectedSource ≠ op.expectedSource then
              throw (mismatch .mayHaveApplied) else pure () :
                ExceptT BackendError NativeProgram Unit).run _
            rw [if_neg (by simp)]
            refine ⟨⟨by simp [NativeCall.Moves], by simp⟩, by simp [NativeCall.Moves], ?_⟩
            rintro result ⟨⟩
            exact ⟨file, by simp, by simp⟩
          · change Leaves _ (if observed ≠ op.expectedSource then
              throw (mismatch .mayHaveApplied) else pure () :
                ExceptT BackendError NativeProgram Unit).run _
            rw [if_pos hobserved]
            refine ⟨⟨by simp [NativeCall.Moves], by simp⟩, by simp [NativeCall.Moves], ?_⟩
            rintro result ⟨⟩
            rfl

/-- A rename of the backend in any environment. -/
theorem renameNoReplace_movesOnce {σ : Type} {env : Environment σ NativeCall NativeAnswer}
    {s t : σ} {events : List NativeEvent} {r : Option (Except BackendError Unit)}
    (run : Runs env (renameNoReplace op).run s events r t) : MovesOnce op r events := by
  suffices h : Leaves (fun _ _ => True) (renameNoReplace op).run (MovesOnce op) from
    h.sound run fun _ _ => trivial
  unfold renameNoReplace renameWithBoundaries
  rw [ExceptT.run_bind]
  have hprepared := (shows_prepareMove op).both (Leaves.of_confined (fails_prepareMove op))
  refine Leaves.bind hprepared ?_ fun prepared before hbefore => ?_
  · rintro events ⟨-, hcalls, -⟩
    exact .inl ⟨hcalls, by simp⟩
  · obtain ⟨hshown, hcalls, hrefused⟩ := hbefore
    cases prepared with
    | error error =>
        refine ⟨.inl ⟨by simpa using hcalls, by simp⟩, .inl ⟨by simpa using hcalls, ?_⟩⟩
        rintro result ⟨⟩
        exact ⟨error, rfl, hrefused _ rfl error rfl⟩
    | ok move =>
        obtain ⟨⟨source, identity⟩, destination, name⟩ := move
        obtain ⟨rfl, hmove⟩ := hshown _ rfl
        refine ⟨.inl ⟨by simpa using hcalls, by simp⟩, fun answer _ => ?_⟩
        cases answer with
        | error error =>
            refine ⟨.inr ⟨before, source, destination, name.units, .error error, [], rfl,
              by simpa using hcalls, hmove, by simp⟩, .inr ⟨before, source, destination,
                name.units, .error error, [], rfl, by simpa using hcalls, hmove, ?_⟩⟩
            rintro result ⟨⟩
            exact ⟨_, rfl, rfl⟩
        | ok answer =>
            refine (leaves_verifyDestination destination name).mono fun r after h => ?_
            refine .inr ⟨before, source, destination, name.units, .ok answer, after, rfl, ?_,
              hmove, h.2⟩
            exact List.forall_mem_append.2 ⟨hcalls, h.1⟩

section Sample

def fileOperation : RenameOperation where
  source := .ofAscii "C:\\w\\1"
  destination := .ofAscii "C:\\w\\2"
  expectedSource := ⟨1, 2⟩
  expectedSourceParent := ⟨1, 1⟩
  expectedDestinationParent := ⟨1, 1⟩
  kind := some .file
  scope := .sameParent

/-- The native functions around a file that is there until it is moved. -/
def serveFile (moved : Bool) : (call : NativeCall) → NativeAnswer call × Bool
  | .openParent _ => (.ok ⟨⟨0⟩, ⟨1, 1⟩⟩, moved)
  | .openParentChain _ => (.ok ⟨⟨0⟩, ⟨1, 1⟩⟩, moved)
  | .openEntry _ leaf _ =>
      (if (leaf == (LegacyText.ofAscii "2").units) == moved then .ok ⟨1⟩
        else .error ⟨some 2⟩, moved)
  | .metadata _ => (.ok 32, moved)
  | .fileIdentity _ => (.ok ⟨1, 2⟩, moved)
  | .normalizedFinalLeaf _ => (.ok (LegacyText.ofAscii "1").units, moved)
  | .renameNoreplace _ _ _ => (.ok (), true)
  | .invariantUppercase units => (.ok units, moved)
  | .counter => (1, moved)
  | .systemTime => (some 7, moved)
  | .processId => (3, moved)

def fileEnv : Environment Bool NativeCall NativeAnswer :=
  fun moved call answer after => (answer, after) = serveFile moved call

theorem serveFile_allowed (moved : Bool) (call : NativeCall) :
    fileEnv moved call (serveFile moved call).1 (serveFile moved call).2 := rfl

/-- The file is moved, by the one native move. -/
theorem renameNoReplace_movesOnce_file : ∃ events : List NativeEvent,
    Runs fileEnv (renameNoReplace fileOperation).run false events (some (.ok ())) true ∧
      MovesOnce fileOperation (some (.ok ())) events := by
  have run := Runs.of_run serveFile_allowed (renameNoReplace fileOperation).run false
  have hresult : ((renameNoReplace fileOperation).run.run serveFile false).1 = .ok () := by
    decide +kernel
  have hmoved : ((renameNoReplace fileOperation).run.run serveFile false).2 = true := by
    decide +kernel
  rw [hresult, hmoved] at run
  exact ⟨_, run, renameNoReplace_movesOnce run⟩

end Sample

end WindowsBackend

end DarkReNamer
