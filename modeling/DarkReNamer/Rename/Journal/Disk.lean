import DarkReNamer.Core.LegacyText
import DarkReNamer.Interaction.Run
import Mathlib.Data.Set.Insert

/-!
# Journal files

The calls through which a file journal touches its directory and its file, and the contract of
the operating system about them. A write takes effect at the cursor, and one that fails leaves
some beginning of its bytes there. A file keeps, beside its content, the contents that a crash
may leave: `sync_all` makes the present one the only one, and a write or a truncation adds what
it may leave behind when it is interrupted. What a crash does to the names of the directory is
left open.
-/

namespace DarkReNamer

open Interaction

/-- A failed call, with the code of the operating system when there is one. -/
structure IoError where
  rawOsError : Option ℤ
  deriving DecidableEq, Repr

/-- An open file. -/
abbrev FileId : Type := ℕ

structure LinkMetadata where
  isSymlink : Bool
  isReparsePoint : Bool
  deriving DecidableEq, Repr

structure FileMetadata where
  length : ℕ
  isFile : Bool
  isReparsePoint : Bool
  deriving DecidableEq, Repr

/-- The calls of a journal; names are leaves of its retained root. -/
inductive FileCall where
  | combinedIdentity
  | createLeaf (leaf : LegacyText)
  | symlinkMetadata (leaf : LegacyText)
  | openLeaf (leaf : LegacyText)
  | openExisting (leaf : LegacyText)
  | metadata (file : FileId)
  | validatePrivateLeaf (file : FileId)
  | isSingleLinked (file : FileId)
  | cloneRoot
  | seekStart (file : FileId) (position : ℕ)
  | seekEnd (file : FileId)
  | readToEnd (file : FileId) (limit : ℕ)
  | writeAll (file : FileId) (bytes : List UInt8)
  | flush (file : FileId)
  | syncAll (file : FileId)
  | setLen (file : FileId) (length : ℕ)
  | promoteNoReplace (file : FileId) (candidate active : LegacyText)
  | markDelete (file : FileId)
  deriving DecidableEq, Repr

abbrev FileAnswer : FileCall → Type
  | .combinedIdentity => UInt64
  | .createLeaf _ => Except IoError FileId
  | .symlinkMetadata _ => Except IoError LinkMetadata
  | .openLeaf _ => Except IoError FileId
  | .openExisting _ => Except IoError FileId
  | .metadata _ => Except IoError FileMetadata
  | .validatePrivateLeaf _ => Except IoError Unit
  | .isSingleLinked _ => Except IoError Bool
  | .cloneRoot => Except IoError Unit
  | .seekStart _ _ => Except IoError Unit
  | .seekEnd _ => Except IoError Unit
  | .readToEnd _ _ => Except IoError (List UInt8)
  | .writeAll _ _ => Except IoError Unit
  | .flush _ => Except IoError Unit
  | .syncAll _ => Except IoError Unit
  | .setLen _ _ => Except IoError Unit
  | .promoteNoReplace _ _ _ => Except IoError Unit
  | .markDelete _ => Except IoError Unit

/-- A program over journal files. -/
abbrev FileProgram (α : Type) : Type := Program FileCall FileAnswer α

abbrev FileEvent : Type := Event FileCall FileAnswer

/-- One file: its content, the contents that a crash may leave, and where the next write goes. -/
structure FileState where
  content : List UInt8
  survivors : Set (List UInt8)
  cursor : ℕ

/-- The names of the root and the files. -/
structure Disk where
  leaves : LegacyText → Option FileId
  files : FileId → FileState

namespace Disk

/-! The calls as programs. -/

def combinedIdentity : FileProgram UInt64 :=
  Program.ask FileCall.combinedIdentity

def createLeaf (leaf : LegacyText) : FileProgram (Except IoError FileId) :=
  Program.ask (FileCall.createLeaf leaf)

def symlinkMetadata (leaf : LegacyText) : FileProgram (Except IoError LinkMetadata) :=
  Program.ask (FileCall.symlinkMetadata leaf)

def openLeaf (leaf : LegacyText) : FileProgram (Except IoError FileId) :=
  Program.ask (FileCall.openLeaf leaf)

def openExisting (leaf : LegacyText) : FileProgram (Except IoError FileId) :=
  Program.ask (FileCall.openExisting leaf)

def metadata (file : FileId) : FileProgram (Except IoError FileMetadata) :=
  Program.ask (FileCall.metadata file)

def validatePrivateLeaf (file : FileId) : FileProgram (Except IoError Unit) :=
  Program.ask (FileCall.validatePrivateLeaf file)

def isSingleLinked (file : FileId) : FileProgram (Except IoError Bool) :=
  Program.ask (FileCall.isSingleLinked file)

def cloneRoot : FileProgram (Except IoError Unit) :=
  Program.ask FileCall.cloneRoot

def seekStart (file : FileId) (position : ℕ) : FileProgram (Except IoError Unit) :=
  Program.ask (FileCall.seekStart file position)

def seekEnd (file : FileId) : FileProgram (Except IoError Unit) :=
  Program.ask (FileCall.seekEnd file)

def readToEnd (file : FileId) (limit : ℕ) : FileProgram (Except IoError (List UInt8)) :=
  Program.ask (FileCall.readToEnd file limit)

def writeAll (file : FileId) (bytes : List UInt8) : FileProgram (Except IoError Unit) :=
  Program.ask (FileCall.writeAll file bytes)

def flush (file : FileId) : FileProgram (Except IoError Unit) :=
  Program.ask (FileCall.flush file)

def syncAll (file : FileId) : FileProgram (Except IoError Unit) :=
  Program.ask (FileCall.syncAll file)

def setLen (file : FileId) (length : ℕ) : FileProgram (Except IoError Unit) :=
  Program.ask (FileCall.setLen file length)

def promoteNoReplace (file : FileId) (candidate active : LegacyText) :
    FileProgram (Except IoError Unit) :=
  Program.ask (FileCall.promoteNoReplace file candidate active)

def markDelete (file : FileId) : FileProgram (Except IoError Unit) :=
  Program.ask (FileCall.markDelete file)

def setLeaf (disk : Disk) (leaf : LegacyText) (file : Option FileId) : Disk :=
  { disk with leaves := fun other => if other = leaf then file else disk.leaves other }

def setFile (disk : Disk) (file : FileId) (state : FileState) : Disk :=
  { disk with files := fun other => if other = file then state else disk.files other }

@[simp] theorem files_setFile (disk : Disk) (file : FileId) (state : FileState) :
    (disk.setFile file state).files file = state := if_pos rfl

@[simp] theorem files_setLeaf (disk : Disk) (leaf : LegacyText) (file : Option FileId) :
    (disk.setLeaf leaf file).files = disk.files := rfl

end Disk

/-- The content with bytes written at the cursor. -/
def overwrite (content : List UInt8) (cursor : ℕ) (bytes : List UInt8) : List UInt8 :=
  content.take cursor ++ List.replicate (cursor - content.length) 0 ++ bytes ++
    content.drop (cursor + bytes.length)

/-- The content cut, or filled up, to a length. -/
def resize (content : List UInt8) (length : ℕ) : List UInt8 :=
  content.take length ++ List.replicate (length - content.length) 0

theorem overwrite_end (content bytes : List UInt8) :
    overwrite content content.length bytes = content ++ bytes := by
  simp [overwrite]

theorem resize_of_le {content : List UInt8} {length : ℕ} (h : length ≤ content.length) :
    resize content length = content.take length := by
  simp [resize, Nat.sub_eq_zero_of_le h]

namespace FileState

/-- The file after a write that left the given beginning of its bytes. -/
def written (state : FileState) (bytes left : List UInt8) : FileState where
  content := overwrite state.content state.cursor left
  survivors := state.survivors ∪
    { content | ∃ front, front <+: bytes ∧ content = overwrite state.content state.cursor front }
  cursor := state.cursor + left.length

def resized (state : FileState) (length : ℕ) : FileState :=
  { state with
    content := resize state.content length
    survivors := insert (resize state.content length) state.survivors }

def synced (state : FileState) : FileState := { state with survivors := {state.content} }

/-- A file that was never used. -/
def empty : FileState := ⟨[], {[]}, 0⟩

end FileState

/-- The contract of the operating system. A new leaf is a file that was never used, a failed
seek or read leaves the cursor anywhere, and a failed truncation or promotion may have
happened. -/
def fileEnv : Environment Disk FileCall FileAnswer
  | s, .createLeaf leaf, .ok file, t =>
      s.leaves leaf = none ∧ s.files file = .empty ∧ t = s.setLeaf leaf (some file)
  | s, .openLeaf leaf, .ok file, t =>
      s.leaves leaf = some file ∧ t = s.setFile file { s.files file with cursor := 0 }
  | s, .openExisting leaf, .ok file, t => s.leaves leaf = some file ∧ t = s
  | s, .openExisting leaf, .error error, t =>
      t = s ∧ (error.rawOsError = some 2 ∨ error.rawOsError = some 3 → s.leaves leaf = none)
  | s, .metadata file, .ok metadata, t =>
      metadata.length = (s.files file).content.length ∧ t = s
  | s, .seekStart file position, .ok _, t =>
      t = s.setFile file { s.files file with cursor := position }
  | s, .seekStart file _, .error _, t =>
      ∃ cursor, t = s.setFile file { s.files file with cursor }
  | s, .seekEnd file, .ok _, t =>
      t = s.setFile file { s.files file with cursor := (s.files file).content.length }
  | s, .seekEnd file, .error _, t => ∃ cursor, t = s.setFile file { s.files file with cursor }
  | s, .readToEnd file limit, .ok bytes, t =>
      bytes = ((s.files file).content.drop (s.files file).cursor).take limit ∧
        t = s.setFile file { s.files file with cursor := (s.files file).cursor + bytes.length }
  | s, .readToEnd file _, .error _, t =>
      ∃ cursor, t = s.setFile file { s.files file with cursor }
  | s, .writeAll file bytes, .ok _, t =>
      t = s.setFile file ((s.files file).written bytes bytes)
  | s, .writeAll file bytes, .error _, t => ∃ left, left <+: bytes ∧
      t = s.setFile file ((s.files file).written bytes left)
  | s, .syncAll file, .ok _, t => t = s.setFile file (s.files file).synced
  | s, .setLen file length, .ok _, t => t = s.setFile file ((s.files file).resized length)
  | s, .setLen file length, .error _, t =>
      t = s ∨ t = s.setFile file ((s.files file).resized length)
  | s, .promoteNoReplace file candidate active, .ok _, t =>
      s.leaves active = none ∧ t = (s.setLeaf candidate none).setLeaf active (some file)
  | s, .promoteNoReplace file candidate active, .error _, t =>
      t = s ∨ s.leaves active = none ∧ t = (s.setLeaf candidate none).setLeaf active (some file)
  | s, _, _, t => t = s

/-- What a crash may leave. -/
def Crashed (s t : Disk) : Prop :=
  ∀ file, (t.files file).content ∈ (s.files file).survivors ∧
    (t.files file).survivors = {(t.files file).content}

end DarkReNamer
