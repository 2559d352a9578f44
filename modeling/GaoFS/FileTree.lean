import GaoFS.GaofsFunctions
import GaoFS.Library.ByteFile

namespace GaoFS

open Chunks Replies ChunkStorage MetadataRecord MetadataDB Dirents GaofsFunctions
open Library.NumberText Library.ByteFile

/-- What a path names: a regular file with its contents, or a directory. -/
@[ext] structure Node where
  mode : UInt32
  content : Bytes
  kind : S_ISREG mode = true ∨ S_ISDIR mode = true ∧ content = []

namespace Node

/-- A new file or directory. -/
def new (mode : UInt32) (valid : (S_ISDIR mode || S_ISREG mode) = true) : Node where
  mode := mode
  content := []
  kind := by
    obtain hdir | hreg := Bool.or_eq_true_iff.mp valid
    · exact .inr ⟨hdir, rfl⟩
    · exact .inl hreg

/-- Writes, one after the other, each at its position. -/
def writeAll (n : Node) (ws : List (Nat × Bytes)) : Node :=
  if hreg : S_ISREG n.mode = true then ⟨n.mode, pwriteAll 0 ws n.content, .inl hreg⟩ else n

/-- The contents of a regular file. -/
def file? (n : Node) : Option Bytes := if S_ISREG n.mode = true then some n.content else none

variable {n : Node} {content : Bytes}

theorem file?_eq_some : n.file? = some content ↔ S_ISREG n.mode = true ∧ n.content = content := by
  rw [file?]
  split <;> simp_all

theorem file?_eq_none : n.file? = none ↔ S_ISREG n.mode = false := by
  rw [file?]
  split <;> simp_all

@[simp] theorem mode_writeAll (ws : List (Nat × Bytes)) : (n.writeAll ws).mode = n.mode := by
  rw [writeAll]
  split <;> rfl

@[simp] theorem writeAll_nil : n.writeAll [] = n := by
  rw [writeAll]
  split <;> rfl

theorem content_writeAll (hreg : S_ISREG n.mode = true) (ws : List (Nat × Bytes)) :
    (n.writeAll ws).content = pwriteAll 0 ws n.content := by
  rw [writeAll, dif_pos hreg]

/-- A node is a directory or a regular file, and not both. -/
theorem isDir_eq_not (n : Node) : S_ISDIR n.mode = !S_ISREG n.mode := by
  cases hreg : S_ISREG n.mode with
  | false =>
    obtain hreg' | ⟨hdir, -⟩ := n.kind
    · rw [hreg] at hreg'
      cases hreg'
    · exact hdir
  | true =>
    rw [S_ISREG, beq_iff_eq] at hreg
    rw [S_ISDIR, hreg]
    rfl

theorem content_of_dir (h : S_ISDIR n.mode = true) : n.content = [] := by
  obtain hreg | ⟨-, hcontent⟩ := n.kind
  · rw [isDir_eq_not, hreg] at h
    cases h
  · exact hcontent

end Node

/-- A file system as its users are to see it, whatever daemons are behind it. -/
abbrev FileTree := Path → Option Node

namespace FileTree

def init : FileTree := fun path => if path = [separator] then some (Node.new rootMode (by decide)) else none

variable (t : FileTree) (path : Path)

def checkDir : Except Int32 Unit :=
  match t path with
  | none => .error ENOENT
  | some n => if S_ISDIR n.mode then .ok () else .error ENOTDIR

/-- The child of a directory that has the name. -/
def Child (name : Bytes) (n : Node) : Prop :=
  name ≠ [] ∧ separator ∉ name ∧ t (rootPath path ++ name) = some n

/-- The names and types of all children, each once, in some order. -/
structure Lists (entries : List (Bytes × FileType)) : Prop where
  once : (entries.map Prod.fst).Nodup
  mem : ∀ name type, (name, type) ∈ entries ↔ ∃ n, t.Child path name n ∧ type = fileType (S_ISDIR n.mode)

/-- A new entry has a mode that the switch over file types lets through and a directory above it. -/
def create (mode : UInt32) : Except Int32 Unit × FileTree :=
  match createMode mode with
  | .error e => (.error e, t)
  | .ok mode =>
    match t.checkDir (dirname path) with
    | .error e => (.error e, t)
    | .ok _ =>
      if (t path).isSome then (.error EEXIST, t)
      else if valid : (S_ISDIR mode || S_ISREG mode) = true then
        (.ok (), Function.update t path (some (Node.new mode valid)))
      else (.error EINVAL, t)

def remove : Except Int32 Unit × FileTree :=
  match t path with
  | none => (.error ENOENT, t)
  | some n => if S_ISDIR n.mode then (.error EISDIR, t) else (.ok (), Function.update t path none)

open Classical in
noncomputable def rmdir : Except Int32 Unit × FileTree :=
  match t.checkDir path with
  | .error e => (.error e, t)
  | .ok _ =>
    if ∃ name n, t.Child path name n then (.error ENOTEMPTY, t) else (.ok (), Function.update t path none)

/-- What an open is about: a regular file, or a directory. -/
inductive Target where
  | file
  | directory
  deriving DecidableEq

def existing : Except Int32 Target :=
  match t path with
  | none => .error ENOENT
  | some n => .ok (if S_ISDIR n.mode then .directory else .file)

/-- Neither links nor appends are asked for. A file is created unless it has been there. -/
def openAt (mode flags : UInt32) : Except Int32 Target × FileTree :=
  if hasFlag flags O_PATH ∨ hasFlag flags O_APPEND then (.error ENOTSUP, t)
  else if hasFlag flags O_CREAT then
    if hasFlag flags O_DIRECTORY then (.error ENOTSUP, t)
    else match t.create path (mode ||| S_IFREG) with
      | (.ok _, t') => (.ok .file, t')
      | (.error e, _) =>
        if e ≠ EEXIST ∨ hasFlag flags O_EXCL then (.error e, t) else (t.existing path, t)
  else (t.existing path, t)

/-- Writes to any files, each at its position, those to one file in their order. -/
def writeAll (ws : List (Path × Nat × Bytes)) : FileTree := fun path =>
  (t path).map fun n => n.writeAll ((ws.filter fun w => w.1 = path).map Prod.snd)

/-- The contents of the regular file that the path names. -/
def fileAt : Option Bytes := (t path).bind Node.file?

section Lemmas

variable {t path} {content : Bytes} {n : Node}

/-- Nothing is opened for appending. -/
theorem openAt_noAppend {mode flags : UInt32} {target : Target} (h : (t.openAt path mode flags).1 = .ok target) :
    hasFlag flags O_APPEND = false := by
  by_contra happend
  rw [openAt, if_pos (.inr (Bool.not_eq_false _ ▸ happend))] at h
  cases h

theorem checkDir_of_dir (h : t path = some n) (hdir : S_ISDIR n.mode = true) : t.checkDir path = .ok () := by
  rw [checkDir, h]
  exact if_pos hdir

theorem checkDir_of_file (h : t path = some n) (hdir : S_ISDIR n.mode = false) :
    t.checkDir path = .error ENOTDIR := by
  rw [checkDir, h]
  exact if_neg (by rw [hdir]; exact Bool.noConfusion)

theorem remove_of_dir (h : t path = some n) (hdir : S_ISDIR n.mode = true) :
    t.remove path = (.error EISDIR, t) := by
  rw [remove, h]
  exact if_pos hdir

theorem remove_of_file (h : t path = some n) (hdir : S_ISDIR n.mode = false) :
    t.remove path = (.ok (), Function.update t path none) := by
  rw [remove, h]
  exact if_neg (by rw [hdir]; exact Bool.noConfusion)

theorem rmdir_of_error {e : Int32} (h : t.checkDir path = .error e) : t.rmdir path = (.error e, t) := by
  rw [rmdir, h]

theorem rmdir_of_child (h : t.checkDir path = .ok ()) (hchild : ∃ name n, t.Child path name n) :
    t.rmdir path = (.error ENOTEMPTY, t) := by
  rw [rmdir, h]
  exact if_pos hchild

theorem rmdir_of_empty (h : t.checkDir path = .ok ()) (hchild : ¬ ∃ name n, t.Child path name n) :
    t.rmdir path = (.ok (), Function.update t path none) := by
  rw [rmdir, h]
  exact if_neg hchild

theorem fileAt_of_dir (h : t path = some n) (hdir : S_ISDIR n.mode = true) : t.fileAt path = none := by
  rw [fileAt, h, Option.bind_some, Node.file?_eq_none]
  simpa [hdir] using n.isDir_eq_not

theorem fileAt_of_file (h : t path = some n) (hdir : S_ISDIR n.mode = false) : t.fileAt path = some n.content := by
  rw [fileAt, h, Option.bind_some, Node.file?_eq_some]
  exact ⟨by simpa [hdir] using n.isDir_eq_not, rfl⟩

theorem fileAt_eq_some : t.fileAt path = some content ↔
    ∃ n, t path = some n ∧ S_ISREG n.mode = true ∧ n.content = content := by
  rw [fileAt, Option.bind_eq_some_iff]
  simp only [Node.file?_eq_some]

theorem fileAt_update_of_ne {path' : Path} (h : path' ≠ path) (x : Option Node) :
    fileAt (Function.update t path x) path' = t.fileAt path' := by
  rw [fileAt, Function.update_of_ne h]
  rfl

theorem fileAt_writeAll (ws : List (Path × Nat × Bytes)) : (t.writeAll ws).fileAt path =
    (t.fileAt path).map (pwriteAll 0 ((ws.filter fun w => w.1 = path).map Prod.snd)) := by
  rw [fileAt, fileAt, writeAll]
  cases t path with
  | none => rfl
  | some n =>
    rw [Option.map_some, Option.bind_some, Option.bind_some, Node.file?, Node.file?, Node.mode_writeAll]
    split
    · rename_i hreg
      rw [Node.content_writeAll hreg, Option.map_some]
    · rfl

end Lemmas

end FileTree

end GaoFS
