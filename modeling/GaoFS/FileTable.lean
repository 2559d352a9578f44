import GaoFS.FileTree
import GaoFS.FileSizes

namespace GaoFS

open Chunks FileSizes

/-- An open file: what it has been opened as, and where the next transfer of it starts. -/
structure Handle where
  path : Path
  target : FileTree.Target
  pos : Nat
  deriving DecidableEq

/-- The open files of a process, and the descriptors for them. Descriptors may share an open file. -/
structure FileTable where
  handles : List Handle
  fds : Int32 → Option Nat

namespace FileTable

def init : FileTable := ⟨[], fun _ => none⟩

variable (t : FileTable)

def handle (fd : Int32) : Option Handle := (t.fds fd).bind fun h => t.handles[h]?

/-- A new open file and its first descriptor. -/
def opened (fd : Int32) (h : Handle) : FileTable where
  handles := t.handles ++ [h]
  fds := Function.update t.fds fd (some t.handles.length)

def close (fd : Int32) : FileTable := { t with fds := Function.update t.fds fd none }

def dup (oldfd newfd : Int32) : FileTable := { t with fds := Function.update t.fds newfd (t.fds oldfd) }

/-- The open file moves, and all of its descriptors with it. -/
def move (fd : Int32) (pos : Nat) : FileTable :=
  { t with handles := match t.fds fd with
      | none => t.handles
      | some h => t.handles.modify h fun f => { f with pos := pos } }

/-- Where a seek leads to. There is no end to seek from when the file has no size. -/
def seekTarget (pos : Nat) (size : Option Nat) (offset : Int) (whence : UInt32) : Option Int :=
  if whence = SEEK_SET then some offset
  else if whence = SEEK_CUR then some (pos + offset)
  else if whence = SEEK_END then size.map fun n => n + offset
  else none

/-- The target of a seek, if it is a position. -/
def seek (pos : Nat) (size : Option Nat) (offset : Int) (whence : UInt32) : Option Nat :=
  (seekTarget pos size offset whence).bind fun t => if 0 ≤ t ∧ t < 2 ^ 63 then some t.toNat else none

section Lemmas

variable {t} {fd : Int32}

@[simp] theorem fds_opened (h : Handle) (k : Int32) :
    (t.opened fd h).fds k = if k = fd then some t.handles.length else t.fds k := Function.update_apply _ _ _ _

@[simp] theorem fds_close (k : Int32) : (t.close fd).fds k = if k = fd then none else t.fds k :=
  Function.update_apply _ _ _ _

@[simp] theorem fds_dup (oldfd k : Int32) : (t.dup oldfd fd).fds k = if k = fd then t.fds oldfd else t.fds k :=
  Function.update_apply _ _ _ _

theorem handles_move {h : Nat} (hfd : t.fds fd = some h) (pos : Nat) :
    (t.move fd pos).handles = t.handles.modify h fun f => { f with pos := pos } := by
  rw [move, hfd]

theorem seek_lt {pos n : Nat} {size : Option Nat} {offset : Int} {whence : UInt32}
    (h : seek pos size offset whence = some n) : n < 2 ^ 63 := by
  obtain ⟨x, -, hx⟩ := Option.bind_eq_some_iff.mp h
  split at hx
  · obtain rfl := Option.some.inj hx
    omega
  · cases hx

end Lemmas

end FileTable

end GaoFS
