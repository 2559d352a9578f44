import GaoFS.ChunkStorage
import GaoFS.FirstChunkRecord

namespace GaoFS.DataOps

open Arithmetic Chunks Replies ChunkStorage FirstChunkRecord Library.NumberText Library.ByteFile

/-- What one daemon stores of a file: the record under its first-chunk key and
the chunk directories. -/
structure Local where
  firstChunk : Option Bytes
  fs : Fs

structure Daemon where
  rootPath : Bytes
  store : Local

/-- Chunk 0 of a file lives in the record and every other chunk in its own file. -/
def Local.stored (l : Local) (dir : Bytes) (chnkId : UInt64) : Option Bytes :=
  if chnkId = 0 then
    l.firstChunk.bind fun raw => match decode raw with
      | .ok x => some x.content
      | .error _ => none
  else chunkFile l.fs dir chnkId

def getFirstChunk (l : Local) : Option (Except Failure FirstChunk) :=
  match l.firstChunk with
  | none => some (.error .notFoundException)
  | some raw => match decode raw with
    | .ok x => some (.ok x)
    | .error (.std _) => some (.error .stdException)
    | .error .assertion => none

def putFirstChunk (l : Local) (content : Bytes) : Local :=
  { l with firstChunk := some (recordOf content) }

section Tasks

variable (rootPath : Bytes) (path : Path) (l : Local)

/-- Body of `write_file_abt`. With nothing in between, the existence check of
`put_no_exist` finds what the task found. -/
def writeFile (chnkId : UInt64) (buf : Bytes) (off : Nat) : Option (Except Failure Nat × Local) :=
  if chnkId = 0 then
    if off + buf.length ≤ C then
      match l.firstChunk with
      | none => some (.ok buf.length, putFirstChunk l (writeContent [] buf off))
      | some _ => (getFirstChunk l).map fun
        | .ok x => (.ok buf.length, putFirstChunk l (writeContent x.content buf off))
        | .error e => (.error e, l)
    else none
  else (writeChunk rootPath path l.fs chnkId buf off).map fun r => (r.1, { l with fs := r.2 })

/-- Body of `read_file_abt`, which leaves the bytes at the start of its buffer. -/
def readFile (chnkId : UInt64) (size off : Nat) : Option (Except Failure Bytes) :=
  if chnkId = 0 then
    (getFirstChunk l).map fun
      | .ok x => .ok (readContent x.content size off)
      | .error e => .error e
  else readChunk rootPath path l.fs chnkId size off

/-- Result that the catch clauses of `read_file_abt` report. The last of them
has lost its minus sign. -/
def readErr : Failure → Int64
  | .chunkStorageException code => -code.toInt64
  | .notFoundException => -ENOENT.toInt64
  | .existsException => - EIO.toInt64
  | .dbException => - EIO.toInt64
  | .stdException => EIO.toInt64

def readFileAbt (chnkId : UInt64) (size off : Nat) : Option (Int64 × Bytes) :=
  (readFile rootPath path l chnkId size off).map fun
    | .ok bytes => (Int64.ofNat bytes.length, bytes)
    | .error e => (readErr e, [])

/-- The part of `truncate_abt` that cuts the chunk in which the new end lies,
and the first chunk to delete. -/
def truncateBoundary (chunkIdStart leftPad : UInt64) : Option (Except Failure UInt64 × Local) :=
  if chunkIdStart = 0 then
    if leftPad ≠ 0 then
      (getFirstChunk l).map fun
        | .ok x => (.ok (chunkIdStart + 1), putFirstChunk l (x.content.take leftPad.toNat))
        | .error e => (.error e, l)
    else some (.ok (chunkIdStart + 1), { l with firstChunk := none })
  else if leftPad ≠ 0 then
    (truncateChunkFile rootPath path l.fs chunkIdStart leftPad.toNat).map fun r =>
      (r.1.map fun _ => chunkIdStart + 1, { l with fs := r.2 })
  else some (.ok chunkIdStart, l)

/-- Body of `truncate_abt`. Besides a failed assertion, `none` is the division
by a host count of 0. -/
def truncateFile (strHash : Bytes → UInt64) (size hostId hostSize : UInt64) :
    Option (Except Failure Unit × Local) :=
  let chunkIdStart := blockIndex size chunksize
  let leftPad := blockOverrun size chunksize
  (locateDataSized strHash path chunkIdStart.toUInt32 hostSize.toUInt32).bind fun host =>
    let boundary :=
      if host.toUInt64 = hostId then truncateBoundary rootPath path l chunkIdStart leftPad
      else some (.ok chunkIdStart, l)
    boundary.bind fun
      | (.error e, l) => some (.error e, l)
      | (.ok start, l) => (trimChunkSpace rootPath path l.fs start).map fun r =>
        (r.1, { l with fs := r.2 })

/-- Result that the catch clauses of `truncate_abt` report. -/
def truncateErr : Failure → Int32
  | .chunkStorageException code => code
  | .notFoundException => ENOENT
  | .existsException | .dbException | .stdException => EIO

def truncateFileAbt (strHash : Bytes → UInt64) (size hostId hostSize : UInt64) :
    Option (Int32 × Local) :=
  (truncateFile rootPath path l strHash size hostId hostSize).map fun
    | (.ok (), l) => (0, l)
    | (.error e, l) => (truncateErr e, l)

theorem truncateFile_no_hosts (strHash : Bytes → UInt64) (size hostId : UInt64) {hostSize : UInt64}
    (h : hostSize.toUInt32 = 0) : truncateFile rootPath path l strHash size hostId hostSize = none := by
  simp only [truncateFile, locateDataSized, h, ne_eq, not_true_eq_false, dite_false, Option.bind_none]

end Tasks

theorem getFirstChunk_recordOf {l : Local} {content : Bytes}
    (hl : l.firstChunk = some (recordOf content)) (h : content.length < 2 ^ 63) :
    getFirstChunk l = some (.ok ⟨UInt64.ofNat content.length, cString content⟩) := by
  simp only [getFirstChunk, hl, decode_recordOf content h]

def fileRead (x : Option Bytes) (size off : Nat) : Int64 × Bytes :=
  match x with
  | none => (readErr .notFoundException, [])
  | some content => (Int64.ofNat (pread off size content).length, pread off size content)

theorem readFileAbt_record (rootPath : Bytes) (path : Path) {l : Local} {raw : Option Bytes}
    (hl : l.firstChunk = raw.map recordOf) (hlen : ∀ b, raw = some b → b.length ≤ C) (size off : Nat) :
    readFileAbt rootPath path l 0 size off = some (fileRead (raw.map cString) size off) := by
  cases raw with
  | none => simp [readFileAbt, readFile, getFirstChunk, hl, fileRead]
  | some b =>
    have hb := hlen b rfl
    have hget := getFirstChunk_recordOf (l := l) hl (by simp only [C] at hb; omega)
    simp [readFileAbt, readFile, hget, readContent_eq, fileRead]

theorem readFileAbt_chunkFile {rootPath : Bytes} {path : Path} {dir : Bytes}
    (hdir : chunkDir rootPath path = some dir) (l : Local) {chnkId : UInt64} (hid : chnkId ≠ 0)
    {size off : Nat} (fits : off + size ≤ C) :
    readFileAbt rootPath path l chnkId size off =
      some (fileRead (chunkFile l.fs dir chnkId) size off) := by
  cases h : chunkFile l.fs dir chnkId <;>
    simp [readFileAbt, readFile, hid, readChunk, fits, hdir, h, fileRead, readErr]

end GaoFS.DataOps
