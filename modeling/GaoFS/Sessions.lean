import GaoFS.Descriptors
import GaoFS.FileSystem
import GaoFS.FileTable
import GaoFS.FilePositions

namespace GaoFS.Sessions

open Arithmetic Chunks Replies ForwardData ChunkStorage DataOps MetadataRecord MetadataDB
open Dirents GaofsFunctions StoredWrites WritesInFlight FileContents StoredFiles FileSystem
open FileSizes (OpenFile gaofsLseek SEEK_SET SEEK_CUR SEEK_END forwardGetMetadentrySize)
open FilePositions (AllOrNothing Lands goal)
open FileMap (OpenFileMap Below LandsOnNext EBADF)
open Descriptors (InternalFds)
open ReadRun (Pread Push gaofsPreadResult pushes)
open Library.NumberText Library.ByteFile Library.Runs Library.Paths

section Model

/-- A client process: its file map, and the objects that the entries point to. -/
structure Process where
  fileMap : OpenFileMap Nat
  files : List OpenFile

def Process.start : Process := ⟨OpenFileMap.start, []⟩

/-- The object behind a descriptor, and its place among the objects. -/
def Process.file (c : Process) (fd : Int32) : Option (Nat × OpenFile) :=
  (c.fileMap.get fd).bind fun h => (c.files[h]?).map fun f => (h, f)

def Process.setPos (c : Process) (h : Nat) (pos : UInt64) : Process :=
  { c with files := c.files.modify h fun f => { f with pos := pos } }

theorem zero_noAppend : hasFlag 0 O_APPEND = false := rfl

/-- What an open adds to the file map. With `O_APPEND` there is no open. -/
def openFile : Opened → Option OpenFile
  | .file path flags => if h : hasFlag flags O_APPEND = false then some ⟨.regular, path, flags, 0, h⟩ else none
  | .dir path _ => some ⟨.directory, path, 0, 0, zero_noAppend⟩

/-- The calls of a process, with what their environment adds: to a close the descriptors that the client
keeps to itself at the time. -/
inductive Call where
  | path (call : FileSystem.Call)
  | openAt (p : CanonicalPath) (mode flags : UInt32) (mem : UInt64 → Bytes) (fuel : Nat)
  | fstat (fd : Int32) (conf : FsConfig) (mountdir : Bytes) (followLinks : Bool) (fuel : Nat)
  | close (fd : Int32) (internalFds : InternalFds)
  | dup (oldfd : Int32)
  | dup2 (oldfd newfd : Int32)
  | lseek (fd : Int32) (offset : Int64) (whence : UInt32)
  | write (fd : Int32) (user : Bytes) (heap : Nat → UInt8) (es : List Event)
  | pwrite (fd : Int32) (user : Bytes) (offset : Int64) (heap : Nat → UInt8) (es : List Event)
  | read (fd : Int32) (buf : List UInt8) (order : UInt64 → List Nat) (arrivals : List Push)
  | pread (fd : Int32) (buf : List UInt8) (offset : Int64) (order : UInt64 → List Nat) (arrivals : List Push)

/-- A call is foreign that goes on to the kernel, since its descriptor is none of the file map. One has
ended of which an exception ends the client. -/
inductive Reply where
  | path (r : FileSystem.Reply)
  | fd (ret : Option (Except Int32 Int32))
  | closed
  | moved (ret : Int64)
  | wrote (ret : Option Int64)
  | read (ret : Int64) (buf : List (Option UInt8))
  | refused (errno : Int32)
  | foreign
  | ended

/-- The write of a regular file. There is none of no bytes, of which the client dies, and here none
outside of the positions that an offset can name. -/
def pwriteOf (path : Path) (user : Bytes) (offset : Int64) : Option Pwrite :=
  if h : words separator path ≠ [] ∧ (∀ c ∈ words separator path, Component c) ∧ user ≠ [] ∧ 0 ≤ offset ∧
      offset.toInt + user.length ≤ 2 ^ 63 - 1 then
    some ⟨⟨⟨words separator path, h.2.1⟩, h.1⟩, user, offset, h.2.2.1, h.2.2.2.1, h.2.2.2.2⟩
  else none

variable (d : SimpleHashDistributor) (cl : Cluster) (c : Process)

def pwriteAt (f : OpenFile) (user : Bytes) (offset : Int64) (heap : Nat → UInt8) (es : List Event) :
    Reply × Cluster :=
  if f.type = .directory then (.refused EISDIR, cl)
  else match pwriteOf f.path user offset with
    | none => (.wrote none, cl)
    | some w =>
      let s := flown d cl [w] heap (es.map fun e => (0, e))
      (.wrote (result d [w].get s 0), s.cl)

def preadAt (f : OpenFile) (buf : List UInt8) (offset : Int64) (order : UInt64 → List Nat)
    (arrivals : List Push) : Reply :=
  if f.type = .directory then .refused EISDIR
  else
    let outs := served d cl f.path order (forwardRead d f.path offset (UInt64.ofNat buf.length))
    .read (gaofsPreadResult (outs.map fun out => out.map Prod.fst)) (copyAll arrivals (buf.map some))

/-- The position after a transfer at it: `gaofs_write` adds what was asked for, `gaofs_read` what it got. -/
def moved (pos : UInt64) (count : Int64 → UInt64) : Reply → UInt64
  | .wrote (some ret) | .read ret _ => if 0 < ret then pos + count ret else pos
  | _ => pos

def perform : Call → Reply × Cluster × Process
  | .path call => (.path (FileSystem.perform d cl call).1, (FileSystem.perform d cl call).2, c)
  | .openAt p mode flags mem fuel =>
    let out := gaofsOpen d mem mode flags (fuel + 1) p.path cl
    match out.1 with
    | none => (.fd none, out.2, c)
    | some (.error e) => (.fd (some (.error e)), out.2, c)
    | some (.ok opened) =>
      match openFile opened with
      | none => (.fd none, out.2, c)
      | some f =>
        let added := c.fileMap.add c.files.length
        (.fd (added.1.map .ok), out.2, ⟨added.2, c.files ++ [f]⟩)
  | .fstat fd conf mountdir followLinks fuel =>
    match c.file fd with
    | none => (.foreign, cl, c)
    | some (_, f) => (.path (.stat (gaofsStat d cl conf mountdir followLinks fuel f.path)), cl, c)
  | .close fd internalFds =>
    if c.fileMap.exist fd then (.closed, cl, { c with fileMap := (c.fileMap.remove fd).2 })
    else match internalFds.isInternalFd fd with
      | none => (.ended, cl, c)
      | some true => (.closed, cl, c)
      | some false => (.foreign, cl, c)
  | .dup oldfd =>
    if c.fileMap.exist oldfd then
      (.fd (c.fileMap.dup oldfd).1, cl, { c with fileMap := (c.fileMap.dup oldfd).2 })
    else (.foreign, cl, c)
  | .dup2 oldfd newfd =>
    if c.fileMap.exist oldfd then
      (.fd (some (c.fileMap.dup2 oldfd newfd).1), cl, { c with fileMap := (c.fileMap.dup2 oldfd newfd).2 })
    else (.foreign, cl, c)
  | .lseek fd offset whence =>
    match c.file fd with
    | none => (.foreign, cl, c)
    | some (h, f) =>
      let out := gaofsLseek f offset whence ⟨0, (cl (metadataHost d f.path)).store f.path⟩
      (.moved out.1.1, cl, c.setPos h out.2)
  | .write fd user heap es =>
    match c.file fd with
    | none => (.foreign, cl, c)
    | some (h, f) =>
      let out := pwriteAt d cl f user f.pos.toInt64 heap es
      (out.1, out.2, c.setPos h (moved f.pos (fun _ => UInt64.ofNat user.length) out.1))
  | .pwrite fd user offset heap es =>
    match c.file fd with
    | none => (.foreign, cl, c)
    | some (_, f) =>
      let out := pwriteAt d cl f user offset heap es
      (out.1, out.2, c)
  | .read fd buf order arrivals =>
    match c.file fd with
    | none => (.foreign, cl, c)
    | some (h, f) =>
      let reply := preadAt d cl f buf f.pos.toInt64 order arrivals
      (reply, cl, c.setPos h (moved f.pos Int64.toUInt64 reply))
  | .pread fd buf offset order arrivals =>
    match c.file fd with
    | none => (.foreign, cl, c)
    | some (_, f) => (preadAt d cl f buf offset order arrivals, cl, c)

/-- Client processes and the daemons that they share. -/
structure System (π : Type*) where
  cl : Cluster
  proc : π → Process

def exec {π : Type*} [DecidableEq π] (s : System π) (e : π × Call) : Reply × System π :=
  let out := perform d s.cl (s.proc e.1) e.2
  (out.1, ⟨out.2.1, Function.update s.proc e.1 out.2.2⟩)

end Model

section Spec

variable (t : FileTree) (tb : FileTable)

def size (path : Path) : Option Nat := (t path).map fun n => n.content.length

/-- What a call does to the file system and to the open files of its process. The reply tells a new
descriptor. -/
noncomputable def next : Call → Reply → FileTree × FileTable
  | .path call, _ => (FileSystem.next t call, tb)
  | .openAt q mode flags _ _, reply =>
    match (t.openAt q.path mode flags).1, reply with
    | .ok target, .fd (some (.ok fd)) =>
      ((t.openAt q.path mode flags).2, tb.opened fd ⟨q.path, target, 0⟩)
    | _, _ => ((t.openAt q.path mode flags).2, tb)
  | .close fd _, _ => (t, tb.close fd)
  | .dup oldfd, .fd (some (.ok fd)) | .dup2 oldfd _, .fd (some (.ok fd)) => (t, tb.dup oldfd fd)
  | .lseek fd offset whence, _ =>
    match tb.handle fd with
    | some h => (t, tb.move fd ((FileTable.seek h.pos (size t h.path) offset.toInt whence).getD h.pos))
    | none => (t, tb)
  | .write fd user _ _, _ =>
    match tb.handle fd with
    | some ⟨path, .file, pos⟩ => (t.writeAll [(path, pos, user)], tb.move fd (pos + user.length))
    | _ => (t, tb)
  | .pwrite fd user offset _ _, _ =>
    match tb.handle fd with
    | some ⟨path, .file, _⟩ => (t.writeAll [(path, offset.toInt.toNat, user)], tb)
    | _ => (t, tb)
  | .read fd buf _ _, _ =>
    match tb.handle fd with
    | some ⟨path, .file, pos⟩ =>
      (t, tb.move fd (pos + (pread pos buf.length ((t.fileAt path).getD [])).length))
    | _ => (t, tb)
  | _, _ => (t, tb)

/-- The bytes of a file from a position on that a reply to a read brings. -/
def Reads (content : Bytes) (pos n : Nat) : Reply → Prop
  | .read ret buf => ret = Int64.ofNat (pread pos n content).length ∧
      ∀ (i : Nat) (v : UInt8), (pread pos n content)[i]? = some v → buf[i]? = some (some v)
  | _ => False

/-- A descriptor that has been free, above those of the kernel. -/
def NewDescriptor (reply : Reply) : Prop :=
  ∃ fd, reply = .fd (some (.ok fd)) ∧ 10000 ≤ fd.toInt ∧ tb.fds fd = none

/-- The reply to a call is that of the file system and of the open files. -/
def Answers (d : SimpleHashDistributor) : Call → Reply → Prop
  | .path call, reply => ∃ r, reply = .path r ∧ FileSystem.Answers d t call r
  | .openAt q mode flags _ _, reply =>
    match (t.openAt q.path mode flags).1 with
    | .error e => reply = .fd (some (.error e))
    | .ok _ => NewDescriptor tb reply
  | .fstat fd conf mountdir _ _, reply =>
    match tb.handle fd with
    | none => reply = .foreign
    | some h => reply = .path (.stat (some (match t h.path with
        | none => .error ENOENT
        | some n => .ok (metadataToStat d conf mountdir h.path (record n)))))
  | .close fd _, reply => reply = if (tb.fds fd).isSome then .closed else .foreign
  | .dup oldfd, reply => if (tb.fds oldfd).isSome then NewDescriptor tb reply else reply = .foreign
  | .dup2 oldfd newfd, reply => reply = if (tb.fds oldfd).isSome then .fd (some (.ok newfd)) else .foreign
  | .lseek fd offset whence, reply =>
    match tb.handle fd with
    | none => reply = .foreign
    | some h => reply = .moved
        ((FileTable.seek h.pos (size t h.path) offset.toInt whence).elim (-1) Int64.ofNat)
  | .write fd user _ _, reply | .pwrite fd user _ _ _, reply =>
    match tb.handle fd with
    | none => reply = .foreign
    | some ⟨_, .directory, _⟩ => reply = .refused EISDIR
    | some ⟨_, .file, _⟩ => reply = .wrote (some (Int64.ofNat user.length))
  | .read fd buf _ _, reply =>
    match tb.handle fd with
    | none => reply = .foreign
    | some ⟨_, .directory, _⟩ => reply = .refused EISDIR
    | some ⟨path, .file, pos⟩ => ∃ content, t.fileAt path = some content ∧ Reads content pos buf.length reply
  | .pread fd buf offset _ _, reply =>
    match tb.handle fd with
    | none => reply = .foreign
    | some ⟨_, .directory, _⟩ => reply = .refused EISDIR
    | some ⟨path, .file, _⟩ =>
      ∃ content, t.fileAt path = some content ∧ Reads content offset.toInt.toNat buf.length reply

/-- A seek that the client does without its sums wrapping around. -/
def Seekable (pos : Nat) (size : Option Nat) (offset : Int) (whence : UInt32) : Prop :=
  (whence = SEEK_CUR → 0 ≤ pos + offset ∧ pos + offset < 2 ^ 63) ∧
    (whence = SEEK_END → ∀ n ∈ size, -2 ^ 63 < offset ∧ n + offset < 2 ^ 63)

/-- A write that leaves no hole in the file and puts no zero byte into its first chunk. No transfer
of it fails, and it returns. -/
structure Writable (d : SimpleHashDistributor) (cl : Cluster) (t : FileTree) (path : Path) (pos : Nat)
    (user : Bytes) (heap : Nat → UInt8) (es : List Event) : Prop where
  file : ∃ content, t.fileAt path = some content ∧ pos ≤ content.length
  user_ne : user ≠ []
  end_lt : pos + user.length < 2 ^ 63
  clean : ∀ j, pos + j < C → user[j]? ≠ some 0
  delivered : ∀ e ∈ es, e.fails = false
  returns : ∀ w, pwriteOf path user (Int64.ofNat pos) = some w →
    (result d [w].get (flown d cl [w] heap (es.map fun e => (0, e))) 0).isSome

/-- A read of a file, with pushes that arrive in any order. -/
structure Readable (d : SimpleHashDistributor) (cl : Cluster) (t : FileTree) (path : Path) (pos : Nat)
    (buf : List UInt8) (order : UInt64 → List Nat) (arrivals : List Push) : Prop where
  file : (t.fileAt path).isSome
  buf_ne : buf ≠ []
  length_lt : buf.length < 2 ^ 63
  turns : ∀ r ∈ forwardRead d path (Int64.ofNat pos) (UInt64.ofNat buf.length),
    (order r.hostId).Perm (List.range r.chunkN.toNat)
  arrive : arrivals.Perm
    (pushes (served d cl path order (forwardRead d path (Int64.ofNat pos) (UInt64.ofNat buf.length))))

/-- Calls that the file system is there for. There is a free descriptor, and no `dup2` lands on the next one.
A close is of an open file or of a descriptor that the client leaves to the kernel. -/
def Allowed (d : SimpleHashDistributor) (P : PathSet) (cl : Cluster) (c : Process) (t : FileTree) (tb : FileTable) :
    Call → Prop
  | .path call => match call with
    | .openAt _ _ _ _ _ | .opendir _ _ => False
    | call => FileSystem.Allowed d P cl t call
  | .openAt q mode flags mem fuel =>
      FileSystem.Allowed d P cl t (.openAt q mode flags mem fuel) ∧ c.fileMap.safeGenerateFdIdx.isSome
  | .dup _ => c.fileMap.safeGenerateFdIdx.isSome
  | .dup2 oldfd newfd => ∃ h : 0 ≤ newfd, ¬ LandsOnNext c.fileMap (.dup2 oldfd newfd h)
  | .lseek fd offset whence => ∀ h ∈ tb.handle fd, Seekable h.pos (size t h.path) offset.toInt whence
  | .write fd user heap es => ∀ h ∈ tb.handle fd, h.target = .file → Writable d cl t h.path h.pos user heap es
  | .pwrite fd user offset heap es => 0 ≤ offset ∧ ∀ h ∈ tb.handle fd,
      h.target = .file → Writable d cl t h.path offset.toInt.toNat user heap es
  | .read fd buf order arrivals => ∀ h ∈ tb.handle fd,
      h.target = .file → Readable d cl t h.path h.pos buf order arrivals
  | .pread fd buf offset order arrivals => 0 ≤ offset ∧ ∀ h ∈ tb.handle fd,
      h.target = .file → Readable d cl t h.path offset.toInt.toNat buf order arrivals
  | .close fd internalFds => (tb.fds fd).isSome ∨ internalFds.isInternalFd fd = some false
  | .fstat _ _ _ _ _ => True

/-- An object of a process stands for an open file. -/
structure OpenAs (f : OpenFile) (h : Handle) : Prop where
  path : f.path = h.path
  canonical : ∃ q : CanonicalPath, q.path = h.path
  directory : f.type = .directory ↔ h.target = .directory
  pos : f.pos.toNat = h.pos
  pos_lt : h.pos < 2 ^ 63

/-- A process has open what its table says. -/
structure HasOpen (c : Process) (t : FileTable) : Prop where
  below : Below c.fileMap
  get : ∀ fd, c.fileMap.get fd = t.fds fd
  length : c.files.length = t.handles.length
  opens : ∀ (k : Nat) (f : OpenFile) (h : Handle), c.files[k]? = some f → t.handles[k]? = some h → OpenAs f h
  valid : ∀ fd k, t.fds fd = some k → k < t.handles.length

end Spec

section Transfers

variable {d : SimpleHashDistributor} {P : PathSet} {cl : Cluster} {t : FileTree} {f : FilePath} {pos : Nat}
  {user : Bytes} {heap : Nat → UInt8} {es : List Event}

theorem pwriteOf_path (w : Pwrite) : pwriteOf w.file.path w.user w.offset = some w := by
  have hwords : words separator w.file.path = w.file.components := words_path w.file.toCanonicalPath
  have hvalid : ∀ c ∈ words separator w.file.path, Component c := hwords ▸ w.file.valid
  have hsame : ∀ cs (heq : cs = w.file.components) hcs hf, (⟨⟨cs, hcs⟩, hf⟩ : FilePath) = w.file := by
    rintro _ rfl hcs hf
    rfl
  rw [pwriteOf, dif_pos ⟨hwords ▸ w.file.components_ne, hvalid, w.user_ne, w.offset_nonneg, w.end_le⟩]
  simp only [hsame _ hwords]

theorem Writable.pwrite (h : Writable d cl t f.path pos user heap es) :
    ∃ w, pwriteOf f.path user (Int64.ofNat pos) = some w ∧ w.file = f ∧ w.user = user ∧ w.start = pos := by
  have hlt := h.end_lt
  have hint : (Int64.ofNat pos).toInt = pos := Int64.toInt_ofNat_of_lt (by omega)
  let w : Pwrite := ⟨f, user, Int64.ofNat pos, h.user_ne, Int64.not_lt.mp (not_ofNat_neg (n := pos) (by omega)),
    by omega⟩
  exact ⟨w, pwriteOf_path w, rfl, rfl, VectorIo.toNat_ofNat_toUInt64 (by omega)⟩

theorem eq_zero_of_single {w : Pwrite} (i : Fin [w].length) : i = 0 := Fin.fin_one_eq_zero i

/-- One write alone is a batch that keeps apart. -/
theorem Writable.concurrent (h : Writable d cl t f.path pos user heap es) {w : Pwrite} (hfile : w.file = f)
    (huser : w.user = user) (hstart : w.start = pos) : Concurrent t [w].get := by
  obtain ⟨content, hcontent, hreached⟩ := h.file
  have hone : ∀ i : Fin [w].length, [w].get i = w := fun i => by
    obtain rfl := eq_zero_of_single i
    rfl
  have hsame : ∀ i j : Fin [w].length, i = j := fun i j => (eq_zero_of_single i).trans (eq_zero_of_single j).symm
  refine ⟨fun i => ?_, fun i j _ _ _ _ => hsame i j, fun i j _ _ _ => hsame i j,
    fun i j hj => ?_, fun i content' x hcontent' hx hstop => ⟨i, rfl, ?_, hstop⟩⟩
  · rw [hone, hfile, hcontent]
    rfl
  · rw [hone, hstart] at hj
    rw [hone, huser]
    exact h.clean j hj
  · rw [hone, hfile, hcontent] at hcontent'
    obtain rfl := Option.some.inj hcontent'
    rw [hone, hstart]
    exact hreached.trans hx

theorem pwriteAt_spec (h : Refines d P cl t) {g : FileSizes.OpenFile} (hpath : g.path = f.path)
    (hreg : g.type ≠ .directory) (hw : Writable d cl t f.path pos user heap es) :
    (pwriteAt d cl g user (Int64.ofNat pos) heap es).1 = .wrote (some (Int64.ofNat user.length)) ∧
      Refines d P (pwriteAt d cl g user (Int64.ofNat pos) heap es).2 (t.writeAll [(f.path, pos, user)]) := by
  obtain ⟨w, hof, hfile, huser, hstart⟩ := hw.pwrite
  have hdone : ∀ i, (result d [w].get (flown d cl [w] heap (es.map fun e => (0, e))) i).isSome := fun i => by
    obtain rfl := eq_zero_of_single i
    exact hw.returns w hof
  have hok : ∀ e ∈ es.map fun e => ((0 : Fin [w].length), e), e.2.fails = false := by
    intro e he
    obtain ⟨e', he', rfl⟩ := List.mem_map.mp he
    exact hw.delivered e' he'
  obtain ⟨hret, hnext⟩ := h.pwrites_spec (hw.concurrent hfile huser hstart) hok hdone
  have hwrites : writes [w] = [(f.path, pos, user)] := by
    rw [writes, List.map_singleton, hfile, huser, hstart]
  rw [pwriteAt, if_neg hreg, hpath, hof]
  refine ⟨?_, hwrites ▸ hnext⟩
  have hfirst := congrArg List.head? hret
  rw [← huser]
  exact congrArg Reply.wrote (Option.some.inj hfirst)

theorem preadAt_spec (h : Refines d P cl t) {g : FileSizes.OpenFile} (hpath : g.path = f.path)
    (hreg : g.type ≠ .directory) {buf : List UInt8} {order : UInt64 → List Nat} {arrivals : List Push}
    (hr : Readable d cl t f.path pos buf order arrivals) (hpos : pos < 2 ^ 63) :
    ∃ content, t.fileAt f.path = some content ∧
      Reads content pos buf.length (preadAt d cl g buf (Int64.ofNat pos) order arrivals) := by
  obtain ⟨content, hcontent⟩ := Option.isSome_iff_exists.mp hr.file
  refine ⟨content, hcontent, ?_⟩
  let call : Pread :=
    ⟨buf, Int64.ofNat pos, hr.buf_ne, hr.length_lt, Int64.not_lt.mp (not_ofNat_neg hpos)⟩
  have hturns : ∀ r ∈ call.requests d f.path, (order r.hostId).Perm (List.range r.chunkN.toNat) := hr.turns
  have hspec := h.pread_spec hcontent hturns hr.arrive
  rw [VectorIo.toNat_ofNat_toUInt64 hpos] at hspec
  rw [preadAt, if_neg hreg, hpath]
  exact hspec

end Transfers

section Tables

variable {c : Process} {t : FileTable} {fd : Int32} {k : Nat}

theorem HasOpen.exist_eq (h : HasOpen c t) (fd : Int32) : c.fileMap.exist fd = (t.fds fd).isSome :=
  congrArg Option.isSome (h.get fd)

theorem HasOpen.file_cases (h : HasOpen c t) (fd : Int32) : (c.file fd = none ∧ t.handle fd = none) ∨
    ∃ k f x, c.file fd = some (k, f) ∧ t.handle fd = some x ∧ t.fds fd = some k ∧ OpenAs f x := by
  rw [Process.file, FileTable.handle, h.get]
  cases hfd : t.fds fd with
  | none => exact .inl ⟨rfl, rfl⟩
  | some k =>
    have hlt := h.valid fd k hfd
    have hf := List.getElem?_eq_getElem (h.length ▸ hlt)
    have hx := List.getElem?_eq_getElem hlt
    refine .inr ⟨k, _, _, ?_, hx, rfl, h.opens k _ _ hf hx⟩
    rw [Option.bind_some, hf, Option.map_some]

theorem Process.setPos_self {f : FileSizes.OpenFile} (h : c.file fd = some (k, f)) : c.setPos k f.pos = c := by
  obtain ⟨k', -, hk'⟩ := Option.bind_eq_some_iff.mp h
  obtain ⟨f', hf', he⟩ := Option.map_eq_some_iff.mp hk'
  obtain ⟨rfl, rfl⟩ := Prod.mk.inj he
  have hfiles : c.files.modify k' (fun x => { x with pos := f'.pos }) = c.files := by
    refine List.ext_getElem? fun j => ?_
    rw [List.getElem?_modify]
    by_cases hj : k' = j
    · subst hj
      rw [hf']
      simp
    · simp [hj]
  rw [Process.setPos, hfiles]

/-- The object moves as the open file does. -/
theorem HasOpen.setPos (h : HasOpen c t) (hfd : t.fds fd = some k) {pos : UInt64} {n : Nat} (hpos : pos.toNat = n)
    (hlt : n < 2 ^ 63) : HasOpen (c.setPos k pos) (t.move fd n) := by
  have hmove := FileTable.handles_move hfd n
  refine ⟨h.below, h.get, ?_, fun j f x hf hx => ?_, fun fd' j hj => ?_⟩
  · rw [hmove, List.length_modify, Process.setPos, List.length_modify, h.length]
  · rw [hmove, List.getElem?_modify] at hx
    rw [Process.setPos, List.getElem?_modify] at hf
    obtain ⟨x₀, hx₀, rfl⟩ := Option.map_eq_some_iff.mp hx
    obtain ⟨f₀, hf₀, rfl⟩ := Option.map_eq_some_iff.mp hf
    have hopen := h.opens j f₀ x₀ hf₀ hx₀
    split
    · exact ⟨hopen.path, hopen.canonical, hopen.directory, hpos, hlt⟩
    · exact hopen
  · rw [hmove, List.length_modify]
    exact h.valid fd' j hj

theorem HasOpen.close (h : HasOpen c t) (fd : Int32) :
    HasOpen { c with fileMap := (c.fileMap.remove fd).2 } (t.close fd) where
  below := h.below.remove fd
  get k := by rw [FileMap.get_remove, FileTable.fds_close, h.get]
  length := h.length
  opens := h.opens
  valid fd' j hj := by
    rw [FileTable.fds_close] at hj
    split at hj
    · cases hj
    · exact h.valid fd' j hj

/-- A descriptor has been made another one for an open file. -/
theorem HasOpen.dup (h : HasOpen c t) {m : OpenFileMap Nat} {oldfd : Int32} (hbelow : Below m)
    (hget : ∀ k, m.get k = if k = fd then c.fileMap.get oldfd else c.fileMap.get k) :
    HasOpen { c with fileMap := m } (t.dup oldfd fd) where
  below := hbelow
  get k := by rw [hget, FileTable.fds_dup, h.get, h.get]
  length := h.length
  opens := h.opens
  valid fd' j hj := by
    rw [FileTable.fds_dup] at hj
    split at hj
    · exact h.valid oldfd j hj
    · exact h.valid fd' j hj

theorem HasOpen.opened (h : HasOpen c t) {m : OpenFileMap Nat} {f : FileSizes.OpenFile} {x : Handle} (hbelow : Below m)
    (hget : ∀ k, m.get k = if k = fd then some c.files.length else c.fileMap.get k) (hopen : OpenAs f x) :
    HasOpen ⟨m, c.files ++ [f]⟩ (t.opened fd x) where
  below := hbelow
  get k := by rw [hget, FileTable.fds_opened, h.length, h.get]
  length := by rw [FileTable.opened, List.length_append, List.length_append, h.length]; rfl
  opens k f' x' hf hx := by
    rw [List.getElem?_append] at hf
    rw [FileTable.opened, List.getElem?_append, ← h.length] at hx
    split at hf
    · rename_i hlt
      rw [if_pos hlt] at hx
      exact h.opens k f' x' hf hx
    · rename_i hlt
      rw [if_neg hlt] at hx
      obtain rfl := List.mem_singleton.mp (List.mem_of_getElem? hf)
      obtain rfl := List.mem_singleton.mp (List.mem_of_getElem? hx)
      exact hopen
  valid fd' j hj := by
    rw [FileTable.opened, List.length_append, List.length_singleton]
    rw [FileTable.fds_opened] at hj
    split at hj
    · obtain rfl := Option.some.inj hj
      exact Nat.lt_succ_self _
    · exact Nat.lt_succ_of_lt (h.valid fd' j hj)

/-- The next descriptor is free. -/
theorem HasOpen.add (h : HasOpen c t) (hgen : c.fileMap.safeGenerateFdIdx.isSome) (k : Nat) :
    ∃ fd, (c.fileMap.add k).1 = some fd ∧ 10000 ≤ fd.toInt ∧ t.fds fd = none ∧ Below (c.fileMap.add k).2 ∧
      ∀ j, (c.fileMap.add k).2.get j = if j = fd then some k else c.fileMap.get j := by
  obtain ⟨⟨fd, m⟩, hfd⟩ := Option.isSome_iff_exists.mp hgen
  have hadd : (c.fileMap.add k).1 = some fd := by rw [OpenFileMap.add, hfd]
  have hlow := FileMap.safeGenerateFdIdx_low hfd
  have hbelow : Below (FileMap.step c.fileMap (.add k)) := h.below.step fun hlands => hlands
  have halloc := (FileMap.add_correct_iff k).mpr h.below.not_taken fd hadd
    (Int32.le_iff_toInt_le.mpr (by rw [Int32.toInt_zero]; omega))
  refine ⟨fd, hadd, hlow, (h.get fd).symm.trans halloc.fresh, hbelow, fun j => ?_⟩
  split
  · rename_i hj
    rw [hj, halloc.denotes]
  · rename_i hj
    exact halloc.others j hj

end Tables

section Calls

variable {d : SimpleHashDistributor} {P : PathSet} {cl : Cluster} {c : Process} {t : FileTree} {tb : FileTable}

variable (d P cl c t tb) in
/-- A call takes its process to where the file system and the table go, and its reply is theirs. -/
structure Follows (call : Call) : Prop where
  refines : Refines d P (perform d cl c call).2.1 (next t tb call (perform d cl c call).1).1
  opens : HasOpen (perform d cl c call).2.2 (next t tb call (perform d cl c call).1).2
  answers : Answers t tb d call (perform d cl c call).1

theorem follows_of {call : Call} {reply : Reply} {cl' : Cluster} {c' : Process} {t' : FileTree} {tb' : FileTable}
    (hperform : perform d cl c call = (reply, cl', c')) (hnext : next t tb call reply = (t', tb'))
    (h : Refines d P cl' t') (ho : HasOpen c' tb') (hanswers : Answers t tb d call reply) :
    Follows d P cl c t tb call where
  refines := by
    rw [hperform, hnext]
    exact h
  opens := by
    rw [hperform, hnext]
    exact ho
  answers := by
    rw [hperform]
    exact hanswers

theorem follows_path (h : Refines d P cl t) (ho : HasOpen c tb) {call : FileSystem.Call}
    (hcall : Allowed d P cl c t tb (.path call)) : Follows d P cl c t tb (.path call) := by
  have hallowed : FileSystem.Allowed d P cl t call := by
    cases call with
    | openAt => exact hcall.elim
    | opendir => exact hcall.elim
    | _ => exact hcall
  obtain ⟨hnext, hanswers⟩ := Refines.step (s := (cl, t)) h hallowed
  exact follows_of rfl rfl hnext ho ⟨_, rfl, hanswers⟩

theorem follows_close (h : Refines d P cl t) (ho : HasOpen c tb) {fd : Int32} {internalFds : InternalFds}
    (hcall : Allowed d P cl c t tb (.close fd internalFds)) : Follows d P cl c t tb (.close fd internalFds) := by
  have hanswers : ∀ reply, reply = (if c.fileMap.exist fd = true then .closed else .foreign) →
      Answers t tb d (.close fd internalFds) reply := fun reply hreply => by rw [Answers, ← ho.exist_eq, hreply]
  by_cases hused : c.fileMap.exist fd = true
  · exact follows_of (if_pos hused) rfl h (ho.close fd) (hanswers _ (if_pos hused).symm)
  · have hclose := ho.close fd
    rw [show (c.fileMap.remove fd).2 = c.fileMap by rw [OpenFileMap.remove, if_neg hused]] at hclose
    have hkernel : internalFds.isInternalFd fd = some false :=
      hcall.resolve_left (by rw [← ho.exist_eq]; exact hused)
    have hperform : perform d cl c (.close fd internalFds) = (.foreign, cl, c) := by
      rw [perform, if_neg hused, hkernel]
    exact follows_of hperform rfl h hclose (hanswers _ (if_neg hused).symm)

theorem follows_dup (h : Refines d P cl t) (ho : HasOpen c tb) {oldfd : Int32}
    (hcall : Allowed d P cl c t tb (.dup oldfd)) : Follows d P cl c t tb (.dup oldfd) := by
  have hexist := ho.exist_eq oldfd
  by_cases hused : c.fileMap.exist oldfd = true
  · obtain ⟨k, hk⟩ := FileMap.exist_iff.mp hused
    obtain ⟨fd, hfd, hlow, hfree, hbelow, hget⟩ := ho.add hcall k
    have hperform : perform d cl c (.dup oldfd) =
        (.fd (some (.ok fd)), cl, { c with fileMap := (c.fileMap.add k).2 }) := by
      rw [perform, if_pos hused, FileMap.dup_eq_add hk, hfd]
      rfl
    refine follows_of hperform rfl h (ho.dup hbelow fun j => by rw [hget, hk]) ?_
    rw [Answers, ← hexist, if_pos hused]
    exact ⟨fd, rfl, hlow, hfree⟩
  · refine follows_of (if_neg hused) rfl h ho ?_
    rw [Answers, ← hexist, if_neg hused]

theorem follows_dup2 (h : Refines d P cl t) (ho : HasOpen c tb) {oldfd newfd : Int32}
    (hcall : Allowed d P cl c t tb (.dup2 oldfd newfd)) : Follows d P cl c t tb (.dup2 oldfd newfd) := by
  obtain ⟨hnonneg, hnext⟩ := hcall
  have hexist := ho.exist_eq oldfd
  by_cases hused : c.fileMap.exist oldfd = true
  · obtain ⟨k, hk⟩ := FileMap.exist_iff.mp hused
    have hret : (c.fileMap.dup2 oldfd newfd).1 = .ok newfd := by
      rw [OpenFileMap.dup2, hk]
      dsimp only
      split <;> rfl
    have hperform : perform d cl c (.dup2 oldfd newfd) =
        (.fd (some (.ok newfd)), cl, { c with fileMap := (c.fileMap.dup2 oldfd newfd).2 }) := by
      rw [perform, if_pos hused, hret]
    have hbelow : Below (FileMap.step c.fileMap (.dup2 oldfd newfd hnonneg)) := ho.below.step hnext
    refine follows_of hperform rfl h (ho.dup hbelow fun j => ?_) ?_
    · by_cases hne : oldfd = newfd
      · subst hne
        have hsame : (c.fileMap.dup2 oldfd oldfd).2 = c.fileMap := by
          rw [OpenFileMap.dup2, hk]
          exact congrArg Prod.snd (if_pos rfl)
        rw [hsame]
        split
        · rename_i hj
          rw [hj]
        · rfl
      · rw [FileMap.get_dup2 hk hne, hk]
    · rw [Answers, ← hexist, if_pos hused]
  · refine follows_of (if_neg hused) rfl h ho ?_
    rw [Answers, ← hexist, if_neg hused]

theorem follows_openAt (h : Refines d P cl t) (ho : HasOpen c tb) {q : CanonicalPath} {mode flags : UInt32}
    {mem : UInt64 → Bytes} {fuel : Nat} (hcall : Allowed d P cl c t tb (.openAt q mode flags mem fuel)) :
    Follows d P cl c t tb (.openAt q mode flags mem fuel) := by
  obtain ⟨⟨hq, hroom, htrunc⟩, hgen⟩ := hcall
  obtain ⟨⟨r, hret, hopens⟩, hnext⟩ := h.gaofsOpen_spec hq hroom mode htrunc mem fuel
  -- an open that succeeds, whatever it adds to the file map
  have hopened : ∀ (opened : Opened) (target : FileTree.Target) (f : FileSizes.OpenFile), r = .ok opened →
      (t.openAt q.path mode flags).1 = .ok target → openFile opened = some f →
      OpenAs f ⟨q.path, target, 0⟩ → Follows d P cl c t tb (.openAt q mode flags mem fuel) := by
    intro opened target f hr htarget hf hopen
    obtain ⟨fd, hfd, hlow, hfree, hbelow, hget⟩ := ho.add hgen c.files.length
    have hperform : perform d cl c (.openAt q mode flags mem fuel) = (.fd (some (.ok fd)),
        (gaofsOpen d mem mode flags (fuel + 1) q.path cl).2,
        ⟨(c.fileMap.add c.files.length).2, c.files ++ [f]⟩) := by
      simp only [perform, hret, hr, hf, hfd, Option.map_some]
    have hspec : next t tb (.openAt q mode flags mem fuel) (.fd (some (.ok fd))) =
        ((t.openAt q.path mode flags).2, tb.opened fd ⟨q.path, target, 0⟩) := by
      simp only [next, htarget]
    refine follows_of hperform hspec hnext (ho.opened hbelow hget hopen) ?_
    rw [Answers, htarget]
    exact ⟨fd, rfl, hlow, hfree⟩
  generalize htarget : (t.openAt q.path mode flags).1 = result at hopens
  cases hopens with
  | error e =>
    have hperform : perform d cl c (.openAt q mode flags mem fuel) = (.fd (some (.error e)),
        (gaofsOpen d mem mode flags (fuel + 1) q.path cl).2, c) := by
      simp only [perform, hret]
    have hspec : next t tb (.openAt q mode flags mem fuel) (.fd (some (.error e))) =
        ((t.openAt q.path mode flags).2, tb) := by
      simp only [next, htarget]
    refine follows_of hperform hspec hnext ho ?_
    rw [Answers, htarget]
  | file =>
    have happend := FileTree.openAt_noAppend htarget
    exact hopened _ _ ⟨.regular, q.path, flags, 0, happend⟩ rfl htarget (dif_pos happend)
      ⟨rfl, ⟨q, rfl⟩, by simp, rfl, Nat.two_pow_pos 63⟩
  | directory hlists =>
    exact hopened _ _ ⟨.directory, q.path, 0, 0, by decide⟩ rfl htarget rfl
      ⟨rfl, ⟨q, rfl⟩, by simp, rfl, Nat.two_pow_pos 63⟩

theorem OpenAs.isAbsolute {f : FileSizes.OpenFile} {x : Handle} (h : OpenAs f x) : isAbsolute x.path = true := by
  obtain ⟨q, hq⟩ := h.canonical
  rw [← hq]
  exact isAbsolute_path q

theorem follows_fstat (h : Refines d P cl t) (ho : HasOpen c tb) (fd : Int32) (conf : FsConfig) (mountdir : Bytes)
    (followLinks : Bool) (fuel : Nat) : Follows d P cl c t tb (.fstat fd conf mountdir followLinks fuel) := by
  obtain ⟨hnone, hnone'⟩ | ⟨k, f, x, hf, hx, -, hopen⟩ := ho.file_cases fd
  · exact follows_of (by rw [perform, hnone]) rfl h ho (by rw [Answers, hnone'])
  · refine follows_of (by rw [perform, hf]) rfl h ho ?_
    rw [Answers, hx]
    dsimp only
    rw [hopen.path, gaofsStat, h.metadataOf_eq hopen.isAbsolute]
    cases t x.path <;> rfl

/-- What the metadata host answers when it is asked for the size of a file. -/
def SizeReply (n : Option Nat) (ret : Int32 × Int64) : Prop :=
  match n with
  | none => ret.1 ≠ 0
  | some n => ret = (0, Int64.ofNat n) ∧ n < 2 ^ 63

theorem sizeReply_of_refines (h : Refines d P cl t) {path : Path} (hpath : ChunkStorage.isAbsolute path = true) :
    SizeReply (size t path) (forwardGetMetadentrySize ((cl (metadataHost d path)).store path)) := by
  rw [size]
  cases hn : t path with
  | none =>
    rw [forwardGetMetadentrySize, MetadataKey.rpcSrvGetMetadentrySize, h.absent hpath hn]
    exact (by decide : ENOENT ≠ 0)
  | some n =>
    obtain ⟨md, hrec, -, hsize⟩ := h.recorded hpath hn
    have hlt := h.length_lt path n hn
    have hret : (md.kept config).size.toInt64 = Int64.ofNat n.content.length := by
      rw [← hsize]
      exact FilePositions.toInt64_eq_ofNat md.size
    refine ⟨?_, hlt⟩
    rw [forwardGetMetadentrySize, MetadataKey.rpcSrvGetMetadentrySize,
      MetadataKey.getMetadata_recorded hrec (hsize ▸ hlt), ← hret]
    rfl

section Seek

variable {f : FileSizes.OpenFile} {x : Handle} {io : FileSizes.Io} {n : Option Nat} {offset : Int64}
  {whence : UInt32}

theorem target_eq_seekTarget (h : OpenAs f x) (hsize : SizeReply n (forwardGetMetadentrySize io.store)) :
    FilePositions.target f io offset whence = FileTable.seekTarget x.pos n offset.toInt whence := by
  rw [FilePositions.target, FileTable.seekTarget, h.pos]
  split_ifs
  · rfl
  · rfl
  · cases n with
    | none => exact if_pos hsize
    | some n =>
      obtain ⟨hret, hlt⟩ := hsize
      rw [hret]
      dsimp only
      rw [if_neg (not_not_intro rfl), Int64.toInt_ofNat_of_lt hlt]
      rfl
  · rfl

theorem lands_of_seekable (h : OpenAs f x) (hsize : SizeReply n (forwardGetMetadentrySize io.store))
    (hseek : Seekable x.pos n offset.toInt whence) : Lands f io offset whence := by
  obtain ⟨hcur, hend⟩ := hseek
  rw [Lands, h.pos]
  split_ifs with hwhence hwhence'
  · exact hcur hwhence
  · obtain ⟨hwhence, hok⟩ := hwhence'
    cases n with
    | none => exact absurd hok hsize
    | some n =>
      obtain ⟨hret, hlt⟩ := hsize
      obtain ⟨hmin, hmax⟩ := hend hwhence n rfl
      rw [hret]
      dsimp only
      rw [Int64.toInt_ofNat_of_lt hlt]
      omega

theorem goal_eq_seek (h : OpenAs f x) (hsize : SizeReply n (forwardGetMetadentrySize io.store)) :
    goal f io offset whence = (FileTable.seek x.pos n offset.toInt whence).map UInt64.ofNat := by
  rw [goal, target_eq_seekTarget h hsize, FileTable.seek, Option.map_bind]
  refine congrArg _ (funext fun y => ?_)
  rw [Function.comp_apply]
  split <;> rfl

end Seek

theorem follows_lseek (h : Refines d P cl t) (ho : HasOpen c tb) {fd : Int32} {offset : Int64} {whence : UInt32}
    (hcall : Allowed d P cl c t tb (.lseek fd offset whence)) : Follows d P cl c t tb (.lseek fd offset whence) := by
  obtain ⟨hnone, hnone'⟩ | ⟨k, f, x, hf, hx, hfd, hopen⟩ := ho.file_cases fd
  · exact follows_of (by rw [perform, hnone]) (by rw [next, hnone']) h ho (by rw [Answers, hnone'])
  · let io : FileSizes.Io := ⟨0, (cl (metadataHost d f.path)).store f.path⟩
    have hsize : SizeReply (size t x.path) (forwardGetMetadentrySize io.store) := by
      rw [← hopen.path]
      exact sizeReply_of_refines h (hopen.path ▸ hopen.isAbsolute)
    have hall : AllOrNothing f io offset whence :=
      (FilePositions.lseek_iff (hopen.pos ▸ hopen.pos_lt)).mpr (lands_of_seekable hopen hsize (hcall x hx))
    rw [AllOrNothing, goal_eq_seek hopen hsize] at hall
    have hnext : ∀ reply, next t tb (.lseek fd offset whence) reply =
        (t, tb.move fd ((FileTable.seek x.pos (size t x.path) offset.toInt whence).getD x.pos)) := fun reply => by
      rw [next, hx]
    cases hseek : FileTable.seek x.pos (size t x.path) offset.toInt whence with
    | none =>
      rw [hseek] at hall hnext
      obtain ⟨hret, -, hpos, -⟩ := hall
      have hperform : perform d cl c (.lseek fd offset whence) = (.moved (-1), cl, c.setPos k f.pos) := by
        rw [perform, hf, ← hret, ← hpos]
      refine follows_of hperform (hnext _) h (ho.setPos hfd hopen.pos hopen.pos_lt) ?_
      rw [Answers, hx]
      dsimp only
      rw [hseek]
      rfl
    | some n =>
      rw [hseek] at hall hnext
      obtain ⟨hout, -⟩ := hall
      have hlt := FileTable.seek_lt hseek
      have hperform : perform d cl c (.lseek fd offset whence) =
          (.moved (Int64.ofNat n), cl, c.setPos k (UInt64.ofNat n)) := by
        rw [perform, hf, ← UInt64.toInt64_ofNat']
        exact congrArg (fun out => (Reply.moved out.1.1, cl, c.setPos k out.2)) hout
      refine follows_of hperform (hnext _) h (ho.setPos hfd ?_ hlt) ?_
      · rw [UInt64.toNat_ofNat', Nat.mod_eq_of_lt (hlt.trans (by decide))]
        rfl
      · rw [Answers, hx]
        dsimp only
        rw [hseek]
        rfl

section Transfers

variable {f : FileSizes.OpenFile} {path : Path} {pos : Nat}

/-- The root is no file. -/
theorem exists_file (h : Refines d P cl t) {target : FileTree.Target} (hopen : OpenAs f ⟨path, target, pos⟩)
    (hfile : (t.fileAt path).isSome) : ∃ g : FilePath, g.path = path := by
  obtain ⟨q, rfl⟩ := hopen.canonical
  obtain ⟨content, hcontent⟩ := Option.isSome_iff_exists.mp hfile
  obtain ⟨n, hn, hreg, -⟩ := FileTree.fileAt_eq_some.mp hcontent
  obtain ⟨g, rfl⟩ := exists_filePath (p := q) fun hroot => by
    have hdir := h.root n (hroot ▸ hn)
    rw [n.isDir_eq_not, hreg] at hdir
    cases hdir
  exact ⟨g, rfl⟩

theorem pwriteAt_directory (hopen : OpenAs f ⟨path, .directory, pos⟩) (user : Bytes) (offset : Int64)
    (heap : Nat → UInt8) (es : List Event) : pwriteAt d cl f user offset heap es = (.refused EISDIR, cl) :=
  if_pos (hopen.directory.mpr rfl)

theorem preadAt_directory (hopen : OpenAs f ⟨path, .directory, pos⟩) (buf : List UInt8) (offset : Int64)
    (order : UInt64 → List Nat) (arrivals : List Push) :
    preadAt d cl f buf offset order arrivals = .refused EISDIR := if_pos (hopen.directory.mpr rfl)

theorem regular_of_file (hopen : OpenAs f ⟨path, .file, pos⟩) : f.type ≠ .directory := fun hdir => by
  cases hopen.directory.mp hdir

theorem moved_refused (p : UInt64) (count : Int64 → UInt64) (errno : Int32) :
    moved p count (.refused errno) = p := rfl

/-- A transfer of nothing leaves the position alone, as adding it would. -/
theorem toNat_moved {p : UInt64} {n : Nat} (hlt : p.toNat + n < 2 ^ 63) :
    (if 0 < Int64.ofNat n then p + UInt64.ofNat n else p).toNat = p.toNat + n := by
  have hint : (Int64.ofNat n).toInt = n := Int64.toInt_ofNat_of_lt (by omega)
  split
  · rw [UInt64.toNat_add, UInt64.toNat_ofNat', Nat.mod_eq_of_lt (a := n) (by omega), Nat.mod_eq_of_lt (by omega)]
  · rename_i hzero
    rw [Int64.lt_iff_toInt_lt, hint, Int64.toInt_zero] at hzero
    omega

theorem offset_eq_ofNat {offset : Int64} (h : 0 ≤ offset) : offset = Int64.ofNat offset.toInt.toNat := by
  rw [toInt_of_nonneg h, Int.toNat_natCast, ← FilePositions.toInt64_eq_ofNat, Int64.toInt64_toUInt64]

theorem follows_write (h : Refines d P cl t) (ho : HasOpen c tb) {fd : Int32} {user : Bytes} {heap : Nat → UInt8}
    {es : List Event} (hcall : Allowed d P cl c t tb (.write fd user heap es)) :
    Follows d P cl c t tb (.write fd user heap es) := by
  obtain ⟨hnone, hnone'⟩ | ⟨k, f, ⟨path, target, pos⟩, hf, hx, hfd, hopen⟩ := ho.file_cases fd
  · exact follows_of (by rw [perform, hnone]) (by rw [next, hnone']) h ho (by rw [Answers, hnone'])
  cases target with
  | directory =>
    have hperform : perform d cl c (.write fd user heap es) = (.refused EISDIR, cl, c) := by
      rw [perform, hf]
      dsimp only
      rw [pwriteAt_directory hopen, moved_refused, Process.setPos_self hf]
    exact follows_of hperform (by rw [next, hx]) h ho (by rw [Answers, hx])
  | file =>
    have hw := hcall _ hx rfl
    obtain ⟨content, hcontent, -⟩ := hw.file
    obtain ⟨g, rfl⟩ := exists_file h hopen (by rw [hcontent]; rfl)
    obtain ⟨hret, hnext⟩ := pwriteAt_spec h hopen.path (regular_of_file hopen) hw
    have hpos : f.pos.toInt64 = Int64.ofNat pos := by rw [FilePositions.toInt64_eq_ofNat, hopen.pos]
    have hperform : perform d cl c (.write fd user heap es) = (.wrote (some (Int64.ofNat user.length)),
        (pwriteAt d cl f user (Int64.ofNat pos) heap es).2, c.setPos k
          (if 0 < Int64.ofNat user.length then f.pos + UInt64.ofNat user.length else f.pos)) := by
      rw [perform, hf]
      dsimp only
      rw [hpos, hret, moved]
    have hend : f.pos.toNat + user.length < 2 ^ 63 := hopen.pos ▸ hw.end_lt
    exact follows_of hperform (by rw [next, hx]) hnext
      (ho.setPos hfd (by rw [toNat_moved hend, hopen.pos]) hw.end_lt) (by rw [Answers, hx])

theorem follows_pwrite (h : Refines d P cl t) (ho : HasOpen c tb) {fd : Int32} {user : Bytes} {offset : Int64}
    {heap : Nat → UInt8} {es : List Event} (hcall : Allowed d P cl c t tb (.pwrite fd user offset heap es)) :
    Follows d P cl c t tb (.pwrite fd user offset heap es) := by
  obtain ⟨hoffset, hcall⟩ := hcall
  obtain ⟨hnone, hnone'⟩ | ⟨k, f, ⟨path, target, pos⟩, hf, hx, hfd, hopen⟩ := ho.file_cases fd
  · exact follows_of (by rw [perform, hnone]) (by rw [next, hnone']) h ho (by rw [Answers, hnone'])
  cases target with
  | directory =>
    have hperform : perform d cl c (.pwrite fd user offset heap es) = (.refused EISDIR, cl, c) := by
      rw [perform, hf]
      dsimp only
      rw [pwriteAt_directory hopen]
    exact follows_of hperform (by rw [next, hx]) h ho (by rw [Answers, hx])
  | file =>
    have hw := hcall _ hx rfl
    obtain ⟨content, hcontent, -⟩ := hw.file
    obtain ⟨g, rfl⟩ := exists_file h hopen (by rw [hcontent]; rfl)
    obtain ⟨hret, hnext⟩ := pwriteAt_spec h hopen.path (regular_of_file hopen) hw
    rw [← offset_eq_ofNat hoffset] at hret hnext
    have hperform : perform d cl c (.pwrite fd user offset heap es) = (.wrote (some (Int64.ofNat user.length)),
        (pwriteAt d cl f user offset heap es).2, c) := by
      rw [perform, hf]
      dsimp only
      rw [hret]
    exact follows_of hperform (by rw [next, hx]) hnext ho (by rw [Answers, hx])

theorem follows_read (h : Refines d P cl t) (ho : HasOpen c tb) {fd : Int32} {buf : List UInt8}
    {order : UInt64 → List Nat} {arrivals : List Push}
    (hcall : Allowed d P cl c t tb (.read fd buf order arrivals)) :
    Follows d P cl c t tb (.read fd buf order arrivals) := by
  obtain ⟨hnone, hnone'⟩ | ⟨k, f, ⟨path, target, pos⟩, hf, hx, hfd, hopen⟩ := ho.file_cases fd
  · exact follows_of (by rw [perform, hnone]) (by rw [next, hnone']) h ho (by rw [Answers, hnone'])
  cases target with
  | directory =>
    have hperform : perform d cl c (.read fd buf order arrivals) = (.refused EISDIR, cl, c) := by
      rw [perform, hf]
      dsimp only
      rw [preadAt_directory hopen, moved_refused, Process.setPos_self hf]
    exact follows_of hperform (by rw [next, hx]) h ho (by rw [Answers, hx])
  | file =>
    have hr := hcall _ hx rfl
    obtain ⟨g, rfl⟩ := exists_file h hopen hr.file
    obtain ⟨content, hcontent, hreads⟩ := preadAt_spec h hopen.path (regular_of_file hopen) hr hopen.pos_lt
    have hpos : f.pos.toInt64 = Int64.ofNat pos := by rw [FilePositions.toInt64_eq_ofNat, hopen.pos]
    -- a read ends at the end of the file, if not where it started
    have hlt : pos + (pread pos buf.length content).length < 2 ^ 63 := by
      obtain ⟨n, hn, -, rfl⟩ := FileTree.fileAt_eq_some.mp hcontent
      have hlen := h.length_lt _ n hn
      have hposlt : pos < 2 ^ 63 := hopen.pos_lt
      rw [length_pread]
      omega
    generalize hreply : preadAt d cl f buf (Int64.ofNat pos) order arrivals = reply at hreads
    cases reply with
    | read ret got =>
      obtain ⟨rfl, hgot⟩ := hreads
      have hperform : perform d cl c (.read fd buf order arrivals) =
          (.read (Int64.ofNat (pread pos buf.length content).length) got, cl, c.setPos k
            (if 0 < Int64.ofNat (pread pos buf.length content).length then
              f.pos + UInt64.ofNat (pread pos buf.length content).length else f.pos)) := by
        rw [perform, hf]
        dsimp only
        rw [hpos, hreply, moved, Int64.toUInt64_ofNat']
      have hnext : next t tb (.read fd buf order arrivals)
          (.read (Int64.ofNat (pread pos buf.length content).length) got) =
          (t, tb.move fd (pos + (pread pos buf.length content).length)) := by
        rw [next, hx]
        dsimp only
        rw [hcontent, Option.getD_some]
      refine follows_of hperform hnext h (ho.setPos hfd ?_ hlt) ?_
      · rw [toNat_moved (by rw [hopen.pos]; exact hlt), hopen.pos]
      · rw [Answers, hx]
        exact ⟨content, hcontent, rfl, hgot⟩
    | _ => exact hreads.elim

theorem follows_pread (h : Refines d P cl t) (ho : HasOpen c tb) {fd : Int32} {buf : List UInt8} {offset : Int64}
    {order : UInt64 → List Nat} {arrivals : List Push}
    (hcall : Allowed d P cl c t tb (.pread fd buf offset order arrivals)) :
    Follows d P cl c t tb (.pread fd buf offset order arrivals) := by
  obtain ⟨hoffset, hcall⟩ := hcall
  obtain ⟨hnone, hnone'⟩ | ⟨k, f, ⟨path, target, pos⟩, hf, hx, hfd, hopen⟩ := ho.file_cases fd
  · exact follows_of (by rw [perform, hnone]) rfl h ho (by rw [Answers, hnone'])
  cases target with
  | directory =>
    have hperform : perform d cl c (.pread fd buf offset order arrivals) = (.refused EISDIR, cl, c) := by
      rw [perform, hf]
      dsimp only
      rw [preadAt_directory hopen]
    exact follows_of hperform rfl h ho (by rw [Answers, hx])
  | file =>
    have hr := hcall _ hx rfl
    obtain ⟨g, rfl⟩ := exists_file h hopen hr.file
    have hlt : offset.toInt.toNat < 2 ^ 63 := by
      have hmax := offset.toInt_lt
      omega
    obtain ⟨content, hcontent, hreads⟩ := preadAt_spec h hopen.path (regular_of_file hopen) hr hlt
    rw [← offset_eq_ofNat hoffset] at hreads
    refine follows_of (by rw [perform, hf]) rfl h ho ?_
    rw [Answers, hx]
    exact ⟨content, hcontent, hreads⟩

end Transfers

/-- Whatever the call. -/
theorem follows (h : Refines d P cl t) (ho : HasOpen c tb) {call : Call} (hcall : Allowed d P cl c t tb call) :
    Follows d P cl c t tb call := by
  cases call with
  | path call => exact follows_path h ho hcall
  | openAt q mode flags mem fuel => exact follows_openAt h ho hcall
  | fstat fd conf mountdir followLinks fuel => exact follows_fstat h ho fd conf mountdir followLinks fuel
  | close fd internalFds => exact follows_close h ho hcall
  | dup oldfd => exact follows_dup h ho hcall
  | dup2 oldfd newfd => exact follows_dup2 h ho hcall
  | lseek fd offset whence => exact follows_lseek h ho hcall
  | write fd user heap es => exact follows_write h ho hcall
  | pwrite fd user offset heap es => exact follows_pwrite h ho hcall
  | read fd buf order arrivals => exact follows_read h ho hcall
  | pread fd buf offset order arrivals => exact follows_pread h ho hcall

end Calls

section Run

variable {π : Type*} [DecidableEq π]

/-- The file system, and what each process has open of it. -/
structure Spec (π : Type*) where
  tree : FileTree
  table : π → FileTable

noncomputable def Spec.next (a : Spec π) (e : π × Call) (reply : Reply) : Spec π :=
  let out := Sessions.next a.tree (a.table e.1) e.2 reply
  ⟨out.1, Function.update a.table e.1 out.2⟩

/-- The processes with their daemons, and what they are to be. -/
noncomputable def step (d : SimpleHashDistributor) (s : System π × Spec π) (e : π × Call) : System π × Spec π :=
  ((exec d s.1 e).2, s.2.next e (exec d s.1 e).1)

/-- The daemons hold what the file system has, and each process has open what its table says. -/
structure Agree (d : SimpleHashDistributor) (P : PathSet) (s : System π) (a : Spec π) : Prop where
  refines : Refines d P s.cl a.tree
  opens : ∀ p, HasOpen (s.proc p) (a.table p)

/-- Daemons and processes that have just started. -/
def System.started (roots : UInt64 → Bytes) : System π := ⟨Listing.started roots, fun _ => Process.start⟩

def Spec.init : Spec π := ⟨FileTree.init, fun _ => FileTable.init⟩

variable {d : SimpleHashDistributor} {P : PathSet}

theorem Agree.step {s : System π × Spec π} {e : π × Call} (h : Agree d P s.1 s.2)
    (hcall : Allowed d P s.1.cl (s.1.proc e.1) s.2.tree (s.2.table e.1) e.2) :
    Agree d P (step d s e).1 (step d s e).2 ∧
      Answers s.2.tree (s.2.table e.1) d e.2 (exec d s.1 e).1 := by
  obtain ⟨hnext, hopen, hanswers⟩ := follows h.refines (h.opens e.1) hcall
  have hproc : (Sessions.step d s e).1.proc =
      Function.update s.1.proc e.1 (perform d s.1.cl (s.1.proc e.1) e.2).2.2 := rfl
  have htable : (Sessions.step d s e).2.table = Function.update s.2.table e.1
      (next s.2.tree (s.2.table e.1) e.2 (perform d s.1.cl (s.1.proc e.1) e.2).1).2 := rfl
  refine ⟨⟨hnext, fun p => ?_⟩, hanswers⟩
  rw [hproc, htable]
  by_cases hp : p = e.1
  · subst hp
    rw [Function.update_self, Function.update_self]
    exact hopen
  · rw [Function.update_of_ne hp, Function.update_of_ne hp]
    exact h.opens p

def someInternalFds : InternalFds := ⟨1024, List.replicate 256 true⟩

/-- One process writes a file that the other reads. The first goes back to the start through a duplicate. -/
def sampleCalls : List (Bool × Call) :=
  [(true, .openAt plainFile.toCanonicalPath 0o644 (O_CREAT ||| O_RDWR) (fun _ => []) 0),
    (true, .write 10000 [7] (fun _ => 0) [.updateSize, .act 0 (.visit true), .act 0 (.run 0), .act 0 (.run 0),
      .act 0 (.run 0), .act 0 .wait]),
    (true, .dup 10000),
    (true, .lseek 10001 0 SEEK_SET),
    (false, .openAt plainFile.toCanonicalPath 0 O_RDWR (fun _ => []) 0),
    (false, .read 10000 [1, 1, 1] (fun _ => [0]) [(0, [some 7])]),
    (true, .close 10001 someInternalFds),
    (true, .read 10000 [1, 1, 1] (fun _ => [0]) [(0, [some 7])]),
    (true, .close 3 someInternalFds)]

theorem allowed_sampleCalls : AllSteps (step twoHosts)
    (fun s e => Allowed twoHosts colonFree s.1.cl (s.1.proc e.1) s.2.tree (s.2.table e.1) e.2)
    (System.started fun _ => text "/r", Spec.init) sampleCalls := by
  have hnamed : plainFile.path ∈ colonFree.paths := ⟨plainFile.toCanonicalPath, rfl, by decide +kernel⟩
  have hfirst : ∀ (o : Option Handle) (x : Handle), o = some ⟨plainFile.path, .file, 0⟩ → x ∈ o →
      x = ⟨plainFile.path, .file, 0⟩ := fun o x ho hx => Option.some.inj (hx.symm.trans ho)
  have hwrite : pwriteOf plainFile.path [7] (Int64.ofNat 0) = some (twoCalls false) := pwriteOf_path (twoCalls false)
  refine ⟨⟨⟨hnamed, by decide +kernel, fun hcut => absurd hcut.1 (by decide)⟩, by decide +kernel⟩, ?_,
    ?_, fun _ _ => ⟨fun h => absurd h (by decide), fun h => absurd h (by decide)⟩,
    ⟨⟨hnamed, by decide +kernel, fun hcut => absurd hcut.1 (by decide)⟩, by decide +kernel⟩,
    ?_, .inl (by decide +kernel), ?_, .inr (by decide +kernel), trivial⟩
  · rintro x hx -
    obtain rfl := hfirst _ x (by decide +kernel) hx
    refine ⟨⟨[], by decide +kernel, Nat.zero_le _⟩, by decide, by decide, fun j _ => ?_, by decide, ?_⟩
    · cases j with
      | zero => decide
      | succ j =>
        intro h
        cases h
    · intro w hw
      obtain rfl := Option.some.inj (hw.symm.trans hwrite)
      decide +kernel
  · change Option.isSome _ = true
    decide +kernel
  · rintro x hx -
    obtain rfl := hfirst _ x (by decide +kernel) hx
    exact ⟨by decide +kernel, by decide, by decide, by decide +kernel, by decide +kernel⟩
  · rintro x hx -
    obtain rfl := hfirst _ x (by decide +kernel) hx
    exact ⟨by decide +kernel, by decide, by decide, by decide +kernel, by decide +kernel⟩

end Run

end GaoFS.Sessions
