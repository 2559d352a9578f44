import GaoFS.Sessions
import GaoFS.Naming
import GaoFS.Getdents

namespace GaoFS.Programs

open Chunks ChunkStorage Replies MetadataRecord MetadataDB GaofsFunctions Resolve ResolveLexical ResolveLinks
open ResolveWalk Relativize SymlinkHooks FileMap FileSystem Sessions Naming WorkingDirectory DataOps
open Getdents (OpenDir Rec)
open Dirents (FileType)
open Library.NumberText Library.Runs Library.Paths

section Model

def ERANGE : Int32 := 34

/-- A process as the hooks see it. The entries are those of the directories among its open files. -/
structure Program where
  proc : Process
  entries : Nat → List (Bytes × FileType)
  cwd : Path
  envCwd : Option Path

/-- The open file that an entry of the file map points to. -/
def Program.opened (c : Program) (k : Nat) : Opened :=
  match c.proc.files[k]? with
  | some f => if f.type = .directory then .dir f.path (c.entries k) else .file f.path f.flags
  | none => .file [] 0

def Program.ctx (mountdir : FilePath) (c : Program) : PreloadContext :=
  ⟨mountdir, c.cwd, c.envCwd, c.proc.fileMap.map c.opened⟩

/-- What a hook does for a path in GaoFS. -/
inductive PathOp where
  | openAt (mode flags : UInt32) (mem : UInt64 → Bytes) (fuel : Nat)
  | create (mode : UInt32)
  | stat (fuel : Nat)
  | access (fuel : Nat)
  | remove
  | rmdir (mem : UInt64 → Bytes)

/-- The reply of GaoFS comes with the entries that an open has read of a directory. A hook that has ended
has left by an exception. -/
inductive Reply where
  | gaofs (r : Sessions.Reply) (listed : List (Bytes × FileType))
  | kernel
  | refused (errno : Int32)
  | changed (ret : Option Int32)
  | cwd (ret : Int32) (buf : Bytes)
  | dents (r : Getdents.Reply)
  | ended

/-- What the processes share: the directories of the kernel, the mount directory, what the client has
heard from the daemons, and the distributor. -/
structure Site where
  os : Os
  mountdir : FilePath
  conf : FsConfig
  d : SimpleHashDistributor

variable (site : Site) (cl : Cluster) (c : Program)

def entriesOf : Opened → List (Bytes × FileType)
  | .file _ _ => []
  | .dir _ entries => entries

/-- The process after a call of GaoFS that opens no directory. -/
def Program.after (out : Sessions.Reply × Cluster × Process) : Reply × Cluster × Program :=
  (.gaofs out.1 [], out.2.1, { c with proc := out.2.2 })

/-- `gaofs_open`, with the descriptor that it gives out. -/
def openPath (path : Path) (mode flags : UInt32) (mem : UInt64 → Bytes) (fuel : Nat) :
    Reply × Cluster × Program :=
  let out := gaofsOpen site.d mem mode flags (fuel + 1) path cl
  match out.1 with
  | none => (.gaofs (.fd none) [], out.2, c)
  | some (.error e) => (.gaofs (.fd (some (.error e))) [], out.2, c)
  | some (.ok opened) =>
    match openFile opened with
    | none => (.gaofs (.fd none) [], out.2, c)
    | some f =>
      let added := c.proc.fileMap.add c.proc.files.length
      (.gaofs (.fd (added.1.map .ok)) (entriesOf opened), out.2,
        { c with
          proc := ⟨added.2, c.proc.files ++ [f]⟩
          entries := Function.update c.entries c.proc.files.length (entriesOf opened) })

def PathOp.run (path : Path) : PathOp → Reply × Cluster × Program
  | .openAt mode flags mem fuel => openPath site cl c path mode flags mem fuel
  | .create mode =>
    let out := gaofsCreate site.d path cl mode
    c.after (.path (.done out.1), out.2, c.proc)
  | .stat fuel => c.after (.path (.stat (gaofsStat site.d cl site.conf site.mountdir.path true fuel path)), cl, c.proc)
  | .access fuel => c.after (.path (.done (gaofsAccess site.d cl true fuel path)), cl, c.proc)
  | .remove =>
    let out := gaofsRemove site.d path cl
    c.after (.path (.done out.1), out.2, c.proc)
  | .rmdir mem =>
    let out := gaofsRmdir site.d path cl mem
    c.after (.path (.done out.1), out.2, c.proc)

/-- The switch over the status of a path. -/
def route (found : Option (RelativizeStatus × Path)) (op : PathOp) : Reply × Cluster × Program :=
  match found with
  | none => (.ended, cl, c)
  | some (.fdUnknown, _) => (.kernel, cl, c)
  | some (.external, _) => (.kernel, cl, c)
  | some (.fdNotADir, _) => (.refused ENOTDIR, cl, c)
  | some (.internal, path) => op.run site cl c path

def hookOpenat (dirfd : Int32) (cpath : Path) (flags mode : UInt32) (mem : UInt64 → Bytes) (fuel : Nat) :
    Reply × Cluster × Program :=
  route site cl c (relativizeFdPath site.os (c.ctx site.mountdir) dirfd cpath 0 true) (.openAt mode flags mem fuel)

/-- The last link is not followed, as if this were `hook_lstat`. -/
def hookStat (path : Path) (fuel : Nat) : Reply × Cluster × Program :=
  route site cl c (statusOf (relativizePath site.os (c.ctx site.mountdir) path false)) (.stat fuel)

/-- What the hooks around links have decided. -/
def carryOut (fuel : Nat) (mem : UInt64 → Bytes) : Option Handled → Reply × Cluster × Program
  | none => (.ended, cl, c)
  | some (.forward _) => (.kernel, cl, c)
  | some (.error errno) => (.refused errno, cl, c)
  | some (.gaofsStat path) => PathOp.run site cl c path (.stat fuel)
  | some (.gaofsRmdir path) => PathOp.run site cl c path (.rmdir mem)
  | some (.gaofsRemove path) => PathOp.run site cl c path .remove

def hookLstat (path : Path) (fuel : Nat) : Reply × Cluster × Program :=
  carryOut site cl c fuel (fun _ => []) (SymlinkHooks.hookLstat site.os (c.ctx site.mountdir) path)

def hookFstatat (dirfd : Int32) (cpath : Path) (flags : Int32) (fuel : Nat) : Reply × Cluster × Program :=
  route site cl c (relativizeFdPath site.os (c.ctx site.mountdir) dirfd cpath flags true) (.stat fuel)

def hookAccess (path : Path) (fuel : Nat) : Reply × Cluster × Program :=
  route site cl c (statusOf (relativizePath site.os (c.ctx site.mountdir) path true)) (.access fuel)

def hookFaccessat (dirfd : Int32) (cpath : Path) (fuel : Nat) : Reply × Cluster × Program :=
  route site cl c (relativizeFdPath site.os (c.ctx site.mountdir) dirfd cpath 0 true) (.access fuel)

def hookMkdirat (dirfd : Int32) (cpath : Path) (mode : UInt32) : Reply × Cluster × Program :=
  route site cl c (relativizeFdPath site.os (c.ctx site.mountdir) dirfd cpath 0 true) (.create (mode ||| S_IFDIR))

def hookUnlinkat (dirfd : Int32) (cpath : Path) (flags : Int32) (mem : UInt64 → Bytes) :
    Reply × Cluster × Program :=
  carryOut site cl c 0 mem (SymlinkHooks.hookUnlinkat site.os (c.ctx site.mountdir) dirfd cpath flags)

def Program.inDir (out : Option Int32 × PreloadContext) : Reply × Cluster × Program :=
  (.changed out.1, cl, { c with cwd := out.2.cwd, envCwd := out.2.envCwd })

def hookGetcwd (size : UInt64) : Reply :=
  if size.toNat < c.cwd.length + 1 then .refused ERANGE
  else .cwd (Int32.ofNat (c.cwd.length + 1)) (cString c.cwd ++ [0])

/-- `hook_getdents` and `hook_getdents64`, of an entry of the file map that is a directory. -/
def hookGetdents (fd : UInt32) (call : Getdents.Call) : Reply × Program :=
  match c.proc.file fd.toInt32 with
  | none => (.kernel, c)
  | some (k, f) =>
    if f.type = .directory then
      match Getdents.getdents site.d.strHash call.layout ⟨f.path, c.entries k⟩ f.pos.toNat call.buf with
      | none => (.ended, c)
      | some (r, pos) => (.dents r, { c with proc := c.proc.setPos k (UInt64.ofNat pos) })
    else (.refused EBADF, c)

/-- The hooks on names. -/
inductive NameCall where
  | openat (dirfd : Int32) (cpath : Path) (flags mode : UInt32) (mem : UInt64 → Bytes) (fuel : Nat)
  | stat (path : Path) (fuel : Nat)
  | lstat (path : Path) (fuel : Nat)
  | fstatat (dirfd : Int32) (cpath : Path) (flags : Int32) (fuel : Nat)
  | access (path : Path) (fuel : Nat)
  | faccessat (dirfd : Int32) (cpath : Path) (fuel : Nat)
  | mkdirat (dirfd : Int32) (cpath : Path) (mode : UInt32)
  | unlinkat (dirfd : Int32) (cpath : Path) (flags : Int32) (mem : UInt64 → Bytes)

/-- The calls of a process. The kernel's part in a change of the directory comes with the call. -/
inductive Call where
  | name (call : NameCall)
  | chdir (path : Path) (sys : Sys)
  | fchdir (fd : UInt32) (sys : Sys)
  | getcwd (size : UInt64)
  | getdents (fd : UInt32) (call : Getdents.Call)
  | gaofs (call : Sessions.Call)

def NameCall.hook : NameCall → Reply × Cluster × Program
  | .openat dirfd cpath flags mode mem fuel => hookOpenat site cl c dirfd cpath flags mode mem fuel
  | .stat path fuel => hookStat site cl c path fuel
  | .lstat path fuel => hookLstat site cl c path fuel
  | .fstatat dirfd cpath flags fuel => hookFstatat site cl c dirfd cpath flags fuel
  | .access path fuel => hookAccess site cl c path fuel
  | .faccessat dirfd cpath fuel => hookFaccessat site cl c dirfd cpath fuel
  | .mkdirat dirfd cpath mode => hookMkdirat site cl c dirfd cpath mode
  | .unlinkat dirfd cpath flags mem => hookUnlinkat site cl c dirfd cpath flags mem

def perform : Call → Reply × Cluster × Program
  | .name call => call.hook site cl c
  | .chdir path sys => c.inDir cl (hookChdir site.os site.d cl sys (c.ctx site.mountdir) path)
  | .fchdir fd sys => c.inDir cl (hookFchdir sys (c.ctx site.mountdir) fd)
  | .getcwd size => (hookGetcwd c size, cl, c)
  | .getdents fd call => ((hookGetdents site c fd call).1, cl, (hookGetdents site c fd call).2)
  | .gaofs call => c.after (Sessions.perform site.d cl c.proc call)

end Model

section Spec

/-- What a process has: its open files, the entries of its open directories, and where it works. -/
structure Account where
  table : FileTable
  entries : Nat → List (Bytes × FileType)
  cwd : List Bytes

/-- A name, with how the hook looks it up and what for, and with whether the call is to follow a link
that the name ends in. -/
structure Lookup where
  dirfd : Int32
  name : Path
  flags : Int32
  resolveLastLink : Bool
  follow : Bool
  op : PathOp

def AT_SYMLINK_NOFOLLOW : Int32 := 0x100

/-- An open that creates a file of its own does not follow a link to it. -/
def openFollows (flags : UInt32) : Bool :=
  !(hasFlag flags O_NOFOLLOW || hasFlag flags O_CREAT && hasFlag flags O_EXCL)

/-- Nothing is looked up for flags that `unlinkat` does not know. -/
def NameCall.lookup : NameCall → Option Lookup
  | .openat dirfd cpath flags mode mem fuel =>
    some ⟨dirfd, cpath, 0, true, openFollows flags, .openAt mode flags mem fuel⟩
  | .stat path fuel => some ⟨AT_FDCWD, path, 0, false, true, .stat fuel⟩
  | .lstat path fuel => some ⟨AT_FDCWD, path, 0, true, false, .stat fuel⟩
  | .fstatat dirfd cpath flags fuel =>
    some ⟨dirfd, cpath, flags, true, flags &&& AT_SYMLINK_NOFOLLOW == 0, .stat fuel⟩
  | .access path fuel => some ⟨AT_FDCWD, path, 0, true, true, .access fuel⟩
  | .faccessat dirfd cpath fuel => some ⟨dirfd, cpath, 0, true, true, .access fuel⟩
  | .mkdirat dirfd cpath mode => some ⟨dirfd, cpath, 0, true, false, .create (mode ||| S_IFDIR)⟩
  | .unlinkat dirfd cpath flags mem =>
    if flags &&& ~~~AT_REMOVEDIR ≠ 0 then none
    else some ⟨dirfd, cpath, 0, true, false, if flags &&& AT_REMOVEDIR ≠ 0 then .rmdir mem else .remove⟩

variable (site : Site) (t : FileTree) (a : Account)

def PathOp.call (p : CanonicalPath) : PathOp → Sessions.Call
  | .openAt mode flags mem fuel => .openAt p mode flags mem fuel
  | .create mode => .path (.create p mode)
  | .stat fuel => .path (.stat p site.conf site.mountdir.path true fuel)
  | .access fuel => .path (.access p true fuel)
  | .remove => .path (.remove p)
  | .rmdir mem => .path (.rmdir p mem)

def Account.fullPath (name : Path) : Path :=
  if name.head? = some separator then name else joined separator a.cwd ++ separator :: name

/-- The flag for the descriptor itself, which stands for an empty name. -/
def Lookup.OfDescriptor (l : Lookup) : Prop := l.name = [] ∧ l.flags &&& AT_EMPTY_PATH ≠ 0

instance decidableOfDescriptor (l : Lookup) : Decidable l.OfDescriptor := inferInstanceAs (Decidable (_ ∧ _))

/-- The full path of a name, which is behind the working directory or an open directory. -/
def Lookup.whole (l : Lookup) : Option Path :=
  if l.name.head? = some separator ∨ l.dirfd = AT_FDCWD then some (a.fullPath l.name)
  else (a.table.handle l.dirfd).bind fun h =>
    if l.OfDescriptor ∨ h.target = .file then none
    else some (site.mountdir.path ++ h.path ++ separator :: l.name)

def Lookup.meaning (l : Lookup) : Meaning :=
  match l.whole site a with
  | some path => meaningOf (located site.os site.mountdir path l.follow)
  | none =>
    match a.table.handle l.dirfd with
    | none => .kernel
    | some h => if l.OfDescriptor then meaningOf (canonicalOf (words separator h.path)) else .notDir

/-- What the system calls of a change of the directory come to. -/
def changeErr (sys : Sys) (mountdir path : Path) (internal : Bool) : Int32 :=
  if sys.chdir (if internal then mountdir else path) ≠ 0 then sys.chdir (if internal then mountdir else path)
  else if internal then sys.setenv path else sys.unsetenv

def Account.enter (sys : Sys) (cwd : List Bytes) (internal : Bool) : Reply × Account :=
  let err := changeErr sys site.mountdir.path (joined separator cwd) internal
  (.changed (some (-err)), if err = 0 then { a with cwd := cwd } else a)

/-- To a directory of GaoFS or to one of the kernel's. -/
def changeDir (path : Path) (sys : Sys) : Reply × Account :=
  match located site.os site.mountdir (a.fullPath path) true with
  | some p =>
    match t.checkDir p.path with
    | .error e => (.changed (some (-e)), a)
    | .ok _ => a.enter site sys (site.mountdir.components ++ p.components) true
  | none =>
    match destination site.os site.mountdir.components (a.fullPath path) true with
    | some q => a.enter site sys q.components false
    | none => (.ended, a)

def changeToOpen (fd : UInt32) (sys : Sys) : Reply × Account :=
  match a.table.handle fd.toInt32 with
  | some ⟨path, .directory, _⟩ => a.enter site sys (site.mountdir.components ++ words separator path) true
  | some ⟨_, .file, _⟩ => (.changed (some (-EBADF)), a)
  | none => (.changed (some 0), { a with cwd := words separator (sys.getcwd.getD []) })

/-- The next entries of a directory from a position on, as many as there is room for, but at least one. -/
structure Delivers (entries : List (Bytes × FileType)) (pos : Nat) (call : Getdents.Call) (r : Getdents.Reply) :
    Prop where
  names : (r.records call.layout).map Rec.name =
    ((entries.drop pos).take (r.records call.layout).length).map Prod.fst
  ended : r.ret = 0 ↔ entries.length ≤ pos
  refused : r.ret < 0 ↔ ∃ e, entries[pos]? = some e ∧ call.buf.length < call.layout.totalSize e.1
  einval : r.ret < 0 → r.errno = some EINVAL
  brings : 0 < r.ret → r.records call.layout ≠ []

/-- The entries behind a descriptor. -/
def Account.listed (fd : Int32) : List (Bytes × FileType) := ((a.table.fds fd).map a.entries).getD []

/-- What a call of GaoFS does. -/
noncomputable def through (call : Sessions.Call) (r : Sessions.Reply) (listed : List (Bytes × FileType)) :
    FileTree × Account :=
  let out := Sessions.next t a.table call r
  (out.1, {
    table := out.2
    entries := match call, r with
      | .openAt _ _ _ _ _, .fd (some (.ok _)) => Function.update a.entries a.table.handles.length listed
      | _, _ => a.entries
    cwd := a.cwd })

/-- The reply to a call of GaoFS. An open of a directory reads the entries that the directory has. -/
def AnswersGaofs (call : Sessions.Call) (r : Sessions.Reply) (listed : List (Bytes × FileType)) : Prop :=
  Sessions.Answers t a.table site.d call r ∧ match call with
    | .openAt p mode flags _ _ => (t.openAt p.path mode flags).1 = .ok .directory → t.Lists p.path listed
    | _ => True

/-- A name is of the file system or of the kernel, where it is relative to. -/
noncomputable def next : Call → Reply → FileTree × Account
  | .name call, reply =>
    match call.lookup with
    | some l =>
      match l.meaning site a, reply with
      | .gaofs p, .gaofs r listed => through t a (l.op.call site p) r listed
      | _, _ => (t, a)
    | none => (t, a)
  | .chdir path sys, _ => (t, (changeDir site t a path sys).2)
  | .fchdir fd sys, _ => (t, (changeToOpen site a fd sys).2)
  | .getcwd _, _ => (t, a)
  | .getdents fd call, .dents r =>
    match a.table.handle fd.toInt32 with
    | some h => (t, { a with table := a.table.move fd.toInt32 (h.pos + (r.records call.layout).length) })
    | none => (t, a)
  | .getdents _ _, _ => (t, a)
  | .gaofs call, .gaofs r listed => through t a call r listed
  | .gaofs _, _ => (t, a)

/-- The reply to a call is that of the file system, of the open files and of the working directory. -/
def Answers : Call → Reply → Prop
  | .name call, reply =>
    match call.lookup with
    | none => reply = .refused EINVAL
    | some l =>
      match l.meaning site a with
      | .kernel => reply = .kernel
      | .notDir => reply = .refused ENOTDIR
      | .gaofs p => ∃ r listed, reply = .gaofs r listed ∧ AnswersGaofs site t a (l.op.call site p) r listed
  | .chdir path sys, reply => reply = (changeDir site t a path sys).1
  | .fchdir fd sys, reply => reply = (changeToOpen site a fd sys).1
  | .getcwd size, reply =>
    reply = if size.toNat < (joined separator a.cwd).length + 1 then .refused ERANGE
      else .cwd (Int32.ofNat ((joined separator a.cwd).length + 1)) (joined separator a.cwd ++ [0])
  | .getdents fd call, reply =>
    match a.table.handle fd.toInt32 with
    | none => reply = .kernel
    | some ⟨_, .file, _⟩ => reply = .refused EBADF
    | some ⟨_, .directory, pos⟩ => ∃ r, reply = .dents r ∧ Delivers (a.listed fd.toInt32) pos call r
  | .gaofs call, reply => ∃ r listed, reply = .gaofs r listed ∧ AnswersGaofs site t a call r listed

/-- A path that the resolver can hold. -/
structure Short (path : Path) : Prop where
  clean : 0 ∉ path
  length_lt : path.length + PATH_MAX < 2 ^ 32

/-- An empty name comes with the flag for the descriptor itself, and a name behind a descriptor comes
without: the client looks at the flag alone. -/
def Lookup.Flagged (l : Lookup) : Prop :=
  (l.name = [] → l.flags &&& AT_EMPTY_PATH ≠ 0) ∧
    (l.name ≠ [] → l.flags &&& AT_EMPTY_PATH = 0 ∨ l.name.head? = some separator ∨ l.dirfd = AT_FDCWD)

/-- It does not matter for a path whether the hook follows a link at its end, if the call does not ask for
the same. -/
def Lookup.Agrees (l : Lookup) (path : Path) : Prop :=
  located site.os site.mountdir path l.resolveLastLink = located site.os site.mountdir path l.follow

/-- A path that is short, and on which hook and call agree. -/
def Lookup.Fits (l : Lookup) : Prop := ∀ path ∈ l.whole site a, Short path ∧ l.Agrees site path

/-- Calls of which the paths are short and which are allowed on the paths that they are about. Files are opened
by name. A directory of the kernel that a process goes to is there and is not the root. The entries of a
directory fit into records and can be counted. -/
def Allowed (P : PathSet) (cl : Cluster) (c : Program) : Call → Prop
  | .name call => ∀ l ∈ call.lookup, l.Flagged ∧ l.Fits site a ∧
      ∀ p, l.meaning site a = .gaofs p → Sessions.Allowed site.d P cl c.proc t a.table (l.op.call site p)
  | .chdir path _ => path ≠ [] ∧ Short (a.fullPath path) ∧
      (located site.os site.mountdir (a.fullPath path) true = none → isExcluded (a.fullPath path) = false ∧
        ∃ q, destination site.os site.mountdir.components (a.fullPath path) true = some q ∧ q.components ≠ [])
  | .fchdir fd sys => a.table.handle fd.toInt32 = none → sys.fchdir fd.toInt32 = 0 ∧ sys.unsetenv = 0 ∧
      ∃ cwd : FilePath, sys.getcwd = some cwd.path
  | .getcwd _ => True
  | .getdents fd call => (a.listed fd.toInt32).length ≤ 2 ^ 32 ∧
      ∀ e ∈ a.listed fd.toInt32, call.layout.totalSize e.1 ≤ 65535
  | .gaofs call => match call with
    | .openAt _ _ _ _ _ => False
    | call => Sessions.Allowed site.d P cl c.proc t a.table call

/-- The process is where its account says. -/
structure Keeps (c : Program) (a : Account) : Prop where
  opens : HasOpen c.proc a.table
  entries : c.entries = a.entries
  clean : ∀ k, ∀ e ∈ a.entries k, 0 ∉ e.1
  cwd : c.cwd = joined separator a.cwd
  valid : ∀ w ∈ a.cwd, Component w
  cwd_ne : a.cwd ≠ []

end Spec

section Names

variable {site : Site} {t : FileTree} {cl : Cluster} {c : Program} {a : Account}

theorem Keeps.isWord (h : Keeps c a) : ∀ w ∈ a.cwd, IsWord separator w := fun w hw =>
  isWord_component (h.valid w hw)

theorem Keeps.prependPath (h : Keeps c a) {name : Path} (hname : name.head? ≠ some separator) :
    Relativize.prependPath (c.ctx site.mountdir).cwd name = some (a.fullPath name) := by
  have hslash : hasTrailingSlash (joined separator a.cwd) = false := hasTrailingSlash_joined h.isWord
  have hcwd : (c.ctx site.mountdir).cwd = joined separator a.cwd := h.cwd
  rw [hcwd, Relativize.prependPath, hslash, if_neg Bool.false_ne_true, Account.fullPath, if_neg hname]

theorem fullPath_absolute {name : Path} (hname : name.head? = some separator) : a.fullPath name = name := if_pos hname

theorem isAbsolute_of_head {name : Path} (hname : name.head? = some separator) : isAbsolute name = true := by
  cases name with
  | nil => cases hname
  | cons x xs =>
    obtain rfl := Option.some.inj hname
    exact (isAbsolute_iff _).mpr ⟨xs, rfl⟩

theorem Keeps.isAbsolute (h : Keeps c a) (name : Path) : ChunkStorage.isAbsolute (a.fullPath name) = true := by
  rw [Account.fullPath]
  split
  · exact isAbsolute_of_head ‹_›
  · obtain ⟨w, ws, hcwd⟩ := List.exists_cons_of_ne_nil h.cwd_ne
    rw [hcwd]
    exact (isAbsolute_iff _).mpr ⟨_, rfl⟩

/-- What the hooks on paths read of an open file. -/
inductive Shows : Opened → Handle → Prop
  | file (path : Path) (flags : UInt32) (pos : Nat) : Shows (.file path flags) ⟨path, .file, pos⟩
  | dir (path : Path) (entries : List (Bytes × FileType)) (pos : Nat) :
    Shows (.dir path entries) ⟨path, .directory, pos⟩

variable (site) in
theorem Keeps.ctx_cases (h : Keeps c a) (fd : Int32) :
    ((c.ctx site.mountdir).fileMap.get fd = none ∧ a.table.handle fd = none) ∨
      ∃ o x, (c.ctx site.mountdir).fileMap.get fd = some o ∧ a.table.handle fd = some x ∧ Shows o x ∧
        ∃ q : CanonicalPath, q.path = x.path := by
  have hget : (c.ctx site.mountdir).fileMap.get fd = (a.table.fds fd).map c.opened := by
    rw [← h.opens.get]
    exact get_map c.opened c.proc.fileMap fd
  obtain ⟨hnone, hnone'⟩ | ⟨k, f, x, hf, hx, hfd, hopen⟩ := h.opens.file_cases fd
  · refine .inl ⟨?_, hnone'⟩
    rw [hget]
    cases hfd : a.table.fds fd with
    | none => rfl
    | some k =>
      rw [FileTable.handle, hfd, Option.bind_some, List.getElem?_eq_getElem (h.opens.valid fd k hfd)] at hnone'
      cases hnone'
  · rw [hfd, Option.map_some] at hget
    refine .inr ⟨_, x, hget, hx, ?_, hopen.canonical⟩
    have hk : c.proc.files[k]? = some f := by
      rw [Process.file, h.opens.get, hfd, Option.bind_some] at hf
      obtain ⟨f', hf', heq⟩ := Option.map_eq_some_iff.mp hf
      exact hf'.trans (congrArg some (Prod.mk.inj heq).2)
    obtain ⟨path, target, pos⟩ := x
    have hpath : f.path = path := hopen.path
    rw [Program.opened, hk]
    dsimp only
    cases target with
    | directory =>
      rw [if_pos (hopen.directory.mpr rfl), hpath]
      exact .dir path (c.entries k) pos
    | file =>
      rw [if_neg (regular_of_file hopen), hpath]
      exact .file path f.flags pos

/-- What the client makes of a name. -/
def Lookup.found (site : Site) (c : Program) (l : Lookup) : Option (RelativizeStatus × Path) :=
  relativizeFdPath site.os (c.ctx site.mountdir) l.dirfd l.name l.flags l.resolveLastLink

/-- A path without a descriptor is looked up from the working directory. -/
theorem found_atCwd (site : Site) (c : Program) (path : Path) (resolveLastLink follow : Bool) (op : PathOp) :
    statusOf (relativizePath site.os (c.ctx site.mountdir) path resolveLastLink) =
      Lookup.found site c ⟨AT_FDCWD, path, 0, resolveLastLink, follow, op⟩ := by
  rw [Lookup.found, relativizeFdPath, relativizePath]
  by_cases hhead : path.head? = some separator
  · rw [if_neg (not_not_intro hhead), if_neg (not_not_intro hhead)]
    rfl
  · rw [if_pos hhead, if_pos hhead, if_pos rfl]
    cases Relativize.prependPath (c.ctx site.mountdir).cwd path <;> rfl

theorem hookLstat_eq (site : Site) (cl : Cluster) (c : Program) (path : Path) (fuel : Nat) :
    hookLstat site cl c path fuel =
      route site cl c (statusOf (relativizePath site.os (c.ctx site.mountdir) path true)) (.stat fuel) := by
  rw [hookLstat, SymlinkHooks.hookLstat]
  obtain _ | ⟨_ | _, relative⟩ := relativizePath site.os (c.ctx site.mountdir) path true
  · rfl
  · rfl
  · rfl

/-- Flags that the hook knows choose between a directory and a file. -/
theorem hookUnlinkat_eq (site : Site) (cl : Cluster) (c : Program) (dirfd : Int32) (cpath : Path) {flags : Int32}
    (mem : UInt64 → Bytes) (hflags : flags &&& ~~~AT_REMOVEDIR = 0) :
    hookUnlinkat site cl c dirfd cpath flags mem =
      route site cl c (relativizeFdPath site.os (c.ctx site.mountdir) dirfd cpath 0 true)
        (if flags &&& AT_REMOVEDIR ≠ 0 then .rmdir mem else .remove) := by
  rw [hookUnlinkat, SymlinkHooks.hookUnlinkat, if_neg (not_not_intro hflags)]
  obtain _ | ⟨status, path⟩ := relativizeFdPath site.os (c.ctx site.mountdir) dirfd cpath 0 true
  · rfl
  cases status with
  | internal =>
    rw [Option.map_some]
    dsimp only
    by_cases hdir : flags &&& AT_REMOVEDIR ≠ 0
    · rw [if_pos hdir, if_pos hdir]
      rfl
    · rw [if_neg hdir, if_neg hdir]
      rfl
  | _ => rfl

theorem hook_eq (site : Site) (cl : Cluster) (c : Program) (call : NameCall) :
    call.hook site cl c = match call.lookup with
      | some l => route site cl c (l.found site c) l.op
      | none => (.refused EINVAL, cl, c) := by
  cases call with
  | stat path fuel =>
    rw [NameCall.hook, hookStat, found_atCwd site c path false true (.stat fuel)]
    rfl
  | lstat path fuel =>
    rw [NameCall.hook, hookLstat_eq, found_atCwd site c path true false (.stat fuel)]
    rfl
  | access path fuel =>
    rw [NameCall.hook, hookAccess, found_atCwd site c path true true (.access fuel)]
    rfl
  | unlinkat dirfd cpath flags mem =>
    by_cases hflags : flags &&& ~~~AT_REMOVEDIR = 0
    · rw [NameCall.hook, hookUnlinkat_eq site cl c dirfd cpath mem hflags, NameCall.lookup,
        if_neg (not_not_intro hflags)]
      rfl
    · rw [NameCall.hook, hookUnlinkat, SymlinkHooks.hookUnlinkat, if_pos hflags, NameCall.lookup, if_pos hflags]
      rfl
  | _ => rfl

theorem means_whole (hplain : Plain site.os site.mountdir.components) {l : Lookup}
    (hfits : l.Fits site a) {path : Path} (hwhole : l.whole site a = some path)
    (habsolute : ChunkStorage.isAbsolute path = true) :
    Means (resolveStatus site.os (c.ctx site.mountdir) path l.resolveLastLink) (l.meaning site a) := by
  obtain ⟨⟨hclean, hlength⟩, hagrees⟩ := hfits path hwhole
  rw [Lookup.meaning, hwhole]
  dsimp only
  rw [← hagrees]
  exact means_resolve hplain habsolute hclean hlength

/-- A name behind a descriptor is behind the open directory, or is the open file itself. -/
theorem means_behind (hplain : Plain site.os site.mountdir.components) (h : Keeps c a) {l : Lookup}
    (hflagged : l.Flagged) (hfits : l.Fits site a) (hhead : l.name.head? ≠ some separator)
    (hcwd : l.dirfd ≠ AT_FDCWD) : Means (l.found site c) (l.meaning site a) := by
  have hself : l.OfDescriptor ↔ l.flags &&& AT_EMPTY_PATH ≠ 0 := by
    refine ⟨fun h => h.2, fun hflag => ⟨by_contra fun hname => ?_, hflag⟩⟩
    obtain hzero | habsolute | hworking := hflagged.2 hname
    · exact hflag hzero
    · exact hhead habsolute
    · exact hcwd hworking
  have hwhole : l.whole site a = (a.table.handle l.dirfd).bind fun h =>
      if l.OfDescriptor ∨ h.target = .file then none
      else some (site.mountdir.path ++ h.path ++ separator :: l.name) :=
    if_neg (not_or.mpr ⟨hhead, hcwd⟩)
  rw [Lookup.found, relativizeFdPath, if_pos hhead, if_neg hcwd]
  obtain ⟨hget, hhandle⟩ | ⟨o, x, hget, hhandle, hshows, q, hq⟩ := h.ctx_cases site l.dirfd
  · rw [hhandle] at hwhole
    rw [hget, Lookup.meaning, hwhole, hhandle]
    exact .unknown []
  rw [hhandle, Option.bind_some] at hwhole
  rw [hget]
  dsimp only
  by_cases hempty : l.flags &&& AT_EMPTY_PATH ≠ 0
  · rw [if_pos (.inl (hself.mpr hempty))] at hwhole
    have hwords : words separator x.path = q.components := hq ▸ words_path q
    have hpath : Relativize.path o = q.path := by
      rw [hq]
      cases hshows <;> rfl
    rw [if_pos hempty, Lookup.meaning, hwhole, hhandle]
    dsimp only
    rw [if_pos (hself.mpr hempty), hwords, canonicalOf_eq q.valid, hpath]
    exact .gaofs q
  · rw [if_neg hempty, getDir, hget]
    cases hshows with
    | file path flags pos =>
      rw [if_pos (.inr rfl)] at hwhole
      rw [Lookup.meaning, hwhole, hhandle]
      dsimp only
      rw [if_neg (mt hself.mp hempty)]
      exact .notDir []
    | dir path entries pos =>
      rw [if_neg (not_or.mpr ⟨mt hself.mp hempty, FileTree.Target.noConfusion⟩)] at hwhole
      have habsolute : ChunkStorage.isAbsolute (site.mountdir.path ++ path ++ separator :: l.name) = true := by
        obtain ⟨w, ws, hmnt⟩ := List.exists_cons_of_ne_nil site.mountdir.components_ne
        rw [path_eq_joined, hmnt]
        exact (isAbsolute_iff _).mpr ⟨_, rfl⟩
      exact means_whole hplain hfits hwhole habsolute

/-- The client takes a name for what it means. -/
theorem means_lookup (hplain : Plain site.os site.mountdir.components) (h : Keeps c a) {l : Lookup}
    (hflagged : l.Flagged) (hfits : l.Fits site a) : Means (l.found site c) (l.meaning site a) := by
  by_cases hhead : l.name.head? = some separator
  · have hwhole : l.whole site a = some l.name := by
      rw [Lookup.whole, if_pos (.inl hhead), fullPath_absolute hhead]
    rw [Lookup.found, relativizeFdPath, if_neg (not_not_intro hhead)]
    exact means_whole hplain hfits hwhole (isAbsolute_of_head hhead)
  by_cases hcwd : l.dirfd = AT_FDCWD
  · rw [Lookup.found, relativizeFdPath, if_pos hhead, if_pos hcwd, h.prependPath hhead, Option.bind_some]
    exact means_whole hplain hfits (if_pos (.inr hcwd)) (h.isAbsolute _)
  · exact means_behind hplain h hflagged hfits hhead hcwd

end Names

section Calls

variable {site : Site} {P : PathSet} {t : FileTree} {cl : Cluster} {c : Program} {a : Account}

variable (site P t cl c a) in
/-- A call takes its process to where the file system and its account go, and its reply is theirs. -/
structure Follows (call : Call) : Prop where
  refines : Refines site.d P (perform site cl c call).2.1 (next site t a call (perform site cl c call).1).1
  keeps : Keeps (perform site cl c call).2.2 (next site t a call (perform site cl c call).1).2
  answers : Answers site t a call (perform site cl c call).1

theorem follows_of {call : Call} {reply : Reply} {cl' : Cluster} {c' : Program} {t' : FileTree} {a' : Account}
    (hperform : perform site cl c call = (reply, cl', c')) (hnext : next site t a call reply = (t', a'))
    (h : Refines site.d P cl' t') (hk : Keeps c' a') (hanswers : Answers site t a call reply) :
    Follows site P t cl c a call where
  refines := by
    rw [hperform, hnext]
    exact h
  keeps := by
    rw [hperform, hnext]
    exact hk
  answers := by
    rw [hperform]
    exact hanswers

theorem Keeps.withProc (h : Keeps c a) {proc : Process} {table : FileTable} (hopens : HasOpen proc table) :
    Keeps { c with proc := proc } { a with table := table } :=
  ⟨hopens, h.entries, h.clean, h.cwd, h.valid, h.cwd_ne⟩

variable (site P t a) in
/-- A call of GaoFS, with what the hook for it comes to. -/
inductive Serves (call : Sessions.Call) : Reply × Cluster × Program → Prop
  | mk {r : Sessions.Reply} {listed : List (Bytes × FileType)} {cl' : Cluster} {c' : Program}
      (refines : Refines site.d P cl' (through t a call r listed).1) (keeps : Keeps c' (through t a call r listed).2)
      (answers : AnswersGaofs site t a call r listed) : Serves call (.gaofs r listed, cl', c')

theorem serves_call (h : Refines site.d P cl t) (hk : Keeps c a) {call : Sessions.Call}
    (hcall : Sessions.Allowed site.d P cl c.proc t a.table call)
    (hopen : ∀ p mode flags mem fuel, call ≠ .openAt p mode flags mem fuel) :
    Serves site P t a call (c.after (Sessions.perform site.d cl c.proc call)) := by
  obtain ⟨hnext, hopens, hanswers⟩ := Sessions.follows h hk.opens hcall
  have hthrough : ∀ r, through t a call r [] =
      ((Sessions.next t a.table call r).1, { a with table := (Sessions.next t a.table call r).2 }) := fun r => by
    cases call with
    | openAt p mode flags mem fuel => exact absurd rfl (hopen p mode flags mem fuel)
    | _ => rfl
  have hlists : AnswersGaofs site t a call (Sessions.perform site.d cl c.proc call).1 [] := by
    refine ⟨hanswers, ?_⟩
    cases call with
    | openAt p mode flags mem fuel => exact absurd rfl (hopen p mode flags mem fuel)
    | _ => trivial
  refine .mk ?_ ?_ hlists
  · rw [hthrough]
    exact hnext
  · rw [hthrough]
    exact hk.withProc hopens

/-- The names of entries have no zero byte. -/
theorem clean_of_lists (h : Refines site.d P cl t) {path : Path} (hpath : ChunkStorage.isAbsolute path = true)
    {entries : List (Bytes × FileType)} (hlists : t.Lists path entries) : ∀ e ∈ entries, 0 ∉ e.1 := by
  rintro ⟨name, type⟩ he hzero
  obtain ⟨n, hn, -⟩ := (hlists.mem name type).mp he
  have hchild := (h.child_iff hpath).mpr ⟨n, hn, rfl⟩
  rw [← h.inv.mem_children hpath, Listing.children, List.mem_flatMap] at hchild
  obtain ⟨k, -, hvisited⟩ := hchild
  exact absurd ((h.inv.listed_at hpath hvisited).1 0 hzero) (by decide)

theorem serves_open (h : Refines site.d P cl t) (hk : Keeps c a) {p : CanonicalPath} {mode flags : UInt32}
    {mem : UInt64 → Bytes} {fuel : Nat}
    (hcall : Sessions.Allowed site.d P cl c.proc t a.table (.openAt p mode flags mem fuel)) :
    Serves site P t a (.openAt p mode flags mem fuel) (openPath site cl c p.path mode flags mem fuel) := by
  obtain ⟨hnext, hopens, hanswers⟩ := Sessions.follows h hk.opens hcall
  obtain ⟨⟨hp, hroom, htrunc⟩, hgen⟩ := hcall
  obtain ⟨⟨r, hret, hr⟩, -⟩ := h.gaofsOpen_spec hp hroom mode htrunc mem fuel
  -- an open that succeeds, with the entries that it has read
  have hopened : ∀ (opened : Opened) (f : FileSizes.OpenFile), r = .ok opened → openFile opened = some f →
      ((t.openAt p.path mode flags).1 = .ok .directory → t.Lists p.path (entriesOf opened)) →
      (∀ e ∈ entriesOf opened, 0 ∉ e.1) →
      Serves site P t a (.openAt p mode flags mem fuel) (openPath site cl c p.path mode flags mem fuel) := by
    intro opened f hr hf hlists hclean
    obtain ⟨fd, hfd, -⟩ := hk.opens.add hgen c.proc.files.length
    have hperform : Sessions.perform site.d cl c.proc (.openAt p mode flags mem fuel) = (.fd (some (.ok fd)),
        (gaofsOpen site.d mem mode flags (fuel + 1) p.path cl).2,
        ⟨(c.proc.fileMap.add c.proc.files.length).2, c.proc.files ++ [f]⟩) := by
      simp only [Sessions.perform, hret, hr, hf, hfd, Option.map_some]
    have hopen : openPath site cl c p.path mode flags mem fuel = (.gaofs (.fd (some (.ok fd))) (entriesOf opened),
        (gaofsOpen site.d mem mode flags (fuel + 1) p.path cl).2,
        { c with
          proc := ⟨(c.proc.fileMap.add c.proc.files.length).2, c.proc.files ++ [f]⟩
          entries := Function.update c.entries c.proc.files.length (entriesOf opened) }) := by
      simp only [openPath, hret, hr, hf, hfd, Option.map_some]
    rw [hperform] at hnext hopens hanswers
    rw [hopen]
    refine .mk hnext ⟨hopens, ?_, fun k e he => ?_, hk.cwd, hk.valid, hk.cwd_ne⟩ ⟨hanswers, hlists⟩
    · change Function.update c.entries c.proc.files.length _ = Function.update a.entries a.table.handles.length _
      rw [hk.entries, hk.opens.length]
    · change e ∈ Function.update a.entries a.table.handles.length (entriesOf opened) k at he
      by_cases hlast : k = a.table.handles.length
      · rw [hlast, Function.update_self] at he
        exact hclean e he
      · rw [Function.update_of_ne hlast] at he
        exact hk.clean k e he
  generalize htarget : (t.openAt p.path mode flags).1 = result at hr
  cases hr with
  | error e =>
    have hperform : Sessions.perform site.d cl c.proc (.openAt p mode flags mem fuel) = (.fd (some (.error e)),
        (gaofsOpen site.d mem mode flags (fuel + 1) p.path cl).2, c.proc) := by
      simp only [Sessions.perform, hret]
    have hopen : openPath site cl c p.path mode flags mem fuel = (.gaofs (.fd (some (.error e))) [],
        (gaofsOpen site.d mem mode flags (fuel + 1) p.path cl).2, c) := by
      simp only [openPath, hret]
    rw [hperform] at hnext hopens hanswers
    rw [hopen]
    refine .mk hnext (hk.withProc hopens) ⟨hanswers, fun hdir => ?_⟩
    rw [htarget] at hdir
    cases hdir
  | file =>
    refine hopened _ ⟨.regular, p.path, flags, 0, FileTree.openAt_noAppend htarget⟩ rfl
      (dif_pos (FileTree.openAt_noAppend htarget)) (fun hdir => ?_) fun e he => absurd he List.not_mem_nil
    rw [htarget] at hdir
    cases hdir
  | directory hlists =>
    exact hopened _ ⟨.directory, p.path, 0, 0, zero_noAppend⟩ rfl rfl (fun _ => hlists)
      (clean_of_lists h (isAbsolute_path p) hlists)

/-- For a path of GaoFS a hook does what the call on it does. -/
theorem serves_run (h : Refines site.d P cl t) (hk : Keeps c a) {p : CanonicalPath} {op : PathOp}
    (hcall : Sessions.Allowed site.d P cl c.proc t a.table (op.call site p)) :
    Serves site P t a (op.call site p) (op.run site cl c p.path) := by
  cases op with
  | openAt mode flags mem fuel => exact serves_open h hk hcall
  | _ => exact serves_call h hk hcall fun _ _ _ _ _ => Sessions.Call.noConfusion

theorem follows_gaofs (h : Refines site.d P cl t) (hk : Keeps c a) {call : Sessions.Call}
    (hcall : Allowed site t a P cl c (.gaofs call)) : Follows site P t cl c a (.gaofs call) := by
  have hserves : Serves site P t a call (perform site cl c (.gaofs call)) := by
    cases call with
    | openAt => exact hcall.elim
    | _ => exact serves_call h hk hcall fun _ _ _ _ _ => Sessions.Call.noConfusion
  generalize hperform : perform site cl c (.gaofs call) = out at hserves
  cases hserves with
  | mk hrefines hkeeps hanswers => exact follows_of hperform rfl hrefines hkeeps ⟨_, _, rfl, hanswers⟩

theorem follows_name (hplain : Plain site.os site.mountdir.components) (h : Refines site.d P cl t) (hk : Keeps c a)
    {call : NameCall} (hcall : Allowed site t a P cl c (.name call)) : Follows site P t cl c a (.name call) := by
  have hhook : perform site cl c (.name call) = _ := hook_eq site cl c call
  cases hlookup : call.lookup with
  | none =>
    rw [hlookup] at hhook
    refine follows_of hhook ?_ h hk ?_
    · rw [next, hlookup]
    · rw [Answers, hlookup]
  | some l =>
    obtain ⟨hflagged, hfits, hallowed⟩ := hcall l hlookup
    have hmeans := means_lookup hplain hk hflagged hfits
    rw [hlookup] at hhook
    dsimp only at hhook
    generalize hfound : l.found site c = found at hmeans hhook
    generalize hmeaning : l.meaning site a = meaning at hmeans hallowed
    cases hmeans with
    | gaofs p =>
      have hserves := serves_run h hk (hallowed p rfl)
      have hperform : perform site cl c (.name call) = l.op.run site cl c p.path := hhook
      generalize l.op.run site cl c p.path = out at hserves hperform
      cases hserves with
      | mk hrefines hkeeps hanswers =>
        refine follows_of hperform ?_ hrefines hkeeps ?_
        · simp only [next, hlookup, hmeaning]
        · simp only [Answers, hlookup, hmeaning]
          exact ⟨_, _, rfl, hanswers⟩
    | external path =>
      refine follows_of hhook ?_ h hk ?_
      · simp only [next, hlookup, hmeaning]
      · simp only [Answers, hlookup, hmeaning]
    | unknown path =>
      refine follows_of hhook ?_ h hk ?_
      · simp only [next, hlookup, hmeaning]
      · simp only [Answers, hlookup, hmeaning]
    | notDir path =>
      refine follows_of hhook ?_ h hk ?_
      · simp only [next, hlookup, hmeaning]
      · simp only [Answers, hlookup, hmeaning]

theorem changeCwd_eq (sys : Sys) (ctx : PreloadContext) (path : Path) (internal : Bool) :
    changeCwd sys ctx path internal =
      (some (-changeErr sys ctx.mountdir.path path internal),
        if changeErr sys ctx.mountdir.path path internal = 0 then
          { ctx with cwd := path, envCwd := if internal then some path else none }
        else ctx) := by
  rw [changeCwd, setCwd, changeErr]
  by_cases hchdir : sys.chdir (if internal then ctx.mountdir.path else path) = 0
  · rw [if_neg (not_not_intro hchdir), if_neg (not_not_intro hchdir)]
    by_cases henv : (if internal then sys.setenv path else sys.unsetenv) = 0
    · rw [if_neg (not_not_intro henv), if_pos henv, henv]
    · rw [if_pos henv, if_neg henv]
  · rw [if_pos hchdir, if_pos hchdir, if_neg hchdir]

variable (site) in
/-- The directory of a process changes where that of its account does. -/
theorem inDir_changeCwd (cl : Cluster) (hk : Keeps c a) (sys : Sys) {cwd : List Bytes}
    (hvalid : ∀ w ∈ cwd, Component w) (hne : cwd ≠ []) (internal : Bool) :
    ∃ c', c.inDir cl (changeCwd sys (c.ctx site.mountdir) (joined separator cwd) internal) =
        ((a.enter site sys cwd internal).1, cl, c') ∧ Keeps c' (a.enter site sys cwd internal).2 := by
  rw [changeCwd_eq, Account.enter]
  refine ⟨_, rfl, ?_⟩
  have hmountdir : (c.ctx site.mountdir).mountdir = site.mountdir := rfl
  rw [hmountdir]
  by_cases herr : changeErr sys site.mountdir.path (joined separator cwd) internal = 0
  · simp only [if_pos herr]
    exact ⟨hk.opens, hk.entries, hk.clean, rfl, hvalid, hne⟩
  · simp only [if_neg herr]
    exact hk

variable (site) in
theorem inDir_below (cl : Cluster) (hk : Keeps c a) (sys : Sys) (p : CanonicalPath) :
    ∃ c', c.inDir cl (changeCwd sys (c.ctx site.mountdir)
          (joined separator (site.mountdir.components ++ p.components)) true) =
        ((a.enter site sys (site.mountdir.components ++ p.components) true).1, cl, c') ∧
      Keeps c' (a.enter site sys (site.mountdir.components ++ p.components) true).2 := by
  refine inDir_changeCwd site cl hk sys (fun w hw => ?_) (fun hnil => ?_) true
  · exact (List.mem_append.mp hw).elim (site.mountdir.valid w) (p.valid w)
  · exact site.mountdir.components_ne (List.append_eq_nil_iff.mp hnil).1

variable (site) in
theorem relativizePath_eq (hk : Keeps c a) (path : Path) :
    relativizePath site.os (c.ctx site.mountdir) path true =
      resolve site.os site.mountdir.path (a.fullPath path) true := by
  rw [relativizePath]
  by_cases hhead : path.head? = some separator
  · rw [if_neg (not_not_intro hhead), fullPath_absolute hhead]
    rfl
  · rw [if_pos hhead, hk.prependPath hhead]
    rfl

/-- What the client does for a path of GaoFS depends on the directory there. -/
theorem hookChdir_inside (h : Refines site.d P cl t) {ctx : PreloadContext} {path : Path} {p : CanonicalPath}
    (sys : Sys) (hfound : relativizePath site.os ctx path true = some (true, p.path)) :
    hookChdir site.os site.d cl sys ctx path = match t.checkDir p.path with
      | .error e => (some (-e), ctx)
      | .ok _ => changeCwd sys ctx (joined separator (ctx.mountdir.components ++ p.components)) true := by
  rw [hookChdir, hfound]
  dsimp only
  rw [h.utilsGetMetadata_eq (isAbsolute_path p), FileTree.checkDir]
  cases t p.path with
  | none => rfl
  | some n =>
    dsimp only
    rw [mode_record]
    cases hdir : S_ISDIR n.mode with
    | false => rfl
    | true =>
      rw [if_neg Bool.noConfusion, insertMountdir_path]
      rfl

theorem changeDir_inside (t : FileTree) {path : Path} {p : CanonicalPath} (sys : Sys)
    (hlocated : located site.os site.mountdir (a.fullPath path) true = some p) :
    changeDir site t a path sys = match t.checkDir p.path with
      | .error e => (.changed (some (-e)), a)
      | .ok _ => a.enter site sys (site.mountdir.components ++ p.components) true := by
  rw [changeDir, hlocated]

theorem follows_chdir (hplain : Plain site.os site.mountdir.components) (h : Refines site.d P cl t) (hk : Keeps c a)
    {path : Path} {sys : Sys} (hcall : Allowed site t a P cl c (.chdir path sys)) :
    Follows site P t cl c a (.chdir path sys) := by
  obtain ⟨-, ⟨hclean, hlength⟩, hallowed⟩ := hcall
  have habsolute := hk.isAbsolute path
  have hfound := relativizePath_eq site hk path
  have hfits : ResolveLinks.Fits site.os site.mountdir.components (a.fullPath path) true :=
    fits_of_length hplain.targets hlength
  have hverdict := verdict_located hplain habsolute hclean hfits
  cases hlocated : located site.os site.mountdir (a.fullPath path) true with
  | some p =>
    have hinside : relativizePath site.os (c.ctx site.mountdir) path true = some (true, p.path) := by
      rw [hlocated, ← hfound] at hverdict
      generalize relativizePath site.os (c.ctx site.mountdir) path true = r at hverdict ⊢
      obtain _ | ⟨_ | _, relative⟩ := r
      · cases hverdict
      · cases hverdict
      · rw [show relative = p.path from Option.some.inj (Option.some.inj hverdict)]
    have hhook := hookChdir_inside h sys hinside
    have hchange := changeDir_inside t sys hlocated
    cases hdir : t.checkDir p.path with
    | error e =>
      rw [hdir] at hhook hchange
      refine follows_of (congrArg (c.inDir cl) hhook) rfl h ?_ ?_
      · rw [hchange]
        exact hk
      · rw [Answers, hchange]
    | ok u =>
      rw [hdir] at hhook hchange
      obtain ⟨c', hin, hkeeps⟩ := inDir_below site cl hk sys p
      refine follows_of ((congrArg (c.inDir cl) hhook).trans hin) rfl h ?_ ?_
      · rw [hchange]
        exact hkeeps
      · rw [Answers, hchange]
  | none =>
    obtain ⟨hincluded, q, hq, hne⟩ := hallowed hlocated
    obtain ⟨hresolve, hvalid⟩ := resolve_outside hplain habsolute hclean hlength hincluded hlocated hq hne
    have hhook : hookChdir site.os site.d cl sys (c.ctx site.mountdir) path =
        changeCwd sys (c.ctx site.mountdir) (joined separator q.components) false := by
      rw [hookChdir, hfound, hresolve]
    have hchange : changeDir site t a path sys = a.enter site sys q.components false := by
      rw [changeDir, hlocated, hq]
    obtain ⟨c', hin, hkeeps⟩ := inDir_changeCwd site cl hk sys hvalid hne false
    refine follows_of ((congrArg (c.inDir cl) hhook).trans hin) rfl h ?_ ?_
    · rw [hchange]
      exact hkeeps
    · rw [Answers, hchange]

theorem follows_fchdir (h : Refines site.d P cl t) (hk : Keeps c a) {fd : UInt32} {sys : Sys}
    (hcall : Allowed site t a P cl c (.fchdir fd sys)) : Follows site P t cl c a (.fchdir fd sys) := by
  obtain ⟨hget, hhandle⟩ | ⟨o, x, hget, hhandle, hshows, q, hq⟩ := hk.ctx_cases site fd.toInt32
  · obtain ⟨hfchdir, henv, cwd, hgetcwd⟩ := hcall hhandle
    have hhook : hookFchdir sys (c.ctx site.mountdir) fd =
        (some 0, { c.ctx site.mountdir with cwd := cwd.path, envCwd := none }) := by
      rw [hookFchdir, OpenFileMap.exist, hget, hfchdir, henv, hgetcwd]
      rfl
    have hwords : words separator cwd.path = cwd.components := words_path cwd.toCanonicalPath
    have hchange : changeToOpen site a fd sys = (.changed (some 0), { a with cwd := cwd.components }) := by
      rw [changeToOpen, hhandle, hgetcwd, Option.getD_some, hwords]
    refine follows_of (congrArg (c.inDir cl) hhook) rfl h ?_ ?_
    · rw [hchange]
      exact ⟨hk.opens, hk.entries, hk.clean, path_eq_joined cwd, cwd.valid, cwd.components_ne⟩
    · rw [Answers, hchange]
  · cases hshows with
    | file path flags pos =>
      have hhook : hookFchdir sys (c.ctx site.mountdir) fd = (some (-EBADF), c.ctx site.mountdir) := by
        rw [hookFchdir, OpenFileMap.exist, getDir, hget]
        rfl
      have hchange : changeToOpen site a fd sys = (.changed (some (-EBADF)), a) := by
        rw [changeToOpen, hhandle]
      refine follows_of (congrArg (c.inDir cl) hhook) rfl h ?_ ?_
      · rw [hchange]
        exact hk
      · rw [Answers, hchange]
    | dir path entries pos =>
      obtain rfl : q.path = path := hq
      have hwords : words separator q.path = q.components := words_path q
      have hhook : hookFchdir sys (c.ctx site.mountdir) fd = changeCwd sys (c.ctx site.mountdir)
          (joined separator (site.mountdir.components ++ q.components)) true := by
        rw [hookFchdir, OpenFileMap.exist, getDir, hget]
        change changeCwd sys (c.ctx site.mountdir) (insertMountdir (c.ctx site.mountdir) q.path) true = _
        rw [insertMountdir_path]
        rfl
      have hchange : changeToOpen site a fd sys =
          a.enter site sys (site.mountdir.components ++ q.components) true := by
        rw [changeToOpen, hhandle, ← hwords]
      obtain ⟨c', hin, hkeeps⟩ := inDir_below site cl hk sys q
      refine follows_of ((congrArg (c.inDir cl) hhook).trans hin) rfl h ?_ ?_
      · rw [hchange]
        exact hkeeps
      · rw [Answers, hchange]

theorem Keeps.clean_cwd (h : Keeps c a) : 0 ∉ joined separator a.cwd := fun hmem => by
  obtain ⟨w, hw, hb⟩ := List.mem_flatMap.mp hmem
  obtain hb | hb := List.mem_cons.mp hb
  · exact absurd hb (by decide)
  · exact (h.valid w hw).no_nul hb

theorem follows_getcwd (h : Refines site.d P cl t) (hk : Keeps c a) (size : UInt64) :
    Follows site P t cl c a (.getcwd size) := by
  refine follows_of rfl rfl h hk ?_
  rw [Answers, hookGetcwd, hk.cwd, StoredWrites.cString_of_clean hk.clean_cwd]

section Entries

variable {dir : OpenDir} {call : Getdents.Call} {pos : Nat}

theorem found_of_clean (hlength : dir.entries.length ≤ 2 ^ 32) (hclean : ∀ e ∈ dir.entries, 0 ∉ e.1) :
    Getdents.Found dir := fun i hi => by
  have he := List.getElem?_eq_getElem hi
  rw [Nat.mod_eq_of_lt (by omega), he]
  exact congrArg some (StoredWrites.cString_of_clean (hclean _ (List.getElem_mem hi)))

theorem names_from (h : Getdents.Found dir) {k : Nat} (hk : pos + k ≤ dir.entries.length) :
    (List.range' pos k).map (fun i => cString (dir.taken i).1) = ((dir.entries.drop pos).take k).map Prod.fst := by
  apply List.ext_getElem?
  intro i
  by_cases hi : i < k
  · have he : dir.entries[pos + i]? = some dir.entries[pos + i] := List.getElem?_eq_getElem (by omega)
    rw [List.getElem?_map, List.getElem?_map, List.getElem?_range' hi, Nat.one_mul, List.getElem?_take_of_lt hi,
      List.getElem?_drop, he]
    exact congrArg some (h.cString_eq he)
  · rw [List.getElem?_eq_none, List.getElem?_eq_none]
    · rw [List.length_map, List.length_take]
      omega
    · rw [List.length_map, List.length_range']
      omega

/-- Where the names are text and can be counted, a call delivers the next of them and goes on behind them. -/
theorem getdents_delivers (strHash : Bytes → UInt64) (hlength : dir.entries.length ≤ 2 ^ 32)
    (hclean : ∀ e ∈ dir.entries, 0 ∉ e.1) (hshort : ∀ e ∈ dir.entries, call.layout.totalSize e.1 ≤ 65535)
    (hpos : pos < 2 ^ 63) :
    ∃ r, Getdents.getdents strHash call.layout dir pos call.buf =
        some (r, pos + (r.records call.layout).length) ∧
      pos + (r.records call.layout).length < 2 ^ 63 ∧ Delivers dir.entries pos call r := by
  by_cases hle : pos ≤ dir.entries.length
  · obtain ⟨r, k, hr, hbrings⟩ := Getdents.getdents_brings strHash hle hshort
    have hfound := found_of_clean hlength hclean
    have hrecords : (r.records call.layout).length = k := by
      rw [hbrings.records, List.length_map, List.length_range']
    have hend := hbrings.le
    refine ⟨r, hrecords.symm ▸ hr, by omega, ?_, ?_, (hbrings.answers hfound).refused,
      fun hneg => (hbrings.einval hneg).1, fun hret hnil => ?_⟩
    · rw [hrecords, hbrings.records, List.map_map]
      exact names_from hfound hend
    · rw [hbrings.ended]
      omega
    · have hk := hbrings.brings hret
      rw [← hrecords, hnil] at hk
      exact absurd hk (Nat.lt_irrefl 0)
  · have hnot : ¬ (0 : Int) < 0 := by decide
    refine ⟨⟨0, none, call.buf⟩, if_pos (by omega), hpos, rfl, iff_of_true rfl (by omega),
      iff_of_false hnot ?_, fun hneg => absurd hneg hnot, fun hneg => absurd hneg hnot⟩
    rintro ⟨e, he, -⟩
    exact absurd (List.getElem?_eq_some_iff.mp he).1 (by omega)

end Entries

theorem follows_getdents (h : Refines site.d P cl t) (hk : Keeps c a) {fd : UInt32} {call : Getdents.Call}
    (hcall : Allowed site t a P cl c (.getdents fd call)) : Follows site P t cl c a (.getdents fd call) := by
  have hof : ∀ {reply c'}, hookGetdents site c fd call = (reply, c') →
      perform site cl c (.getdents fd call) = (reply, cl, c') := fun hhook => by rw [perform, hhook]
  obtain ⟨hnone, hnone'⟩ | ⟨k, f, ⟨path, target, pos⟩, hf, hx, hfd, hopen⟩ := hk.opens.file_cases fd.toInt32
  · have hhook : hookGetdents site c fd call = (.kernel, c) := by rw [hookGetdents, hnone]
    exact follows_of (hof hhook) rfl h hk (by rw [Answers, hnone'])
  cases target with
  | file =>
    have hhook : hookGetdents site c fd call = (.refused EBADF, c) := by
      rw [hookGetdents, hf]
      exact if_neg (regular_of_file hopen)
    exact follows_of (hof hhook) rfl h hk (by rw [Answers, hx])
  | directory =>
    obtain ⟨hlength, hshort⟩ := hcall
    have hlisted : a.listed fd.toInt32 = a.entries k := by rw [Account.listed, hfd, Option.map_some, Option.getD_some]
    rw [hlisted] at hlength hshort
    have hpos : f.pos.toNat = pos := hopen.pos
    obtain ⟨r, hr, hlt, hdelivers⟩ := @getdents_delivers ⟨f.path, a.entries k⟩ call pos site.d.strHash hlength
      (hk.clean k) hshort hopen.pos_lt
    have hhook : hookGetdents site c fd call = (.dents r, { c with
        proc := c.proc.setPos k (UInt64.ofNat (pos + (r.records call.layout).length)) }) := by
      rw [hookGetdents, hf]
      dsimp only
      rw [if_pos (hopen.directory.mpr rfl), hk.entries, hpos, hr]
    have hnext : next site t a (.getdents fd call) (.dents r) =
        (t, { a with table := a.table.move fd.toInt32 (pos + (r.records call.layout).length) }) := by
      rw [next, hx]
    refine follows_of (hof hhook) hnext h (hk.withProc (hk.opens.setPos hfd ?_ hlt)) ?_
    · rw [UInt64.toNat_ofNat', Nat.mod_eq_of_lt (hlt.trans (by decide))]
    · rw [Answers, hx]
      exact ⟨r, rfl, hlisted ▸ hdelivers⟩

/-- Whatever the call. -/
theorem follows (hplain : Plain site.os site.mountdir.components) (h : Refines site.d P cl t) (hk : Keeps c a)
    {call : Call} (hcall : Allowed site t a P cl c call) : Follows site P t cl c a call := by
  cases call with
  | name call => exact follows_name hplain h hk hcall
  | chdir path sys => exact follows_chdir hplain h hk hcall
  | fchdir fd sys => exact follows_fchdir h hk hcall
  | getcwd size => exact follows_getcwd h hk size
  | getdents fd call => exact follows_getdents h hk hcall
  | gaofs call => exact follows_gaofs h hk hcall

end Calls

section Run

variable {π : Type*} [DecidableEq π]

/-- Client processes and the daemons that they share. -/
structure System (π : Type*) where
  cl : Cluster
  prog : π → Program

def exec (site : Site) (s : System π) (e : π × Call) : Reply × System π :=
  let out := perform site s.cl (s.prog e.1) e.2
  (out.1, ⟨out.2.1, Function.update s.prog e.1 out.2.2⟩)

/-- The file system, and the account of each process. -/
structure Spec (π : Type*) where
  tree : FileTree
  account : π → Account

noncomputable def Spec.next (site : Site) (s : Spec π) (e : π × Call) (reply : Reply) : Spec π :=
  let out := Programs.next site s.tree (s.account e.1) e.2 reply
  ⟨out.1, Function.update s.account e.1 out.2⟩

/-- The processes with their daemons, and what they are to be. -/
noncomputable def step (site : Site) (s : System π × Spec π) (e : π × Call) : System π × Spec π :=
  ((exec site s.1 e).2, s.2.next site e (exec site s.1 e).1)

/-- The daemons hold what the file system has, and each process is where its account says. -/
structure Agree (site : Site) (P : PathSet) (s : System π) (a : Spec π) : Prop where
  refines : Refines site.d P s.cl a.tree
  keeps : ∀ p, Keeps (s.prog p) (a.account p)

/-- Daemons that have just started, and processes that start in directories of the kernel. -/
def System.started (roots : UInt64 → Bytes) (cwds : π → FilePath) : System π :=
  ⟨Listing.started roots, fun p => ⟨Process.start, fun _ => [], (cwds p).path, none⟩⟩

def Spec.init (cwds : π → FilePath) : Spec π :=
  ⟨FileTree.init, fun p => ⟨FileTable.init, fun _ => [], (cwds p).components⟩⟩

variable {site : Site} {P : PathSet}

theorem Agree.step {s : System π × Spec π} {e : π × Call} (hplain : Plain site.os site.mountdir.components)
    (h : Agree site P s.1 s.2) (hcall : Allowed site s.2.tree (s.2.account e.1) P s.1.cl (s.1.prog e.1) e.2) :
    Agree site P (step site s e).1 (step site s e).2 ∧
      Answers site s.2.tree (s.2.account e.1) e.2 (exec site s.1 e).1 := by
  obtain ⟨hnext, hkeeps, hanswers⟩ := follows hplain h.refines (h.keeps e.1) hcall
  have hprog : (Programs.step site s e).1.prog =
      Function.update s.1.prog e.1 (perform site s.1.cl (s.1.prog e.1) e.2).2.2 := rfl
  have haccount : (Programs.step site s e).2.account = Function.update s.2.account e.1
      (next site s.2.tree (s.2.account e.1) e.2 (perform site s.1.cl (s.1.prog e.1) e.2).1).2 := rfl
  refine ⟨⟨hnext, fun p => ?_⟩, hanswers⟩
  rw [hprog, haccount]
  by_cases hp : p = e.1
  · subst hp
    rw [Function.update_self, Function.update_self]
    exact hkeeps
  · rw [Function.update_of_ne hp, Function.update_of_ne hp]
    exact h.keeps p

/-- A link of the kernel, and the mount directory beside it. -/
def linkedSite : Site where
  os := oneLink (text "/l") (text "/d")
  mountdir := shortMount
  conf := ⟨false, false, false, false, false, 0, 0⟩
  d := twoHosts

def calm : Sys := ⟨fun _ => 0, fun _ => 0, none, fun _ => 0, 0⟩

theorem length_sampleBuf : (List.replicate 64 (0 : UInt8)).length ≤ 2147483647 := by decide

def sampleDents : Getdents.Call := ⟨.linuxDirent64, List.replicate 64 0, length_sampleBuf⟩

/-- One process goes to the mount directory and creates a file there that the other finds through the link,
by its name and in the directory. -/
def sampleCalls : List (Bool × Call) :=
  [(true, .chdir (text "/m") calm),
    (true, .name (.openat AT_FDCWD (text "f") (O_CREAT ||| O_RDWR) 0o644 (fun _ => []) 0)),
    (true, .getcwd 16),
    (false, .name (.lstat (text "/l/../m/./f") 0)),
    (false, .name (.access (text "m") 0)),
    (false, .name (.openat AT_FDCWD (text "/l/../m") 0 0 (fun _ => []) 0)),
    (false, .name (.fstatat 10000 [] AT_EMPTY_PATH 0)),
    (false, .getdents 10000 sampleDents)]

/-- Both processes start outside of GaoFS. -/
def homes (_ : Bool) : FilePath := plainFile

theorem fits_whole {a : Account} {l : Lookup} {path : Path} (h : Short path) (hwhole : l.whole site a = some path)
    (hagrees : l.Agrees site path) : l.Fits site a := fun path' hpath' => by
  obtain rfl := Option.some.inj (hwhole.symm.trans hpath')
  exact ⟨h, hagrees⟩

theorem agrees_of_path {l : Lookup} {path : Path}
    (h : (located site.os site.mountdir path l.resolveLastLink).map CanonicalPath.path =
      (located site.os site.mountdir path l.follow).map CanonicalPath.path) : l.Agrees site path :=
  Option.map_injective (fun _ _ => canonicalPath_injective) h

theorem meaning_unique {a : Account} {l : Lookup} {path : Path} {p q : CanonicalPath}
    (hwhole : l.whole site a = some path)
    (hlocated : (located site.os site.mountdir path l.follow).map CanonicalPath.path = some q.path)
    (h : l.meaning site a = .gaofs p) : p = q := by
  rw [Lookup.meaning, hwhole] at h
  dsimp only at h
  generalize located site.os site.mountdir path l.follow = place at hlocated h
  cases place with
  | none => cases hlocated
  | some p' =>
    cases h
    exact canonicalPath_injective (Option.some.inj hlocated)

theorem flagged_of_named {l : Lookup} (hname : l.name ≠ []) (hflags : l.flags = 0) : l.Flagged := by
  refine ⟨fun hempty => absurd hempty hname, fun _ => .inl ?_⟩
  rw [hflags]
  decide

theorem allowed_sampleCalls : AllSteps (step linkedSite)
    (fun s e => Allowed linkedSite s.2.tree (s.2.account e.1) colonFree s.1.cl (s.1.prog e.1) e.2)
    (System.started (fun _ => text "/r") homes, Spec.init homes) sampleCalls := by
  have hnamed : plainFile.path ∈ colonFree.paths := ⟨plainFile.toCanonicalPath, rfl, by decide +kernel⟩
  have hopen : Short (text "/m/f") := ⟨by decide, by decide⟩
  have hlstat : Short (text "/l/../m/./f") := ⟨by decide, by decide⟩
  have haccess : Short (text "/f/m") := ⟨by decide, by decide⟩
  have hroot : Short (text "/l/../m") := ⟨by decide, by decide⟩
  refine ⟨⟨by decide, ⟨by decide +kernel, by decide +kernel⟩,
      fun hnone => absurd (congrArg Option.isSome hnone) (by decide +kernel)⟩,
    fun l hl => ?_, trivial, fun l hl => ?_, fun l hl => ?_, fun l hl => ?_, fun l hl => ?_,
    ⟨by decide +kernel, by decide +kernel⟩, trivial⟩
  · cases hl
    refine ⟨flagged_of_named (by decide) rfl, fits_whole hopen (by decide +kernel) rfl, fun p hp => ?_⟩
    obtain rfl : p = plainFile.toCanonicalPath :=
      @meaning_unique _ _ _ (text "/m/f") _ _ (by decide +kernel) (by decide +kernel) hp
    exact ⟨⟨hnamed, by decide +kernel, fun hcut => absurd hcut.1 (by decide)⟩, by decide +kernel⟩
  · cases hl
    refine ⟨flagged_of_named (by decide) rfl, fits_whole hlstat (by decide +kernel) ?_, fun _ _ => trivial⟩
    exact agrees_of_path (by decide +kernel)
  · cases hl
    exact ⟨flagged_of_named (by decide) rfl, fits_whole haccess (by decide +kernel) rfl, fun _ _ => trivial⟩
  · cases hl
    refine ⟨flagged_of_named (by decide) rfl, fits_whole hroot (by decide +kernel) rfl, fun p hp => ?_⟩
    obtain rfl : p = GaoFS.Tree.rootDir :=
      @meaning_unique _ _ _ (text "/l/../m") _ _ (by decide +kernel) (by decide +kernel) hp
    exact ⟨⟨colonFree.root_mem, by decide +kernel, fun hcut => absurd hcut.1 (by decide)⟩, by decide +kernel⟩
  · cases hl
    refine ⟨⟨fun _ => by decide, fun hname => absurd rfl hname⟩, fun path hpath => ?_, fun _ _ => trivial⟩
    exact absurd (congrArg Option.isSome hpath) (Bool.eq_false_iff.mp (by decide +kernel))

end Run

end GaoFS.Programs
