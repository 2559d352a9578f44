import GaoFS.Listing
import GaoFS.ForwardTruncate

namespace GaoFS.GaofsFunctions

open Chunks Replies ChunkStorage DataOps MetadataRecord MetadataKey MetadataDB ForwardRemove Dirents
open ForwardTruncate Library.NumberText

def ENOTDIR : Int32 := 20
def EISDIR : Int32 := 21
def EINVAL : Int32 := 22
def ENOTEMPTY : Int32 := 39
def ELOOP : Int32 := 40
def ENOTSUP : Int32 := 95

def S_IFREG : UInt32 := 0o100000
def S_IFDIR : UInt32 := 0o040000
def S_IFCHR : UInt32 := 0o020000
def S_IFBLK : UInt32 := 0o060000
def S_IFIFO : UInt32 := 0o010000
def S_IFSOCK : UInt32 := 0o140000

def O_WRONLY : UInt32 := 0o1
def O_RDWR : UInt32 := 0o2
def O_CREAT : UInt32 := 0o100
def O_EXCL : UInt32 := 0o200
def O_TRUNC : UInt32 := 0o1000
def O_APPEND : UInt32 := 0o2000
def O_DIRECTORY : UInt32 := 0o200000
def O_NOFOLLOW : UInt32 := 0o400000
def O_PATH : UInt32 := 0o10000000

def hasFlag (flags bit : UInt32) : Bool := flags &&& bit != 0

/-- Result of a call with the errno of a failure, and the daemons afterwards. No
result is a client that dies of an exception or an assertion, or does not return. -/
abbrev Outcome (α : Type*) := Option (Except Int32 α) × Cluster

section Errno

/-- `with_errno`, which takes and returns an `int`. -/
def withErrno (errno : Int32) (ret : Int64) : Int64 :=
  if ret.toInt32 < 0 then (-errno).toInt64 else ret.toInt32.toInt64

/-- `hook_lseek` returns an `off_t`. -/
def lseekErrno (errno : Int32) (ret : Int64) : Int64 := if ret < 0 then (-errno).toInt64 else ret

theorem withErrno_neg {e : Int32} (h : 0 < e) : withErrno e (-1) < 0 := by
  have hpos := Int32.lt_iff_toInt_lt.mp h
  have hlt := e.toInt_lt
  rw [Int32.toInt_zero] at hpos
  rw [withErrno, if_pos (by decide), Int64.lt_iff_toInt_lt, Int32.toInt_toInt64, Int32.toInt_neg,
    Int.bmod_eq_of_le (by omega) (by omega), Int64.toInt_zero]
  omega

end Errno

section Path

/-- Up to the last slash, or the root. -/
def dirname (path : Path) : Path :=
  let parent := ((path.reverse.dropWhile (· != separator)).drop 1).reverse
  if parent.isEmpty then path.take 1 else parent

theorem isAbsolute_dirname {path : Path} (hpath : isAbsolute path = true) :
    isAbsolute (dirname path) = true := by
  obtain ⟨x, xs, rfl⟩ : ∃ x xs, path = x :: xs := by
    cases path with
    | nil => cases hpath
    | cons x xs => exact ⟨x, xs, rfl⟩
  have hprefix : ((((x :: xs).reverse.dropWhile (· != separator)).drop 1).reverse) <+: x :: xs := by
    rw [← List.reverse_suffix, List.reverse_reverse]
    exact (List.drop_suffix 1 _).trans (List.dropWhile_suffix _)
  rw [dirname]
  generalize (((x :: xs).reverse.dropWhile (· != separator)).drop 1).reverse = parent at hprefix
  cases parent with
  | nil => exact hpath
  | cons y ys =>
    obtain ⟨rfl, -⟩ := List.cons_prefix_cons.mp hprefix
    exact hpath

end Path

section Rpc

variable (d : SimpleHashDistributor) (path : Path) (cl : Cluster)

def forwardCreate (mode : UInt32) : Int32 × Cluster :=
  let k := metadataHost d path
  let out := rpcSrvCreate ((cl k).store path) mode
  (out.1.getD EBUSY, cl.putStore k path out.2)

/-- Without a reply the error is `EBUSY`; a reply without a record is an empty string. -/
def forwardStat : Except Int32 Bytes :=
  match rpcSrvStat ((cl (metadataHost d path)).store path) with
  | none => .error EBUSY
  | some out => if out.err ≠ 0 then .error out.err else .ok (out.dbVal.getD [])

def forwardDecrSize (length : UInt64) : Int32 × Cluster :=
  let k := metadataHost d path
  let out := rpcSrvDecrSize ((cl k).store path) length
  (out.1.getD EBUSY, cl.putStore k path out.2)

/-- The truncations of all hosts that `forward_truncate` finds. -/
def truncateHosts (s : Sizes) (hosts : Finset UInt32) : Int32 × Cluster :=
  let out := fun k : UInt32 =>
    truncateDaemon d path s k ⟨(cl k.toUInt64).rootPath, ((cl k.toUInt64).store path).data⟩
  let failed := fun k => match out k with
    | some (.ok _, _) => false
    | _ => true
  (if hosts.filter (fun k => failed k = true) = ∅ then 0 else EIO, fun k =>
    if k.toUInt32 ∈ hosts ∧ k.toUInt32.toUInt64 = k then
      match out k.toUInt32 with
      | some (_, data) => (cl k).putStore path { (cl k).store path with data := data }
      | none => cl k
    else cl k)

/-- `gaofs::utils::get_metadata`, which does not follow links by default. -/
def utilsGetMetadata : Option (Except Int32 Metadata) :=
  match forwardStat d path cl with
  | .error e => some (.error e)
  | .ok attr => match Metadata.decode config attr with
    | .ok md => some (.ok md)
    | .error _ => none

def checkParentDir : Option (Except Int32 Unit) :=
  (utilsGetMetadata d (dirname path) cl).map fun
    | .error e => .error e
    | .ok md => if S_ISDIR md.mode then .ok () else .error ENOTDIR

end Rpc

section Functions

variable (d : SimpleHashDistributor) (path : Path) (cl : Cluster)

/-- The switch over the file type at the start of `gaofs_create`. -/
def createMode (mode : UInt32) : Except Int32 UInt32 :=
  let kind := mode &&& S_IFMT
  if kind = 0 then .ok (mode ||| S_IFREG)
  else if kind = S_IFREG ∨ kind = S_IFDIR then .ok mode
  else if kind = S_IFCHR ∨ kind = S_IFBLK ∨ kind = S_IFIFO ∨ kind = S_IFSOCK then .error ENOTSUP
  else .error EINVAL

def gaofsCreate (mode : UInt32) : Outcome Unit :=
  match createMode mode with
  | .error e => (some (.error e), cl)
  | .ok mode =>
    match checkParentDir d path cl with
    | none => (none, cl)
    | some (.error e) => (some (.error e), cl)
    | some (.ok _) =>
      let r := forwardCreate d path cl mode
      (some (if r.1 ≠ 0 then .error r.1 else .ok ()), r.2)

def gaofsRemove : Outcome Unit :=
  match utilsGetMetadata d path cl with
  | none => (none, cl)
  | some (.error e) => (some (.error e), cl)
  | some (.ok md) =>
    if S_ISDIR md.mode then (some (.error EISDIR), cl)
    else
      let r := forwardRemove d path cl
      (some (if r.1 ≠ 0 then .error r.1 else .ok ()), r.2)

def gaofsRmdir (mem : UInt64 → Bytes) : Outcome Unit :=
  match utilsGetMetadata d path cl with
  | none => (none, cl)
  | some (.error e) => (some (.error e), cl)
  | some (.ok md) =>
    if S_ISDIR md.mode = false then (some (.error ENOTDIR), cl)
    else match forwardGetDirents d path cl mem with
      | none => (none, cl)
      | some (err, entries) =>
        if err ≠ 0 then (some (.error err), cl)
        else if entries.length ≠ 0 then (some (.error ENOTEMPTY), cl)
        else
          let r := forwardRemove d path cl
          (some (if r.1 ≠ 0 then .error r.1 else .ok ()), r.2)

/-- `gaofs_truncate(path, old_size, new_size)`, the collecting loop of which is
given `fuel` tests. -/
def gaofsTruncate (oldSize newSize : Int64) (fuel : Nat) : Outcome Unit :=
  if 0 ≤ newSize ∧ newSize ≤ oldSize then
    if newSize = oldSize then (some (.ok ()), cl)
    else
      let decr := forwardDecrSize d path cl newSize.toUInt64
      if decr.1 ≠ 0 then (some (.error decr.1), decr.2)
      else if shrinks : newSize.toUInt64 < oldSize.toUInt64 then
        let s : Sizes := ⟨oldSize.toUInt64, newSize.toUInt64, shrinks⟩
        match forwardTruncate d path s fuel with
        | none => (none, decr.2)
        | some hosts =>
          let r := truncateHosts d path decr.2 s hosts
          (some (if r.1 ≠ 0 then .error r.1 else .ok ()), r.2)
      else (none, decr.2)
  else (none, cl)

/-- What an open adds to the file map. -/
inductive Opened where
  | file (path : Path) (flags : UInt32)
  | dir (path : Path) (entries : List (Bytes × FileType))

def gaofsOpendir (mem : UInt64 → Bytes) : Option (Except Int32 Opened) :=
  match utilsGetMetadata d path cl with
  | none => none
  | some (.error e) => some (.error e)
  | some (.ok md) =>
    if S_ISDIR md.mode = false then some (.error ENOTDIR)
    else (forwardGetDirents d path cl mem).map fun r =>
      if r.1 ≠ 0 then .error r.1 else .ok (.dir path r.2)

/-- `gaofs_open`, which follows at most `fuel` links. -/
def gaofsOpen (mem : UInt64 → Bytes) (mode flags : UInt32) : Nat → Path → Cluster → Outcome Opened
  | 0, _, cl => (none, cl)
  | fuel + 1, path, cl =>
    if hasFlag flags O_PATH then (some (.error ENOTSUP), cl)
    else if hasFlag flags O_APPEND then (some (.error ENOTSUP), cl)
    else
      let create : Outcome Unit :=
        if hasFlag flags O_CREAT then
          if hasFlag flags O_DIRECTORY then (some (.error ENOTSUP), cl)
          else gaofsCreate d path cl (mode ||| S_IFREG)
        else (some (.error EEXIST), cl)
      match create.1 with
      | none => (none, create.2)
      | some (.ok _) => (some (.ok (.file path flags)), create.2)
      | some (.error e) =>
        if hasFlag flags O_CREAT = true ∧ (e ≠ EEXIST ∨ hasFlag flags O_EXCL = true) then
          (some (.error e), create.2)
        else match utilsGetMetadata d path create.2 with
          | none => (none, create.2)
          | some (.error e) => (some (.error e), create.2)
          | some (.ok md) =>
            if S_ISLNK md.mode then
              if hasFlag flags O_NOFOLLOW then (some (.error ELOOP), create.2)
              else gaofsOpen mem mode flags fuel md.targetPath create.2
            else if S_ISDIR md.mode then (gaofsOpendir d path create.2 mem, create.2)
            else if S_ISREG md.mode = false then (none, create.2)
            else if hasFlag flags O_TRUNC = true ∧
                (hasFlag flags O_RDWR = true ∨ hasFlag flags O_WRONLY = true) then
              match gaofsTruncate d path create.2 md.size.toInt64 0 (2 ^ 32 + 1) with
              | (none, cl) => (none, cl)
              | (some (.error e), cl) => (some (.error e), cl)
              | (some (.ok _), cl) => (some (.ok (.file path flags)), cl)
            else (some (.ok (.file path flags)), create.2)

end Functions

end GaoFS.GaofsFunctions
