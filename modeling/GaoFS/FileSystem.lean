import GaoFS.StoredFiles
import GaoFS.FollowLinks
import GaoFS.Resolve

namespace GaoFS.FileSystem

open Arithmetic Chunks Replies ForwardData ChunkStorage DataOps MetadataRecord MetadataDB ForwardRemove
open Dirents GaofsFunctions StoredWrites WritesInFlight FileContents StoredFiles PlacedChunks
open MetadataKey (Key Store Recorded Good getMetadata_recorded recorded_created rpcSrvCreate_absent existsKey_recorded)
open Listing (Inv Fits children keyOk_of_good)
open GaoFS.Tree (keyPath path_eq_root_iff existing_iff recordAt_created recordAt_absent key_putStore_at
  createMode_valid good_created not_link)
open FollowLinks (stores getMetadataTurn getMetadataFollow_turns openCreate openExisting openTurn gaofsOpen_succ)
open ReadRun (Pread Push rpcSrvRead gaofsPreadResult pushes)
open Library.NumberText Library.ByteFile Library.Runs Library.Paths

/-- The part of `struct stat` that `metadata_to_stat` does not set to zero. -/
structure Stat where
  ino : UInt64
  mode : UInt32
  nlink : UInt64
  uid : UInt32
  gid : UInt32
  size : Int64
  blksize : Int64
  blocks : Int64
  atim : Int64
  mtim : Int64
  ctim : Int64
  deriving DecidableEq

/-- What the client has heard from a daemon at its start. -/
structure FsConfig where
  atimeState : Bool
  mtimeState : Bool
  ctimeState : Bool
  linkCntState : Bool
  blocksState : Bool
  uid : UInt32
  gid : UInt32

section Calls

variable (d : SimpleHashDistributor) (cl : Cluster)

/-- The hash of the path is that of the distributor. -/
def metadataToStat (conf : FsConfig) (mountdir : Bytes) (path : Path) (md : Metadata) : Stat where
  ino := d.strHash path
  mode := md.mode
  nlink := if conf.linkCntState then md.linkCount else 1
  uid := conf.uid
  gid := conf.gid
  size := if S_ISLNK md.mode then UInt64.toInt64 (UInt64.ofNat md.targetPath.length + UInt64.ofNat mountdir.length)
    else md.size.toInt64
  blksize := chunksize.toInt64
  blocks := if conf.blocksState then md.blocks else 0
  atim := if conf.atimeState then md.atime else 0
  mtim := if conf.mtimeState then md.mtime else 0
  ctim := if conf.ctimeState then md.ctime else 0

/-- `get_metadata`, which follows `fuel` links at most if it is to follow any. -/
def metadataOf (followLinks : Bool) (fuel : Nat) (path : Path) : Option (Except Int32 Metadata) :=
  if followLinks then FileSizes.getMetadataFollow (stores d cl) (fuel + 1) path else utilsGetMetadata d path cl

def gaofsStat (conf : FsConfig) (mountdir : Bytes) (followLinks : Bool) (fuel : Nat) (path : Path) :
    Option (Except Int32 Stat) :=
  (metadataOf d cl followLinks fuel path).map (Except.map (metadataToStat d conf mountdir path))

/-- The mask is not looked at. -/
def gaofsAccess (followLinks : Bool) (fuel : Nat) (path : Path) : Option (Except Int32 Unit) :=
  (metadataOf d cl followLinks fuel path).map (Except.map fun _ => ())

/-- The replies of the daemons to the requests of a read. -/
def served (path : Path) (order : UInt64 → List Nat) (reqs : List DataIn) : List (Option (DataOut × List Push)) :=
  reqs.map fun r =>
    rpcSrvRead d.strHash ⟨(cl r.hostId).rootPath, ((cl r.hostId).store path).data⟩ (order r.hostId) r

/-- A call of a client, with what its environment adds: uninitialised memory, and the order in which
things happen. Calls of `gaofs_pwrite` may be many at once. -/
inductive Call where
  | create (p : CanonicalPath) (mode : UInt32)
  | openAt (p : CanonicalPath) (mode flags : UInt32) (mem : UInt64 → Bytes) (fuel : Nat)
  | access (p : CanonicalPath) (followLinks : Bool) (fuel : Nat)
  | stat (p : CanonicalPath) (conf : FsConfig) (mountdir : Bytes) (followLinks : Bool) (fuel : Nat)
  | opendir (p : CanonicalPath) (mem : UInt64 → Bytes)
  | remove (p : CanonicalPath)
  | rmdir (p : CanonicalPath) (mem : UInt64 → Bytes)
  | pwrites (calls : List Pwrite) (heap : Nat → UInt8) (es : List (Fin calls.length × Event))
  | pread (f : FilePath) (call : Pread) (order : UInt64 → List Nat) (arrivals : List Push)

inductive Reply where
  | done (ret : Option (Except Int32 Unit))
  | stat (ret : Option (Except Int32 Stat))
  | opened (ret : Option (Except Int32 Opened))
  | wrote (rets : List (Option Int64))
  | read (ret : Int64) (buf : List (Option UInt8))

/-- Calls of `gaofs_pwrite` from their start to the end of a schedule. -/
def flown (calls : List Pwrite) (heap : Nat → UInt8) (es : List (Fin calls.length × Event)) :
    State (Fin calls.length) :=
  es.foldl (StoredWrites.step d heap calls.get) (start cl)

def perform : Call → Reply × Cluster
  | .create p mode => (.done (gaofsCreate d p.path cl mode).1, (gaofsCreate d p.path cl mode).2)
  | .openAt p mode flags mem fuel => (.opened (gaofsOpen d mem mode flags (fuel + 1) p.path cl).1,
      (gaofsOpen d mem mode flags (fuel + 1) p.path cl).2)
  | .access p followLinks fuel => (.done (gaofsAccess d cl followLinks fuel p.path), cl)
  | .stat p conf mountdir followLinks fuel => (.stat (gaofsStat d cl conf mountdir followLinks fuel p.path), cl)
  | .opendir p mem => (.opened (gaofsOpendir d p.path cl mem), cl)
  | .remove p => (.done (gaofsRemove d p.path cl).1, (gaofsRemove d p.path cl).2)
  | .rmdir p mem => (.done (gaofsRmdir d p.path cl mem).1, (gaofsRmdir d p.path cl mem).2)
  | .pwrites calls heap es =>
    (.wrote ((List.finRange calls.length).map (result d calls.get (flown d cl calls heap es))),
      (flown d cl calls heap es).cl)
  | .pread f call order arrivals =>
    let outs := served d cl f.path order (call.requests d f.path)
    (.read (gaofsPreadResult (outs.map fun out => out.map Prod.fst)) (copyAll arrivals (call.buf.map some)), cl)

end Calls

section Spec

/-- The writes of some calls, as the file system is to see them. -/
def writes (calls : List Pwrite) : List (Path × Nat × Bytes) :=
  calls.map fun w => (w.file.path, w.start, w.user)

/-- What a call does to the file system. -/
noncomputable def next (t : FileTree) : Call → FileTree
  | .create p mode => (t.create p.path mode).2
  | .openAt p mode flags _ _ => (t.openAt p.path mode flags).2
  | .remove p => (t.remove p.path).2
  | .rmdir p _ => (t.rmdir p.path).2
  | .pwrites calls _ _ => t.writeAll (writes calls)
  | .access _ _ _ | .stat _ _ _ _ _ | .opendir _ _ | .pread _ _ _ _ => t

/-- An open that succeeds gives what it has been asked for: a file, or a directory with its entries. -/
inductive Opens (t : FileTree) (path : Path) (flags : UInt32) :
    Except Int32 FileTree.Target → Except Int32 Opened → Prop
  | error (e : Int32) : Opens t path flags (.error e) (.error e)
  | file : Opens t path flags (.ok .file) (.ok (.file path flags))
  | directory {entries : List (Bytes × FileType)} (h : t.Lists path entries) :
    Opens t path flags (.ok .directory) (.ok (.dir path entries))

/-- A record of an entry as it is stored. -/
def record (n : Node) : Metadata := (Metadata.ofMode n.mode).resized (UInt64.ofNat n.content.length)

/-- The reply to a call is that of the file system. -/
def Answers (d : SimpleHashDistributor) (t : FileTree) : Call → Reply → Prop
  | .create p mode, .done ret => ret = some (t.create p.path mode).1
  | .openAt p mode flags _ _, .opened ret =>
    ∃ r, ret = some r ∧ Opens t p.path flags (t.openAt p.path mode flags).1 r
  | .access p _ _, .done ret => ret = some ((t.existing p.path).map fun _ => ())
  | .stat p conf mountdir _ _, .stat ret => ret = some (match t p.path with
      | none => .error ENOENT
      | some n => .ok (metadataToStat d conf mountdir p.path (record n)))
  | .opendir p _, .opened ret =>
    ∃ r, ret = some r ∧ Opens t p.path 0 ((t.checkDir p.path).map fun _ => .directory) r
  | .remove p, .done ret => ret = some (t.remove p.path).1
  | .rmdir p _, .done ret => ret = some (t.rmdir p.path).1
  | .pwrites calls _ _, .wrote rets => rets = calls.map fun w => some (Int64.ofNat w.user.length)
  | .pread f call _ _, .read ret buf => ∃ content, t.fileAt f.path = some content ∧
      ret = Int64.ofNat (pread call.offset.toUInt64.toNat call.buf.length content).length ∧
      ∀ (i : Nat) (v : UInt8), (pread call.offset.toUInt64.toNat call.buf.length content)[i]? = some v →
        buf[i]? = some (some v)
  | _, _ => False

/-- Paths with chunk directories of their own, the root among them. -/
structure PathSet where
  paths : Set Path
  root_mem : [separator] ∈ paths
  apart : Set.InjOn getChunksDir paths

/-- The entries that each host has of a directory fit its part of the client's buffer. -/
def Roomy (d : SimpleHashDistributor) (cl : Cluster) (dir : Path) : Prop :=
  ∀ k ∈ allHosts d, Fits Dirent.name 1 (direntsBuffSize / (allHosts d).length) (getDirents (cl k).mdb dir)

instance decidableRoomy (d : SimpleHashDistributor) (cl : Cluster) (dir : Path) : Decidable (Roomy d cl dir) :=
  List.decidableBAll (fun _ => _) (allHosts d)

/-- An open that is to cut the file. -/
def truncates (flags : UInt32) : Prop :=
  hasFlag flags O_TRUNC = true ∧ (hasFlag flags O_RDWR = true ∨ hasFlag flags O_WRONLY = true)

/-- Calls that the file system is there for. A file with contents is not cut, the calls of a batch of
writes all return with no transfer failing, and pushes of a read arrive in any order. -/
def Allowed (d : SimpleHashDistributor) (P : PathSet) (cl : Cluster) (t : FileTree) : Call → Prop
  | .create p _ => p.path ∈ P.paths
  | .openAt p _ flags _ _ => p.path ∈ P.paths ∧ Roomy d cl p.path ∧
      (truncates flags → ∀ content, t.fileAt p.path = some content → content = [])
  | .opendir p _ | .rmdir p _ => Roomy d cl p.path
  | .pwrites calls heap es => Concurrent t calls.get ∧ (∀ e ∈ es, e.2.fails = false) ∧
      ∀ i, (result d calls.get (flown d cl calls heap es) i).isSome
  | .pread f call order arrivals => (t.fileAt f.path).isSome ∧
      (∀ r ∈ call.requests d f.path, (order r.hostId).Perm (List.range r.chunkN.toNat)) ∧
      arrivals.Perm (pushes (served d cl f.path order (call.requests d f.path)))
  | .access _ _ _ | .stat _ _ _ _ _ | .remove _ => True

/-- The daemons and what the file system is to be, side by side. -/
noncomputable def step (d : SimpleHashDistributor) (s : Cluster × FileTree) (call : Call) : Cluster × FileTree :=
  ((perform d s.1 call).2, next s.2 call)

/-- The daemons hold what the file system has: on its metadata host the record of each entry, and
all contents of each file where they belong. -/
structure Refines (d : SimpleHashDistributor) (P : PathSet) (cl : Cluster) (t : FileTree) : Prop where
  inv : Inv d cl
  entry : ∀ path, isAbsolute path = true →
    recordAt ((cl (metadataHost d path)).store path).key = (t path).map record
  named : ∀ path n, t path = some n → path ∈ P.paths
  root : ∀ n, t [separator] = some n → S_ISDIR n.mode = true
  length_lt : ∀ path n, t path = some n → n.content.length < 2 ^ 63
  stored : ∀ f : FilePath, f.path ∈ P.paths → Stored d cl f (t.fileAt f.path)

end Spec

section Records

variable {n : Node} {k : Key} {md : Metadata}

@[simp] theorem mode_record (n : Node) : (record n).mode = n.mode := rfl

theorem toNat_size_record (hlt : n.content.length < 2 ^ 63) : (record n).size.toNat = n.content.length := by
  change (UInt64.ofNat n.content.length).toNat = _
  rw [UInt64.toNat_ofNat', Nat.mod_eq_of_lt (by omega)]

theorem not_link_node (n : Node) : S_ISLNK n.mode = false := by
  apply not_link
  rw [Node.isDir_eq_not]
  cases S_ISREG n.mode <;> rfl

/-- The build keeps nothing of a record but its mode and its size, a link aside. -/
theorem kept_eq_record (hmode : md.mode = n.mode) (hsize : md.size.toNat = n.content.length) :
    md.kept config = record n := by
  have hsize' : md.size = UInt64.ofNat n.content.length := by rw [← hsize, UInt64.ofNat_toNat]
  have htarget : md.targetPath = [] := md.link.resolve_right fun hlink => by
    rw [hmode, not_link_node] at hlink
    cases hlink
  refine Metadata.ext ?_ ?_ ?_ hmode ?_ hsize' ?_ htarget <;> rfl

theorem recordAt_recorded (hrec : Recorded k md) (hmode : md.mode = n.mode)
    (hsize : md.size.toNat = n.content.length) (hlt : n.content.length < 2 ^ 63) : recordAt k = some (record n) := by
  rw [recordAt_eq_some, getMetadata_recorded hrec (hsize ▸ hlt), kept_eq_record hmode hsize]

theorem mode_size_of_recordAt (hrec : Recorded k md) (hlt : md.size.toNat < 2 ^ 63)
    (h : recordAt k = some (record n)) : md.mode = n.mode ∧ md.size = (record n).size := by
  rw [recordAt_eq_some, getMetadata_recorded hrec hlt] at h
  have hkept : md.kept config = record n := Except.ok.inj (Option.some.inj h)
  have hmode : (md.kept config).mode = (record n).mode := by rw [hkept]
  have hsize : (md.kept config).size = (record n).size := by rw [hkept]
  exact ⟨hmode, hsize⟩

end Records

section Lookups

variable {d : SimpleHashDistributor} {P : PathSet} {cl : Cluster} {t : FileTree} {path : Path} {n : Node}

theorem Refines.recorded (h : Refines d P cl t) (hpath : isAbsolute path = true) (hn : t path = some n) :
    ∃ md, Recorded ((cl (metadataHost d path)).store path).key md ∧ md.mode = n.mode ∧
      md.size.toNat = n.content.length := by
  have hentry := h.entry path hpath
  rw [hn, Option.map_some] at hentry
  obtain habs | ⟨md, hrec, hlt⟩ := h.inv.good (metadataHost d path) hpath
  · rw [habs] at hentry
    cases hentry
  · obtain ⟨hmode, hsize⟩ := mode_size_of_recordAt hrec hlt hentry
    exact ⟨md, hrec, hmode, (congrArg UInt64.toNat hsize).trans (toNat_size_record (h.length_lt path n hn))⟩

theorem Refines.absent (h : Refines d P cl t) (hpath : isAbsolute path = true) (hn : t path = none) :
    ((cl (metadataHost d path)).store path).key = Key.absent := by
  obtain habs | ⟨md, hrec, hlt⟩ := h.inv.good (metadataHost d path) hpath
  · exact habs
  · have hentry := h.entry path hpath
    rw [hn, recordAt_eq_some.mpr (getMetadata_recorded hrec hlt)] at hentry
    cases hentry

theorem Refines.utilsGetMetadata_eq (h : Refines d P cl t) (hpath : isAbsolute path = true) :
    utilsGetMetadata d path cl = some (match t path with
      | none => .error ENOENT
      | some n => .ok (record n)) := by
  rw [utilsGetMetadata, forwardStat, MetadataKey.rpcSrvStat]
  cases hn : t path with
  | none =>
    rw [h.absent hpath hn]
    rfl
  | some n =>
    obtain ⟨md, hrec, hmode, hsize⟩ := h.recorded hpath hn
    have hlt := h.length_lt path n hn
    rw [MetadataKey.getStr_recorded hrec]
    simp [statErr, cString_serialize, decode_serialize config md (hsize ▸ hlt), kept_eq_record hmode hsize]

/-- There is no link to follow. -/
theorem Refines.metadataOf_eq (h : Refines d P cl t) (hpath : isAbsolute path = true) (followLinks : Bool)
    (fuel : Nat) : metadataOf d cl followLinks fuel path = some (match t path with
      | none => .error ENOENT
      | some n => .ok (record n)) := by
  cases followLinks with
  | false => exact h.utilsGetMetadata_eq hpath
  | true =>
    have hturn : getMetadataTurn d cl path = .inr (some (match t path with
        | none => .error ENOENT
        | some n => .ok (record n))) := by
      rw [getMetadataTurn, h.utilsGetMetadata_eq hpath]
      cases t path with
      | none => rfl
      | some n => exact if_neg (by rw [mode_record, not_link_node]; exact Bool.noConfusion)
    rw [metadataOf, if_pos rfl, getMetadataFollow_turns, Library.Loops.turns_last hturn]

theorem Refines.checkParentDir_eq (h : Refines d P cl t) (hpath : isAbsolute path = true) :
    checkParentDir d path cl = some (t.checkDir (dirname path)) := by
  rw [checkParentDir, h.utilsGetMetadata_eq (isAbsolute_dirname hpath), FileTree.checkDir, Option.map_some]
  cases t (dirname path) <;> rfl

/-- The children that the hosts list are those of the file system. -/
theorem Refines.child_iff (h : Refines d P cl t) (hpath : isAbsolute path = true) {name : Bytes} {md : Metadata} :
    Listing.Child d cl path name md ↔ ∃ n, t.Child path name n ∧ md = record n := by
  have habs := isAbsolute_of_prefix (isAbsolute_rootPath hpath) (List.prefix_append _ name)
  have hentry := h.entry (rootPath path ++ name) habs
  simp only [Listing.Child, existing_iff, hentry, FileTree.Child, Option.map_eq_some_iff]
  constructor
  · rintro ⟨hne, hsep, n, hn, rfl⟩
    exact ⟨n, ⟨hne, hsep, hn⟩, rfl⟩
  · rintro ⟨n, ⟨hne, hsep, hn⟩, rfl⟩
    exact ⟨hne, hsep, n, hn, rfl⟩

theorem Refines.lists_children (h : Refines d P cl t) (hpath : isAbsolute path = true) :
    t.Lists path ((children d cl path).map fun e => (e.1, fileType (S_ISDIR e.2.mode))) := by
  refine ⟨?_, fun name type => ?_⟩
  · rw [List.map_map]
    exact h.inv.nodup_children hpath
  · rw [List.mem_map]
    constructor
    · rintro ⟨⟨name', md⟩, hmem, he⟩
      obtain ⟨rfl, rfl⟩ := Prod.mk.inj he
      obtain ⟨n, hn, rfl⟩ := (h.child_iff hpath).mp ((h.inv.mem_children hpath).mp hmem)
      exact ⟨n, hn, rfl⟩
    · rintro ⟨n, hn, rfl⟩
      exact ⟨(name, record n), (h.inv.mem_children hpath).mpr ((h.child_iff hpath).mpr ⟨n, hn, rfl⟩), rfl⟩

theorem Refines.gaofsOpendir_spec (h : Refines d P cl t) (hpath : isAbsolute path = true) (hroom : Roomy d cl path)
    (mem : UInt64 → Bytes) (flags : UInt32) : ∃ r, gaofsOpendir d path cl mem = some r ∧
      Opens t path flags ((t.checkDir path).map fun _ => .directory) r := by
  rw [gaofsOpendir, h.utilsGetMetadata_eq hpath, FileTree.checkDir]
  cases t path with
  | none => exact ⟨_, rfl, .error _⟩
  | some n =>
    cases hdir : S_ISDIR n.mode with
    | false =>
      simp only [hdir, Bool.false_eq_true, if_false]
      exact ⟨_, if_pos hdir, .error _⟩
    | true =>
      have hlist := h.inv.forwardGetDirents_eq hpath hroom mem
      simp only [hdir, if_true, hlist]
      refine ⟨_, if_neg fun hfalse => ?_, .directory (h.lists_children hpath)⟩
      exact absurd (hdir.symm.trans hfalse) Bool.noConfusion

end Lookups

section Entries

variable {d : SimpleHashDistributor} {P : PathSet} {cl cl' : Cluster} {t : FileTree} {p : CanonicalPath} {n : Node}

theorem PathSet.dirs_ne (P : PathSet) {path : Path} {f : FilePath} (hpath : path ∈ P.paths) (hf : f.path ∈ P.paths)
    (hne : f.path ≠ path) : getChunksDir path ≠ getChunksDir f.path :=
  fun he => hne (P.apart hpath hf he).symm

/-- The entry of a path is written or taken away, and everything else stays. -/
theorem Refines.update (h : Refines d P cl t) (hp : p.path ∈ P.paths) {x : Option Node} (hinv : Inv d cl')
    (hframe : ∀ k, Frame p.path (cl k) (cl' k))
    (hkey : recordAt ((cl' (metadataHost d p.path)).store p.path).key = x.map record)
    (hlt : ∀ n, x = some n → n.content.length < 2 ^ 63)
    (hroot : p.path = [separator] → ∀ n, x = some n → S_ISDIR n.mode = true)
    (hstored : ∀ f : FilePath, f.path = p.path → Stored d cl' f (x.bind Node.file?)) :
    Refines d P cl' (Function.update t p.path x) where
  inv := hinv
  entry q hq := by
    by_cases hqp : q = p.path
    · rw [hqp, Function.update_self, hkey]
    · rw [Function.update_of_ne hqp, ((hframe _).others q hq hqp).1, h.entry q hq]
  named q n hn := by
    by_cases hqp : q = p.path
    · rw [hqp]
      exact hp
    · rw [Function.update_of_ne hqp] at hn
      exact h.named q n hn
  root n hn := by
    by_cases hp : [separator] = p.path
    · rw [hp, Function.update_self] at hn
      exact hroot hp.symm n hn
    · rw [Function.update_of_ne hp] at hn
      exact h.root n hn
  length_lt q n hn := by
    by_cases hqp : q = p.path
    · rw [hqp, Function.update_self] at hn
      exact hlt n hn
    · rw [Function.update_of_ne hqp] at hn
      exact h.length_lt q n hn
  stored f hf := by
    by_cases hfp : f.path = p.path
    · rw [FileTree.fileAt, hfp, Function.update_self]
      exact hstored f hfp
    · rw [FileTree.fileAt_update_of_ne hfp]
      exact (h.stored f hf).frame (P.dirs_ne hp hf hfp) hframe

theorem frame_putStore_at (cl : Cluster) (p : CanonicalPath) {k : UInt64} {s : Store}
    (hfs : s.data.fs = (cl k).fs) (k' : UInt64) : Frame p.path (cl k') (cl.putStore k p.path s k') := by
  rw [Cluster.putStore, Function.update_apply]
  split
  · rename_i hk
    subst hk
    exact frame_putStore _ fun dir _ => by rw [hfs]
  · exact Frame.refl _ _

/-- An entry of a path without data. -/
theorem Refines.putEntry (h : Refines d P cl t) (hp : p.path ∈ P.paths) {x : Option Node} {key : Key}
    (hgood : Good ⟨key, ((cl (metadataHost d p.path)).store p.path).data⟩)
    (hkey : recordAt key = x.map record) (hempty : ∀ n, x = some n → n.content = [])
    (hroot : p.path = [separator] → ∀ n, x = some n → S_ISDIR n.mode = true)
    (hnone : t.fileAt p.path = none) :
    Refines d P (cl.putStore (metadataHost d p.path) p.path
      ⟨key, ((cl (metadataHost d p.path)).store p.path).data⟩) (Function.update t p.path x) := by
  have hstored : ∀ f : FilePath, f.path = p.path → Stored d (cl.putStore (metadataHost d p.path) p.path
      ⟨key, ((cl (metadataHost d p.path)).store p.path).data⟩) f none := by
    intro f hf k hk c hc
    have hno := h.stored f (hf ▸ hp)
    rw [hf, hnone] at hno
    refine hno k hk c ?_
    rw [Cluster.putStore, Function.update_apply, hf] at hc
    rw [hf]
    split at hc
    · rename_i hm
      subst hm
      exact holds_putStore hc
    · exact hc
  refine h.update hp (h.inv.putStore (keyOk_of_good (keyPath p) hgood)) (frame_putStore_at cl p rfl) ?_ ?_ hroot ?_
  · rw [Cluster.putStore, Function.update_self, store_putStore, hkey]
  · intro n hn
    rw [hempty n hn]
    exact Nat.two_pow_pos 63
  · intro f hf
    cases hfile : x.bind Node.file? with
    | none => exact hstored f hf
    | some content =>
      obtain ⟨n, hn, hfile⟩ := Option.bind_eq_some_iff.mp hfile
      obtain ⟨hreg, rfl⟩ := Node.file?_eq_some.mp hfile
      rw [hempty n hn]
      rw [hn, Option.map_some] at hkey
      obtain habs | ⟨md, hrec, hlt⟩ := hgood
      · rw [show key = Key.absent from habs] at hkey
        cases hkey
      · obtain ⟨hmode, hsize⟩ := mode_size_of_recordAt hrec hlt hkey
        refine Stored.created (hstored f hf) (?_ : Recorded _ md) (hmode ▸ hreg) (hsize.trans ?_)
        · rw [hf, Cluster.putStore, Function.update_self, store_putStore]
          exact hrec
        · change UInt64.ofNat n.content.length = 0
          rw [hempty n hn]
          rfl

theorem Refines.gaofsCreate_spec (h : Refines d P cl t) (hp : p.path ∈ P.paths) (mode : UInt32) :
    (gaofsCreate d p.path cl mode).1 = some (t.create p.path mode).1 ∧
      Refines d P (gaofsCreate d p.path cl mode).2 (t.create p.path mode).2 ∧
      ∀ e, (t.create p.path mode).1 = .error e → (gaofsCreate d p.path cl mode).2 = cl := by
  rw [gaofsCreate, FileTree.create]
  cases hmode : createMode mode with
  | error e => exact ⟨rfl, h, fun _ _ => rfl⟩
  | ok m =>
    have hvalid := createMode_valid hmode
    rw [h.checkParentDir_eq (isAbsolute_path p)]
    cases hparent : t.checkDir (dirname p.path) with
    | error e => exact ⟨rfl, h, fun _ _ => rfl⟩
    | ok u =>
      cases hn : t p.path with
      | some n =>
        obtain ⟨md, hrec, -⟩ := h.recorded (isAbsolute_path p) hn
        have hexists : MetadataKey.rpcSrvCreate ((cl (metadataHost d p.path)).store p.path) m =
            (some EEXIST, (cl (metadataHost d p.path)).store p.path) := by
          rw [MetadataKey.rpcSrvCreate, if_pos hvalid, existsKey_recorded hrec]
          rfl
        have hforward : forwardCreate d p.path cl m = (EEXIST, cl) := by
          simp only [forwardCreate, hexists, Option.getD_some, putStore_self h.inv]
        dsimp only
        rw [hforward]
        exact ⟨rfl, h, fun _ _ => rfl⟩
      | none =>
        have hcreate := rpcSrvCreate_absent (h.absent (isAbsolute_path p) hn) hvalid
        simp only [forwardCreate, hcreate, Option.isSome_none, Bool.false_eq_true, if_false, dif_pos hvalid]
        refine ⟨rfl, h.putEntry hp (good_created rfl) ?_ ?_ ?_ ?_, fun e he => by cases he⟩
        · rw [recordAt_created]
          rfl
        · rintro n hn
          obtain rfl := Option.some.inj hn
          rfl
        · -- the root would be its own parent
          intro hroot
          rw [FileTree.checkDir, hroot, show dirname [separator] = [separator] from rfl, ← hroot, hn] at hparent
          cases hparent
        · rw [FileTree.fileAt, hn, Option.bind_none]

theorem inv_forwardRemove (h : Inv d cl) (p : CanonicalPath) : Inv d (forwardRemove d p.path cl).2 := by
  have hput := h.putStore (keyOk_of_good (keyPath p) (Listing.good_removeMetadata
    (h.good (metadataHost d p.path) (isAbsolute_path p)) (cl (metadataHost d p.path)).rootPath p.path))
  rw [forwardRemove]
  split
  · exact hput
  · split
    · exact hput
    · split
      · have hstep : ∀ (s : Int32 × Cluster) (k : UInt64), Inv d s.2 → Inv d (postRemoveData p.path s k).2 := by
          intro s k hs
          refine hs.putStore ?_
          rw [Listing.key_rpcSrvRemoveData]
          exact hs k p.path
        exact invariant_foldl hstep _ hput
      · exact hput

/-- What has no data is removed with its entry. -/
theorem forwardRemove_empty {md : Metadata} (hrec : Recorded ((cl (metadataHost d p.path)).store p.path).key md)
    (hsize : md.size = 0) : (forwardRemove d p.path cl).1 = 0 ∧ (forwardRemove d p.path cl).2 =
      cl.putStore (metadataHost d p.path) p.path ⟨Key.absent, ((cl (metadataHost d p.path)).store p.path).data⟩ := by
  have hlt : md.size.toNat < 2 ^ 63 := by
    rw [hsize]
    exact Nat.two_pow_pos 63
  refine ⟨?_, forwardRemove_no_data hrec hlt fun hno => hno.2 hsize⟩
  have hno : ¬ (S_ISREG (md.kept config).mode = true ∧ (md.kept config).size ≠ 0) := fun hno => hno.2 hsize
  have hno' : ¬ (S_ISREG (md.kept config).mode = true ∧ (md.kept config).size.toInt64 ≠ 0) := by
    rintro ⟨-, hne⟩
    exact hne (by rw [show (md.kept config).size = 0 from hsize]; rfl)
  simp only [forwardRemove, MetadataKey.rpcSrvRemoveMetadata, getMetadata_recorded hrec hlt,
    MetadataKey.removeLocalData, if_neg hno, if_neg hno']
  rfl

theorem exists_filePath {p : CanonicalPath} (h : p.path ≠ [separator]) : ∃ f : FilePath, f.toCanonicalPath = p :=
  ⟨⟨p, fun hnil => h (path_eq_root_iff.mpr hnil)⟩, rfl⟩

theorem Refines.gaofsRemove_spec (h : Refines d P cl t) (p : CanonicalPath) :
    (gaofsRemove d p.path cl).1 = some (t.remove p.path).1 ∧
      Refines d P (gaofsRemove d p.path cl).2 (t.remove p.path).2 := by
  rw [gaofsRemove, h.utilsGetMetadata_eq (isAbsolute_path p)]
  cases hn : t p.path with
  | none =>
    rw [FileTree.remove, hn]
    exact ⟨rfl, h⟩
  | some n =>
    have hp := h.named p.path n hn
    dsimp only
    cases hdir : S_ISDIR n.mode with
    | true =>
      rw [FileTree.remove_of_dir hn hdir, if_pos (by rw [mode_record, hdir])]
      exact ⟨rfl, h⟩
    | false =>
      rw [FileTree.remove_of_file hn hdir, if_neg (by rw [mode_record, hdir]; exact Bool.noConfusion)]
      obtain ⟨f, rfl⟩ := exists_filePath (p := p) fun hroot => by
        rw [h.root n (hroot ▸ hn)] at hdir
        cases hdir
      obtain ⟨md, hrec, hmode, hsize⟩ := h.recorded (isAbsolute_path f.toCanonicalPath) hn
      have hfile := FileTree.fileAt_of_file hn hdir
      have hstored := h.stored f hp
      rw [hfile] at hstored
      obtain ⟨-, -, hplaced⟩ := hstored
      have hreg : S_ISREG md.mode = true := by simpa [hmode, hdir] using n.isDir_eq_not
      obtain ⟨hret, hremoved⟩ := forwardRemove_regular hrec (hsize ▸ h.length_lt f.path n hn) hreg
        (hsize ▸ hplaced)
      refine ⟨congrArg some (if_neg (not_not.mpr hret)), h.update hp (inv_forwardRemove h.inv _) hremoved.frame
        ?_ ?_ ?_ ?_⟩
      · rw [hremoved.key, if_pos rfl]
        rfl
      · intro n hn
        cases hn
      · intro _ n hn
        cases hn
      · intro g hg
        change ∀ k ∈ allHosts d, ∀ c, ¬ Holds _ g.path c
        rw [hg]
        exact hremoved.chunks

/-- A listing of a directory is empty if it has no child. -/
theorem Refines.children_length (h : Refines d P cl t) (hpath : isAbsolute p.path = true) :
    (children d cl p.path).length = 0 ↔ ¬ ∃ name n, t.Child p.path name n := by
  rw [List.length_eq_zero_iff, List.eq_nil_iff_forall_not_mem]
  constructor
  · rintro hnil ⟨name, n, hchild⟩
    exact hnil (name, record n) ((h.inv.mem_children hpath).mpr ((h.child_iff hpath).mpr ⟨n, hchild, rfl⟩))
  · rintro hno ⟨name, md⟩ hmem
    obtain ⟨n, hchild, -⟩ := (h.child_iff hpath).mp ((h.inv.mem_children hpath).mp hmem)
    exact hno ⟨name, n, hchild⟩

theorem Refines.gaofsRmdir_spec (h : Refines d P cl t) (p : CanonicalPath) (hroom : Roomy d cl p.path)
    (mem : UInt64 → Bytes) :
    (gaofsRmdir d p.path cl mem).1 = some (t.rmdir p.path).1 ∧
      Refines d P (gaofsRmdir d p.path cl mem).2 (t.rmdir p.path).2 := by
  have hpath := isAbsolute_path p
  rw [gaofsRmdir, h.utilsGetMetadata_eq hpath]
  cases hn : t p.path with
  | none =>
    rw [FileTree.rmdir, FileTree.checkDir, hn]
    exact ⟨rfl, h⟩
  | some n =>
    have hp := h.named p.path n hn
    dsimp only
    cases hdir : S_ISDIR n.mode with
    | false =>
      rw [if_pos (by rw [mode_record, hdir]), FileTree.rmdir_of_error (FileTree.checkDir_of_file hn hdir)]
      exact ⟨rfl, h⟩
    | true =>
      have hcheck := FileTree.checkDir_of_dir hn hdir
      have hchildren := h.children_length hpath
      rw [if_neg (by rw [mode_record, hdir]; exact Bool.noConfusion), h.inv.forwardGetDirents_eq hpath hroom mem]
      dsimp only
      rw [if_neg (not_not.mpr rfl), List.length_map]
      by_cases hchild : ∃ name n, t.Child p.path name n
      · rw [if_pos fun hzero => hchildren.mp hzero hchild, FileTree.rmdir_of_child hcheck hchild]
        exact ⟨rfl, h⟩
      · rw [if_neg (not_not.mpr (hchildren.mpr hchild)), FileTree.rmdir_of_empty hcheck hchild]
        obtain ⟨md, hrec, hmode, hsize⟩ := h.recorded hpath hn
        have hlt := hsize ▸ h.length_lt p.path n hn
        have hempty : md.size = 0 := by
          rw [n.content_of_dir hdir] at hsize
          exact UInt64.toNat_inj.mp hsize
        obtain ⟨hret, hcl⟩ := forwardRemove_empty hrec hempty
        rw [hcl]
        refine ⟨congrArg some (if_neg (not_not.mpr hret)), h.putEntry hp (.inl rfl) rfl ?_ ?_ ?_⟩
        · intro n hn
          cases hn
        · intro _ n hn
          cases hn
        · exact FileTree.fileAt_of_dir hn hdir

/-- What an open does with a path that it has not created. -/
theorem Refines.openExisting_spec (h : Refines d P cl t) (hroom : Roomy d cl p.path) {flags : UInt32}
    (htrunc : truncates flags → ∀ content, t.fileAt p.path = some content → content = []) (mem : UInt64 → Bytes) :
    ∃ r, openExisting d mem flags p.path cl = .inr (some r, cl) ∧ Opens t p.path flags (t.existing p.path) r := by
  have hpath := isAbsolute_path p
  obtain ⟨r, hopendir, hr⟩ := h.gaofsOpendir_spec hpath hroom mem flags
  rw [openExisting, h.utilsGetMetadata_eq hpath, FileTree.existing]
  cases hn : t p.path with
  | none => exact ⟨_, rfl, .error _⟩
  | some n =>
    dsimp only
    rw [if_neg (by rw [mode_record, not_link_node]; exact Bool.noConfusion)]
    cases hdir : S_ISDIR n.mode with
    | true =>
      rw [if_pos (by rw [mode_record, hdir]), hopendir]
      rw [FileTree.checkDir_of_dir hn hdir] at hr
      exact ⟨r, rfl, hr⟩
    | false =>
      have hreg : S_ISREG n.mode = true := by simpa [hdir] using n.isDir_eq_not
      rw [if_neg (by rw [mode_record, hdir]; exact Bool.noConfusion),
        if_neg (by rw [mode_record, hreg]; exact Bool.noConfusion)]
      refine ⟨.ok (.file p.path flags), ?_, .file⟩
      split
      · rename_i hcut
        have hempty := htrunc hcut n.content (FileTree.fileAt_of_file hn hdir)
        have hsize : (record n).size = 0 := by
          change UInt64.ofNat n.content.length = 0
          rw [hempty]
          rfl
        rw [hsize]
        rfl
      · rfl

theorem Refines.gaofsOpen_spec (h : Refines d P cl t) (hp : p.path ∈ P.paths) (hroom : Roomy d cl p.path)
    (mode : UInt32) {flags : UInt32}
    (htrunc : truncates flags → ∀ content, t.fileAt p.path = some content → content = [])
    (mem : UInt64 → Bytes) (fuel : Nat) :
    (∃ r, (gaofsOpen d mem mode flags (fuel + 1) p.path cl).1 = some r ∧
        Opens t p.path flags (t.openAt p.path mode flags).1 r) ∧
      Refines d P (gaofsOpen d mem mode flags (fuel + 1) p.path cl).2 (t.openAt p.path mode flags).2 := by
  have hturn : ∃ r c, openTurn d mem mode flags (p.path, cl) = .inr (some r, c) ∧
      Opens t p.path flags (t.openAt p.path mode flags).1 r ∧ Refines d P c (t.openAt p.path mode flags).2 := by
    obtain ⟨r, hexisting, hr⟩ := h.openExisting_spec hroom htrunc mem
    obtain ⟨hret, hnext, hsame⟩ := h.gaofsCreate_spec hp (mode ||| S_IFREG)
    rw [openTurn, FileTree.openAt]
    by_cases hno : hasFlag flags O_PATH = true ∨ hasFlag flags O_APPEND = true
    · rw [if_pos hno]
      refine ⟨.error ENOTSUP, cl, ?_, .error _, h⟩
      split
      · rfl
      · rw [if_pos (hno.resolve_left ‹_›)]
    · rw [if_neg hno, if_neg fun hpath => hno (.inl hpath), if_neg fun happend => hno (.inr happend), openCreate]
      by_cases hcreat : hasFlag flags O_CREAT = true
      · rw [if_pos hcreat, if_pos hcreat]
        by_cases hdir : hasFlag flags O_DIRECTORY = true
        · rw [if_pos hdir, if_pos hdir]
          refine ⟨.error ENOTSUP, cl, ?_, .error _, h⟩
          exact if_pos ⟨hcreat, .inl (by decide)⟩
        · rw [if_neg hdir, if_neg hdir]
          dsimp only
          rw [hret]
          cases hspec : t.create p.path (mode ||| S_IFREG) with
          | mk res t' =>
            rw [hspec] at hnext
            cases res with
            | ok u => exact ⟨_, _, rfl, .file, hnext⟩
            | error e =>
              have hstay := hsame e (by rw [hspec])
              rw [hstay]
              dsimp only
              by_cases hfail : e ≠ EEXIST ∨ hasFlag flags O_EXCL = true
              · rw [if_pos ⟨hcreat, hfail⟩, if_pos hfail]
                exact ⟨_, _, rfl, .error e, h⟩
              · rw [if_neg fun hboth => hfail hboth.2, if_neg hfail]
                exact ⟨r, cl, hexisting, hr, h⟩
      · rw [if_neg hcreat, if_neg hcreat]
        dsimp only
        rw [if_neg fun hboth => hcreat hboth.1]
        exact ⟨r, cl, hexisting, hr, h⟩
  obtain ⟨r, c, hturn, hr, hnext⟩ := hturn
  rw [gaofsOpen_succ, hturn]
  exact ⟨⟨r, rfl, hr⟩, hnext⟩

end Entries

section Data

theorem words_path (p : CanonicalPath) : words separator p.path = p.components := by
  by_cases h : p.components = []
  · rw [CanonicalPath.path, if_pos h, h]
    rfl
  · rw [CanonicalPath.path, if_neg h]
    exact words_joined fun c hc => Resolve.isWord_component (p.valid c hc)

theorem canonicalPath_injective {p q : CanonicalPath} (h : p.path = q.path) : p = q := by
  obtain ⟨cs, hcs⟩ := p
  obtain ⟨cs', hcs'⟩ := q
  have hwords : words separator (CanonicalPath.path ⟨cs, hcs⟩) = words separator (CanonicalPath.path ⟨cs', hcs'⟩) :=
    congrArg (words separator) h
  rw [words_path, words_path] at hwords
  obtain rfl : cs = cs' := hwords
  rfl

theorem filePath_injective {f g : FilePath} (h : f.path = g.path) : f = g := by
  obtain ⟨p, hp⟩ := f
  obtain ⟨q, hq⟩ := g
  obtain rfl : p = q := canonicalPath_injective h
  rfl

variable {d : SimpleHashDistributor} {P : PathSet} {cl : Cluster} {t : FileTree}

/-- The calls on a file, in the order of the list. -/
def callsOn (calls : List Pwrite) (f : FilePath) : List (Fin calls.length) :=
  (List.finRange calls.length).filter fun i => (calls.get i).file.path = f.path

theorem mem_callsOn {calls : List Pwrite} {f : FilePath} {i : Fin calls.length} :
    i ∈ callsOn calls f ↔ On f calls.get i := by
  rw [callsOn, List.mem_filter, decide_eq_true_iff, On]
  exact ⟨fun h => filePath_injective h.2, fun h => ⟨List.mem_finRange i, by rw [h]⟩⟩

theorem after_callsOn (calls : List Pwrite) (f : FilePath) (content : Bytes) :
    after calls.get (callsOn calls f) content =
      pwriteAll 0 (((writes calls).filter fun w => w.1 = f.path).map Prod.snd) content := by
  have hwrites : writes calls = (List.finRange calls.length).map fun i =>
      ((calls.get i).file.path, (calls.get i).start, (calls.get i).user) := by
    conv_lhs => rw [writes, ← List.map_get_finRange calls]
    rw [List.map_map]
    rfl
  rw [after, callsOn, hwrites, List.filter_map, List.map_map]
  rfl

theorem writeAll_of_unwritten {calls : List Pwrite} {path : Path}
    (h : ∀ i : Fin calls.length, path ≠ (calls.get i).file.path) : t.writeAll (writes calls) path = t path := by
  have hnone : (writes calls).filter (fun w => w.1 = path) = [] := by
    refine List.filter_eq_nil_iff.mpr fun w hw => ?_
    obtain ⟨c, hc, rfl⟩ := List.mem_map.mp hw
    obtain ⟨i, rfl⟩ := List.mem_iff_get.mp hc
    simpa using (h i).symm
  rw [FileTree.writeAll, hnone, List.map_nil]
  cases t path with
  | none => rfl
  | some n => rw [Option.map_some, Node.writeAll_nil]

theorem Refines.apart_calls (h : Refines d P cl t) {calls : List Pwrite} (hconc : Concurrent t calls.get)
    {f : FilePath} (hf : f.path ∈ P.paths) (i : Fin calls.length) (hi : ¬ On f calls.get i) :
    getChunksDir (calls.get i).file.path ≠ getChunksDir f.path := by
  obtain ⟨content, hcontent⟩ := Option.isSome_iff_exists.mp (hconc.regular i)
  obtain ⟨n, hn, -⟩ := FileTree.fileAt_eq_some.mp hcontent
  exact P.dirs_ne (h.named _ n hn) hf fun he => hi (filePath_injective he.symm)

section Flown

variable {calls : List Pwrite} {heap : Nat → UInt8} {es : List (Fin calls.length × Event)}

/-- A file after the calls have returned. -/
theorem Refines.flown_file (h : Refines d P cl t) (hconc : Concurrent t calls.get)
    (hok : ∀ e ∈ es, e.2.fails = false) (hdone : ∀ i, (result d calls.get (flown d cl calls heap es) i).isSome)
    {f : FilePath} {n : Node} (hn : t f.path = some n) (hreg : S_ISREG n.mode = true) :
    ∃ n', t.writeAll (writes calls) f.path = some n' ∧ n'.mode = n.mode ∧
      Stored d (flown d cl calls heap es).cl f (some n'.content) ∧
      recordAt (((flown d cl calls heap es).cl (metadataHost d f.path)).store f.path).key = some (record n') ∧
      ∀ i, On f calls.get i → result d calls.get (flown d cl calls heap es) i =
        some (Int64.ofNat (calls.get i).user.length) := by
  have hf := h.named f.path n hn
  have hfile : t.fileAt f.path = some n.content := FileTree.fileAt_eq_some.mpr ⟨n, hn, hreg, rfl⟩
  obtain ⟨md, hrec, hmode, hsize⟩ := h.recorded (isAbsolute_path f.toCanonicalPath) hn
  obtain ⟨hstored, hret, hentry⟩ := stored_run heap hconc hfile (hfile ▸ h.stored f hf) (h.apart_calls hconc hf)
    (List.Nodup.filter _ (List.nodup_finRange _)) (fun i => mem_callsOn) hok hdone
  obtain ⟨md', hrec', hmode', hsize'⟩ := hentry md hrec (hsize ▸ h.length_lt f.path n hn)
  rw [← callsOn, after_callsOn] at hstored hsize'
  refine ⟨n.writeAll (((writes calls).filter fun w => w.1 = f.path).map Prod.snd), by rw [FileTree.writeAll, hn]; rfl,
    Node.mode_writeAll _, ?_, recordAt_recorded hrec' ?_ ?_ ?_, hret⟩
  · rw [Node.content_writeAll hreg]
    exact hstored
  · rw [Node.mode_writeAll, hmode', hmode]
  · rw [Node.content_writeAll hreg, hsize']
  · rw [Node.content_writeAll hreg]
    exact hstored.1.length_lt

theorem Refines.flown_inv (h : Refines d P cl t) (hconc : Concurrent t calls.get) :
    Inv d (flown d cl calls heap es).cl := by
  have hgood : ∀ {s : State (Fin calls.length)} {f : FilePath} {md : Metadata}, InFlight d f calls.get md s →
      Good ((s.cl (metadataHost d f.path)).store f.path) := by
    intro s f md hflight
    obtain ⟨md', hrec, -, hlt, -⟩ := hflight.entry
    exact .inr ⟨md', hrec, hlt⟩
  have hstep : ∀ (s : State (Fin calls.length)) (e : Fin calls.length × Event),
      (Inv d s.cl ∧ ∀ i, ∃ md, InFlight d (calls.get i).file calls.get md s) →
      Inv d (StoredWrites.step d heap calls.get s e).cl ∧
        ∀ i, ∃ md, InFlight d (calls.get i).file calls.get md (StoredWrites.step d heap calls.get s e) := by
    rintro s e ⟨hinv, hflights⟩
    have hnext : ∀ i, ∃ md, InFlight d (calls.get i).file calls.get md (StoredWrites.step d heap calls.get s e) := by
      intro i
      obtain ⟨md, hflight⟩ := hflights i
      obtain ⟨content, hcontent⟩ := Option.isSome_iff_exists.mp (hconc.regular i)
      obtain ⟨n, hn, -⟩ := FileTree.fileAt_eq_some.mp hcontent
      exact ⟨md, inFlight_step hflight heap (h.apart_calls hconc (h.named _ n hn)) e⟩
    obtain ⟨md, hflight⟩ := hnext e.1
    exact ⟨inv_step hinv heap e (hgood hflight), hnext⟩
  have hstart : ∀ i, ∃ md, InFlight d (calls.get i).file calls.get md (start cl) := by
    intro i
    obtain ⟨content, hcontent⟩ := Option.isSome_iff_exists.mp (hconc.regular i)
    obtain ⟨n, hn, hreg, rfl⟩ := FileTree.fileAt_eq_some.mp hcontent
    obtain ⟨md, hrec, hmode, hsize⟩ := h.recorded (isAbsolute_path (calls.get i).file.toCanonicalPath) hn
    have hstored := h.stored _ (h.named _ n hn)
    rw [hcontent] at hstored
    exact ⟨md, inFlight_start hrec (hsize ▸ h.length_lt _ n hn) (hsize ▸ hstored.2.2)⟩
  exact (invariant_foldl hstep es ⟨h.inv, hstart⟩).1

theorem Refines.pwrites_spec (h : Refines d P cl t) (hconc : Concurrent t calls.get)
    (hok : ∀ e ∈ es, e.2.fails = false) (hdone : ∀ i, (result d calls.get (flown d cl calls heap es) i).isSome) :
    (List.finRange calls.length).map (result d calls.get (flown d cl calls heap es)) =
        calls.map (fun w => some (Int64.ofNat w.user.length)) ∧
      Refines d P (flown d cl calls heap es).cl (t.writeAll (writes calls)) := by
  have hregular : ∀ i : Fin calls.length, ∃ n, t (calls.get i).file.path = some n ∧ S_ISREG n.mode = true := by
    intro i
    obtain ⟨content, hcontent⟩ := Option.isSome_iff_exists.mp (hconc.regular i)
    obtain ⟨n, hn, hreg, -⟩ := FileTree.fileAt_eq_some.mp hcontent
    exact ⟨n, hn, hreg⟩
  refine ⟨?_, h.flown_inv hconc, fun q hq => ?_, fun q n hn => ?_, fun n hn => ?_, fun q n hn => ?_, fun f hf => ?_⟩
  · conv_rhs => rw [← List.map_get_finRange calls]
    rw [List.map_map]
    refine List.map_congr_left fun i _ => ?_
    obtain ⟨n, hn, hreg⟩ := hregular i
    obtain ⟨-, -, -, -, -, hret⟩ := h.flown_file hconc hok hdone hn hreg
    exact hret i rfl
  · by_cases hwritten : ∃ i : Fin calls.length, q = (calls.get i).file.path
    · obtain ⟨i, rfl⟩ := hwritten
      obtain ⟨n, hn, hreg⟩ := hregular i
      obtain ⟨n', hn', -, -, hrecord, -⟩ := h.flown_file hconc hok hdone hn hreg
      rw [hrecord, hn']
      rfl
    · have hother : ∀ i : Fin calls.length, q ≠ (calls.get i).file.path := fun i he => hwritten ⟨i, he⟩
      rw [flown, key_run_other heap hq hother, writeAll_of_unwritten hother, h.entry q hq]
  · obtain ⟨n', hn', -⟩ := Option.map_eq_some_iff.mp hn
    exact h.named q n' hn'
  · obtain ⟨n', hn', rfl⟩ := Option.map_eq_some_iff.mp hn
    rw [Node.mode_writeAll]
    exact h.root n' hn'
  · by_cases hwritten : ∃ i : Fin calls.length, q = (calls.get i).file.path
    · obtain ⟨i, rfl⟩ := hwritten
      obtain ⟨n₀, hn₀, hreg⟩ := hregular i
      obtain ⟨n', hn', -, hstored, -⟩ := h.flown_file hconc hok hdone hn₀ hreg
      rw [Option.some.inj (hn.symm.trans hn')]
      exact hstored.1.length_lt
    · rw [writeAll_of_unwritten fun i he => hwritten ⟨i, he⟩] at hn
      exact h.length_lt q n hn
  · cases hcontent : t.fileAt f.path with
    | none =>
      rw [FileTree.fileAt_writeAll, hcontent, Option.map_none]
      refine stored_run_other heap (hcontent ▸ h.stored f hf) (fun i => h.apart_calls hconc hf i fun hi => ?_) es
      have hsome := hconc.regular i
      rw [show (calls.get i).file = f from hi, hcontent] at hsome
      cases hsome
    | some content =>
      obtain ⟨n, hn, hreg, rfl⟩ := FileTree.fileAt_eq_some.mp hcontent
      obtain ⟨n', hn', hmode, hstored, -⟩ := h.flown_file hconc hok hdone hn hreg
      rw [FileTree.fileAt, hn', Option.bind_some, Node.file?_eq_some.mpr ⟨hmode ▸ hreg, rfl⟩]
      exact hstored

end Flown

theorem Refines.pread_spec (h : Refines d P cl t) {f : FilePath} {content : Bytes}
    (hfile : t.fileAt f.path = some content) {call : Pread} {order : UInt64 → List Nat}
    (horder : ∀ r ∈ call.requests d f.path, (order r.hostId).Perm (List.range r.chunkN.toNat))
    {arrivals : List Push} (harrivals : arrivals.Perm (pushes (served d cl f.path order (call.requests d f.path)))) :
    gaofsPreadResult ((served d cl f.path order (call.requests d f.path)).map fun out => out.map Prod.fst) =
        Int64.ofNat (pread call.offset.toUInt64.toNat call.buf.length content).length ∧
      ∀ (i : Nat) (v : UInt8), (pread call.offset.toUInt64.toNat call.buf.length content)[i]? = some v →
        (copyAll arrivals (call.buf.map some))[i]? = some (some v) := by
  obtain ⟨n, hn, -⟩ := FileTree.fileAt_eq_some.mp hfile
  have hstored := h.stored f (h.named _ n hn)
  rw [hfile] at hstored
  obtain ⟨hcontents, hfull, -⟩ := hstored
  exact pread_full hcontents hfull call horder harrivals

end Data

section Run

variable {d : SimpleHashDistributor} {P : PathSet}

theorem refines_started (d : SimpleHashDistributor) (P : PathSet) (roots : UInt64 → Bytes) :
    Refines d P (Listing.started roots) FileTree.init where
  inv := Listing.inv_started d roots
  entry path hpath := by
    rw [GaoFS.Tree.key_started roots _ hpath, FileTree.init]
    split
    · rw [recordAt_created]
      rfl
    · rfl
  named path n hn := by
    rw [FileTree.init] at hn
    split at hn
    · rename_i hroot
      rw [hroot]
      exact P.root_mem
    · cases hn
  root n hn := by
    obtain rfl := Option.some.inj hn
    rfl
  length_lt path n hn := by
    rw [FileTree.init] at hn
    split at hn
    · obtain rfl := Option.some.inj hn
      exact Nat.two_pow_pos 63
    · cases hn
  stored f hf := by
    have hne : f.path ≠ [separator] := fun hroot => f.components_ne (path_eq_root_iff.mp hroot)
    rw [FileTree.fileAt, FileTree.init, if_neg hne, Option.bind_none]
    rintro k - c (⟨-, hfirst⟩ | ⟨dir, -, hfile⟩)
    · refine hfirst ?_
      rw [Listing.started, startedHost, firstChunk_putStore_of_ne _ _ rfl hne]
      rfl
    · exact hfile rfl

/-- One call on the daemons is one call on the file system. -/
theorem Refines.step {s : Cluster × FileTree} {call : Call} (h : Refines d P s.1 s.2)
    (hcall : Allowed d P s.1 s.2 call) : Refines d P (step d s call).1 (step d s call).2 ∧
      Answers d s.2 call (perform d s.1 call).1 := by
  obtain ⟨cl, t⟩ := s
  change Refines d P cl t at h
  cases call with
  | create p mode =>
    obtain ⟨hret, hnext, -⟩ := h.gaofsCreate_spec hcall mode
    exact ⟨hnext, hret⟩
  | openAt p mode flags mem fuel =>
    obtain ⟨hp, hroom, htrunc⟩ := hcall
    obtain ⟨hret, hnext⟩ := h.gaofsOpen_spec hp hroom mode htrunc mem fuel
    exact ⟨hnext, hret⟩
  | access p followLinks fuel =>
    refine ⟨h, ?_⟩
    change gaofsAccess d cl followLinks fuel p.path = some ((FileTree.existing t p.path).map fun _ => ())
    rw [gaofsAccess, h.metadataOf_eq (isAbsolute_path p), FileTree.existing]
    cases t p.path <;> rfl
  | stat p conf mountdir followLinks fuel =>
    refine ⟨h, ?_⟩
    change gaofsStat d cl conf mountdir followLinks fuel p.path = some (match t p.path with
      | none => .error ENOENT
      | some n => .ok (metadataToStat d conf mountdir p.path (record n)))
    rw [gaofsStat, h.metadataOf_eq (isAbsolute_path p)]
    cases t p.path <;> rfl
  | opendir p mem => exact ⟨h, h.gaofsOpendir_spec (isAbsolute_path p) hcall mem 0⟩
  | remove p =>
    obtain ⟨hret, hnext⟩ := h.gaofsRemove_spec p
    exact ⟨hnext, hret⟩
  | rmdir p mem =>
    obtain ⟨hret, hnext⟩ := h.gaofsRmdir_spec p hcall mem
    exact ⟨hnext, hret⟩
  | pwrites calls heap es =>
    obtain ⟨hconc, hok, hdone⟩ := hcall
    obtain ⟨hret, hnext⟩ := h.pwrites_spec hconc hok hdone
    exact ⟨hnext, hret⟩
  | pread f call order arrivals =>
    obtain ⟨hfile, horder, harrivals⟩ := hcall
    obtain ⟨content, hfile⟩ := Option.isSome_iff_exists.mp hfile
    exact ⟨h, content, hfile, h.pread_spec hfile horder harrivals⟩

/-- Whatever calls are made, each one gets the reply that the file system gives, and in the end the
daemons hold what the file system has. -/
theorem calls_refine (d : SimpleHashDistributor) (P : PathSet) (roots : UInt64 → Bytes) (calls : List Call)
    (h : AllSteps (step d) (fun s call => Allowed d P s.1 s.2 call) (Listing.started roots, FileTree.init) calls) :
    AllSteps (step d) (fun s call => Answers d s.2 call (perform d s.1 call).1)
        (Listing.started roots, FileTree.init) calls ∧
      Refines d P (calls.foldl (step d) (Listing.started roots, FileTree.init)).1
        (calls.foldl (step d) (Listing.started roots, FileTree.init)).2 :=
  ⟨h.imp (I := fun s => Refines d P s.1 s.2) (fun _ _ hs hcall => hs.step hcall) (refines_started d P roots),
    h.invariant (I := fun s => Refines d P s.1 s.2) (fun _ _ hs hcall => (hs.step hcall).1) (refines_started d P roots)⟩

/-- Paths without a colon, which the name of a chunk directory has for each slash. -/
def colonFree : PathSet where
  paths := { path | ∃ p : CanonicalPath, p.path = path ∧ 58 ∉ path }
  root_mem := ⟨GaoFS.Tree.rootDir, rfl, by decide⟩
  apart := by
    rintro path ⟨p, rfl, hp⟩ path' ⟨q, rfl, hq⟩ hdir
    have hsame := (getChunksDir_eq_iff p q).mp hdir
    rw [DifferBeyondSeparators, not_or, not_not] at hsame
    obtain ⟨hlen, hat⟩ := hsame
    refine List.ext_getElem hlen fun i hi hj => ?_
    by_contra hne
    refine hat ⟨i, _, _, List.getElem?_eq_getElem hi, List.getElem?_eq_getElem hj, hne, ?_⟩
    rintro ⟨ha | ha, hb | hb⟩
    · exact hne (ha.trans hb.symm)
    · exact hq (hb ▸ List.getElem_mem hj)
    · exact hp (ha ▸ List.getElem_mem hi)
    · exact hp (ha ▸ List.getElem_mem hi)

/-- A file is created and written, read and removed. -/
def sampleCalls : List Call :=
  [.openAt plainFile.toCanonicalPath 0o644 (O_CREAT ||| O_RDWR) (fun _ => []) 0,
    .pwrites [twoCalls false] (fun _ => 0)
      [(0, .updateSize), (0, .act 0 (.visit true)), (0, .act 0 (.run 0)), (0, .act 0 (.run 0)),
        (0, .act 0 (.run 0)), (0, .act 0 .wait)],
    .pread plainFile ⟨[1, 1, 1], (twoCalls false).offset, by decide, by decide, (twoCalls false).offset_nonneg⟩
      (fun _ => [0]) [(0, [some 7])],
    .opendir GaoFS.Tree.rootDir fun _ => [],
    .remove plainFile.toCanonicalPath]

theorem allowed_sampleCalls : AllSteps (step twoHosts) (fun s call => Allowed twoHosts colonFree s.1 s.2 call)
    (Listing.started fun _ => text "/r", FileTree.init) sampleCalls := by
  have hone : ∀ i j : Fin 1, i = j := fun i j => Subsingleton.elim i j
  refine ⟨⟨⟨plainFile.toCanonicalPath, rfl, by decide +kernel⟩, by decide +kernel, fun hcut => ?_⟩,
    ⟨⟨by decide +kernel, fun i j _ _ _ _ => hone i j, fun i j _ _ _ => hone i j,
      fun i j _ => ?_, fun i content x _ _ hx => ⟨i, rfl, ?_, hx⟩⟩, by decide, by decide +kernel⟩,
    ⟨by decide +kernel, by decide +kernel, by decide +kernel⟩, ?_, trivial, trivial⟩
  · exact absurd hcut.1 (by decide)
  · obtain rfl : i = 0 := hone i 0
    cases j with
    | zero => decide
    | succ j =>
      intro h
      cases h
  · obtain rfl : i = 0 := hone i 0
    exact Nat.zero_le x
  · change Roomy twoHosts _ _
    decide +kernel

theorem calls_refine_sample :
    AllSteps (step twoHosts) (fun s call => Answers twoHosts s.2 call (perform twoHosts s.1 call).1)
        (Listing.started fun _ => text "/r", FileTree.init) sampleCalls ∧
      Refines twoHosts colonFree
        (sampleCalls.foldl (step twoHosts) (Listing.started fun _ => text "/r", FileTree.init)).1
        (sampleCalls.foldl (step twoHosts) (Listing.started fun _ => text "/r", FileTree.init)).2 :=
  calls_refine twoHosts colonFree (fun _ => text "/r") sampleCalls allowed_sampleCalls

end Run

end GaoFS.FileSystem
