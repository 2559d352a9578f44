import GaoFS.GaofsFunctions
import GaoFS.WriteRun

namespace GaoFS.FileSizes

open Arithmetic Chunks Replies ForwardData MetadataRecord MetadataKey Dirents GaofsFunctions
open Library.NumberText Library.Blocks Library.Runs

variable {d : SimpleHashDistributor}

/-- An entry of the file map. `gaofs_open` makes none with `O_APPEND`. -/
structure OpenFile where
  type : FileType
  path : Path
  flags : UInt32
  pos : UInt64
  noAppend : hasFlag flags O_APPEND = false

/-- Answers of the data hosts to the write messages of one `gaofs_pwrite`. None of
them counts more bytes than its message is about. -/
structure DataHosts (d : SimpleHashDistributor) where
  reply : DataIn → Option DataOut
  bounded : ∀ {path : Path} {o n : Nat} {r : DataIn} {out : DataOut}, Plans d path o n r → 0 < n →
    n < 2 ^ 63 → o + n < 2 ^ 64 → reply r = some out → out.ioSize ≤ r.totalChunkSize

/-- Daemons that each work on their message in some order of steps, with transfers that may fail. -/
def DataHosts.ofRun {α : Type*} (user : List α) (as : UInt64 → List WriteRun.Act) : DataHosts d where
  reply r := ((as r.hostId).foldl (WriteRun.Srv.step d.strHash user) (WriteRun.Srv.init r)).reply
  bounded hr hn hn' hon hout := WriteRun.run_bounded hr hn hn' hon _ hout

/-- What a call has an effect on besides its position: `errno`, and what the
metadata host has of the file. -/
structure Io where
  errno : Int32
  store : Store

def Io.fail (io : Io) (e : Int32) : Option Int64 × Io := (some (-1), { io with errno := e })

def forwardUpdateMetadentrySize (s : Store) (size : UInt64) (offset : Int64) (append : Bool) :
    (Int32 × Int64) × Store :=
  let out := rpcSrvUpdateMetadentrySize s size offset append
  (match out.1 with
    | none => (EBUSY, 0)
    | some r => if r.err ≠ 0 then (r.err, 0) else (0, r.retSize), out.2)

def forwardGetMetadentrySize (s : Store) : Int32 × Int64 :=
  match rpcSrvGetMetadentrySize s with
  | none => (EBUSY, 0)
  | some r => if r.err ≠ 0 then (r.err, 0) else (0, r.retSize)

section Functions

variable (f : OpenFile)

/-- Without a result the client dies of the assertion that there is something to write. -/
def gaofsPwrite (hosts : DataHosts d) (count : UInt64) (offset : Int64) (io : Io) : Option Int64 × Io :=
  if f.type = .directory then io.fail EISDIR
  else
    let append := hasFlag f.flags O_APPEND
    let upd := forwardUpdateMetadentrySize io.store count offset append
    let io := { io with store := upd.2 }
    if upd.1.1 ≠ 0 then io.fail upd.1.1
    else if count = 0 then (none, io)
    else
      let w := collectReplies ((forwardWrite d f.path append offset count upd.1.2).map hosts.reply)
      if w.1 ≠ 0 then io.fail w.1 else (some w.2, io)

def SEEK_SET : UInt32 := 0
def SEEK_CUR : UInt32 := 1
def SEEK_END : UInt32 := 2

/-- `gaofs_lseek`, with the position afterwards. Sums wrap around. -/
def gaofsLseek (offset : Int64) (whence : UInt32) (io : Io) : (Int64 × Io) × UInt64 :=
  let invalid (e : Int32) : (Int64 × Io) × UInt64 := ((-1, { io with errno := e }), f.pos)
  let moved (pos : UInt64) : (Int64 × Io) × UInt64 := ((pos.toInt64, io), pos)
  if whence = SEEK_SET then
    if offset < 0 then invalid EINVAL else moved offset.toUInt64
  else if whence = SEEK_CUR then moved (f.pos + offset.toUInt64)
  else if whence = SEEK_END then
    let ret := forwardGetMetadentrySize io.store
    if ret.1 ≠ 0 then invalid ret.1
    else if offset < 0 ∧ ret.2 < -offset then invalid EINVAL
    else moved (ret.2 + offset).toUInt64
  else invalid EINVAL

/-- `gaofs_write`, with the position afterwards. It writes where the file stood
before an append moves it. -/
def gaofsWrite (hosts : DataHosts d) (count : UInt64) (io : Io) : (Option Int64 × Io) × UInt64 :=
  let moved := if hasFlag f.flags O_APPEND then gaofsLseek f 0 SEEK_END io else ((0, io), f.pos)
  let out := gaofsPwrite f hosts count f.pos.toInt64 moved.1.2
  (out, match out.1 with
    | some ret => if 0 < ret then f.pos + count else moved.2
    | none => moved.2)

/-- The loop of `gaofs_pwritev`. -/
def pwritevLoop : List (UInt64 × DataHosts d) → Int64 → Int64 → Io → Option Int64 × Io
  | [], _, written, io => (some written, io)
  | (count, hosts) :: iov, pos, written, io =>
    if count = 0 then pwritevLoop iov pos written io
    else match gaofsPwrite f hosts count pos io with
      | (none, io) => (none, io)
      | (some ret, io) =>
        if ret = -1 then (some written, io)
        else if ret.toUInt64 < count then (some (written + ret), io)
        else pwritevLoop iov (pos + ret) (written + ret) io

def gaofsPwritev (iov : List (UInt64 × DataHosts d)) (offset : Int64) (io : Io) : Option Int64 × Io :=
  let out := pwritevLoop f iov offset 0 io
  (out.1.map fun written => if written = 0 then -1 else written, out.2)

/-- `gaofs_writev`, with the position afterwards. -/
def gaofsWritev (iov : List (UInt64 × DataHosts d)) (io : Io) : (Option Int64 × Io) × UInt64 :=
  let out := gaofsPwritev f iov f.pos.toInt64 io
  match out.1 with
  | none => (out, f.pos)
  | some ret =>
    if ret < 0 then ((some (-1), out.2), f.pos) else (out, (f.pos.toInt64 + ret).toUInt64)

end Functions

section Truncate

/-- The files by path, each on its metadata host. -/
abbrev Stores := Path → Store

def forwardStat (s : Store) : Except Int32 Bytes :=
  match rpcSrvStat s with
  | none => .error EBUSY
  | some out => if out.err ≠ 0 then .error out.err else .ok (out.dbVal.getD [])

def parse (attr : Bytes) : Option (Except Int32 Metadata) :=
  match Metadata.decode config attr with
  | .ok md => some (.ok md)
  | .error _ => none

/-- `gaofs::utils::get_metadata` that follows links, at most `fuel` of them. No
result is a record that cannot be parsed, or too many links. -/
def getMetadataFollow (stores : Stores) : Nat → Path → Option (Except Int32 Metadata)
  | 0, _ => none
  | fuel + 1, path =>
    match forwardStat (stores path) with
    | .error e => some (.error e)
    | .ok attr => match parse attr with
      | some (.ok md) => if S_ISLNK md.mode then getMetadataFollow stores fuel md.targetPath else some (.ok md)
      | r => r

def AllSucceed (reply : UInt32 → Option Int32) (hosts : Finset UInt32) : Prop :=
  ∀ k ∈ hosts, reply k = some 0

instance decidableAllSucceed (reply : UInt32 → Option Int32) (hosts : Finset UInt32) :
    Decidable (AllSucceed reply hosts) := Finset.decidableDforallFinset

/-- `gaofs_truncate(path, offset)`. The data hosts that `forward_truncate` finds
answer `reply`, and its two assertions have no result. -/
def gaofsTruncate (d : SimpleHashDistributor) (stores : Stores) (path : Path) (offset : Int64)
    (reply : UInt32 → Option Int32) (fuel : Nat) (io : Io) : Option Int64 × Io :=
  if offset < 0 then io.fail EINVAL
  else match getMetadataFollow stores fuel path with
    | none => (none, io)
    | some (.error e) => io.fail e
    | some (.ok md) =>
      if md.size < offset.toUInt64 then io.fail EINVAL
      else if md.size.toInt64 < offset then (none, io)
      else if offset = md.size.toInt64 then (some 0, io)
      else
        let decr := rpcSrvDecrSize io.store offset.toUInt64
        let io := { io with store := decr.2 }
        let err := decr.1.getD EBUSY
        if err ≠ 0 then io.fail err
        else if shrinks : offset.toUInt64 < md.size then
          match ForwardTruncate.forwardTruncate d path ⟨md.size, offset.toUInt64, shrinks⟩ fuel with
          | none => (none, io)
          | some hosts =>
            if AllSucceed reply hosts then (some 0, io) else io.fail EIO
        else (none, io)

end Truncate

section Hooks

variable {ρ : Type*} [DecidableEq ρ]

/-- A client process: its descriptors, the files behind them, of which several
descriptors may share one, `errno`, and the files' entries on their metadata hosts. -/
structure Client (ρ : Type*) where
  fileMap : Int32 → Option ρ
  file : ρ → OpenFile
  errno : Int32
  stores : Stores

inductive Call (d : SimpleHashDistributor) where
  | lseek (fd : Int32) (offset : Int64) (whence : UInt32)
  | write (fd : Int32) (count : UInt64) (hosts : DataHosts d)
  | pwrite (fd : Int32) (count : UInt64) (pos : Int64) (hosts : DataHosts d)
  | writev (fd : Int32) (iov : List (UInt64 × DataHosts d))
  | pwritev (fd : Int32) (iov : List (UInt64 × DataHosts d)) (pos : Int64)
  | ftruncate (fd : Int32) (length : UInt64) (reply : UInt32 → Option Int32) (fuel : Nat)

def Call.fd : Call d → Int32
  | .lseek fd _ _ => fd
  | .write fd _ _ => fd
  | .pwrite fd _ _ _ => fd
  | .writev fd _ => fd
  | .pwritev fd _ _ => fd
  | .ftruncate fd _ _ _ => fd

/-- What a hook returns for an open file, and the file's position and `Io` afterwards. -/
def hookFile (stores : Stores) (f : OpenFile) (io : Io) : Call d → (Option Int64 × Io) × UInt64
  | .lseek _ offset whence =>
    let out := gaofsLseek f offset whence io
    ((some (lseekErrno out.1.2.errno out.1.1), out.1.2), out.2)
  | .write _ count hosts =>
    let out := gaofsWrite f hosts count io
    ((out.1.1.map (withErrno out.1.2.errno), out.1.2), out.2)
  | .pwrite _ count pos hosts =>
    let out := gaofsPwrite f hosts count pos io
    ((out.1.map (withErrno out.2.errno), out.2), f.pos)
  | .writev _ iov =>
    let out := gaofsWritev f iov io
    ((out.1.1.map (withErrno out.1.2.errno), out.1.2), out.2)
  | .pwritev _ iov pos =>
    let out := gaofsPwritev f iov pos io
    ((out.1.map (withErrno out.2.errno), out.2), f.pos)
  | .ftruncate _ length reply fuel =>
    let out := gaofsTruncate d stores f.path length.toInt64 reply fuel io
    ((out.1.map (withErrno out.2.errno), out.2), f.pos)

/-- Other descriptors are the kernel's: such a call has no result here. -/
def hook (c : Client ρ) (call : Call d) : Option Int64 × Client ρ :=
  match c.fileMap call.fd with
  | none => (none, c)
  | some r =>
    let f := c.file r
    let out := hookFile c.stores f ⟨c.errno, c.stores f.path⟩ call
    (out.1.1,
      { c with
        file := Function.update c.file r { f with pos := out.2 }
        errno := out.1.2.errno
        stores := Function.update c.stores f.path out.1.2.store })

def step (c : Client ρ) (call : Call d) : Client ρ := (hook c call).2

end Hooks

/-- A range whose bytes a signed offset can name. -/
def InRange (offset : Int64) (count : Nat) : Prop := 0 ≤ offset.toInt ∧ offset.toInt + count ≤ 2 ^ 63 - 1

instance decidableInRange (offset : Int64) (count : Nat) : Decidable (InRange offset count) :=
  inferInstanceAs (Decidable (_ ∧ _))

def total (iov : List (UInt64 × DataHosts d)) : Nat := (iov.map fun v => v.1.toNat).sum

/-- The offset in the file and the count of a call. A relative seek has neither. -/
def range (f : OpenFile) : Call d → Option (Int64 × Nat)
  | .lseek _ offset whence => if whence = SEEK_SET then some (offset, 0) else none
  | .write _ count _ => some (f.pos.toInt64, count.toNat)
  | .pwrite _ count pos _ => some (pos, count.toNat)
  | .writev _ iov => some (f.pos.toInt64, total iov)
  | .pwritev _ iov pos => some (pos, total iov)
  | .ftruncate _ length _ _ => some (length.toInt64, 0)

/-- Calls that fail before they send a size: the file is a directory, the new
position or length is negative, or there is nothing to write and `errno` is set. -/
def Refused (f : OpenFile) (errno : Int32) : Call d → Prop
  | .lseek _ _ _ => True
  | .write _ _ _ => f.type = .directory
  | .pwrite _ _ _ _ => f.type = .directory
  | .writev _ iov => if total iov = 0 then 0 < errno else f.type = .directory
  | .pwritev _ iov _ => if total iov = 0 then 0 < errno else f.type = .directory
  | .ftruncate _ _ _ _ => True

/-- A call on an open file stays in range, or is refused for another reason. -/
def Safe {ρ : Type*} (c : Client ρ) (call : Call d) : Prop :=
  ∀ r ∈ c.fileMap call.fd, ∀ o ∈ range (c.file r) call,
    InRange o.1 o.2 ∨ Refused (c.file r) c.errno call

/-- The daemons and the clients can parse every record that is stored. -/
structure Representable {ρ : Type*} (c : Client ρ) : Prop where
  daemon : ∀ path, NotFound (c.stores path).key ∨
    ∃ md, getMetadata (c.stores path).key = some (.ok md) ∧ md.size.toNat ≤ 2 ^ 63 - 1
  client : ∀ path attr, forwardStat (c.stores path) = .ok attr → ∃ md, parse attr = some (.ok md)

/-- A call out of range fails and leaves all sizes alone. -/
def Rejected {ρ : Type*} [DecidableEq ρ] (c : Client ρ) (call : Call d) : Prop :=
  ∀ r ∈ c.fileMap call.fd, ∀ o ∈ range (c.file r) call, ¬ InRange o.1 o.2 →
    ∃ ret, (hook c call).1 = some ret ∧ ret < 0 ∧ (hook c call).2.stores = c.stores

def Sized (s : Store) : Prop := ∃ md, Recorded s.key md ∧ md.size.toNat < 2 ^ 63

/-- Every file has no record or a good one, and the open files have one. -/
structure Ready {ρ : Type*} (c : Client ρ) : Prop where
  good : ∀ path, Good (c.stores path)
  opened : ∀ fd, ∀ r ∈ c.fileMap fd, Sized (c.stores (c.file r).path)

section Write

variable {f : OpenFile} {hosts : DataHosts d} {count : UInt64} {offset : Int64} {io : Io}

variable (f hosts) in
theorem gaofsPwrite_directory (h : f.type = .directory) :
    gaofsPwrite f hosts count offset io = io.fail EISDIR := if_pos h

theorem gaofsPwrite_key (h : f.type ≠ .directory) :
    (gaofsPwrite f hosts count offset io).2.store.key =
      io.store.key.merge (.increaseSize (count + offset.toUInt64) false) := by
  rw [gaofsPwrite, if_neg h, f.noAppend]
  dsimp only
  split
  · rfl
  · split
    · rfl
    · split <;> rfl

theorem toNat_end (h : InRange offset count.toNat) :
    (count + offset.toUInt64).toNat = offset.toUInt64.toNat + count.toNat ∧
      offset.toUInt64.toNat + count.toNat < 2 ^ 63 := by
  obtain ⟨hpos, hend⟩ := h
  have hoff : offset.toInt = offset.toUInt64.toNat := toInt_of_nonneg (Int64.le_iff_toInt_le.mpr hpos)
  refine ⟨?_, by omega⟩
  rw [UInt64.toNat_add, Nat.mod_eq_of_lt (by omega), Nat.add_comm]

theorem Sized.merge {s s' : Store} (h : Sized s) {op : MergeOperator.MergeOperand}
    (hkey : s'.key = s.key.merge op)
    (hop : ∀ size : UInt64, size.toNat < 2 ^ 63 → (op.resize size).toNat < 2 ^ 63) : Sized s' := by
  obtain ⟨md, hmd, hlt⟩ := h
  exact ⟨md.resized (op.resize md.size), by rw [hkey]; exact hmd.merge op, hop _ hlt⟩

variable (f hosts) in
theorem gaofsPwrite_sized (hs : Sized io.store) (hin : InRange offset count.toNat) :
    Sized (gaofsPwrite f hosts count offset io).2.store := by
  by_cases h : f.type = .directory
  · rw [gaofsPwrite_directory f hosts h]
    exact hs
  · apply hs.merge (gaofsPwrite_key h)
    intro size hsize
    obtain ⟨hsum, hlt⟩ := toNat_end hin
    change (max size (count + offset.toUInt64)).toNat < 2 ^ 63
    rw [MergeOperator.toNat_max, hsum]
    exact max_lt hsize hlt

/-- In range a write returns -1 or at most what it was to write. -/
theorem gaofsPwrite_ret (hcount : count ≠ 0) (hin : InRange offset count.toNat) {ret : Int64}
    (hret : (gaofsPwrite f hosts count offset io).1 = some ret) :
    ret = -1 ∨ ret.toUInt64.toNat ≤ count.toNat := by
  by_cases h : f.type = .directory
  · rw [gaofsPwrite_directory f hosts h] at hret
    exact .inl (Option.some.inj hret).symm
  · obtain ⟨-, hlt⟩ := toNat_end hin
    have hn : 0 < count.toNat := Nat.pos_of_ne_zero fun h0 => hcount (UInt64.toNat_inj.mp h0)
    rw [gaofsPwrite, if_neg h, f.noAppend] at hret
    dsimp only at hret
    have hupd : forwardUpdateMetadentrySize io.store count offset false =
        ((0, (offset.toUInt64 + count).toInt64), (rpcSrvUpdateMetadentrySize io.store count offset false).2) :=
      rfl
    have hreqs : forwardWrite d f.path false offset count (offset.toUInt64 + count).toInt64 =
        dataRequests d f.path offset.toUInt64 count := by
      rw [forwardWrite, if_neg Bool.false_ne_true, UInt64.toUInt64_toInt64, UInt64.add_sub_cancel]
    rw [hupd] at hret
    dsimp only at hret
    rw [if_neg (by decide), if_neg hcount, hreqs] at hret
    have hon : offset.toUInt64.toNat + count.toNat < 2 ^ 64 := by omega
    have hplans : ∀ r ∈ dataRequests d f.path offset.toUInt64 count,
        Plans d f.path offset.toUInt64.toNat count.toNat r := dataRequests_plans rfl rfl hn (by omega) hon
    obtain ⟨hnodup, hmem⟩ := dataRequests_hosts d f.path (rfl : offset.toUInt64.toNat = _)
      (rfl : count.toNat = _) hn hon
    have hsum := WriteRun.sum_replies hplans hnodup (fun k hk => List.mem_map.mp ((hmem k).mpr hk)) hn
    split at hret
    · exact .inl (Option.some.inj hret).symm
    · rename_i hok
      right
      have hfold : (((dataRequests d f.path offset.toUInt64 count).map hosts.reply).foldl collectReply
          (0, 0)).1 = 0 := by
        by_contra hne
        simp only [collectReplies, ne_eq, hne, not_false_eq_true, if_true, not_true_eq_false] at hok
      have hle := collectReply_le (s := 0) (fun r hr out hout =>
        hosts.bounded (hplans r hr) hn (by omega) hon hout) (by rw [hsum, UInt64.toNat_zero]; omega) hfold
      rw [hsum] at hle
      rw [collectReplies, hfold] at hret
      obtain rfl := Option.some.inj hret
      simpa using hle

end Write

section Vector

variable {f : OpenFile} {io : Io} {iov : List (UInt64 × DataHosts d)}

theorem toInt_add_of_le {pos ret : Int64} {n : Nat} (hpos : 0 ≤ pos.toInt) (hret : ret.toUInt64.toNat = n)
    (hend : pos.toInt + n ≤ 2 ^ 63 - 1) : (pos + ret).toInt = pos.toInt + n := by
  have hval : ret.toInt = n := by
    rw [toInt_eq_toNat (by omega), hret]
  rw [Int64.toInt_add, hval, Int.bmod_eq_of_le (by omega) (by omega)]

/-- All pieces of a vector in range are in range. -/
theorem pwritevLoop_sized {pos written : Int64} (hs : Sized io.store) (hin : InRange pos (total iov)) :
    Sized (pwritevLoop f iov pos written io).2.store := by
  induction iov generalizing pos written io with
  | nil => exact hs
  | cons v iov ih =>
    obtain ⟨count, hosts⟩ := v
    obtain ⟨hpos, hend⟩ := hin
    have htotal : total ((count, hosts) :: iov) = count.toNat + total iov := rfl
    rw [htotal] at hend
    rw [pwritevLoop]
    split
    · exact ih hs ⟨hpos, by omega⟩
    · rename_i hcount
      have hin : InRange pos count.toNat := ⟨hpos, by omega⟩
      have hpiece := gaofsPwrite_sized f hosts hs hin
      split
      · rename_i io' hout
        rw [hout] at hpiece
        exact hpiece
      · rename_i ret io' hout
        rw [hout] at hpiece
        split
        · exact hpiece
        · rename_i hne
          split
          · exact hpiece
          · rename_i hge
            have hret := gaofsPwrite_ret hcount hin (congrArg Prod.fst hout)
            have hall : ret.toUInt64.toNat = count.toNat := by
              rw [UInt64.lt_iff_toNat_lt] at hge
              have hle := hret.resolve_left hne
              omega
            have hnext := toInt_add_of_le hpos hall (by omega)
            exact ih hpiece ⟨by omega, by omega⟩

theorem pwritevLoop_directory (h : f.type = .directory) (pos : Int64) :
    pwritevLoop f iov pos 0 io =
      (some 0, if total iov = 0 then io else { io with errno := EISDIR }) := by
  induction iov with
  | nil => rfl
  | cons v iov ih =>
    obtain ⟨count, hosts⟩ := v
    have htotal : total ((count, hosts) :: iov) = count.toNat + total iov := rfl
    rw [pwritevLoop]
    split
    · rename_i hcount
      rw [ih, htotal, hcount, UInt64.toNat_zero, Nat.zero_add]
    · rename_i hcount
      have hne : total ((count, hosts) :: iov) ≠ 0 := by
        have hpos : count.toNat ≠ 0 := fun h0 => hcount (UInt64.toNat_inj.mp h0)
        omega
      rw [gaofsPwrite_directory f hosts h, if_neg hne]
      rfl

theorem pwritevLoop_empty (h : total iov = 0) (pos written : Int64) :
    pwritevLoop f iov pos written io = (some written, io) := by
  induction iov with
  | nil => rfl
  | cons v iov ih =>
    obtain ⟨count, hosts⟩ := v
    have htotal : total ((count, hosts) :: iov) = count.toNat + total iov := rfl
    have hcount : count = 0 := UInt64.toNat_inj.mp (by rw [UInt64.toNat_zero]; omega)
    rw [pwritevLoop, if_pos hcount, ih (by omega)]

end Vector

section Step

variable {stores : Stores} {f : OpenFile} {io : Io} {call : Call d}

theorem gaofsLseek_store (f : OpenFile) (offset : Int64) (whence : UInt32) (io : Io) :
    (gaofsLseek f offset whence io).1.2.store = io.store := by
  simp only [gaofsLseek]
  split_ifs <;> rfl

theorem gaofsWrite_eq (hosts : DataHosts d) (count : UInt64) :
    (gaofsWrite f hosts count io).1 = gaofsPwrite f hosts count f.pos.toInt64 io := by
  rw [gaofsWrite, f.noAppend]
  rfl

theorem gaofsWritev_eq (iov : List (UInt64 × DataHosts d)) :
    (gaofsWritev f iov io).1.2 = (gaofsPwritev f iov f.pos.toInt64 io).2 := by
  simp only [gaofsWritev]
  split
  · rfl
  · split <;> rfl

theorem sized_decr {s : Store} (hs : Sized s) {length : Int64} (h : ¬ length < 0) :
    Sized (rpcSrvDecrSize s length.toUInt64).2 := by
  have hlen := toInt_of_nonneg (Int64.not_lt.mp h)
  have hlt := length.toInt_lt
  have hop : ∀ size : UInt64, size.toNat < 2 ^ 63 →
      ((MergeOperator.MergeOperand.decreaseSize length.toUInt64).resize size).toNat < 2 ^ 63 := by
    intro size hsize
    change length.toUInt64.toNat < 2 ^ 63
    omega
  exact hs.merge rfl hop

theorem gaofsTruncate_sized (hs : Sized io.store) (path : Path) (length : Int64)
    (reply : UInt32 → Option Int32) (fuel : Nat) :
    Sized (gaofsTruncate d stores path length reply fuel io).2.store := by
  rw [gaofsTruncate]
  split
  · exact hs
  · rename_i hlen
    have hdecr := sized_decr hs hlen
    split
    · exact hs
    · exact hs
    · dsimp only
      split_ifs
      · exact hs
      · exact hs
      · exact hs
      · exact hdecr
      · split
        · exact hdecr
        · split_ifs <;> exact hdecr
      · exact hdecr

theorem gaofsPwritev_sized {iov : List (UInt64 × DataHosts d)} {pos : Int64} (hs : Sized io.store)
    (hin : InRange pos (total iov)) : Sized (gaofsPwritev f iov pos io).2.store :=
  pwritevLoop_sized hs hin

theorem hookFile_sized (hs : Sized io.store) (hin : ∀ o ∈ range f call, InRange o.1 o.2) :
    Sized (hookFile stores f io call).1.2.store := by
  cases call with
  | lseek fd offset whence =>
    change Sized (gaofsLseek f offset whence io).1.2.store
    rw [gaofsLseek_store]
    exact hs
  | write fd count hosts =>
    change Sized (gaofsWrite f hosts count io).1.2.store
    rw [gaofsWrite_eq]
    exact gaofsPwrite_sized _ _ hs (hin (f.pos.toInt64, count.toNat) rfl)
  | pwrite fd count pos hosts =>
    change Sized (gaofsPwrite f hosts count pos io).2.store
    exact gaofsPwrite_sized _ _ hs (hin (pos, count.toNat) rfl)
  | writev fd iov =>
    change Sized (gaofsWritev f iov io).1.2.store
    rw [gaofsWritev_eq]
    exact gaofsPwritev_sized hs (hin (f.pos.toInt64, total iov) rfl)
  | pwritev fd iov pos =>
    change Sized (gaofsPwritev f iov pos io).2.store
    exact gaofsPwritev_sized hs (hin (pos, total iov) rfl)
  | ftruncate fd length reply fuel =>
    change Sized (gaofsTruncate d stores f.path length.toInt64 reply fuel io).2.store
    exact gaofsTruncate_sized hs _ _ _ _

/-- A vector that is refused fails. -/
theorem gaofsPwritev_refused {iov : List (UInt64 × DataHosts d)}
    (h : if total iov = 0 then 0 < io.errno else f.type = .directory) (pos : Int64) :
    ∃ e, 0 < e ∧ gaofsPwritev f iov pos io = (some (-1), { io with errno := e }) := by
  split at h
  · rename_i hnone
    refine ⟨io.errno, h, ?_⟩
    rw [gaofsPwritev, pwritevLoop_empty hnone]
    rfl
  · rename_i hsome
    refine ⟨EISDIR, by decide, ?_⟩
    rw [gaofsPwritev, pwritevLoop_directory h, if_neg hsome]
    rfl

variable (stores) in
theorem hookFile_refused {o : Int64 × Nat} (ho : o ∈ range f call) (hout : ¬ InRange o.1 o.2)
    (h : Refused f io.errno call) :
    ∃ ret, (hookFile stores f io call).1.1 = some ret ∧ ret < 0 ∧
      (hookFile stores f io call).1.2.store = io.store := by
  have hnegative : ∀ offset : Int64, ¬ InRange offset 0 → offset < 0 := by
    intro offset hoffset
    have hlt := offset.toInt_lt
    rw [Int64.lt_iff_toInt_lt, Int64.toInt_zero]
    simp only [InRange] at hoffset
    omega
  cases call with
  | lseek fd offset whence =>
    simp only [range, Option.mem_def, Option.ite_none_right_eq_some, Option.some.injEq] at ho
    obtain ⟨rfl, rfl⟩ := ho
    refine ⟨(-EINVAL).toInt64, ?_, by decide, ?_⟩
    · simp only [hookFile, gaofsLseek, if_true, if_pos (hnegative _ hout)]
      rfl
    · simp only [hookFile, gaofsLseek, if_true, if_pos (hnegative _ hout)]
  | write fd count hosts =>
    refine ⟨_, ?_, withErrno_neg (e := EISDIR) (by decide), ?_⟩
    · simp only [hookFile, gaofsWrite_eq, gaofsPwrite_directory f hosts h]
      rfl
    · simp only [hookFile, gaofsWrite_eq, gaofsPwrite_directory f hosts h]
      rfl
  | pwrite fd count pos hosts =>
    refine ⟨_, ?_, withErrno_neg (e := EISDIR) (by decide), ?_⟩
    · simp only [hookFile, gaofsPwrite_directory f hosts h]
      rfl
    · simp only [hookFile, gaofsPwrite_directory f hosts h]
      rfl
  | writev fd iov =>
    obtain ⟨e, he, hret⟩ := gaofsPwritev_refused h f.pos.toInt64
    refine ⟨_, ?_, withErrno_neg he, ?_⟩
    · simp only [hookFile, gaofsWritev, hret]
      rfl
    · simp only [hookFile, gaofsWritev_eq, hret]
  | pwritev fd iov pos =>
    obtain ⟨e, he, hret⟩ := gaofsPwritev_refused h pos
    refine ⟨_, ?_, withErrno_neg he, ?_⟩
    · simp only [hookFile, hret]
      rfl
    · simp only [hookFile, hret]
  | ftruncate fd length reply fuel =>
    obtain rfl := Option.some.inj ho
    have hneg := hnegative _ hout
    refine ⟨_, ?_, withErrno_neg (e := EINVAL) (by decide), ?_⟩
    · simp only [hookFile, gaofsTruncate, if_pos hneg]
      rfl
    · simp only [hookFile, gaofsTruncate, if_pos hneg]
      rfl

end Step

section Run

variable {ρ : Type*} {c : Client ρ} {call : Call d}

theorem Sized.good {s : Store} (h : Sized s) : Good s := .inr h

theorem Ready.representable (h : Ready c) : Representable c where
  daemon path := by
    cases h.good path with
    | inl habs => exact .inl (by rw [habs]; exact notFound_absent)
    | inr hrec =>
      obtain ⟨md, hmd, hlt⟩ := hrec
      exact .inr ⟨_, getMetadata_recorded hmd hlt, Nat.le_sub_one_of_lt hlt⟩
  client path attr hattr := by
    rw [forwardStat, rpcSrvStat] at hattr
    cases h.good path with
    | inl habs =>
      rw [habs] at hattr
      cases hattr
    | inr hrec =>
      obtain ⟨md, hmd, hlt⟩ := hrec
      simp only [getStr_recorded hmd, Option.map_some, statErr, cString_serialize, ne_eq,
        not_true_eq_false, if_false, Option.getD_some] at hattr
      obtain rfl := Except.ok.inj hattr
      exact ⟨md.kept config, by rw [parse, decode_serialize config md hlt]⟩

variable [DecidableEq ρ]

theorem hook_eq {r : ρ} (hr : c.fileMap call.fd = some r) :
    let f := c.file r
    let out := hookFile c.stores f ⟨c.errno, c.stores f.path⟩ call
    (hook c call).1 = out.1.1 ∧
      (hook c call).2.stores = Function.update c.stores f.path out.1.2.store := by
  rw [hook, hr]
  exact ⟨rfl, rfl⟩

theorem Safe.rejected (h : Safe c call) : Rejected c call := by
  intro r hr o ho hout
  obtain ⟨hret, hstores⟩ := hook_eq hr
  have hrefused : Refused (c.file r) (⟨c.errno, c.stores (c.file r).path⟩ : Io).errno call :=
    (h r hr o ho).resolve_left hout
  obtain ⟨ret, hfile, hneg, hstore⟩ := hookFile_refused c.stores ho hout hrefused
  exact ⟨ret, hret.trans hfile, hneg, by rw [hstores, hstore, Function.update_eq_self]⟩

theorem Ready.step (h : Ready c) (hsafe : Safe c call) : Ready (step c call) := by
  cases hr : c.fileMap call.fd with
  | none =>
    rw [FileSizes.step, hook, hr]
    exact h
  | some r =>
    obtain ⟨-, hstores⟩ := hook_eq hr
    have hs : Sized (hookFile c.stores (c.file r) ⟨c.errno, c.stores (c.file r).path⟩ call).1.2.store := by
      by_cases hin : ∀ o ∈ range (c.file r) call, InRange o.1 o.2
      · exact hookFile_sized (h.opened _ r hr) hin
      · push Not at hin
        obtain ⟨o, ho, hout⟩ := hin
        have hrefused : Refused (c.file r) (⟨c.errno, c.stores (c.file r).path⟩ : Io).errno call :=
          (hsafe r hr o ho).resolve_left hout
        obtain ⟨ret, -, -, hstore⟩ := hookFile_refused c.stores ho hout hrefused
        rw [hstore]
        exact h.opened _ r hr
    have hpath : ∀ r', ((FileSizes.step c call).file r').path = (c.file r').path := by
      intro r'
      rw [FileSizes.step, hook, hr]
      change (Function.update c.file r { c.file r with pos := _ } r').path = _
      by_cases he : r' = r
      · rw [he, Function.update_self]
      · rw [Function.update_of_ne he]
    have hmap : (FileSizes.step c call).fileMap = c.fileMap := by
      rw [FileSizes.step, hook, hr]
    have hall : ∀ path, (Sized (c.stores path) → Sized ((FileSizes.step c call).stores path)) ∧
        Good ((FileSizes.step c call).stores path) := by
      intro path
      rw [FileSizes.step, hstores]
      by_cases hp : path = (c.file r).path
      · rw [hp, Function.update_self]
        exact ⟨fun _ => hs, hs.good⟩
      · rw [Function.update_of_ne hp]
        exact ⟨id, h.good path⟩
    refine ⟨fun path => (hall path).2, fun fd r' hr' => ?_⟩
    rw [hpath]
    rw [hmap] at hr'
    exact (hall _).1 (h.opened fd r' hr')

/-- In a run whose calls each stay in range or are refused for another reason, all
records that are stored can be parsed, and calls out of range change nothing. -/
theorem sizes_representable (h : Ready c) (calls : List (Call d))
    (hsafe : AllSteps step Safe c calls) :
    (∀ run, run <+: calls → Representable (run.foldl step c)) ∧ AllSteps step Rejected c calls := by
  constructor
  · rintro run ⟨rest, rfl⟩
    exact (AllSteps.invariant (fun c call hc hcall => Ready.step hc hcall) h
      ((allSteps_append step Safe c run rest).mp hsafe).1).representable
  · clear h
    induction calls generalizing c with
    | nil => trivial
    | cons call calls ih => exact ⟨Safe.rejected hsafe.1, ih hsafe.2⟩

end Run

def sampleFile : OpenFile := ⟨.regular, text "/f", O_RDWR, 0, by decide⟩

def createdKey : Key := Key.absent.merge (.create ((Metadata.ofMode 0o100644).serialize config))

/-- One descriptor, of a file without data. -/
def sampleClient : Client Unit where
  fileMap fd := if fd = 10000 then some () else none
  file _ := sampleFile
  errno := 0
  stores _ := ⟨createdKey, ⟨none, fun _ => none⟩⟩

/-- One byte that each contacted host gets, writes and counts. -/
def oneByteHosts : DataHosts twoHosts :=
  DataHosts.ofRun [(7 : UInt8)] fun _ => [.visit true, .run 0, .wait]

theorem ready_sample : Ready sampleClient where
  good _ := .inr ⟨_, recorded_created 0o100644, Nat.two_pow_pos 63⟩
  opened _ _ _ := ⟨_, recorded_created 0o100644, Nat.two_pow_pos 63⟩

theorem sizes_representable_oneByte :
    let calls := [Call.pwrite 10000 1 0 oneByteHosts, .ftruncate 10000 1 (fun _ => some 0) 2]
    (∀ run, run <+: calls → Representable (run.foldl step sampleClient)) ∧
      AllSteps step Rejected sampleClient calls :=
  sizes_representable ready_sample _
    ⟨fun r hr o ho => .inl (by obtain rfl := Option.some.inj ho; decide), fun _ _ _ _ => .inr trivial, trivial⟩

/-- One byte at offset -2 stores a size that no daemon and no client can parse. -/
theorem negative_offset_stored :
    Ready sampleClient ∧ ¬ Representable (step sampleClient (.pwrite 10000 1 (-2) oneByteHosts)) := by
  refine ⟨ready_sample, fun h => ?_⟩
  have hkey : ((step sampleClient (.pwrite 10000 1 (-2) oneByteHosts)).stores (text "/f")).key =
      createdKey.merge (.increaseSize (1 + (-2 : Int64).toUInt64) false) := by
    have hopen : sampleClient.fileMap (Call.pwrite 10000 1 (-2) oneByteHosts).fd = some () := rfl
    have hstores := (hook_eq hopen).2
    rw [step, hstores]
    exact (congrArg Store.key (Function.update_self _ _ _)).trans (gaofsPwrite_key (by decide))
  have hrec := (recorded_created 0o100644).merge (.increaseSize (1 + (-2 : Int64).toUInt64) false)
  change Recorded (createdKey.merge _) _ at hrec
  cases h.daemon (text "/f") with
  | inl hnone =>
    rw [hkey] at hnone
    exact not_notFound_recorded hrec hnone
  | inr hsome =>
    obtain ⟨md, hmd, -⟩ := hsome
    rw [hkey, getMetadata_overflow hrec (by decide)] at hmd
    cases hmd

end GaoFS.FileSizes
