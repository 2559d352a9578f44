import GaoFS.VectorIo
import GaoFS.ReadRun

namespace GaoFS.FilePositions

open Arithmetic Chunks Replies ChunkStorage ForwardData MetadataRecord MetadataKey GaofsFunctions FileSizes
open ReadRun Library.NumberText Library.Blocks Library.Runs

variable {d : SimpleHashDistributor}

section Reads

/-- Answers of the data hosts to read messages. In no file is there a byte at `size` or behind it. -/
structure ReadHosts (d : SimpleHashDistributor) where
  reply : DataIn → Option DataOut
  size : Nat
  bounded : ∀ {path : Path} {offset : Int64} {count : UInt64} {ret : Int64}, 0 ≤ offset →
    collectReplies ((forwardRead d path offset count).map reply) = (0, ret) →
    ∃ n, ret = Int64.ofNat n ∧ n ≤ count.toNat ∧ n ≤ size - offset.toInt.toNat

variable (f : OpenFile)

def gaofsPread (hosts : ReadHosts d) (count : UInt64) (offset : Int64) (io : Io) : Option Int64 × Io :=
  if f.type = .directory then io.fail EISDIR
  else
    let ret := collectReplies ((forwardRead d f.path offset count).map hosts.reply)
    if ret.1 ≠ 0 then io.fail ret.1 else (some ret.2, io)

/-- `gaofs_read`, with the position afterwards. -/
def gaofsRead (hosts : ReadHosts d) (count : UInt64) (io : Io) : (Option Int64 × Io) × UInt64 :=
  let out := gaofsPread f hosts count f.pos.toInt64 io
  (out, match out.1 with
    | some ret => if 0 < ret then f.pos + ret.toUInt64 else f.pos
    | none => f.pos)

def preadHosts (v : UInt64 × ReadHosts d) (pos : Int64) (io : Io) : Option Int64 × Io :=
  gaofsPread f v.2 v.1 pos io

def gaofsReadv (iov : List (UInt64 × ReadHosts d)) (io : Io) : (Option Int64 × Io) × UInt64 :=
  VectorIo.vectorNext Prod.fst (preadHosts f) iov f.pos io

end Reads

section Hooks

variable {ρ : Type*} [DecidableEq ρ]

/-- The calls that leave the data alone, besides those that do not. -/
inductive Call (d : SimpleHashDistributor) where
  | other (call : FileSizes.Call d)
  | read (fd : Int32) (count : UInt64) (hosts : ReadHosts d)
  | readv (fd : Int32) (iov : List (UInt64 × ReadHosts d))

def Call.fd : Call d → Int32
  | .other call => call.fd
  | .read fd _ _ => fd
  | .readv fd _ => fd

def hookFile (stores : Stores) (f : OpenFile) (io : Io) : Call d → (Option Int64 × Io) × UInt64
  | .other call => FileSizes.hookFile stores f io call
  | .read _ count hosts =>
    let out := gaofsRead f hosts count io
    ((out.1.1.map (withErrno out.1.2.errno), out.1.2), out.2)
  | .readv _ iov =>
    let out := gaofsReadv f iov io
    ((out.1.1.map (withErrno out.1.2.errno), out.1.2), out.2)

def hook (c : Client ρ) (call : Call d) : Option Int64 × Client ρ :=
  match c.fileMap call.fd with
  | none => (none, c)
  | some r =>
    let f := c.file r
    let out := hookFile c.stores f ⟨c.errno, c.stores f.path⟩ call
    (out.1.1,
      { c with
        file := Function.update c.file r { f with pos := out.2 }
        errno := out.1.2.errno
        stores := Function.update c.stores f.path out.1.2.store })

def step (c : Client ρ) (call : Call d) : Client ρ := (hook c call).2

end Hooks

section Seek

variable (f : OpenFile) (io : Io) (offset : Int64) (whence : UInt32)

/-- Where a seek is to end up, by the mathematical sum. -/
def target : Option Int :=
  if whence = SEEK_SET then some offset.toInt
  else if whence = SEEK_CUR then some (f.pos.toNat + offset.toInt)
  else if whence = SEEK_END then
    let ret := forwardGetMetadentrySize io.store
    if ret.1 ≠ 0 then none else some (ret.2.toInt + offset.toInt)
  else none

/-- The target, if it is a position. -/
def goal : Option UInt64 :=
  (target f io offset whence).bind fun t =>
    if 0 ≤ t ∧ t < 2 ^ 63 then some (UInt64.ofNat t.toNat) else none

/-- The seek goes to its goal. Without one it fails and the position stays, and the hook returns a
negative number then and only then. -/
def AllOrNothing : Prop :=
  let out := gaofsLseek f offset whence io
  match goal f io offset whence with
  | some pos => out = ((pos.toInt64, io), pos) ∧ 0 ≤ lseekErrno out.1.2.errno out.1.1
  | none => out.1.1 = -1 ∧ out.1.2.errno ≠ 0 ∧ out.2 = f.pos ∧ lseekErrno out.1.2.errno out.1.1 < 0

/-- A relative seek lands on a position. From the end it may also land before the start, by any
offset whose opposite is a number. -/
def Lands : Prop :=
  if whence = SEEK_CUR then
    0 ≤ f.pos.toNat + offset.toInt ∧ f.pos.toNat + offset.toInt < 2 ^ 63
  else if whence = SEEK_END ∧ (forwardGetMetadentrySize io.store).1 = 0 then
    let size := (forwardGetMetadentrySize io.store).2.toInt
    0 ≤ size + offset.toInt ∧ size + offset.toInt < 2 ^ 63 ∨
      size + offset.toInt < 0 ∧ -2 ^ 63 < offset.toInt ∧ offset.toInt < 0
  else True

end Seek

section Runs

variable {ρ : Type*} [DecidableEq ρ]

def InPlace (c : Client ρ) : Prop := ∀ r, (c.file r).pos.toNat < 2 ^ 63

/-- A call that transfers nothing. -/
def Fails (ret : Option Int64) : Prop := ∀ n ∈ ret, n ≤ 0

/-- What a call has to meet. Reads end at the end of the file, writes wherever they are told to. -/
def Allowed (f : OpenFile) (io : Io) : Call d → Prop
  | .other (.lseek _ offset whence) => Lands f io offset whence
  | .other (.write _ count hosts) =>
    InRange f.pos.toInt64 count.toNat ∨ Fails (gaofsPwrite f hosts count f.pos.toInt64 io).1
  | .other (.writev _ iov) =>
    InRange f.pos.toInt64 (total iov) ∨ Fails (gaofsPwritev f iov f.pos.toInt64 io).1
  | .other _ => True
  | .read _ count hosts => f.pos.toNat + count.toNat < 2 ^ 63 ∨ hosts.size < 2 ^ 63
  | .readv _ iov =>
    f.pos.toNat + (iov.map fun v => v.1.toNat).sum < 2 ^ 63 ∨ ∀ v ∈ iov, v.2.size < 2 ^ 63

def AllowedIn (c : Client ρ) (call : Call d) : Prop :=
  ∀ r ∈ c.fileMap call.fd, Allowed (c.file r) ⟨c.errno, c.stores (c.file r).path⟩ call

def SeeksRight (c : Client ρ) : Call d → Prop
  | .other (.lseek fd offset whence) => ∀ r ∈ c.fileMap fd,
    AllOrNothing (c.file r) ⟨c.errno, c.stores (c.file r).path⟩ offset whence
  | _ => True

end Runs

section Seek

variable {f : OpenFile} {io : Io} {offset : Int64} {whence : UInt32}

theorem toInt_pos (h : f.pos.toNat < 2 ^ 63) : f.pos.toInt64.toInt = f.pos.toNat := by
  rw [toInt_eq_toNat (by rw [UInt64.toUInt64_toInt64]; exact h), UInt64.toUInt64_toInt64]

theorem toUInt64_of_toInt {x : Int64} {t : Int} (hx : x.toInt = t) (h0 : 0 ≤ t) :
    x.toUInt64 = UInt64.ofNat t.toNat := by
  have hnat : x.toInt = x.toUInt64.toNat :=
    toInt_of_nonneg (Int64.le_iff_toInt_le.mpr (by rw [hx]; exact h0))
  have heq : t.toNat = x.toUInt64.toNat := by omega
  rw [heq, UInt64.ofNat_toNat]

theorem lseekErrno_of_nonneg {ret : Int64} (errno : Int32) (h : 0 ≤ ret) : lseekErrno errno ret = ret :=
  if_neg (Int64.not_lt.mpr h)

theorem lseekErrno_neg {errno : Int32} (h : 0 < errno) : lseekErrno errno (-1) < 0 :=
  withErrno_neg h

theorem goal_of_target {t : Int} (ht : target f io offset whence = some t) :
    goal f io offset whence = if 0 ≤ t ∧ t < 2 ^ 63 then some (UInt64.ofNat t.toNat) else none := by
  rw [goal, ht, Option.bind_some]

/-- A position that is set to a wrapped sum is right exactly if the sum does not wrap. -/
theorem moved_iff (hpos : f.pos.toNat < 2 ^ 63) {x y : Int64}
    (ht : target f io offset whence = some (x.toInt + y.toInt))
    (hout : gaofsLseek f offset whence io = ((x + y, io), (x + y).toUInt64)) :
    AllOrNothing f io offset whence ↔ 0 ≤ x.toInt + y.toInt ∧ x.toInt + y.toInt < 2 ^ 63 := by
  rw [AllOrNothing, hout, goal_of_target ht]
  by_cases hin : 0 ≤ x.toInt + y.toInt ∧ x.toInt + y.toInt < 2 ^ 63
  · have hsum : (x + y).toInt = x.toInt + y.toInt := by
      rw [Int64.toInt_add]
      exact Int.bmod_eq_of_le (by omega) (by omega)
    have hnonneg : 0 ≤ x + y := Int64.le_iff_toInt_le.mpr (by rw [hsum]; exact hin.1)
    rw [if_pos hin]
    refine iff_of_true ⟨?_, ?_⟩ hin
    · rw [← toUInt64_of_toInt hsum hin.1, Int64.toInt64_toUInt64]
    · rw [lseekErrno_of_nonneg _ hnonneg]
      exact hnonneg
  · rw [if_neg hin]
    refine iff_of_false ?_ hin
    rintro ⟨hret, -, hstay, -⟩
    change x + y = -1 at hret
    change (x + y).toUInt64 = f.pos at hstay
    rw [hret] at hstay
    rw [← hstay] at hpos
    exact absurd hpos (by decide)

theorem allOrNothing_refused {errno : Int32} (herrno : 0 < errno) (hgoal : goal f io offset whence = none)
    (hout : gaofsLseek f offset whence io = ((-1, { io with errno := errno }), f.pos)) :
    AllOrNothing f io offset whence := by
  have hne : errno ≠ 0 := by
    rintro rfl
    exact absurd herrno (by decide)
  rw [AllOrNothing, hout, hgoal]
  exact ⟨rfl, hne, rfl, lseekErrno_neg herrno⟩

theorem sizeErr_pos (e : Failure) : 0 < sizeErr (.error e : Except Failure UInt64) := by
  have hbusy : 0 < EBUSY := by decide
  cases e with
  | notFoundException => decide
  | _ => exact hbusy

theorem forwardGetMetadentrySize_err (s : Store) (h : (forwardGetMetadentrySize s).1 ≠ 0) :
    0 < (forwardGetMetadentrySize s).1 := by
  revert h
  rw [forwardGetMetadentrySize]
  cases hout : rpcSrvGetMetadentrySize s with
  | none => decide
  | some out =>
    dsimp only
    split_ifs with herr
    · have hpos : 0 < out.err := by
        rw [rpcSrvGetMetadentrySize] at hout
        obtain ⟨r, -, rfl⟩ := Option.map_eq_some_iff.mp hout
        revert herr
        rcases r with e | md
        · exact fun _ => sizeErr_pos e
        · exact fun h => absurd rfl h
      exact fun _ => hpos
    · exact fun h => absurd rfl h

theorem EINVAL_pos : 0 < EINVAL := by decide

variable (f io offset) in
theorem seekCur_eq : gaofsLseek f offset SEEK_CUR io =
    ((f.pos.toInt64 + offset, io), (f.pos.toInt64 + offset).toUInt64) := rfl

theorem allOrNothing_set (hpos : f.pos.toNat < 2 ^ 63) : AllOrNothing f io offset SEEK_SET := by
  by_cases hneg : offset < 0
  · have hint : offset.toInt < 0 := Int64.lt_iff_toInt_lt.mp hneg
    have hgoal : goal f io offset SEEK_SET = none := by
      rw [goal_of_target (t := offset.toInt) rfl, if_neg (by omega)]
    exact allOrNothing_refused EINVAL_pos hgoal (if_pos hneg)
  · have hint : 0 ≤ offset.toInt := Int64.le_iff_toInt_le.mp (Int64.not_lt.mp hneg)
    have hlt := offset.toInt_lt
    have hout : gaofsLseek f offset SEEK_SET io = ((0 + offset, io), (0 + offset).toUInt64) := by
      rw [Int64.zero_add]
      exact (if_neg hneg).trans (by rw [Int64.toInt64_toUInt64])
    have htarget : target f io offset SEEK_SET = some ((0 : Int64).toInt + offset.toInt) := by
      rw [Int64.toInt_zero, Int.zero_add]
      rfl
    rw [moved_iff hpos htarget hout, Int64.toInt_zero, Int.zero_add]
    exact ⟨hint, hlt⟩

theorem allOrNothing_cur (hpos : f.pos.toNat < 2 ^ 63) :
    AllOrNothing f io offset SEEK_CUR ↔
      0 ≤ f.pos.toNat + offset.toInt ∧ f.pos.toNat + offset.toInt < 2 ^ 63 := by
  have htarget : target f io offset SEEK_CUR = some (f.pos.toInt64.toInt + offset.toInt) := by
    rw [toInt_pos hpos]
    rfl
  rw [moved_iff hpos htarget (seekCur_eq f io offset), toInt_pos hpos]

/-- The check of a seek from the end. The opposite of the smallest number is that number. -/
theorem beforeStart_iff (offset size : Int64) :
    offset < 0 ∧ size < -offset ↔ size.toInt + offset.toInt < 0 ∧ -2 ^ 63 < offset.toInt ∧ offset.toInt < 0 := by
  have hle := offset.le_toInt
  have hlt := offset.toInt_lt
  have hsize := size.le_toInt
  rw [Int64.lt_iff_toInt_lt, Int64.lt_iff_toInt_lt, Int64.toInt_neg, Int64.toInt_zero]
  by_cases hmin : offset.toInt = -2 ^ 63
  · rw [hmin]
    have hwrap : (-(-2 ^ 63 : Int)).bmod (2 ^ 64) = -2 ^ 63 := by decide
    rw [hwrap]
    omega
  · rw [Int.bmod_eq_of_le (by omega) (by omega)]
    omega

theorem allOrNothing_end (hpos : f.pos.toNat < 2 ^ 63)
    (hok : (forwardGetMetadentrySize io.store).1 = 0) :
    let size := (forwardGetMetadentrySize io.store).2.toInt
    AllOrNothing f io offset SEEK_END ↔ 0 ≤ size + offset.toInt ∧ size + offset.toInt < 2 ^ 63 ∨
      size + offset.toInt < 0 ∧ -2 ^ 63 < offset.toInt ∧ offset.toInt < 0 := by
  intro size
  have htarget : target f io offset SEEK_END = some (size + offset.toInt) := by
    change (if (forwardGetMetadentrySize io.store).1 ≠ 0 then _ else _) = _
    rw [if_neg (not_not_intro hok)]
  have hseek : gaofsLseek f offset SEEK_END io =
      if offset < 0 ∧ (forwardGetMetadentrySize io.store).2 < -offset then
        ((-1, { io with errno := EINVAL }), f.pos)
      else (((forwardGetMetadentrySize io.store).2 + offset, io),
        ((forwardGetMetadentrySize io.store).2 + offset).toUInt64) := by
    change (if (forwardGetMetadentrySize io.store).1 ≠ 0 then _ else _) = _
    rw [if_neg (not_not_intro hok)]
    rfl
  have hbefore := beforeStart_iff offset (forwardGetMetadentrySize io.store).2
  by_cases hrefused : offset < 0 ∧ (forwardGetMetadentrySize io.store).2 < -offset
  · have hout := hbefore.mp hrefused
    have hgoal : goal f io offset SEEK_END = none := by
      rw [goal_of_target htarget, if_neg (by omega)]
    rw [if_pos hrefused] at hseek
    exact iff_of_true (allOrNothing_refused EINVAL_pos hgoal hseek) (.inr hout)
  · rw [if_neg hrefused] at hseek
    rw [moved_iff hpos htarget hseek, ← hbefore]
    exact (or_iff_left hrefused).symm

theorem allOrNothing_error (hwhence : whence = SEEK_END → (forwardGetMetadentrySize io.store).1 ≠ 0)
    (hset : whence ≠ SEEK_SET) (hcur : whence ≠ SEEK_CUR) : AllOrNothing f io offset whence := by
  have hgoal : goal f io offset whence = none := by
    rw [goal, target, if_neg hset, if_neg hcur]
    by_cases hend : whence = SEEK_END
    · dsimp only
      rw [if_pos hend, if_pos (hwhence hend), Option.bind_none]
    · rw [if_neg hend, Option.bind_none]
  by_cases hend : whence = SEEK_END
  · have hout : gaofsLseek f offset whence io =
        ((-1, { io with errno := (forwardGetMetadentrySize io.store).1 }), f.pos) := by
      simp only [gaofsLseek, if_neg hset, if_neg hcur, if_pos hend, if_pos (hwhence hend)]
    exact allOrNothing_refused (forwardGetMetadentrySize_err _ (hwhence hend)) hgoal hout
  · have hout : gaofsLseek f offset whence io = ((-1, { io with errno := EINVAL }), f.pos) := by
      simp only [gaofsLseek, if_neg hset, if_neg hcur, if_neg hend]
    exact allOrNothing_refused EINVAL_pos hgoal hout

theorem lseek_iff (hpos : f.pos.toNat < 2 ^ 63) :
    AllOrNothing f io offset whence ↔ Lands f io offset whence := by
  rw [Lands]
  by_cases hcur : whence = SEEK_CUR
  · rw [if_pos hcur, hcur]
    exact allOrNothing_cur hpos
  by_cases hend : whence = SEEK_END ∧ (forwardGetMetadentrySize io.store).1 = 0
  · rw [if_neg hcur, if_pos hend, hend.1]
    exact allOrNothing_end hpos hend.2
  rw [if_neg hcur, if_neg hend, iff_true]
  by_cases hset : whence = SEEK_SET
  · rw [hset]
    exact allOrNothing_set hpos
  · exact allOrNothing_error (fun h => fun h0 => hend ⟨h, h0⟩) hset hcur

end Seek

section File

variable {f : FilePath} (st : FileState d f) (order : Nat → List Nat)

/-- The daemons of a file, each with some order for so many tasks. For no other path, and for no
buffer that cannot be, do they answer. -/
def fileReply (r : DataIn) : Option DataOut :=
  if r.path = f.path ∧ 0 < r.bulkSize ∧ r.bulkSize.toNat < 2 ^ 63 then
    (rpcSrvRead d.strHash (st.daemon r.hostId) (order r.chunkN.toNat) r).map Prod.fst
  else none

theorem countP_sees_le {o n : Nat} (hon : o + n < 2 ^ 64) :
    (List.range' o n).countP (sees st.chunk) ≤ st.size - o := by
  have hmono : (List.range' o n).countP (sees st.chunk) ≤ (List.range' o n).countP fun x => x < st.size := by
    apply List.countP_mono_left
    intro x hx h
    have hrange := List.mem_range'_1.mp hx
    exact decide_eq_true (sees_lt_size (by omega) h)
  rw [countP_range'_lt] at hmono
  omega

theorem fileReply_answered (horder : ∀ n, (order n).Perm (List.range n)) (call : Pread) {ret : Int64}
    (h : collectReplies ((call.requests d f.path).map (fileReply st order)) = (0, ret)) :
    ∃ n, ret = Int64.ofNat n ∧ n ≤ call.buf.length ∧ n ≤ st.size - call.offset.toUInt64.toNat := by
  have hreqs := call.requests_spec d f
  have hn := call.length_pos
  have hlt := call.length_lt
  have hon := call.end_lt
  let order' := fun k => order (chunksAt d f.path call.offset.toUInt64.toNat call.buf.length k).length
  have hserve : (call.requests d f.path).map (fileReply st order) =
      (serve st order' (call.requests d f.path)).map fun out => out.map Prod.fst := by
    rw [serve, List.map_map]
    apply List.map_congr_left
    intro r hr
    have hcond : r.path = f.path ∧ 0 < r.bulkSize ∧ r.bulkSize.toNat < 2 ^ 63 := by
      obtain ⟨k, -, rfl⟩ := List.mem_map.mp hr
      refine ⟨rfl, ?_, ?_⟩
      · rw [UInt64.lt_iff_toNat_lt, UInt64.toNat_ofNat', Nat.mod_eq_of_lt (by omega)]
        exact hn
      · rw [UInt64.toNat_ofNat', Nat.mod_eq_of_lt (by omega)]
        exact hlt
    rw [fileReply, if_pos hcond, (hreqs.plans r hr).chunkN]
    rfl
  have horder' : ∀ r ∈ call.requests d f.path, (order' r.hostId).Perm (List.range r.chunkN.toNat) := by
    intro r hr
    rw [(hreqs.plans r hr).chunkN]
    exact horder _
  have hresult : gaofsPreadResult ((serve st order' (call.requests d f.path)).map fun out => out.map Prod.fst) =
      Int64.ofNat ((List.range' call.offset.toUInt64.toNat call.buf.length).countP (sees st.chunk)) :=
    hreqs.result hn hon horder'
  rw [← hserve, gaofsPreadResult, h, if_neg (not_not_intro rfl)] at hresult
  refine ⟨_, hresult, ?_, countP_sees_le st hon⟩
  exact List.countP_le_length.trans_eq List.length_range'

theorem fileReply_bounded (horder : ∀ n, (order n).Perm (List.range n)) {path : Path} {offset : Int64}
    {count : UInt64} {ret : Int64} (hoffset : 0 ≤ offset)
    (h : collectReplies ((forwardRead d path offset count).map (fileReply st order)) = (0, ret)) :
    ∃ n, ret = Int64.ofNat n ∧ n ≤ count.toNat ∧ n ≤ st.size - offset.toInt.toNat := by
  by_cases hcond : path = f.path ∧ 0 < count ∧ count.toNat < 2 ^ 63
  · obtain ⟨rfl, hpos, hlt⟩ := hcond
    have hne : List.replicate count.toNat (0 : UInt8) ≠ [] := by
      rw [List.ne_nil_iff_length_pos, List.length_replicate]
      exact UInt64.lt_iff_toNat_lt.mp hpos
    let call : Pread := ⟨List.replicate count.toNat 0, offset, hne, by rwa [List.length_replicate], hoffset⟩
    have hcall : call.requests d f.path = forwardRead d f.path offset count := by
      rw [Pread.requests, List.length_replicate, UInt64.ofNat_toNat]
    rw [← hcall] at h
    have hfound := fileReply_answered st order horder call h
    rw [List.length_replicate] at hfound
    rwa [toInt_of_nonneg hoffset, Int.toNat_natCast]
  · have hnone : ∀ r ∈ forwardRead d path offset count, fileReply st order r = none := by
      intro r hr
      obtain ⟨k, -, rfl⟩ := List.mem_map.mp hr
      exact if_neg hcond
    cases hreqs : forwardRead d path offset count with
    | nil =>
      rw [hreqs] at h
      obtain rfl := (Prod.mk.inj h).2
      exact ⟨0, rfl, Nat.zero_le _, Nat.zero_le _⟩
    | cons r reqs =>
      rw [hreqs, List.map_cons, hnone r (by rw [hreqs]; exact List.mem_cons_self), collectReplies,
        List.foldl_cons] at h
      have hfirst : (collectReply (0, 0) none).1 ≠ 0 := EIO_ne_zero
      have herr := collectReply_error (reqs.map (fileReply st order)) hfirst
      rw [if_pos herr] at h
      exact absurd (congrArg Prod.fst h) herr

def ReadHosts.ofFile (horder : ∀ n, (order n).Perm (List.range n)) : ReadHosts d where
  reply := fileReply st order
  size := st.size
  bounded := fileReply_bounded st order horder

end File

section Vector

variable {ι σ : Type*} {count : ι → UInt64} {io : ι → Int64 → σ → Option Int64 × σ} {S : Nat}

/-- One transfer at `p` moves at most its count, and ends before `S` or where it was. -/
def Bounded (count : ι → UInt64) (io : ι → Int64 → σ → Option Int64 × σ) (S : Nat) (v : ι) : Prop :=
  ∀ (p : Nat) (s t : σ) (ret : Int64), min (p + (count v).toNat) (max p S) < 2 ^ 63 →
    count v ≠ 0 → io v (Int64.ofNat p) s = (some ret, t) →
    ret = -1 ∨ ∃ n, ret = Int64.ofNat n ∧ n ≤ (count v).toNat ∧ p + n ≤ max p S

theorem vectorLoop_bounded {iov : List ι} (hio : ∀ v ∈ iov, Bounded count io S v) {p r : Nat}
    (hfits : min (p + (iov.map fun v => (count v).toNat).sum) (max p S) < 2 ^ 63) {s t : σ} {ret : Int64}
    (h : VectorIo.vectorLoop count io iov (Int64.ofNat p) (Int64.ofNat r) s = (some ret, t)) :
    ∃ n, ret = Int64.ofNat (r + n) ∧
      p + n ≤ min (p + (iov.map fun v => (count v).toNat).sum) (max p S) := by
  induction iov generalizing p r s with
  | nil =>
    obtain rfl := Option.some.inj (congrArg Prod.fst h)
    exact ⟨0, rfl, by simp⟩
  | cons v iov ih =>
    obtain ⟨hv, hiov⟩ := List.forall_mem_cons.mp hio
    rw [List.map_cons, List.sum_cons] at hfits ⊢
    by_cases hzero : count v = 0
    · rw [VectorIo.vectorLoop, if_pos hzero] at h
      rw [hzero, UInt64.toNat_zero, Nat.zero_add] at hfits ⊢
      exact ih hiov hfits h
    rcases hout : io v (Int64.ofNat p) s with ⟨one | one, s'⟩
    · rw [VectorIo.vectorLoop, if_neg hzero, hout] at h
      exact absurd (congrArg Prod.fst h) (Option.some_ne_none ret).symm
    obtain hone | ⟨n, rfl, hcount, hend⟩ := hv p s s' one (by omega) hzero hout
    · rw [VectorIo.vectorLoop, if_neg hzero, hout] at h
      dsimp only at h
      rw [if_pos hone] at h
      obtain rfl := Option.some.inj (congrArg Prod.fst h)
      exact ⟨0, rfl, by omega⟩
    · rw [VectorIo.vectorLoop_transfer hzero (by omega) hout] at h
      split_ifs at h
      · obtain rfl := Option.some.inj (congrArg Prod.fst h)
        exact ⟨n, rfl, by omega⟩
      · obtain ⟨m, hret, hm⟩ := ih hiov (by omega) h
        exact ⟨n + m, by rw [hret, Nat.add_assoc], by omega⟩

theorem toNat_add_ofNat {pos : UInt64} {n : Nat} (h : pos.toNat + n < 2 ^ 63) :
    (pos + (Int64.ofNat n).toUInt64).toNat = pos.toNat + n := by
  rw [UInt64.toNat_add, VectorIo.toNat_ofNat_toUInt64 (by omega), Nat.mod_eq_of_lt (by omega)]

theorem toInt64_eq_ofNat (pos : UInt64) : pos.toInt64 = Int64.ofNat pos.toNat := by
  conv_lhs => rw [← UInt64.ofNat_toNat (x := pos)]
  exact UInt64.toInt64_ofNat' ..

theorem vectorNext_inPlace {iov : List ι} {pos : UInt64} (hpos : pos.toNat < 2 ^ 63)
    (hio : ∀ v ∈ iov, Bounded count io S v)
    (hfits : min (pos.toNat + (iov.map fun v => (count v).toNat).sum) (max pos.toNat S) < 2 ^ 63) (s : σ) :
    (VectorIo.vectorNext count io iov pos s).2.toNat < 2 ^ 63 := by
  rcases hloop : VectorIo.vectorLoop count io iov pos.toInt64 0 s with ⟨moved | moved, t⟩
  · rw [VectorIo.vectorNext, VectorIo.vectorAt, hloop]
    exact hpos
  have hnat := hloop
  rw [toInt64_eq_ofNat] at hnat
  obtain ⟨n, rfl, hend⟩ := vectorLoop_bounded (r := 0) hio hfits hnat
  rw [Nat.zero_add] at hloop
  have hnext := VectorIo.vectorNext_moved (by omega) hloop
  rw [hnext, UInt64.toNat_add, UInt64.toNat_ofNat', Nat.mod_eq_of_lt (by omega)]
  omega

end Vector

section Transfers

variable {f : OpenFile} {io : Io} {S : Nat}

theorem gaofsPread_ret {hosts : ReadHosts d} {count : UInt64} {offset ret : Int64} (hoffset : 0 ≤ offset)
    (hret : (gaofsPread f hosts count offset io).1 = some ret) :
    ret = -1 ∨ ∃ n, ret = Int64.ofNat n ∧ n ≤ count.toNat ∧ n ≤ hosts.size - offset.toInt.toNat := by
  rw [gaofsPread] at hret
  by_cases hdir : f.type = .directory
  · rw [if_pos hdir] at hret
    exact .inl (Option.some.inj hret).symm
  rw [if_neg hdir] at hret
  dsimp only at hret
  by_cases herr : (collectReplies ((forwardRead d f.path offset count).map hosts.reply)).1 = 0
  · rw [if_neg (not_not_intro herr)] at hret
    obtain rfl := Option.some.inj hret
    exact .inr (hosts.bounded hoffset (Prod.ext herr rfl))
  · rw [if_pos herr] at hret
    exact .inl (Option.some.inj hret).symm

theorem preadHosts_bounded {v : UInt64 × ReadHosts d} (hS : v.2.size ≤ S) :
    Bounded Prod.fst (preadHosts f) S v := by
  intro p io io' ret hlt _ hout
  have hoffset : 0 ≤ Int64.ofNat p := Int64.not_lt.mp (not_ofNat_neg (by omega))
  obtain hret | ⟨n, hret, hcount, hend⟩ := gaofsPread_ret hoffset (congrArg Prod.fst hout)
  · exact .inl hret
  · rw [Int64.toInt_ofNat_of_lt (by omega), Int.toNat_natCast] at hend
    exact .inr ⟨n, hret, hcount, by omega⟩

theorem pwriteHosts_bounded (v : UInt64 × DataHosts d) :
    Bounded Prod.fst (VectorIo.pwriteHosts f) (2 ^ 64) v := by
  intro p io io' ret hlt hne hout
  have hin : InRange (Int64.ofNat p) v.1.toNat := by
    rw [InRange, Int64.toInt_ofNat_of_lt (by omega)]
    omega
  obtain hret | hle := gaofsPwrite_ret hne hin (congrArg Prod.fst hout)
  · exact .inl hret
  · exact .inr ⟨ret.toUInt64.toNat, toInt64_eq_ofNat ret.toUInt64, hle, by omega⟩

theorem inRange_iff (hpos : f.pos.toNat < 2 ^ 63) (n : Nat) :
    InRange f.pos.toInt64 n ↔ f.pos.toNat + n < 2 ^ 63 := by
  rw [InRange, toInt_pos hpos]
  omega

theorem gaofsLseek_inPlace (hpos : f.pos.toNat < 2 ^ 63) {offset : Int64} {whence : UInt32}
    (h : AllOrNothing f io offset whence) : (gaofsLseek f offset whence io).2.toNat < 2 ^ 63 := by
  rw [AllOrNothing] at h
  cases hgoal : goal f io offset whence with
  | none =>
    rw [hgoal] at h
    rw [h.2.2.1]
    exact hpos
  | some pos =>
    obtain ⟨t, -, ht⟩ := Option.bind_eq_some_iff.mp hgoal
    rw [hgoal] at h
    rw [h.1]
    split_ifs at ht with hin
    obtain rfl := Option.some.inj ht
    change (UInt64.ofNat t.toNat).toNat < 2 ^ 63
    rw [UInt64.toNat_ofNat']
    omega

theorem gaofsWrite_inPlace (hpos : f.pos.toNat < 2 ^ 63) {hosts : DataHosts d} {count : UInt64}
    (h : InRange f.pos.toInt64 count.toNat ∨ Fails (gaofsPwrite f hosts count f.pos.toInt64 io).1) :
    (gaofsWrite f hosts count io).2.toNat < 2 ^ 63 := by
  have hmoved : (gaofsWrite f hosts count io).2 =
      match (gaofsPwrite f hosts count f.pos.toInt64 io).1 with
      | some ret => if 0 < ret then f.pos + count else f.pos
      | none => f.pos := by
    rw [gaofsWrite, f.noAppend]
    rfl
  rw [hmoved]
  rcases hout : (gaofsPwrite f hosts count f.pos.toInt64 io).1 with ret | ret
  · exact hpos
  dsimp only
  split_ifs with hret
  · have hin := h.resolve_right fun hfails => Int64.not_le.mpr hret (hfails ret hout)
    rw [inRange_iff hpos] at hin
    rw [UInt64.toNat_add, Nat.mod_eq_of_lt (by omega)]
    exact hin
  · exact hpos

theorem gaofsWritev_inPlace (hpos : f.pos.toNat < 2 ^ 63) {iov : List (UInt64 × DataHosts d)}
    (h : InRange f.pos.toInt64 (total iov) ∨ Fails (gaofsPwritev f iov f.pos.toInt64 io).1) :
    (gaofsWritev f iov io).2.toNat < 2 ^ 63 := by
  obtain hin | hfails := h
  · rw [inRange_iff hpos, total] at hin
    rw [VectorIo.gaofsWritev_eq]
    exact vectorNext_inPlace hpos (fun v _ => pwriteHosts_bounded v) (by omega) io
  · have hne := VectorIo.vectorAt_ne_zero Prod.fst (VectorIo.pwriteHosts f) iov f.pos.toInt64 io
    rw [← VectorIo.gaofsPwritev_eq] at hne
    rw [gaofsWritev]
    rcases hout : (gaofsPwritev f iov f.pos.toInt64 io).1 with ret | ret
    · exact hpos
    · have hneg : ret < 0 := by
        have hle : ret ≤ 0 := hfails ret hout
        have hzero : ret ≠ 0 := fun h0 => hne (by rw [hout, h0])
        exact Int64.lt_of_le_of_ne hle hzero
      dsimp only
      rw [if_pos hneg]
      exact hpos

theorem gaofsRead_inPlace (hpos : f.pos.toNat < 2 ^ 63) {hosts : ReadHosts d} {count : UInt64}
    (h : f.pos.toNat + count.toNat < 2 ^ 63 ∨ hosts.size < 2 ^ 63) :
    (gaofsRead f hosts count io).2.toNat < 2 ^ 63 := by
  rw [gaofsRead]
  rcases hout : (gaofsPread f hosts count f.pos.toInt64 io).1 with ret | ret
  · exact hpos
  dsimp only
  split_ifs with hret
  · have hoffset : 0 ≤ f.pos.toInt64 := toInt64_nonneg hpos
    obtain rfl | ⟨n, rfl, hcount, hend⟩ := gaofsPread_ret hoffset hout
    · exact absurd hret (by decide)
    · rw [toInt_pos hpos, Int.toNat_natCast] at hend
      rw [toNat_add_ofNat (by omega)]
      omega
  · exact hpos

theorem gaofsReadv_inPlace (hpos : f.pos.toNat < 2 ^ 63) {iov : List (UInt64 × ReadHosts d)}
    (h : f.pos.toNat + (iov.map fun v => v.1.toNat).sum < 2 ^ 63 ∨ ∀ v ∈ iov, v.2.size < 2 ^ 63) :
    (gaofsReadv f iov io).2.toNat < 2 ^ 63 := by
  rw [gaofsReadv]
  obtain hin | hsize := h
  · have hle : ∀ v ∈ iov, v.2.size ≤ (iov.map fun v => v.2.size).sum := fun v hv =>
      List.le_sum_of_mem (List.mem_map_of_mem hv)
    exact vectorNext_inPlace hpos (fun v hv => preadHosts_bounded (hle v hv)) (by omega) io
  · have hle : ∀ v ∈ iov, v.2.size ≤ 2 ^ 63 - 1 := fun v hv => Nat.le_sub_one_of_lt (hsize v hv)
    exact vectorNext_inPlace hpos (fun v hv => preadHosts_bounded (hle v hv)) (by omega) io

end Transfers

section Runs

variable {ρ : Type*} [DecidableEq ρ] {c : Client ρ} {call : Call d}

theorem hookFile_inPlace {stores : Stores} {f : OpenFile} {io : Io} (hpos : f.pos.toNat < 2 ^ 63)
    (h : Allowed f io call) : (hookFile stores f io call).2.toNat < 2 ^ 63 := by
  cases call with
  | other call =>
    cases call with
    | lseek fd offset whence => exact gaofsLseek_inPlace hpos ((lseek_iff hpos).mpr h)
    | write fd count hosts => exact gaofsWrite_inPlace hpos h
    | writev fd iov => exact gaofsWritev_inPlace hpos h
    | _ => exact hpos
  | read fd count hosts => exact gaofsRead_inPlace hpos h
  | readv fd iov => exact gaofsReadv_inPlace hpos h

theorem InPlace.step (h : InPlace c) (hcall : AllowedIn c call) : InPlace (step c call) := by
  intro r'
  rw [FilePositions.step, hook]
  cases hr : c.fileMap call.fd with
  | none => exact h r'
  | some r =>
    change (Function.update c.file r { c.file r with pos := _ } r').pos.toNat < 2 ^ 63
    by_cases he : r' = r
    · rw [he, Function.update_self]
      exact hookFile_inPlace (h r) (hcall r hr)
    · rw [Function.update_of_ne he]
      exact h r'

omit [DecidableEq ρ] in
theorem AllowedIn.seeksRight (h : InPlace c) (hcall : AllowedIn c call) : SeeksRight c call := by
  cases call with
  | other call =>
    cases call with
    | lseek fd offset whence => exact fun r hr => (lseek_iff (h r)).mpr (hcall r hr)
    | _ => trivial
  | _ => trivial

/-- A seek is all or nothing exactly if it lands. In a run of seeks that land, of writes below the
last position and of reads of files that end there, no position gets out of place. -/
theorem seeks_iff :
    (∀ (f : OpenFile) (io : Io) (offset : Int64) (whence : UInt32), f.pos.toNat < 2 ^ 63 →
      (AllOrNothing f io offset whence ↔ Lands f io offset whence)) ∧
    (∀ (c : Client ρ) (calls : List (Call d)), InPlace c → AllSteps step AllowedIn c calls →
      (∀ run, run <+: calls → InPlace (run.foldl step c)) ∧ AllSteps step SeeksRight c calls) := by
  constructor
  · intro f io offset whence hpos
    exact lseek_iff hpos
  · intro c calls h hcalls
    constructor
    · rintro run ⟨rest, rfl⟩
      exact AllSteps.invariant (fun c call hc hcall => InPlace.step hc hcall) h
        ((allSteps_append step AllowedIn c run rest).mp hcalls).1
    · exact AllSteps.imp (fun c call hc hcall => ⟨InPlace.step hc hcall, AllowedIn.seeksRight hc hcall⟩) h
        hcalls

theorem seeks_short_file :
    let hosts := ReadHosts.ofFile shortFirst List.range fun _ => List.Perm.refl _
    let calls := [Call.other (.lseek 10000 5 SEEK_SET), .read 10000 3 hosts]
    (∀ run, run <+: calls → InPlace (run.foldl step sampleClient)) ∧
      AllSteps step SeeksRight sampleClient calls := by
  intro hosts calls
  have hplace : InPlace sampleClient := fun _ => Nat.two_pow_pos 63
  have hallowed : AllSteps step AllowedIn sampleClient calls :=
    ⟨fun _ _ => trivial, fun _ _ => .inr (by decide), trivial⟩
  exact seeks_iff.2 sampleClient calls hplace hallowed

/-- From the start of a file one step back: the position wraps to the largest number, and the hook
reports that the seek went to the start. -/
theorem seek_before_start :
    let io : Io := ⟨0, sampleClient.stores sampleFile.path⟩
    ¬ AllOrNothing sampleFile io (-1) SEEK_CUR ∧
      (gaofsLseek sampleFile (-1) SEEK_CUR io).2.toNat = 2 ^ 64 - 1 ∧
      lseekErrno 0 (gaofsLseek sampleFile (-1) SEEK_CUR io).1.1 = 0 := by
  intro io
  refine ⟨?_, by decide, by decide⟩
  rw [lseek_iff (by decide)]
  exact fun h => absurd h.1 (by decide)

end Runs

end GaoFS.FilePositions
