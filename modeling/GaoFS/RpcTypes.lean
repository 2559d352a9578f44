import GaoFS.DataOps
import GaoFS.Library.Wire

namespace GaoFS.RpcTypes

open Chunks Replies ChunkStorage DataOps Library.NumberText Library.Wire

inductive Kind where
  | bool
  | int32
  | uint32
  | int64
  | uint64
  | string
  | bulk
  deriving DecidableEq

/-- A string may be a null pointer. A bulk handle stands for the memory that the
client has exposed. -/
@[reducible]
def Kind.Val : Kind → Type
  | bool => Bool
  | int32 => Int32
  | uint32 => UInt32
  | int64 => Int64
  | uint64 => UInt64
  | string => Option NulFree
  | bulk => UInt64

/-- The value of a member that an initializer `{}` clears. -/
instance : (k : Kind) → Inhabited k.Val
  | .bool => ⟨false⟩
  | .int32 => ⟨(0 : Int32)⟩
  | .uint32 => ⟨(0 : UInt32)⟩
  | .int64 => ⟨(0 : Int64)⟩
  | .uint64 => ⟨(0 : UInt64)⟩
  | .string => ⟨none⟩
  | .bulk => ⟨(0 : UInt64)⟩

inductive Name where
  | mountdir | rootdir | atimeState | mtimeState | ctimeState | linkCntState | blocksState
  | err | path | mode | dbVal | length
  | nlink | uid | gid | size | blocks | atime | mtime | ctime
  | nlinkFlag | modeFlag | sizeFlag | blockFlag | atimeFlag | mtimeFlag | ctimeFlag
  | offset | append | retSize | bulkHandle | direntsSize | ioSize
  | hostId | hostSize | chunkN | chunkStart | chunkEnd | totalChunkSize
  | dummy | chunkSize | chunkTotal | chunkFree | targetPath
  deriving DecidableEq

abbrev Format := Fields Name Kind

section Formats

open Name Kind

def voidT : Format := []

def rpcConfigOutT : Format :=
  [(mountdir, string), (rootdir, string), (atimeState, bool), (mtimeState, bool),
    (ctimeState, bool), (linkCntState, bool), (blocksState, bool), (uid, uint32), (gid, uint32)]

def rpcErrOutT : Format := [(err, int32)]

def rpcMkNodeInT : Format := [(path, string), (mode, uint32)]

def rpcPathOnlyInT : Format := [(path, string)]

def rpcStatOutT : Format := [(err, int32), (dbVal, string)]

def rpcTruncInT : Format := [(path, string), (length, uint64)]

def rpcRmNodeInT : Format := [(path, string)]

def rpcRmMetadataOutT : Format := [(err, int32), (size, int64), (mode, uint32)]

def rpcUpdateMetadentryInT : Format :=
  [(path, string), (nlink, uint64), (mode, uint32), (uid, uint32), (gid, uint32), (size, int64),
    (blocks, int64), (atime, int64), (mtime, int64), (ctime, int64), (nlinkFlag, bool),
    (modeFlag, bool), (sizeFlag, bool), (blockFlag, bool), (atimeFlag, bool), (mtimeFlag, bool),
    (ctimeFlag, bool)]

def rpcUpdateMetadentrySizeInT : Format :=
  [(path, string), (size, uint64), (offset, int64), (append, bool)]

def rpcUpdateMetadentrySizeOutT : Format := [(err, int32), (retSize, int64)]

def rpcGetMetadentrySizeOutT : Format := [(err, int32), (retSize, int64)]

def rpcGetDirentsInT : Format := [(path, string), (bulkHandle, bulk)]

def rpcGetDirentsOutT : Format := [(err, int32), (direntsSize, uint64)]

def rpcDataOutT : Format := [(err, int32), (ioSize, uint64)]

def rpcWriteDataInT : Format :=
  [(path, string), (offset, int64), (hostId, uint64), (hostSize, uint64), (chunkN, uint64),
    (chunkStart, uint64), (chunkEnd, uint64), (totalChunkSize, uint64), (bulkHandle, bulk)]

def rpcReadDataInT : Format :=
  [(path, string), (offset, int64), (hostId, uint64), (hostSize, uint64), (chunkN, uint64),
    (chunkStart, uint64), (chunkEnd, uint64), (totalChunkSize, uint64), (bulkHandle, bulk)]

def rpcTruncDataInT : Format :=
  [(path, string), (length, uint64), (hostId, uint64), (hostSize, uint64)]

def rpcChunkStatInT : Format := [(dummy, int32)]

def rpcChunkStatOutT : Format :=
  [(err, int32), (chunkSize, uint64), (chunkTotal, uint64), (chunkFree, uint64)]

def rpcMkSymlinkInT : Format := [(path, string), (targetPath, string)]

end Formats

/-- The names under which both sides register their calls. -/
inductive Rpc where
  | fsConfig | create | stat | decrSize | removeMetadata | removeData | updateMetadentry
  | getMetadentrySize | updateMetadentrySize | getDirents | getDirentsExtended | mkSymlink
  | write | read | truncate | getChunkStat
  deriving DecidableEq

/-- What the class of a call in the client lists: the members that its input puts
into the input type, the types, and the callbacks for the bytes. -/
structure Traits where
  members : Format
  mercuryInputType : Format
  mercuryInProcCb : Format
  mercuryOutputType : Format
  mercuryOutProcCb : Format

def Traits.of (members input output : Format) : Traits := ⟨members, input, input, output, output⟩

section Client

open Name Kind

def client : Rpc → Traits
  | .fsConfig => .of [] voidT rpcConfigOutT
  | .create => .of [(path, string), (mode, uint32)] rpcMkNodeInT rpcErrOutT
  | .stat => .of [(path, string)] rpcPathOnlyInT rpcStatOutT
  | .decrSize => .of [(path, string), (length, uint64)] rpcTruncInT rpcErrOutT
  | .removeMetadata => .of [(path, string)] rpcRmNodeInT rpcRmMetadataOutT
  | .removeData => .of [(path, string)] rpcRmNodeInT rpcErrOutT
  | .updateMetadentry => .of
    [(path, string), (nlink, uint64), (mode, uint32), (uid, uint32), (gid, uint32), (size, int64),
      (blocks, int64), (atime, int64), (mtime, int64), (ctime, int64), (nlinkFlag, bool),
      (modeFlag, bool), (sizeFlag, bool), (blockFlag, bool), (atimeFlag, bool), (mtimeFlag, bool),
      (ctimeFlag, bool)] rpcUpdateMetadentryInT rpcErrOutT
  | .getMetadentrySize => .of [(path, string)] rpcPathOnlyInT rpcGetMetadentrySizeOutT
  | .updateMetadentrySize => .of [(path, string), (size, uint64), (offset, int64), (append, bool)]
    rpcUpdateMetadentrySizeInT rpcUpdateMetadentrySizeOutT
  | .getDirents => .of [(path, string), (bulkHandle, bulk)] rpcGetDirentsInT rpcGetDirentsOutT
  | .getDirentsExtended => .of [(path, string), (bulkHandle, bulk)] rpcGetDirentsInT rpcGetDirentsOutT
  | .mkSymlink => .of [(path, string), (targetPath, string)] rpcMkSymlinkInT rpcErrOutT
  | .write => .of
    [(path, string), (offset, int64), (hostId, uint64), (hostSize, uint64), (chunkN, uint64),
      (chunkStart, uint64), (chunkEnd, uint64), (totalChunkSize, uint64), (bulkHandle, bulk)]
    rpcWriteDataInT rpcDataOutT
  | .read => .of
    [(path, string), (offset, int64), (hostId, uint64), (hostSize, uint64), (chunkN, uint64),
      (chunkStart, uint64), (chunkEnd, uint64), (totalChunkSize, uint64), (bulkHandle, bulk)]
    rpcReadDataInT rpcDataOutT
  | .truncate => .of [(path, string), (length, uint64), (hostId, uint64), (hostSize, uint64)]
    rpcTruncDataInT rpcErrOutT
  | .getChunkStat => .of [(dummy, int32)] rpcChunkStatInT rpcChunkStatOutT

end Client

/-- What the daemon registers for a call, and the types of its handler's locals
`in` and `out`. Without an `in` the handler does not ask for its input. -/
structure Registration where
  inT : Format
  outT : Format
  handlerIn : Option Format
  handlerOut : Format

def Registration.of (input output : Format) : Registration := ⟨input, output, some input, output⟩

def registerServerRpcs : Rpc → Registration
  | .fsConfig => { inT := voidT, outT := rpcConfigOutT, handlerIn := none, handlerOut := rpcConfigOutT }
  | .create => .of rpcMkNodeInT rpcErrOutT
  | .stat => .of rpcPathOnlyInT rpcStatOutT
  | .decrSize => .of rpcTruncInT rpcErrOutT
  | .removeMetadata => .of rpcRmNodeInT rpcRmMetadataOutT
  | .removeData => .of rpcRmNodeInT rpcErrOutT
  | .updateMetadentry => .of rpcUpdateMetadentryInT rpcErrOutT
  | .getMetadentrySize => .of rpcPathOnlyInT rpcGetMetadentrySizeOutT
  | .updateMetadentrySize => .of rpcUpdateMetadentrySizeInT rpcUpdateMetadentrySizeOutT
  | .getDirents => .of rpcGetDirentsInT rpcGetDirentsOutT
  | .getDirentsExtended => .of rpcGetDirentsInT rpcGetDirentsOutT
  | .mkSymlink => .of rpcMkSymlinkInT rpcErrOutT
  | .write => .of rpcWriteDataInT rpcDataOutT
  | .read => .of rpcReadDataInT rpcDataOutT
  | .truncate => {
    inT := rpcTruncInT
    outT := rpcErrOutT
    handlerIn := some rpcTruncDataInT
    handlerOut := rpcErrOutT }
  | .getChunkStat => {
    inT := rpcChunkStatInT
    outT := rpcChunkStatOutT
    handlerIn := none
    handlerOut := rpcChunkStatOutT }

/-- The way of an input to a handler that reads it as a value of type `received`. -/
def inputRoute (rpc : Rpc) (received : Format) : Route Name Kind where
  members := (client rpc).members
  sent := (client rpc).mercuryInputType
  written := (client rpc).mercuryInProcCb
  registered := (registerServerRpcs rpc).inT
  received := received

def outputRoute (rpc : Rpc) : Route Name Kind where
  members := (registerServerRpcs rpc).handlerOut
  sent := (registerServerRpcs rpc).handlerOut
  written := (registerServerRpcs rpc).outT
  registered := (client rpc).mercuryOutProcCb
  received := (client rpc).mercuryOutputType

abbrev Input (rpc : Rpc) := Record Kind.Val (client rpc).members

abbrev Output (rpc : Rpc) := Record Kind.Val (registerServerRpcs rpc).handlerOut

def hostsOf : (Σ k, Kind.Val k) → Option UInt32
  | ⟨.uint64, n⟩ => some (UInt64.toUInt32 n)
  | _ => none

def modulus {format : Format} (r : Record Kind.Val format) : Option UInt32 :=
  (r.get .hostSize).bind hostsOf

def word (n : UInt64) : Σ k, Kind.Val k := ⟨.uint64, n⟩

theorem word_injective : Function.Injective word := by
  intro m n h
  cases h
  rfl

def NoHosts {format : Format} (r : Record Kind.Val format) : Prop :=
  r.get .hostId = some (word 0) ∧ r.get .hostSize = some (word 0)

section Carried

variable (codec : Codec Kind Kind.Val) {rpc : Rpc}

/-- The handler and the client read what the other side has put into the message,
and a number of hosts that the client can divide by does not become 0. -/
structure Carried (rpc : Rpc) (input : Input rpc) (output : Output rpc) : Prop where
  arrives : ∀ received ∈ (registerServerRpcs rpc).handlerIn,
    (inputRoute rpc received).Carries codec input
  replies : (outputRoute rpc).Carries codec output
  divides : ∀ received ∈ (registerServerRpcs rpc).handlerIn,
    ∀ got ∈ (inputRoute rpc received).deliver codec input,
      modulus input ≠ some 0 → modulus got ≠ some 0

theorem divides_of_arrives {received : Format} {input : Input rpc}
    (h : (inputRoute rpc received).Carries codec input) {got : Record Kind.Val received}
    (hgot : (inputRoute rpc received).deliver codec input = some got) (hin : modulus input ≠ some 0) :
    modulus got ≠ some 0 := by
  cases Route.Carries.get_eq codec h hgot .hostSize with
  | inl hget =>
    have hmod : modulus got = modulus input := congrArg (Option.bind · hostsOf) hget
    exact hmod ▸ hin
  | inr hnone =>
    have hmod : modulus got = none := congrArg (Option.bind · hostsOf) hnone
    rw [hmod]
    exact (Option.some_ne_none 0).symm

theorem carried_iff (rpc : Rpc) (input : Input rpc) (output : Output rpc) :
    Carried codec rpc input output ↔
      (∀ received ∈ (registerServerRpcs rpc).handlerIn,
        (inputRoute rpc received).Carries codec input) ∧
      (outputRoute rpc).Carries codec output := by
  constructor
  · exact fun h => ⟨h.arrives, h.replies⟩
  · rintro ⟨harrives, hreplies⟩
    exact ⟨harrives, hreplies, fun received hreceived got hgot =>
      divides_of_arrives codec (harrives received hreceived) hgot⟩

/-- Only the input of one call is read otherwise than it is written. -/
theorem inputRoute_plain (h : rpc ≠ .truncate) :
    ∀ received ∈ (registerServerRpcs rpc).handlerIn,
      inputRoute rpc received = .plain (client rpc).members := by
  intro received hreceived
  cases rpc with
  | truncate => exact absurd rfl h
  | fsConfig | getChunkStat => cases hreceived
  | _ =>
    cases hreceived
    rfl

theorem outputRoute_plain (rpc : Rpc) :
    outputRoute rpc = .plain (registerServerRpcs rpc).handlerOut := by
  cases rpc <;> rfl

/-- The daemon reads the input of this call as one without the hosts. -/
theorem carries_truncate_iff (input : Input .truncate) :
    (inputRoute .truncate rpcTruncDataInT).Carries codec input ↔ NoHosts input := by
  have hshort := Route.carries_short_iff codec rpcTruncInT [(.hostId, .uint64), (.hostSize, .uint64)]
    (by decide) input
  rw [List.forall_mem_cons, List.forall_mem_singleton] at hshort
  exact hshort

theorem output_carries (rpc : Rpc) (output : Output rpc) : (outputRoute rpc).Carries codec output :=
  Route.carries_of_plain codec (outputRoute_plain rpc) output

/-- Every message is read as it was written, except the truncations that name a host. -/
theorem carried_iff_noHosts (rpc : Rpc) (input : Input rpc) (output : Output rpc) :
    Carried codec rpc input output ↔ (rpc = .truncate → NoHosts input) := by
  rw [carried_iff, and_iff_left (output_carries codec rpc output)]
  by_cases h : rpc = .truncate
  · subst h
    have hhandler : (registerServerRpcs .truncate).handlerIn = some rpcTruncDataInT := rfl
    simp only [hhandler, Option.mem_def, Option.some.injEq, forall_eq', forall_true_left]
    exact carries_truncate_iff codec input
  · exact iff_of_true (fun received hreceived =>
      Route.carries_of_plain codec (inputRoute_plain h received hreceived) input)
      fun htruncate => absurd htruncate h

theorem deliver_truncate (input : Input .truncate) :
    ∃ got : Record Kind.Val rpcTruncDataInT,
      (inputRoute .truncate rpcTruncDataInT).deliver codec input = some got ∧ NoHosts got :=
  ⟨_, Route.deliver_short codec rpcTruncInT [(.hostId, .uint64), (.hostSize, .uint64)] input, rfl, rfl⟩

/-- What `rpc_srv_truncate` does with its input. -/
def rpcSrvTruncate (strHash : Bytes → UInt64) (rootPath : Bytes) (path : Path) (l : Local)
    (got : Record Kind.Val rpcTruncDataInT) : Option (Except Failure Unit × Local) :=
  truncateFile rootPath path l strHash got.2.1 got.2.2.1 got.2.2.2.1

/-- Every truncation divides by zero in the daemon, whatever the client has sent. -/
theorem truncate_traps (input : Input .truncate) (strHash : Bytes → UInt64) (rootPath : Bytes)
    (path : Path) (l : Local) :
    ∃ got, (inputRoute .truncate rpcTruncDataInT).deliver codec input = some got ∧
      rpcSrvTruncate strHash rootPath path l got = none := by
  obtain ⟨got, hgot, hhosts⟩ := deliver_truncate codec input
  refine ⟨got, hgot, ?_⟩
  have hzero : got.2.2.2.1 = (0 : UInt64) := by
    have hget : some (word got.2.2.2.1) = some (word 0) := hhosts.2
    exact word_injective (Option.some.inj hget)
  exact truncateFile_no_hosts _ _ _ _ _ _ (congrArg UInt64.toUInt32 hzero)

end Carried

section Bytes

/-- One way to write the values, in place of the one of the transport. -/
def byteCodec : Codec Kind Kind.Val where
  encode
    | .bool, v => [Bool.toUInt8 v]
    | .int32, v => leBytes 4 (Int32.toUInt32 v).toNat
    | .uint32, v => leBytes 4 (UInt32.toNat v)
    | .int64, v => leBytes 8 (Int64.toUInt64 v).toNat
    | .uint64, v => leBytes 8 (UInt64.toNat v)
    | .string, v => stringBytes v
    | .bulk, v => leBytes 8 (UInt64.toNat v)
  decode
    | .bool, [] => none
    | .bool, b :: s => some (b != 0, s)
    | .int32, s => (takeUInt32 s).map fun r => (r.1.toInt32, r.2)
    | .uint32, s => takeUInt32 s
    | .int64, s => (takeUInt64 s).map fun r => (r.1.toInt64, r.2)
    | .uint64, s => takeUInt64 s
    | .string, s => takeString s
    | .bulk, s => takeUInt64 s
  decode_encode := by
    intro k v rest
    cases k with
    | bool => cases v <;> rfl
    | int32 => exact congrArg (Option.map _) (takeUInt32_leBytes _ rest)
    | uint32 => exact takeUInt32_leBytes v rest
    | int64 => exact congrArg (Option.map _) (takeUInt64_leBytes _ rest)
    | uint64 => exact takeUInt64_leBytes v rest
    | string => exact takeString_stringBytes v rest
    | bulk => exact takeUInt64_leBytes v rest

/-- A truncation whose boundary is on the second of two hosts. -/
def secondHost : Input .truncate := (some (cPath (text "/f")), (0 : UInt64), (1 : UInt64), (2 : UInt64), ())

def truncated : Output .truncate := ((0 : Int32), ())

theorem secondHost_not_carried :
    ¬ Carried byteCodec .truncate secondHost truncated ∧ modulus secondHost = some 2 ∧
      ((inputRoute .truncate rpcTruncDataInT).deliver byteCodec secondHost).bind modulus = some 0 := by
  refine ⟨fun h => ?_, rfl, rfl⟩
  have hnone := (carries_truncate_iff byteCodec secondHost).mp (h.arrives _ rfl)
  have hget : some (word 1) = some (word 0) := hnone.1
  exact absurd (word_injective (Option.some.inj hget)) (by decide)

end Bytes

end GaoFS.RpcTypes
