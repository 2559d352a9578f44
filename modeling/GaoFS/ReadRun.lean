import GaoFS.SrvData
import GaoFS.DataOps

namespace GaoFS.ReadRun

open Arithmetic Chunks Replies ChunkStorage FirstChunkRecord DataOps ForwardData SrvData
open Library.NumberText Library.Blocks Library.ByteFile

/-- A chunk task that has run: the value of its eventual, and the bytes that it
left at the start of its buffer. -/
structure ReadTask where
  slot : Slot
  taskSize : Int64
  bytes : Bytes

def readSlots (strHash : Bytes → UInt64) (inp : DataIn) : Option (List Slot) :=
  ((chnkIds inp.chunkStart inp.chunkEnd).foldlM (visit strHash inp) (Loop.init inp)).map Loop.slots

def runTask (dm : Daemon) (path : Path) (slot : Slot) : Option ReadTask :=
  (readFileAbt dm.rootPath path dm.store slot.chnkId slot.size.toNat slot.off.toUInt64.toNat).map
    fun r => ⟨slot, r.1, r.2⟩

def ReadTask.write (t : ReadTask) : Nat × List (Option UInt8) :=
  (t.slot.bufPtr.toNat, t.bytes.map some)

def readBuffer (inp : DataIn) (tasks : List ReadTask) (order : List Nat) : List (Option UInt8) :=
  copyAll (order.filterMap fun idx => tasks[idx]?.map ReadTask.write)
    (List.replicate inp.totalChunkSize.toNat none)

abbrev Push := Nat × List (Option UInt8)

/-- A bulk push, which fails when it leaves one of the two buffers. -/
def bulkPush (buf : List (Option UInt8)) (inp : DataIn) (slot : Slot) (size : Nat) : Option Push :=
  if slot.localOffset.toNat + size ≤ buf.length ∧ slot.originOffset.toNat + size ≤ inp.bulkSize.toNat then
    some (slot.originOffset.toNat, pread slot.localOffset.toNat size buf)
  else none

structure PushState where
  ioErr : Int32
  totalRead : UInt64
  pushes : List Push

/-- One iteration of `wait_for_tasks_and_push_back`; `none` is a wait that fails. -/
def pushBack (inp : DataIn) (buf : List (Option UInt8)) (s : PushState) : Option ReadTask → PushState
  | none => { s with ioErr := EIO }
  | some t =>
    if s.ioErr ≠ 0 then s
    else if t.taskSize < 0 then
      if t.taskSize = -ENOENT.toInt64 then s else { s with ioErr := (-t.taskSize).toInt32 }
    else if t.taskSize = 0 then s
    else match bulkPush buf inp t.slot t.taskSize.toUInt64.toNat with
      | none => { s with ioErr := EBUSY }
      | some push =>
        { s with totalRead := s.totalRead + t.taskSize.toUInt64, pushes := s.pushes ++ [push] }

def waitForTasksAndPushBack (inp : DataIn) (buf : List (Option UInt8))
    (tasks : List (Option ReadTask)) : DataOut × List Push :=
  let s := tasks.foldl (pushBack inp buf) ⟨0, 0, []⟩
  (⟨s.ioErr, if s.ioErr ≠ 0 then 0 else s.totalRead⟩, s.pushes)

/-- `rpc_srv_read`. An eventual without a task cannot be waited on, and `none` is
a daemon that traps or fails an assertion. -/
def rpcSrvRead (strHash : Bytes → UInt64) (dm : Daemon) (order : List Nat) (inp : DataIn) :
    Option (DataOut × List Push) := do
  let slots ← readSlots strHash inp
  let tasks ← slots.mapM (runTask dm inp.path)
  let waits := (List.range inp.chunkN.toNat).map fun idx => tasks[idx]?
  pure (waitForTasksAndPushBack inp (readBuffer inp tasks order) waits)

def gaofsPreadResult (outs : List (Option DataOut)) : Int64 :=
  let ret := collectReplies outs
  if ret.1 ≠ 0 then -1 else ret.2

/-- A file on the daemons: every chunk is absent or a byte string of at most a
chunk, on the host that its id hashes to, and the size is one past the last byte
written, of which a chunk may have lost its tail. -/
structure FileState (d : SimpleHashDistributor) (f : FilePath) where
  daemon : UInt64 → Daemon
  chunk : UInt64 → Option Bytes
  length_le : ∀ c b, chunk c = some b → b.length ≤ C
  first : (daemon (target d f.path 0)).store.firstChunk = (chunk 0).map recordOf
  later : ∀ c, c ≠ 0 →
    (chunkDir (daemon (target d f.path c)).rootPath f.path).bind
      (fun dir => chunkFile (daemon (target d f.path c)).store.fs dir c) = chunk c
  size : Nat
  le_size : ∀ c b, chunk c = some b → b ≠ [] → c.toNat * C + b.length ≤ size

/-- A position whose byte a read finds: its chunk reaches beyond it, and in the
first chunk no zero byte stands at it or before it. -/
def Reaches (chunk : UInt64 → Option Bytes) (x : Nat) : Prop :=
  ∃ b, chunk (UInt64.ofNat (x / C)) = some b ∧ x % C < b.length ∧
    (x / C = 0 → ∀ p, p ≤ x % C → b[p]? ≠ some 0)

/-- The byte of the file at a position; what was never written is zero. -/
def fileByte (chunk : UInt64 → Option Bytes) (x : Nat) : UInt8 :=
  ((chunk (UInt64.ofNat (x / C))).bind fun b => b[x % C]?).getD 0

/-- The bytes that a read of a chunk can see. -/
def view (chunk : UInt64 → Option Bytes) (c : UInt64) : Option Bytes :=
  if c = 0 then (chunk c).map cString else chunk c

def got (chunk : UInt64 → Option Bytes) (p : Piece) : Bytes :=
  pread p.off p.size ((view chunk (UInt64.ofNat p.chunk)).getD [])

def pushOf (chunk : UInt64 → Option Bytes) (p : Piece) : Option Push :=
  if got chunk p = [] then none else some (p.origin, (got chunk p).map some)

section Daemon

variable {d : SimpleHashDistributor} {f : FilePath} (st : FileState d f)

def taskOf (slot : Slot) : ReadTask :=
  ⟨slot, (fileRead (view st.chunk slot.chnkId) slot.size.toNat slot.off.toUInt64.toNat).1,
    (fileRead (view st.chunk slot.chnkId) slot.size.toNat slot.off.toUInt64.toNat).2⟩

theorem fileRead_snd (x : Option Bytes) (size off : Nat) :
    (fileRead x size off).2 = pread off size (x.getD []) := by
  cases x with
  | none => simp [fileRead, pread]
  | some b => rfl

theorem bytes_taskOf (slot : Slot) : (taskOf st slot).bytes = got st.chunk slot.piece := by
  rw [taskOf, fileRead_snd, got]
  simp [Slot.piece]

theorem runTask_eq {slot : Slot} {k : UInt64} (hk : target d f.path slot.chnkId = k)
    (fits : slot.off.toUInt64.toNat + slot.size.toNat ≤ C) :
    runTask (st.daemon k) f.path slot = some (taskOf st slot) := by
  subst hk
  by_cases h0 : slot.chnkId = 0
  · have hread := readFileAbt_record (st.daemon (target d f.path 0)).rootPath f.path
      st.first (fun b hb => st.length_le 0 b hb) slot.size.toNat
      slot.off.toUInt64.toNat
    rw [runTask, h0, hread, Option.map_some, taskOf, h0]
    rfl
  · obtain ⟨dir, hdir⟩ := exists_chunkDir (st.daemon (target d f.path slot.chnkId)).rootPath f
    have hfile := st.later slot.chnkId h0
    rw [hdir, Option.bind_some] at hfile
    rw [runTask, readFileAbt_chunkFile hdir _ h0 fits, hfile, Option.map_some, taskOf, view, if_neg h0]

theorem mapM_eq_some {α β : Type*} (l : List α) (g : α → Option β) (h : α → β)
    (hg : ∀ x ∈ l, g x = some (h x)) : l.mapM g = some (l.map h) := by
  induction l with
  | nil => rfl
  | cons x l ih =>
    rw [List.mapM_cons, hg x List.mem_cons_self, ih fun y hy => hg y (List.mem_cons_of_mem x hy)]
    rfl

theorem taskSize_taskOf (slot : Slot) :
    (taskOf st slot).taskSize = -ENOENT.toInt64 ∧ got st.chunk slot.piece = [] ∨
      (taskOf st slot).taskSize = Int64.ofNat (got st.chunk slot.piece).length := by
  rw [← bytes_taskOf]
  cases h : view st.chunk slot.chnkId with
  | none => exact .inl (by simp [taskOf, h, fileRead, readErr])
  | some b => exact .inr (by simp [taskOf, h, fileRead])

variable {st}

theorem pushBack_taskOf {inp : DataIn} {buf : List (Option UInt8)} {slot : Slot}
    (hlocal : slot.localOffset.toNat + (got st.chunk slot.piece).length ≤ buf.length)
    (horigin : slot.originOffset.toNat + (got st.chunk slot.piece).length ≤ inp.bulkSize.toNat)
    (hlen : (got st.chunk slot.piece).length ≤ C)
    (hbuf : pread slot.localOffset.toNat (got st.chunk slot.piece).length buf =
      (got st.chunk slot.piece).map some) (total : UInt64) (pushes : List Push) :
    pushBack inp buf ⟨0, total, pushes⟩ (some (taskOf st slot)) =
      ⟨0, total + UInt64.ofNat (got st.chunk slot.piece).length,
        pushes ++ (pushOf st.chunk slot.piece).toList⟩ := by
  have herr : ¬ (0 : Int32) ≠ 0 := fun h => h rfl
  have hempty : got st.chunk slot.piece = [] →
      (⟨0, total + UInt64.ofNat (got st.chunk slot.piece).length,
        pushes ++ (pushOf st.chunk slot.piece).toList⟩ : PushState) = ⟨0, total, pushes⟩ := by
    intro hg
    simp [pushOf, hg]
  cases taskSize_taskOf st slot with
  | inl hnone =>
    obtain ⟨hsize, hg⟩ := hnone
    have hneg : -ENOENT.toInt64 < 0 := by decide
    rw [hempty hg, pushBack, if_neg herr, hsize, if_pos hneg, if_pos rfl]
  | inr hsome =>
    generalize hg : got st.chunk slot.piece = g at *
    have hlt : g.length < 2 ^ 63 := hlen.trans_lt (by decide)
    have hword : (Int64.ofNat g.length).toUInt64 = UInt64.ofNat g.length := Int64.toUInt64_ofNat'
    rw [pushBack, if_neg herr, hsome, if_neg (not_ofNat_neg hlt)]
    by_cases h0 : g = []
    · rw [hempty h0, h0]
      exact if_pos rfl
    · have hne : ¬ Int64.ofNat g.length = 0 := fun he =>
        h0 (List.length_eq_zero_iff.mp ((ofNat_eq_zero_iff hlt).mp he))
      have hnat : (UInt64.ofNat g.length).toNat = g.length := by
        rw [UInt64.toNat_ofNat', Nat.mod_eq_of_lt (hlt.trans (by decide))]
      have hpush : bulkPush buf inp (taskOf st slot).slot g.length =
          some (slot.originOffset.toNat, g.map some) := by
        rw [← hbuf]
        exact if_pos ⟨hlocal, horigin⟩
      rw [if_neg hne, hword, hnat, hpush, pushOf, hg, if_neg h0]
      rfl

variable {o n : Nat} {r : DataIn}

variable (st) in
theorem length_got_le (p : Piece) : (got st.chunk p).length ≤ p.size := by
  rw [got, length_pread]
  exact Nat.min_le_left _ _

theorem foldl_pushBack {inp : DataIn} {buf : List (Option UInt8)} (slots : List Slot)
    (hlocal : ∀ s ∈ slots, s.localOffset.toNat + (got st.chunk s.piece).length ≤ buf.length)
    (horigin : ∀ s ∈ slots,
      s.originOffset.toNat + (got st.chunk s.piece).length ≤ inp.bulkSize.toNat)
    (hlen : ∀ s ∈ slots, (got st.chunk s.piece).length ≤ C)
    (hbuf : ∀ s ∈ slots, pread s.localOffset.toNat (got st.chunk s.piece).length buf =
      (got st.chunk s.piece).map some) (total : UInt64) (pushes : List Push) :
    ((slots.map (taskOf st)).map some).foldl (pushBack inp buf) ⟨0, total, pushes⟩ =
      ⟨0, total + (slots.map fun s => UInt64.ofNat (got st.chunk s.piece).length).sum,
        pushes ++ slots.filterMap fun s => pushOf st.chunk s.piece⟩ := by
  induction slots generalizing total pushes with
  | nil => simp
  | cons s slots ih =>
    have hs : s ∈ s :: slots := List.mem_cons_self
    rw [List.map_cons, List.map_cons, List.foldl_cons,
      pushBack_taskOf (hlocal s hs) (horigin s hs) (hlen s hs) (hbuf s hs),
      ih (fun t ht => hlocal t (List.mem_cons_of_mem s ht))
        (fun t ht => horigin t (List.mem_cons_of_mem s ht))
        (fun t ht => hlen t (List.mem_cons_of_mem s ht))
        (fun t ht => hbuf t (List.mem_cons_of_mem s ht)),
      List.map_cons, List.sum_cons, UInt64.add_assoc, List.append_assoc]
    cases h : pushOf st.chunk s.piece <;> simp [h]

structure SlotsOf (d : SimpleHashDistributor) (f : FilePath) (o n : Nat) (r : DataIn)
    (slots : List Slot) : Prop where
  pieces : slots.map Slot.piece = pieces o n 0 (chunksAt d f.path o n r.hostId)
  length : slots.length = r.chunkN.toNat

theorem SlotsOf.exists_piece {slots : List Slot} (h : SlotsOf d f o n r slots) {s : Slot}
    (hs : s ∈ slots) : ∃ c ∈ chunksAt d f.path o n r.hostId, ∃ a,
      a + len C o n c ≤ ((chunksAt d f.path o n r.hostId).map (len C o n)).sum ∧
        s.piece = piece o n a c := by
  have hp := List.mem_map_of_mem (f := Slot.piece) hs
  rw [h.pieces] at hp
  obtain ⟨c, hc, a, -, ha, hpc⟩ := mem_pieces hp
  exact ⟨c, hc, a, by omega, hpc⟩

theorem length_write (t : Slot) : ((taskOf st t).write).2.length = (got st.chunk t.piece).length := by
  rw [ReadTask.write, List.length_map, bytes_taskOf]

variable (st) in
theorem SlotsOf.write_fits {slots : List Slot} (h : SlotsOf d f o n r slots)
    (hr : Plans d f.path o n r) {t : Slot} (ht : t ∈ slots) :
    t.localOffset.toNat = t.bufPtr.toNat ∧
      t.bufPtr.toNat + (got st.chunk t.piece).length ≤ r.totalChunkSize.toNat := by
  obtain ⟨c, -, a, ha, hp⟩ := h.exists_piece ht
  have hptr : t.bufPtr.toNat = a := congrArg Piece.ptr hp
  have hplace : t.localOffset.toNat = a := congrArg Piece.place hp
  have hsize : t.piece.size = len C o n c := congrArg Piece.size hp
  have hle := length_got_le st t.piece
  rw [hr.total]
  omega

theorem SlotsOf.writes_perm {slots : List Slot} (h : SlotsOf d f o n r slots) {order : List Nat}
    (horder : order.Perm (List.range r.chunkN.toNat)) :
    (order.filterMap fun idx => (slots.map (taskOf st))[idx]?.map ReadTask.write).Perm
      ((slots.map (taskOf st)).map ReadTask.write) := by
  have hall := horder.filterMap fun idx => (slots.map (taskOf st))[idx]?.map ReadTask.write
  have hmap := congrArg (List.filterMap id)
    (map_range_getElem? (slots.map (taskOf st)) ReadTask.write)
  rw [List.filterMap_map, List.filterMap_map, List.length_map, h.length] at hmap
  have hid : (List.range r.chunkN.toNat).filterMap
      (fun idx => (slots.map (taskOf st))[idx]?.map ReadTask.write) =
      (slots.map (taskOf st)).map ReadTask.write := by
    simpa [Function.comp_def] using hmap
  rw [hid] at hall
  exact hall

theorem SlotsOf.length_readBuffer {slots : List Slot} (h : SlotsOf d f o n r slots)
    (hr : Plans d f.path o n r) {order : List Nat}
    (horder : order.Perm (List.range r.chunkN.toNat)) :
    (readBuffer r (slots.map (taskOf st)) order).length = r.totalChunkSize.toNat := by
  rw [readBuffer, length_copyAll, List.length_replicate]
  intro w hw
  have hw' := (h.writes_perm horder).mem_iff.mp hw
  rw [List.map_map] at hw'
  obtain ⟨t, ht, rfl⟩ := List.mem_map.mp hw'
  rw [List.length_replicate, Function.comp_apply, length_write]
  exact (h.write_fits st hr ht).2

theorem SlotsOf.pread_readBuffer {slots : List Slot} (h : SlotsOf d f o n r slots)
    (hr : Plans d f.path o n r) {order : List Nat}
    (horder : order.Perm (List.range r.chunkN.toNat)) {s : Slot} (hs : s ∈ slots) :
    pread s.localOffset.toNat (got st.chunk s.piece).length
        (readBuffer r (slots.map (taskOf st)) order) = (got st.chunk s.piece).map some := by
  have hfit : ∀ w ∈ (slots.map (taskOf st)).map ReadTask.write,
      w.1 + w.2.length ≤ (List.replicate r.totalChunkSize.toNat (none : Option UInt8)).length := by
    intro w hw
    rw [List.map_map] at hw
    obtain ⟨t, ht, rfl⟩ := List.mem_map.mp hw
    rw [List.length_replicate, Function.comp_apply, length_write]
    exact (h.write_fits st hr ht).2
  have hapart : ((slots.map (taskOf st)).map ReadTask.write).Pairwise Apart := by
    have hpieces := pieces_pairwise o n 0 (chunksAt d f.path o n r.hostId)
    rw [← h.pieces] at hpieces
    rw [List.map_map, List.pairwise_map]
    refine (List.pairwise_map.mp hpieces).imp fun {t u} htu => .inl ?_
    have hle := length_got_le st t.piece
    rw [Function.comp_apply, length_write]
    exact (Nat.add_le_add_left hle _).trans htu
  have hmem : (taskOf st s).write ∈ (slots.map (taskOf st)).map ReadTask.write :=
    List.mem_map_of_mem (List.mem_map_of_mem hs)
  have hread := pread_copyAll _ _ (h.writes_perm horder) _ hfit hapart _ hmem
  rw [length_write] at hread
  rw [(h.write_fits st hr hs).1]
  refine hread.trans ?_
  rw [ReadTask.write, bytes_taskOf]

theorem readSlots_pieces {path : Path} (hr : Plans d path o n r) (hn : 0 < n) (hon : o + n < 2 ^ 64) :
    ∃ slots, readSlots d.strHash r = some slots ∧
      slots.map Slot.piece = pieces o n 0 (chunksAt d path o n r.hostId) := by
  obtain ⟨l, hl, hinv⟩ := (LoopInv.init hr).run hr rfl hn hon
  obtain ⟨-, -, hpieces⟩ := hinv.finished hr
  refine ⟨l.slots, ?_, hpieces⟩
  rw [readSlots, chnkIds_eq hr.chunkStart hr.chunkEnd, hl, Option.map_some]

theorem length_of_pieces {path : Path} (hr : Plans d path o n r) {slots : List Slot}
    (h : slots.map Slot.piece = pieces o n 0 (chunksAt d path o n r.hostId)) :
    slots.length = r.chunkN.toNat := by
  rw [← List.length_map Slot.piece, h, length_pieces, hr.chunkN]

theorem readSlots_eq (hr : Plans d f.path o n r) (hn : 0 < n) (hon : o + n < 2 ^ 64) :
    ∃ slots, readSlots d.strHash r = some slots ∧ SlotsOf d f o n r slots := by
  obtain ⟨slots, hslots, hpieces⟩ := readSlots_pieces hr hn hon
  exact ⟨slots, hslots, hpieces, length_of_pieces hr hpieces⟩

theorem SlotsOf.runs {slots : List Slot} (h : SlotsOf d f o n r slots) (st : FileState d f)
    (hon : o + n < 2 ^ 64) {s : Slot} (hs : s ∈ slots) :
    runTask (st.daemon r.hostId) f.path s = some (taskOf st s) := by
  obtain ⟨c, hc, a, -, hp⟩ := h.exists_piece hs
  obtain ⟨hb, hhome⟩ := mem_chunksAt.mp hc
  have hid : s.chnkId = UInt64.ofNat c := by
    rw [← UInt64.toNat_inj, toNat_ofNat_block hon hb]
    exact congrArg Piece.chunk hp
  have hoff : s.off.toUInt64.toNat = cut C o n c - c * C := congrArg Piece.off hp
  have hsize : s.size.toNat = len C o n c := congrArg Piece.size hp
  apply runTask_eq st
  · rw [hid]
    exact hhome
  · rw [hoff, hsize]
    exact cut_sub_add_len_le C_pos hb

theorem SlotsOf.got_le {slots : List Slot} (h : SlotsOf d f o n r slots) (st : FileState d f)
    {s : Slot} (hs : s ∈ slots) : (got st.chunk s.piece).length ≤ C := by
  obtain ⟨c, hc, a, -, hp⟩ := h.exists_piece hs
  have hfit := cut_sub_add_len_le C_pos (mem_chunksAt.mp hc).1
  have hsize : s.piece.size = len C o n c := congrArg Piece.size hp
  have hle := length_got_le st s.piece
  omega

theorem SlotsOf.origin_fits {slots : List Slot} (h : SlotsOf d f o n r slots) (st : FileState d f)
    (hr : Plans d f.path o n r) {s : Slot} (hs : s ∈ slots) :
    s.originOffset.toNat + (got st.chunk s.piece).length ≤ r.bulkSize.toNat := by
  obtain ⟨c, hc, a, -, hp⟩ := h.exists_piece hs
  have horig : s.originOffset.toNat = cut C o n c - o := congrArg Piece.origin hp
  have hsize : s.piece.size = len C o n c := congrArg Piece.size hp
  have hle := length_got_le st s.piece
  have hend : cut C o n c - o + len C o n c ≤ n := by
    simp only [len, cut]
    omega
  rw [horig, hr.bulkSize]
  omega

theorem SlotsOf.waits {slots : List Slot} (h : SlotsOf d f o n r slots) (st : FileState d f) :
    (List.range r.chunkN.toNat).map (fun idx => (slots.map (taskOf st))[idx]?) =
      (slots.map (taskOf st)).map some := by
  have hmap := map_range_getElem? (slots.map (taskOf st)) id
  rw [List.length_map, h.length] at hmap
  simpa using hmap

/-- A value that does not depend on the place in the daemon's buffer, over all slots. -/
theorem SlotsOf.map_piece {slots : List Slot} (h : SlotsOf d f o n r slots) {β : Type*}
    (K : Piece → β) (hK : ∀ a c, K (piece o n a c) = K (piece o n 0 c)) :
    slots.map (fun s => K s.piece) =
      (chunksAt d f.path o n r.hostId).map fun c => K (piece o n 0 c) := by
  rw [← map_pieces o n K hK 0, ← h.pieces, List.map_map]
  rfl

theorem rpcSrvRead_eq (st : FileState d f) (hr : Plans d f.path o n r) (hn : 0 < n)
    (hon : o + n < 2 ^ 64) {order : List Nat} (horder : order.Perm (List.range r.chunkN.toNat)) :
    rpcSrvRead d.strHash (st.daemon r.hostId) order r =
      some (⟨0, ((chunksAt d f.path o n r.hostId).map fun c =>
          UInt64.ofNat (got st.chunk (piece o n 0 c)).length).sum⟩,
        (chunksAt d f.path o n r.hostId).filterMap fun c => pushOf st.chunk (piece o n 0 c)) := by
  obtain ⟨slots, hslots, h⟩ := readSlots_eq hr hn hon
  have hrun := mapM_eq_some slots _ (taskOf st) fun s hs => h.runs st hon hs
  have hlocal : ∀ s ∈ slots, s.localOffset.toNat + (got st.chunk s.piece).length ≤
      (readBuffer r (slots.map (taskOf st)) order).length := by
    intro s hs
    obtain ⟨hplace, hfit⟩ := h.write_fits st hr hs
    rw [h.length_readBuffer hr horder, hplace]
    exact hfit
  have hfold := foldl_pushBack slots hlocal (fun s hs => h.origin_fits st hr hs)
    (fun s hs => h.got_le st hs) (fun s hs => h.pread_readBuffer hr horder hs) 0 []
  have hsum := h.map_piece (fun p => UInt64.ofNat (got st.chunk p).length) fun _ _ => rfl
  have hpush : (slots.filterMap fun s => pushOf st.chunk s.piece) =
      (chunksAt d f.path o n r.hostId).filterMap fun c => pushOf st.chunk (piece o n 0 c) := by
    have hid := congrArg (List.filterMap id) (h.map_piece (pushOf st.chunk) fun _ _ => rfl)
    simpa [List.filterMap_map, Function.comp_def] using hid
  simp only [rpcSrvRead, hslots, hr.path_eq, hrun, Option.bind_eq_bind, Option.bind_some,
    Option.pure_def, h.waits st, waitForTasksAndPushBack, hfold, hsum, hpush]
  simp

end Daemon

section Client

variable {d : SimpleHashDistributor} {f : FilePath} (st : FileState d f)

def serve (order : UInt64 → List Nat) (reqs : List DataIn) : List (Option (DataOut × List Push)) :=
  reqs.map fun r => rpcSrvRead d.strHash (st.daemon r.hostId) (order r.hostId) r

def pushes (outs : List (Option (DataOut × List Push))) : List Push :=
  outs.flatMap fun out => out.elim [] Prod.snd

def sees (chunk : UInt64 → Option Bytes) (x : Nat) : Bool :=
  decide (x % C < ((view chunk (UInt64.ofNat (x / C))).getD []).length)

theorem ofNat_div_eq_zero_iff {x : Nat} (hx : x < 2 ^ 64) : UInt64.ofNat (x / C) = 0 ↔ x / C = 0 := by
  have hle := Nat.div_le_self x C
  rw [← UInt64.toNat_inj, UInt64.toNat_ofNat', Nat.mod_eq_of_lt (by omega)]
  rfl

variable {st}

theorem sees_iff {x : Nat} (hx : x < 2 ^ 64) : sees st.chunk x = true ↔ Reaches st.chunk x := by
  simp only [sees, decide_eq_true_eq, view, Reaches, ofNat_div_eq_zero_iff hx]
  by_cases h0 : x / C = 0
  · rw [if_pos h0]
    cases hc : st.chunk (UInt64.ofNat (x / C)) with
    | none => simp
    | some b =>
      simp only [Option.map_some, Option.getD_some, lt_length_cString_iff, Option.some.injEq,
        exists_eq_left', h0, forall_const]
  · rw [if_neg h0]
    cases hc : st.chunk (UInt64.ofNat (x / C)) with
    | none => simp
    | some b => simp [h0]

theorem length_got_eq {o n c : Nat} (hn : 0 < n) (hc : c ∈ blocks C o n) :
    (got st.chunk (piece o n 0 c)).length =
      (List.range' (cut C o n c) (len C o n c)).countP (sees st.chunk) := by
  have hle := mul_le_cut C_pos hn hc
  have hcount := countP_range'_lt (cut C o n c) (len C o n c)
    (c * C + ((view st.chunk (UInt64.ofNat c)).getD []).length)
  have hsees : ∀ x ∈ List.range' (cut C o n c) (len C o n c),
      sees st.chunk x = true ↔
        decide (x < c * C + ((view st.chunk (UInt64.ofNat c)).getD []).length) = true := by
    intro x hx
    have hdiv := ((mem_part C_pos hc hn).mp hx).2.2
    have hmod := Nat.div_add_mod x C
    rw [hdiv, Nat.mul_comm] at hmod
    simp only [sees, hdiv, decide_eq_true_eq]
    omega
  rw [List.countP_congr hsees, hcount, got, length_pread]
  simp only [piece]
  omega

theorem sum_length_got {o n : Nat} (hn : 0 < n) :
    ((blocks C o n).map fun c => (got st.chunk (piece o n 0 c)).length).sum =
      (List.range' o n).countP (sees st.chunk) := by
  rw [← flatMap_blocks (o := o) C_pos hn, List.countP_flatMap]
  congr 1
  exact List.map_congr_left fun c hc => length_got_eq hn hc

theorem sees_lt_size {x : Nat} (hx : x < 2 ^ 64) (h : sees st.chunk x = true) : x < st.size := by
  obtain ⟨b, hb, hlt, -⟩ := (sees_iff hx).mp h
  have hne : b ≠ [] := List.ne_nil_of_length_pos (by omega)
  have hle := st.le_size _ b hb hne
  have hnat : (UInt64.ofNat (x / C)).toNat = x / C := by
    have := Nat.div_le_self x C
    rw [UInt64.toNat_ofNat', Nat.mod_eq_of_lt (by omega)]
  have hmod := Nat.div_add_mod x C
  rw [hnat, Nat.mul_comm] at hle
  omega

theorem count_iff {o n : Nat} (hon : o + n < 2 ^ 64) :
    (List.range' o n).countP (sees st.chunk) = min n (st.size - o) ↔
      ∀ x, o ≤ x → x < o + n → x < st.size → Reaches st.chunk x := by
  have hlt : ∀ x ∈ List.range' o n, x < 2 ^ 64 := fun x hx => by
    have := List.mem_range'_1.mp hx
    omega
  rw [← countP_range'_lt o n st.size, countP_eq_iff_of_imp fun x hx h =>
    decide_eq_true (sees_lt_size (hlt x hx) h)]
  constructor
  · intro h x h1 h2 h3
    have hx := List.mem_range'_1.mpr ⟨h1, h2⟩
    exact (sees_iff (hlt x hx)).mp (h x hx (decide_eq_true h3))
  · intro h x hx h3
    have hx' := List.mem_range'_1.mp hx
    exact (sees_iff (hlt x hx)).mpr (h x hx'.1 hx'.2 (of_decide_eq_true h3))

theorem sum_ofNat (l : List Nat) : (l.map UInt64.ofNat).sum = UInt64.ofNat l.sum := by
  induction l with
  | nil => rfl
  | cons x l ih => rw [List.map_cons, List.sum_cons, List.sum_cons, ih, UInt64.ofNat_add]

section Call

variable {o n : Nat} {reqs : List DataIn} {order : UInt64 → List Nat}

structure Requests (d : SimpleHashDistributor) (f : FilePath) (o n : Nat) (reqs : List DataIn) :
    Prop where
  plans : ∀ r ∈ reqs, Plans d f.path o n r
  nodup : (reqs.map DataIn.hostId).Nodup
  hosts : ∀ c ∈ blocks C o n, home d f.path c ∈ reqs.map DataIn.hostId

theorem Requests.perm (h : Requests d f o n reqs) :
    ((reqs.map DataIn.hostId).flatMap fun k => chunksAt d f.path o n k).Perm (blocks C o n) :=
  flatMap_filter_perm (home d f.path) (blocks C o n) _ h.nodup h.hosts

theorem Requests.serve_eq (h : Requests d f o n reqs) (hn : 0 < n) (hon : o + n < 2 ^ 64)
    (horder : ∀ r ∈ reqs, (order r.hostId).Perm (List.range r.chunkN.toNat)) :
    serve st order reqs = (reqs.map DataIn.hostId).map fun k =>
      some (⟨0, ((chunksAt d f.path o n k).map fun c =>
          UInt64.ofNat (got st.chunk (piece o n 0 c)).length).sum⟩,
        (chunksAt d f.path o n k).filterMap fun c => pushOf st.chunk (piece o n 0 c)) := by
  rw [serve, List.map_map]
  exact List.map_congr_left fun r hr => rpcSrvRead_eq st (h.plans r hr) hn hon (horder r hr)

theorem Requests.result (h : Requests d f o n reqs) (hn : 0 < n) (hon : o + n < 2 ^ 64)
    (horder : ∀ r ∈ reqs, (order r.hostId).Perm (List.range r.chunkN.toNat)) :
    gaofsPreadResult ((serve st order reqs).map fun out => out.map Prod.fst) =
      Int64.ofNat ((List.range' o n).countP (sees st.chunk)) := by
  let out := fun k => (⟨0, ((chunksAt d f.path o n k).map fun c =>
    UInt64.ofNat (got st.chunk (piece o n 0 c)).length).sum⟩ : DataOut)
  have houts : (serve st order reqs).map (fun out => out.map Prod.fst) =
      ((reqs.map DataIn.hostId).map out).map some := by
    rw [h.serve_eq hn hon horder]
    simp only [List.map_map]
    rfl
  have hsizes : (((reqs.map DataIn.hostId).map out).map DataOut.ioSize).sum =
      UInt64.ofNat ((List.range' o n).countP (sees st.chunk)) := by
    have hinner : ∀ k, (out k).ioSize =
        UInt64.ofNat ((chunksAt d f.path o n k).map fun c =>
          (got st.chunk (piece o n 0 c)).length).sum := by
      intro k
      rw [← sum_ofNat, List.map_map]
      rfl
    have hperm := (h.perm.map fun c => (got st.chunk (piece o n 0 c)).length).sum_eq
    rw [List.map_flatMap, List.flatMap_def, List.sum_flatten, List.map_map,
      sum_length_got hn] at hperm
    rw [← hperm, ← sum_ofNat]
    simp only [List.map_map]
    congr 1
    exact List.map_congr_left fun r _ => hinner r.hostId
  have hok := collectReplies_ok ((reqs.map DataIn.hostId).map out) (by simp [out])
  rw [houts, gaofsPreadResult, hok, hsizes]
  simp

theorem Requests.pushes_perm (h : Requests d f o n reqs) (hn : 0 < n) (hon : o + n < 2 ^ 64)
    (horder : ∀ r ∈ reqs, (order r.hostId).Perm (List.range r.chunkN.toNat)) :
    (pushes (serve st order reqs)).Perm
      ((blocks C o n).filterMap fun c => pushOf st.chunk (piece o n 0 c)) := by
  have hperm := h.perm.filterMap fun c => pushOf st.chunk (piece o n 0 c)
  rw [List.filterMap_flatMap] at hperm
  rw [h.serve_eq hn hon horder, pushes, List.flatMap_map]
  exact hperm

theorem blocks_pushes_fit {w : Push}
    (hw : w ∈ (blocks C o n).filterMap fun c => pushOf st.chunk (piece o n 0 c)) :
    w.1 + w.2.length ≤ n := by
  obtain ⟨c, hc, hpush⟩ := List.mem_filterMap.mp hw
  have hle := length_got_le st (piece o n 0 c)
  unfold pushOf at hpush
  split at hpush
  · exact absurd hpush (by simp)
  · obtain rfl := Option.some.inj hpush
    simp only [piece, List.length_map] at hle ⊢
    have hend : cut C o n c - o + len C o n c ≤ n := by
      simp only [len, cut]
      omega
    omega

theorem blocks_pushes_apart :
    ((blocks C o n).filterMap fun c => pushOf st.chunk (piece o n 0 c)).Pairwise Apart := by
  have hlt : (blocks C o n).Pairwise (· < ·) := List.pairwise_lt_range'
  refine hlt.filterMap _ fun c e hce w hw v hv => .inl ?_
  have hle := length_got_le st (piece o n 0 c)
  have hmono := cut_mono (B := C) (o := o) (n := n) (c + 1) e hce
  have hmono' := cut_mono (B := C) (o := o) (n := n) c (c + 1) (Nat.le_succ c)
  have hlo : o ≤ cut C o n c := Nat.le_max_left _ _
  unfold pushOf at hw hv
  split at hw
  · exact absurd hw (by simp)
  · split at hv
    · exact absurd hv (by simp)
    · obtain rfl := Option.some.inj hw
      obtain rfl := Option.some.inj hv
      simp only [piece, List.length_map, len] at hle ⊢
      omega

theorem getElem?_view {x : Nat} (hx : x < 2 ^ 64) (h : Reaches st.chunk x) :
    ((view st.chunk (UInt64.ofNat (x / C))).getD [])[x % C]? = some (fileByte st.chunk x) := by
  have hlen := of_decide_eq_true ((sees_iff hx).mpr h)
  obtain ⟨b, hb, hlt, -⟩ := h
  rw [fileByte, hb, Option.bind_some, List.getElem?_eq_getElem hlt, Option.getD_some]
  simp only [view] at hlen ⊢
  split
  · rename_i h0
    rw [if_pos h0, hb] at hlen
    rw [hb, Option.map_some, Option.getD_some, getElem?_cString hlen, List.getElem?_eq_getElem hlt]
  · rw [hb, Option.getD_some, List.getElem?_eq_getElem hlt]

theorem getElem?_got {x : Nat} (hn : 0 < n) (hon : o + n < 2 ^ 64) (h1 : o ≤ x) (h2 : x < o + n)
    (h : Reaches st.chunk x) :
    (got st.chunk (piece o n 0 (x / C)))[x - cut C o n (x / C)]? = some (fileByte st.chunk x) := by
  have hc : x / C ∈ blocks C o n :=
    mem_blocks.mpr ⟨Nat.div_le_div_right h1, Nat.div_le_div_right (by omega)⟩
  have hpart := List.mem_range'_1.mp ((mem_part C_pos hc hn).mpr ⟨h1, h2, rfl⟩)
  have hdiv := Nat.div_add_mod x C
  rw [Nat.mul_comm] at hdiv
  have hstart := mul_le_cut C_pos hn hc
  have hin : x - cut C o n (x / C) < (piece o n 0 (x / C)).size := by
    change _ < len C o n (x / C)
    omega
  rw [got, getElem?_pread, if_pos hin, ← getElem?_view (by omega) h]
  congr 1
  change cut C o n (x / C) - x / C * C + _ = _
  omega

theorem Requests.arrives (h : Requests d f o n reqs) (hn : 0 < n) (hon : o + n < 2 ^ 64)
    (horder : ∀ r ∈ reqs, (order r.hostId).Perm (List.range r.chunkN.toNat))
    {arrivals : List Push} (harr : arrivals.Perm (pushes (serve st order reqs)))
    (buf : List (Option UInt8)) (hbuf : buf.length = n) {x : Nat} (h1 : o ≤ x) (h2 : x < o + n)
    (hx : Reaches st.chunk x) :
    (copyAll arrivals buf)[x - o]? = some (some (fileByte st.chunk x)) := by
  have hc : x / C ∈ blocks C o n :=
    mem_blocks.mpr ⟨Nat.div_le_div_right h1, Nat.div_le_div_right (by omega)⟩
  have hgot := getElem?_got hn hon h1 h2 hx
  have hne : got st.chunk (piece o n 0 (x / C)) ≠ [] := by
    intro hnil
    rw [hnil] at hgot
    exact absurd hgot (by simp)
  have hmem : (cut C o n (x / C) - o, (got st.chunk (piece o n 0 (x / C))).map some) ∈
      (blocks C o n).filterMap fun c => pushOf st.chunk (piece o n 0 c) :=
    List.mem_filterMap.mpr ⟨x / C, hc, by rw [pushOf, if_neg hne]; rfl⟩
  have hread := pread_copyAll _ _ (harr.trans (h.pushes_perm hn hon horder)) buf
    (fun w hw => by rw [hbuf]; exact blocks_pushes_fit hw) blocks_pushes_apart _ hmem
  have hat := congrArg (fun l => l[x - cut C o n (x / C)]?) hread
  have hlong := (List.getElem?_eq_some_iff.mp hgot).1
  simp only [getElem?_pread, List.length_map, hlong, if_true, List.getElem?_map, hgot,
    Option.map_some] at hat
  rw [← hat]
  congr 1
  have hpart := List.mem_range'_1.mp ((mem_part C_pos hc hn).mpr ⟨h1, h2, rfl⟩)
  have hlo : o ≤ cut C o n (x / C) := Nat.le_max_left _ _
  omega

end Call

structure Pread where
  buf : List UInt8
  offset : Int64
  buf_ne : buf ≠ []
  length_lt : buf.length < 2 ^ 63
  offset_nonneg : 0 ≤ offset

def Pread.requests (call : Pread) (d : SimpleHashDistributor) (path : Path) : List DataIn :=
  forwardRead d path call.offset (UInt64.ofNat call.buf.length)

theorem Pread.length_pos (call : Pread) : 0 < call.buf.length := List.length_pos_of_ne_nil call.buf_ne

/-- Both the offset and the length are below 2^63. -/
theorem Pread.end_lt (call : Pread) : call.offset.toUInt64.toNat + call.buf.length < 2 ^ 64 := by
  have hoff := toInt_of_nonneg call.offset_nonneg
  have hmax := call.offset.toInt_lt
  have hlt := call.length_lt
  omega

theorem Pread.requests_spec (call : Pread) (d : SimpleHashDistributor) (f : FilePath) :
    Requests d f call.offset.toUInt64.toNat call.buf.length (call.requests d f.path) := by
  have hlt := call.length_lt
  have hcnt : (UInt64.ofNat call.buf.length).toNat = call.buf.length := by
    rw [UInt64.toNat_ofNat']
    omega
  obtain ⟨hnodup, hmem⟩ := dataRequests_hosts d f.path rfl hcnt call.length_pos call.end_lt
  exact ⟨dataRequests_plans rfl hcnt call.length_pos hlt call.end_lt, hnodup,
    fun c hc => (hmem _).mpr ⟨c, hc, rfl⟩⟩

/-- The read returns how much of its range lies before the end of the file, and
leaves the file's bytes there in the buffer, in whatever order daemons run their
tasks and pushes arrive. -/
def ReadsCorrectly (st : FileState d f) (call : Pread) : Prop :=
  let reqs := call.requests d f.path
  let offset := call.offset.toUInt64.toNat
  let r := min call.buf.length (st.size - offset)
  ∀ (order : UInt64 → List Nat) (arrivals : List Push),
    (∀ r ∈ reqs, (order r.hostId).Perm (List.range r.chunkN.toNat)) →
    arrivals.Perm (pushes (serve st order reqs)) →
    gaofsPreadResult ((serve st order reqs).map fun out => out.map Prod.fst) = Int64.ofNat r ∧
      ∀ i < r, (copyAll arrivals (call.buf.map some))[i]? =
        some (some (fileByte st.chunk (offset + i)))

/-- A read is correct exactly if every position of its range before the end of
the file lies in a present chunk that reaches beyond it, in the first chunk
without a zero byte up to there. -/
theorem gaofsPread_correct_iff (st : FileState d f) (call : Pread) :
    ReadsCorrectly st call ↔
      ∀ x, call.offset.toUInt64.toNat ≤ x → x < call.offset.toUInt64.toNat + call.buf.length →
        x < st.size → Reaches st.chunk x := by
  have hreqs := call.requests_spec d f
  have hn := call.length_pos
  have hlt := call.length_lt
  have hon := call.end_lt
  rw [← count_iff hon]
  constructor
  · intro h
    have horder : ∀ r ∈ call.requests d f.path,
        (List.range (chunksAt d f.path call.offset.toUInt64.toNat call.buf.length r.hostId).length).Perm
          (List.range r.chunkN.toNat) := fun r hr => by rw [(hreqs.plans r hr).chunkN]
    have hret := (h (fun k => List.range (chunksAt d f.path call.offset.toUInt64.toNat
      call.buf.length k).length) _ horder (List.Perm.refl _)).1
    rw [hreqs.result hn hon horder] at hret
    have hle := List.countP_le_length (p := sees st.chunk)
      (l := List.range' call.offset.toUInt64.toNat call.buf.length)
    rw [List.length_range'] at hle
    have hint := congrArg Int64.toInt hret
    rw [Int64.toInt_ofNat_of_lt (by omega), Int64.toInt_ofNat_of_lt (by omega)] at hint
    omega
  · intro h order arrivals horder harr
    refine ⟨by rw [hreqs.result hn hon horder, h], fun i hi => ?_⟩
    have hx := (count_iff hon).mp h (call.offset.toUInt64.toNat + i) (by omega) (by omega) (by omega)
    have hat := hreqs.arrives hn hon horder harr (call.buf.map some) (by simp) (by omega)
      (by omega) hx
    rw [Nat.add_sub_cancel_left] at hat
    exact hat

def FileState.place (d : SimpleHashDistributor) (f : FilePath) (rootPath : Bytes)
    (chunk : UInt64 → Option Bytes) (length_le : ∀ c b, chunk c = some b → b.length ≤ C) (size : Nat)
    (le_size : ∀ c b, chunk c = some b → b ≠ [] → c.toNat * C + b.length ≤ size) : FileState d f where
  daemon := fun k =>
    { rootPath := rootPath
      store :=
        { firstChunk := if target d f.path 0 = k then (chunk 0).map recordOf else none
          fs := fun dir =>
            if chunkDir rootPath f.path = some dir then
              some fun c => if c ≠ 0 ∧ target d f.path c = k then chunk c else none
            else none } }
  chunk := chunk
  length_le := length_le
  first := if_pos rfl
  later := by
    intro c hc
    obtain ⟨dir, hdir⟩ := exists_chunkDir rootPath f
    simp [hdir, chunkFile, hc]
  size := size
  le_size := le_size

def shortFirstChunk (c : UInt64) : Option Bytes :=
  if c = 0 then some [7] else if c = 1 then some [9] else none

/-- One byte in the first chunk and one in the second. -/
def shortFirst : FileState twoHosts plainFile :=
  FileState.place twoHosts plainFile (text "/r") shortFirstChunk
    (by
      intro c b hb
      unfold shortFirstChunk at hb
      split_ifs at hb <;> obtain rfl := Option.some.inj hb <;> decide)
    (C + 1)
    (by
      intro c b hb _
      unfold shortFirstChunk at hb
      split_ifs at hb with h0 h1 <;> obtain rfl := Option.some.inj hb
      · subst h0
        decide
      · subst h1
        decide)

/-- The hole at the end of the first chunk is not counted: the read returns 1. -/
theorem shortFirst_read_short :
    ¬ ReadsCorrectly shortFirst ⟨[0, 0], 524287, by decide, by decide, by decide⟩ := by
  intro h
  have hret := (h (fun _ => [0]) _ (by decide +kernel) (List.Perm.refl _)).1
  revert hret
  decide +kernel

end Client

end GaoFS.ReadRun
