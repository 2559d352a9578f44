import GaoFS.WriteRun
import GaoFS.FirstChunkRace
import GaoFS.ForwardRemove

namespace GaoFS.StoredWrites

open Arithmetic Chunks Replies ForwardData SrvData ChunkStorage FirstChunkRecord DataOps MetadataKey
open MetadataDB WriteRun ForwardRemove Library.NumberText Library.Blocks Library.ByteFile Library.Runs
open FirstChunkRace (Pc call wrote writeErr eventual)

/-- The next call into the store of a task in `write_file_abt`. A chunk file is written in one, and
the record of a first chunk is looked at before it is put. -/
def taskCall (rootPath : Bytes) (path : Path) (l : Local) (chnkId : UInt64) (buf : Bytes) (off : Nat)
    (pc : Pc) : Pc × Local :=
  if chnkId = 0 then
    if fits : off + buf.length ≤ C then
      let out := call ⟨buf, off, fits⟩ l.firstChunk pc
      (out.1, { l with firstChunk := out.2 })
    else (.aborted, l)
  else
    match pc with
    | .start =>
      match writeChunk rootPath path l.fs chnkId buf off with
      | none => (.aborted, l)
      | some (r, fs) => (.done (eventual r), { l with fs := fs })
    | pc => (pc, l)

section Daemon

/-- A daemon that serves one write request, and where each of its tasks stands. -/
structure Serving where
  srv : Srv UInt8
  pc : Nat → Pc

def Serving.init (inp : DataIn) : Serving := ⟨Srv.init inp, fun _ => .start⟩

/-- What the eventual of a task has been set to. -/
def Serving.eventual (sv : Serving) (idx : Nat) : Option Int64 :=
  match sv.pc idx with
  | .done r => some r
  | _ => none

variable (heap : Nat → UInt8)

/-- What a task finds at its place in the buffer, which is `heap` where nothing has been pulled. -/
def bytesAt (bulkBuf : List (Option UInt8)) (slot : Slot) : Bytes :=
  (pread slot.bufPtr.toNat slot.size.toNat bulkBuf).mapIdx fun j b => b.getD (heap (slot.bufPtr.toNat + j))

def Serving.taskOut (sv : Serving) (h : Host) (slot : Slot) (pc : Pc) : Pc × Local :=
  let path := sv.srv.inp.path
  taskCall h.rootPath path (h.store path).data slot.chnkId (bytesAt heap sv.srv.bulkBuf slot)
    slot.off.toUInt64.toNat pc

/-- A launched task makes its next call into the store of its host. -/
def Serving.run (sv : Serving) (h : Host) (idx : Nat) : Serving × Host :=
  match sv.srv.loop.slots[idx]? with
  | none => (sv, h)
  | some slot =>
    let out := sv.taskOut heap h slot (sv.pc idx)
    let path := sv.srv.inp.path
    (⟨sv.srv.run idx, Function.update sv.pc idx out.1⟩,
      h.putStore path { h.store path with data := out.2 })

def Serving.wait (sv : Serving) : Serving :=
  if sv.srv.rest = [] ∧ sv.srv.reply = none ∧
      ∀ idx < sv.srv.loop.slots.length, (sv.eventual idx).isSome then
    { sv with
      srv := { sv.srv with
        reply := some (waitForTasks ((List.range sv.srv.inp.chunkN.toNat).map sv.eventual)) } }
  else sv

def Serving.act (strHash : Bytes → UInt64) (user : Bytes) (sv : Serving) (h : Host) : Act → Serving × Host
  | .visit transferred => ({ sv with srv := sv.srv.visit strHash user transferred }, h)
  | .run idx => sv.run heap h idx
  | .wait => (sv.wait, h)

end Daemon

/-- A call of `gaofs_pwrite` on a regular file, with something to write in the range of file sizes. -/
structure Pwrite where
  file : FilePath
  user : Bytes
  offset : Int64
  user_ne : user ≠ []
  offset_nonneg : 0 ≤ offset
  end_le : offset.toInt + user.length ≤ 2 ^ 63 - 1

namespace Pwrite

variable (w : Pwrite)

def start : Nat := w.offset.toUInt64.toNat

def count : UInt64 := UInt64.ofNat w.user.length

/-- One past the last position that the call writes. -/
def stop : Nat := w.start + w.user.length

/-- The positions of the file that the call writes. -/
def Covers (x : Nat) : Prop := w.start ≤ x ∧ x < w.stop

instance decidableCovers (x : Nat) : Decidable (w.Covers x) := inferInstanceAs (Decidable (_ ∧ _))

/-- The reply of the metadata host to the size update. -/
def sizeOut : SizeOut := updateMetadentrySizeOut (.ok ()) w.count w.offset

def requests (d : SimpleHashDistributor) (size : SizeOut) : List DataIn :=
  gaofsPwrite d w.file.path false w.count w.offset size

end Pwrite

section System

variable {ι : Type*} [DecidableEq ι]

/-- Calls in flight: the daemons, the reply of the metadata host to each call's size update, and
the requests of each call at the data hosts. -/
structure State (ι : Type*) where
  cl : Cluster
  size : ι → Option SizeOut
  serving : ι → UInt64 → Option Serving

inductive Event where
  | updateSize
  | act (host : UInt64) (a : Act)
  deriving DecidableEq

/-- A bulk transfer that fails. -/
def Event.fails : Event → Bool
  | .act _ (.visit false) => true
  | _ => false

def start (cl : Cluster) : State ι := ⟨cl, fun _ => none, fun _ _ => none⟩

variable (d : SimpleHashDistributor) (heap : Nat → UInt8) (calls : ι → Pwrite)

/-- The size update is served at once and then the requests are out. -/
def sendSize (s : State ι) (i : ι) : State ι :=
  let path := (calls i).file.path
  let m := metadataHost d path
  let out := rpcSrvUpdateMetadentrySize ((s.cl m).store path) (calls i).count (calls i).offset false
  { cl := s.cl.putStore m path out.2
    size := Function.update s.size i out.1
    serving := Function.update s.serving i fun host =>
      out.1.bind fun size => (((calls i).requests d size).find? (fun r => r.hostId = host)).map Serving.init }

/-- A step of one call, at the metadata host or at one of its data hosts. -/
def step (s : State ι) (e : ι × Event) : State ι :=
  match e.2 with
  | .updateSize => if (s.size e.1).isSome then s else sendSize d calls s e.1
  | .act host a =>
    match s.serving e.1 host with
    | none => s
    | some sv =>
      let out := sv.act heap d.strHash (calls e.1).user (s.cl host) a
      { s with
        cl := Function.update s.cl host out.2
        serving := Function.update s.serving e.1 (Function.update (s.serving e.1) host (some out.1)) }

def replyOf (s : State ι) (i : ι) (r : DataIn) : Option DataOut :=
  (s.serving i r.hostId).bind fun sv => sv.srv.reply

/-- What the call returns once it has heard from all of its hosts. -/
def result (s : State ι) (i : ι) : Option Int64 :=
  (s.size i).bind fun size =>
    if ∀ r ∈ (calls i).requests d size, (replyOf s i r).isSome then
      some (gaofsPwriteResult size (((calls i).requests d size).map (replyOf s i)))
    else none

end System

section View

variable (d : SimpleHashDistributor) (cl : Cluster) (f : FilePath)

/-- What is stored of a chunk on the host that its id hashes to. -/
def chunkOf (c : UInt64) : Option Bytes :=
  let h := cl (target d f.path c)
  (chunkDir h.rootPath f.path).bind fun dir => (h.store f.path).data.stored dir c

def byteAt (x : Nat) : Option UInt8 := (chunkOf d cl f (UInt64.ofNat (x / C))).bind fun b => b[x % C]?

end View

section Tasks

/-- A record as the tasks leave it that write no zero byte and no gap, which the decoder reads back. -/
def FirstClean (l : Local) : Prop :=
  ∀ raw, l.firstChunk = some raw → ∃ content, raw = recordOf content ∧ content.length ≤ C ∧ 0 ∉ content

variable {rootPath dir : Bytes} {path : Path} {l : Local} {chnkId : UInt64} {buf : Bytes} {off : Nat} {pc : Pc}

theorem cString_of_clean {content : Bytes} (h : 0 ∉ content) : cString content = content := by
  rw [cString_eq_self_iff]
  intro b hb
  rw [notNul, bne_iff_ne]
  exact fun hzero => h (hzero ▸ hb)

theorem stored_recordOf (dir : Bytes) {content : Bytes} (hl : l.firstChunk = some (recordOf content))
    (hlen : content.length ≤ C) (hclean : 0 ∉ content) : l.stored dir 0 = some content := by
  rw [Local.stored, if_pos rfl, hl, Option.bind_some, decode_recordOf _ (hlen.trans_lt (by decide)),
    cString_of_clean hclean]

theorem stored_none (hl : l.firstChunk = none) : l.stored dir 0 = none := by
  rw [Local.stored, if_pos rfl, hl, Option.bind_none]

theorem FirstClean.stored (h : FirstClean l) (dir : Bytes) :
    (l.firstChunk = none ∧ l.stored dir 0 = none) ∨ ∃ content, l.firstChunk = some (recordOf content) ∧
      content.length ≤ C ∧ 0 ∉ content ∧ l.stored dir 0 = some content := by
  cases hl : l.firstChunk with
  | none => exact .inl ⟨rfl, stored_none hl⟩
  | some raw =>
    obtain ⟨content, rfl, hlen, hclean⟩ := h raw hl
    exact .inr ⟨content, rfl, hlen, hclean, stored_recordOf dir hl hlen hclean⟩

/-- A write without a gap brings in no byte but its own. -/
theorem clean_pwrite {content : Bytes} (hoff : off ≤ content.length) (hcontent : 0 ∉ content)
    (hbuf : 0 ∉ buf) (hne : buf ≠ []) : 0 ∉ pwrite 0 off buf content := by
  have hall : ∀ {bytes : Bytes}, (∀ b ∈ bytes, (b != 0) = true) ↔ 0 ∉ bytes := by
    intro bytes
    simp only [bne_iff_ne]
    exact ⟨fun h hmem => h 0 hmem rfl, fun h b hb hzero => h (hzero ▸ hb)⟩
  rw [← hall, all_pwrite_iff _ 0 (by decide) _ _ _ (hall.mpr hcontent) hne]
  exact ⟨hall.mpr hbuf, hoff⟩

/-- Where a task stands that no other task on the record disturbs. -/
def Stands (record : Option Bytes) : Pc → Prop
  | .checking | .putting => record = none
  | .getting => record.isSome
  | .updating _ content => record = some (recordOf content)
  | .start | .done _ => True
  | .aborted => False

/-- The effect of a task's call: it stores nothing and goes on, or it stores its bytes and is done. -/
inductive TaskEffect (dir : Bytes) (l : Local) (chnkId : UInt64) (buf : Bytes) (off : Nat) : Pc × Local → Prop
  | goesOn (pc : Pc) (unfinished : ∀ r, pc ≠ .done r) (first : chnkId = 0) (stands : Stands l.firstChunk pc) :
      TaskEffect dir l chnkId buf off (pc, l)
  | stores (l' : Local) (clean : chnkId = 0 → FirstClean l') (stored : ∀ e, l'.stored dir e =
      if e = chnkId then some (pwrite 0 off buf ((l.stored dir chnkId).getD [])) else l.stored dir e)
      (kept : chnkId ≠ 0 → l'.firstChunk = l.firstChunk) :
      TaskEffect dir l chnkId buf off (.done (Int64.ofNat buf.length), l')

theorem taskCall_done (fits : off + buf.length ≤ C) (r : Int64) :
    taskCall rootPath path l chnkId buf off (.done r) = (.done r, l) := by
  rw [taskCall.eq_def, dif_pos fits]
  split <;> rfl

/-- Storing a record that the decoder reads back. -/
theorem stores_first {content : Bytes} (hlen : content.length ≤ C) (hclean : 0 ∉ content)
    (hstored : (l.stored dir 0).getD [] = content) (fits : off + buf.length ≤ C) (hne : buf ≠ [])
    (hoff : off ≤ content.length) (hbuf : 0 ∉ buf) :
    TaskEffect dir l 0 buf off (.done (Int64.ofNat buf.length),
      { l with firstChunk := some (recordOf (writeContent content buf off)) }) := by
  have hclean' := clean_pwrite hoff hclean hbuf hne
  have hlen' : (pwrite 0 off buf content).length ≤ C := by
    rw [length_pwrite _ _ _ _ hne]
    omega
  rw [writeContent_of_ne_nil _ _ _ hne]
  refine .stores _ ?_ (fun e => ?_) (fun h => absurd rfl h)
  · intro _ raw hraw
    exact ⟨_, (Option.some.inj hraw).symm, hlen', hclean'⟩
  · by_cases he : e = 0
    · subst he
      rw [if_pos rfl, hstored]
      exact stored_recordOf dir rfl hlen' hclean'
    · simp only [Local.stored, if_neg he]

/-- The calls of the only task on a record, which has no zero byte to write and leaves no gap. -/
theorem taskCall_first (h : FirstClean l) (fits : off + buf.length ≤ C) (hne : buf ≠ []) (hbuf : 0 ∉ buf)
    (hoff : off ≤ ((l.stored dir 0).getD []).length) (hpc : Stands l.firstChunk pc)
    (hunfinished : ∀ r, pc ≠ .done r) :
    TaskEffect dir l 0 buf off (taskCall rootPath path l 0 buf off pc) := by
  rw [taskCall.eq_def, if_pos rfl, dif_pos fits]
  cases pc with
  | start =>
    by_cases hsome : l.firstChunk.isSome = true
    · simp only [call, if_pos hsome]
      exact .goesOn _ (fun r hr => by cases hr) rfl hsome
    · simp only [call, if_neg hsome]
      exact .goesOn _ (fun r hr => by cases hr) rfl (Option.not_isSome_iff_eq_none.mp hsome)
  | checking =>
    have hnone : ¬ l.firstChunk.isSome = true := by
      rw [show l.firstChunk = none from hpc]
      exact Bool.false_ne_true
    simp only [call, if_neg hnone]
    exact .goesOn _ (fun r hr => by cases hr) rfl hpc
  | putting =>
    have hnone : l.stored dir 0 = none := stored_none hpc
    rw [hnone] at hoff
    exact stores_first (Nat.zero_le _) List.not_mem_nil (by rw [hnone]; rfl) fits hne hoff hbuf
  | getting =>
    obtain ⟨hnone, -⟩ | ⟨content, hraw, hlen, hclean, -⟩ := h.stored dir
    · rw [Stands, hnone] at hpc
      cases hpc
    · have hdecode := decode_recordOf content (hlen.trans_lt (by decide))
      simp only [call, hraw, hdecode, cString_of_clean hclean]
      have hl' : { l with firstChunk := some (recordOf content) } = l := by rw [← hraw]
      rw [hl']
      exact .goesOn _ (fun r hr => by cases hr) rfl hraw
  | updating seen content =>
    have hraw : l.firstChunk = some (recordOf content) := hpc
    obtain ⟨content', hrecord, hlen, hclean⟩ := h _ hraw
    obtain rfl := recordOf_injective hrecord
    have hstored := stored_recordOf dir hraw hlen hclean
    rw [hstored] at hoff
    exact stores_first hlen hclean (by rw [hstored]; rfl) fits hne hoff hbuf
  | done r => exact absurd rfl (hunfinished r)
  | aborted => exact absurd hpc not_false

theorem taskCall_later (hdir : chunkDir rootPath path = some dir) (fits : off + buf.length ≤ C) (h0 : chnkId ≠ 0) :
    TaskEffect dir l chnkId buf off (taskCall rootPath path l chnkId buf off .start) := by
  have hold : l.stored dir chnkId = chunkFile l.fs dir chnkId := if_neg h0
  rw [taskCall, if_neg h0]
  simp only [writeChunk, if_pos fits, hdir, Option.map_some, eventual]
  refine .stores _ (fun h => absurd h h0) (fun e => ?_) fun _ => rfl
  by_cases he0 : e = 0
  · subst he0
    rw [if_neg (Ne.symm h0)]
    rfl
  · simp only [Local.stored, if_neg he0, if_neg h0, chunkFile_putChunkFile, true_and]

end Tasks

section Steps

variable {d : SimpleHashDistributor} {path : Path} {o n : Nat} {r : DataIn} {user : Bytes} {vis rest : List Nat}

/-- The chunks that a daemon has recorded are those of the request that hash to it. -/
theorem chunks_of_slots {l : Loop} (h : LoopInv d path o n r vis rest l) :
    l.slots.map (fun slot => slot.chnkId.toNat) = held d path r.hostId vis := by
  have hmap := congrArg (List.map Piece.chunk) h.slots
  rw [List.map_map, map_pieces o n Piece.chunk fun _ _ => rfl] at hmap
  rw [show (fun slot : Slot => slot.chnkId.toNat) = Piece.chunk ∘ Slot.piece from rfl, hmap]
  exact List.map_id _

/-- A daemon that has visited all chunks has recorded each of its own. -/
theorem exists_slot {l : Loop} (h : LoopInv d path o n r vis [] l) (hsplit : blocks C o n = vis ++ []) {c : Nat}
    (hc : c ∈ chunksAt d path o n r.hostId) :
    ∃ (idx : Nat) (slot : Slot), l.slots[idx]? = some slot ∧ slot.chnkId = UInt64.ofNat c := by
  have hheld : chunksAt d path o n r.hostId = held d path r.hostId vis := by
    rw [chunksAt, hsplit, List.append_nil]
  rw [hheld, ← chunks_of_slots h] at hc
  obtain ⟨slot, hslot, rfl⟩ := List.mem_map.mp hc
  obtain ⟨idx, hidx⟩ := List.mem_iff_getElem?.mp hslot
  exact ⟨idx, slot, hidx, UInt64.ofNat_toNat.symm⟩

/-- The bytes of a buffer for `[o, o + n)` that belong to chunk `c`. -/
def part (o n : Nat) (user : Bytes) (c : Nat) : Bytes := pread (cut C o n c - o) (len C o n c) user

/-- The chunk of a task, its place in the chunk and its bytes. -/
theorem SrvInv.slot_spec {s : Srv UInt8} (h : SrvInv d path o n r user vis rest s) (heap : Nat → UInt8) {idx : Nat}
    {slot : Slot} (hslot : s.loop.slots[idx]? = some slot) :
    ∃ c ∈ blocks C o n, home d path c = r.hostId ∧ slot.chnkId.toNat = c ∧
      slot.off.toUInt64.toNat = cut C o n c - c * C ∧ slot.size.toNat = len C o n c ∧
      bytesAt heap s.bulkBuf slot = part o n user c := by
  have hpiece := h.piece_of_slot idx
  rw [hslot, Option.map_some] at hpiece
  have hmem := List.mem_of_getElem? hpiece
  have hbuf := h.buf _ hmem
  obtain ⟨c, hc, a, -, -, heq⟩ := mem_pieces hmem
  obtain ⟨hvis, hhome⟩ := List.mem_filter.mp hc
  have hblock : c ∈ blocks C o n := by
    rw [h.split]
    exact List.mem_append_left rest hvis
  refine ⟨c, hblock, of_decide_eq_true hhome, congrArg Piece.chunk heq, congrArg Piece.off heq,
    congrArg Piece.size heq, ?_⟩
  have hread : pread slot.bufPtr.toNat slot.size.toNat s.bulkBuf = (part o n user c).map some := by
    rw [heq] at hbuf
    rw [show slot.bufPtr.toNat = a from congrArg Piece.ptr heq,
      show slot.size.toNat = len C o n c from congrArg Piece.size heq]
    exact hbuf
  rw [bytesAt, hread]
  apply List.ext_getElem?
  intro i
  simp [Function.comp_def]

theorem length_part (hu : user.length = n) {c : Nat} : (part o n user c).length = len C o n c := by
  rw [part, length_pread, hu]
  simp only [len, cut]
  omega

theorem part_ne_nil (hu : user.length = n) (hn : 0 < n) {c : Nat} (hc : c ∈ blocks C o n) :
    part o n user c ≠ [] := by
  intro hnil
  have hlen := length_part (o := o) (c := c) hu
  rw [hnil, List.length_nil] at hlen
  obtain ⟨hend, hstart⟩ := blocks_bounds C_pos hc
  simp only [len, cut, C] at hlen hend hstart
  omega

theorem part_covers_iff (hn : 0 < n) {c j : Nat} (hc : c ∈ blocks C o n) (hj : j < C) :
    cut C o n c - c * C ≤ j ∧ j < cut C o n c - c * C + len C o n c ↔
      o ≤ c * C + j ∧ c * C + j < o + n := by
  have hmem := mem_part C_pos (x := c * C + j) hc hn
  have hle := mul_le_cut C_pos hn hc
  have hdiv : (c * C + j) / C = c := by
    rw [Nat.mul_comm, Nat.mul_add_div C_pos, Nat.div_eq_of_lt hj, Nat.add_zero]
  rw [List.mem_range'_1] at hmem
  constructor
  · intro h
    have := hmem.mp (by omega)
    exact ⟨this.1, this.2.1⟩
  · intro h
    have := hmem.mpr ⟨h.1, h.2, hdiv⟩
    omega

/-- A chunk after the write of a part, byte by byte. -/
theorem getElem?_pwrite_part (hu : user.length = n) (hn : 0 < n) {c j : Nat} (hc : c ∈ blocks C o n) (hj : j < C)
    (old : Bytes) :
    (pwrite 0 (cut C o n c - c * C) (part o n user c) old)[j]? =
      if o ≤ c * C + j ∧ c * C + j < o + n then user[c * C + j - o]?
      else if old.length ≤ j ∧ j < cut C o n c - c * C then some 0 else old[j]? := by
  rw [getElem?_pwrite 0 _ _ _ (part_ne_nil hu hn hc), length_part hu]
  refine if_ctx_congr (part_covers_iff hn hc hj) (fun hcov => ?_) fun _ => rfl
  obtain ⟨hlo, hhi⟩ := (part_covers_iff hn hc hj).mpr hcov
  have hle := mul_le_cut C_pos hn hc
  rw [part, getElem?_pread, if_pos (by omega)]
  congr 1
  simp only [cut] at hlo hle ⊢
  omega

variable (user) in
/-- A visit launches tasks and answers only if it gives up. -/
theorem visit_spec (strHash : Bytes → UInt64) (transferred : Bool) (s : Srv UInt8) :
    (s.visit strHash user transferred).handed = s.handed ∧
      (∃ new, (s.visit strHash user transferred).loop.slots = s.loop.slots ++ new) ∧
      ((s.visit strHash user transferred).reply = s.reply ∨
        (s.visit strHash user transferred).reply = some ⟨EBUSY, 0⟩) := by
  rw [Srv.visit]
  split
  · exact ⟨rfl, ⟨[], (List.append_nil _).symm⟩, .inl rfl⟩
  · split
    · exact ⟨rfl, ⟨[], (List.append_nil _).symm⟩, .inl rfl⟩
    · rename_i l hl
      have hnew : ∃ new, l.slots = s.loop.slots ++ new := by
        rw [SrvData.visit] at hl
        split at hl
        · obtain ⟨host, -, rfl⟩ := Option.map_eq_some_iff.mp hl
          split
          · exact ⟨[], (List.append_nil _).symm⟩
          · rw [takeChunk]
            split <;> exact ⟨[_], rfl⟩
        · obtain rfl := Option.some.inj hl
          exact ⟨[], (List.append_nil _).symm⟩
      split
      · exact ⟨rfl, hnew, .inl rfl⟩
      · split
        · exact ⟨rfl, hnew, .inl rfl⟩
        · split
          · exact ⟨rfl, ⟨[], (List.append_nil _).symm⟩, .inr rfl⟩
          · exact ⟨rfl, hnew, .inl rfl⟩

variable {sv : Serving}

theorem eventual_eq_some {idx : Nat} {w : Int64} : sv.eventual idx = some w ↔ sv.pc idx = .done w := by
  rw [Serving.eventual]
  cases sv.pc idx <;> simp

variable (d path o n r user) in
/-- What holds of a daemon that serves a call, whatever its tasks find in the first chunk. -/
structure TasksInv (sv : Serving) : Prop where
  srv : ∃ vis rest, SrvInv d path o n r user vis rest { sv.srv with reply := none }
  fresh : ∀ idx, sv.srv.loop.slots[idx]? = none → sv.pc idx = .start
  later : ∀ idx slot, sv.srv.loop.slots[idx]? = some slot → slot.chnkId ≠ 0 →
    sv.pc idx = .start ∨ ∃ w, sv.pc idx = .done w
  reply : sv.srv.reply ≠ none → sv.srv.rest = [] ∧ ∀ idx < sv.srv.loop.slots.length, (sv.eventual idx).isSome

theorem TasksInv.init (hr : Plans d path o n r) : TasksInv d path o n r user (Serving.init r) where
  srv := ⟨[], blocks C o n, SrvInv.init hr⟩
  fresh _ _ := rfl
  later _ _ _ _ := .inl rfl
  reply h := absurd rfl h

theorem TasksInv.visit (h : TasksInv d path o n r user sv) (hr : Plans d path o n r) (hu : user.length = n)
    (hn : 0 < n) (hn' : n < 2 ^ 63) (hon : o + n < 2 ^ 64) :
    TasksInv d path o n r user { sv with srv := sv.srv.visit d.strHash user true } := by
  by_cases hrest : sv.srv.rest = []
  · have hsame : sv.srv.visit d.strHash user true = sv.srv := by simp only [Srv.visit, hrest]
    rw [hsame]
    exact h
  have hnone : sv.srv.reply = none := by_contra fun hsome => hrest (h.reply hsome).1
  have hsrv := h.srv
  rw [show { sv.srv with reply := none } = sv.srv by rw [← hnone]] at hsrv
  obtain ⟨-, ⟨new, hslots⟩, hreply⟩ := visit_spec user d.strHash true sv.srv
  obtain ⟨vis', rest', hsrv⟩ := SrvInv.step (a := .visit true) hr hu hn hon (by decide) hsrv
  change SrvInv d path o n r user vis' rest' (sv.srv.visit d.strHash user true) at hsrv
  have hquiet : (sv.srv.visit d.strHash user true).reply = none := by
    obtain hsame | hbusy := hreply
    · rw [hsame, hnone]
    · obtain ⟨-, -, -, -, herr, -⟩ := hsrv.replied hr hn hn' hbusy
      exact absurd herr (by decide)
  have hold : ∀ (idx : Nat) (slot : Slot), sv.srv.loop.slots[idx]? = some slot →
      (sv.srv.visit d.strHash user true).loop.slots[idx]? = some slot := by
    intro idx slot hslot
    rw [hslots, List.getElem?_append_left (List.getElem?_eq_some_iff.mp hslot).1, hslot]
  refine ⟨⟨vis', rest', ?_⟩, fun idx hidx => ?_, fun idx slot hslot h0 => ?_, fun hsome => absurd hquiet hsome⟩
  · dsimp only
    rw [show { sv.srv.visit d.strHash user true with reply := none } = sv.srv.visit d.strHash user true by
      rw [← hquiet]]
    exact hsrv
  · refine h.fresh idx ?_
    cases hslot : sv.srv.loop.slots[idx]? with
    | none => rfl
    | some slot => exact absurd (hidx.symm.trans (hold idx slot hslot)) (by simp)
  · cases hsome : sv.srv.loop.slots[idx]? with
    | none => exact .inl (h.fresh idx hsome)
    | some slot' =>
      have heq : slot' = slot := Option.some.inj ((hold idx slot' hsome).symm.trans hslot)
      exact h.later idx slot (heq ▸ hsome) h0

theorem TasksInv.wait (h : TasksInv d path o n r user sv) : TasksInv d path o n r user sv.wait := by
  rw [Serving.wait]
  split
  · rename_i hwait
    exact ⟨h.srv, h.fresh, h.later, fun _ => ⟨hwait.1, hwait.2.2⟩⟩
  · exact h

theorem TasksInv.call (h : TasksInv d path o n r user sv) {idx : Nat} {slot : Slot} {pc : Pc}
    (hslot : sv.srv.loop.slots[idx]? = some slot) (hlater : slot.chnkId ≠ 0 → ∃ w, pc = .done w)
    (hkeeps : ∀ w, sv.pc idx = .done w → pc = .done w) :
    TasksInv d path o n r user ⟨sv.srv.run idx, Function.update sv.pc idx pc⟩ := by
  obtain ⟨vis, rest, hsrv⟩ := h.srv
  have hrun : ({ sv.srv with reply := none } : Srv UInt8).run idx = { sv.srv.run idx with reply := none } := by
    rw [Srv.run, Srv.run]
    dsimp only
    cases sv.srv.loop.slots[idx]? <;> cases sv.srv.handed idx <;> rfl
  have hsame : (sv.srv.run idx).loop = sv.srv.loop ∧ (sv.srv.run idx).reply = sv.srv.reply ∧
      (sv.srv.run idx).rest = sv.srv.rest := by
    rw [Srv.run]
    split <;> exact ⟨rfl, rfl, rfl⟩
  obtain ⟨hloop, hreply, hrest⟩ := hsame
  refine ⟨⟨vis, rest, hrun ▸ hsrv.run idx⟩, fun i hi => ?_, fun i slot' hi h0 => ?_, fun hsome => ?_⟩
  · dsimp only at hi ⊢
    rw [hloop] at hi
    rw [Function.update_of_ne]
    · exact h.fresh i hi
    · rintro rfl
      rw [hslot] at hi
      cases hi
  · dsimp only at hi ⊢
    rw [hloop] at hi
    by_cases he : i = idx
    · rw [he, hslot] at hi
      obtain rfl := Option.some.inj hi
      rw [he, Function.update_self]
      exact .inr (hlater h0)
    · rw [Function.update_of_ne he]
      exact h.later i slot' hi h0
  · dsimp only at hsome ⊢
    rw [hreply] at hsome
    rw [hloop, hrest]
    obtain ⟨hnil, hall⟩ := h.reply hsome
    refine ⟨hnil, fun i hi => ?_⟩
    obtain ⟨w, hw⟩ := Option.isSome_iff_exists.mp (hall i hi)
    rw [eventual_eq_some] at hw
    refine Option.isSome_iff_exists.mpr ⟨w, eventual_eq_some.mpr ?_⟩
    dsimp only
    by_cases he : i = idx
    · rw [he, Function.update_self]
      exact hkeeps w (he ▸ hw)
    · rw [Function.update_of_ne he]
      exact hw

/-- The call of a task: it is done already, it writes its chunk file, or it is about the first chunk. -/
theorem TasksInv.taskOut (h : TasksInv d path o n r user sv) (hr : Plans d path o n r) (hu : user.length = n)
    (heap : Nat → UInt8) {host : Host} {dir : Bytes} (hdir : chunkDir host.rootPath path = some dir) {idx : Nat}
    {slot : Slot} (hslot : sv.srv.loop.slots[idx]? = some slot) :
    ∃ c ∈ blocks C o n, home d path c = r.hostId ∧ slot.chnkId.toNat = c ∧
      ((∃ w, sv.pc idx = .done w ∧ sv.taskOut heap host slot (sv.pc idx) = (.done w, (host.store path).data)) ∨
        (slot.chnkId = 0 ∧ (∀ w, sv.pc idx ≠ .done w) ∧
          (sv.taskOut heap host slot (sv.pc idx)).2.fs = (host.store path).data.fs) ∨
        (slot.chnkId ≠ 0 ∧ sv.pc idx = .start ∧ TaskEffect dir (host.store path).data slot.chnkId
          (part o n user c) (cut C o n c - c * C) (sv.taskOut heap host slot (sv.pc idx)))) := by
  obtain ⟨vis, rest, hsrv⟩ := h.srv
  obtain ⟨c, hc, hhome, hid, hoff, -, hbytes⟩ := SrvInv.slot_spec hsrv heap hslot
  have fits : cut C o n c - c * C + (part o n user c).length ≤ C := by
    rw [length_part hu]
    exact cut_sub_add_len_le C_pos hc
  have hpath : sv.srv.inp.path = path := by rw [show sv.srv.inp = r from hsrv.inp_eq, hr.path_eq]
  refine ⟨c, hc, hhome, hid, ?_⟩
  rw [Serving.taskOut, hpath, show bytesAt heap sv.srv.bulkBuf slot = part o n user c from hbytes, hoff]
  by_cases hdone : ∃ w, sv.pc idx = .done w
  · obtain ⟨w, hw⟩ := hdone
    exact .inl ⟨w, hw, by rw [hw, taskCall_done fits]⟩
  · by_cases h0 : slot.chnkId = 0
    · refine .inr (.inl ⟨h0, fun w hw => hdone ⟨w, hw⟩, ?_⟩)
      rw [taskCall.eq_def, if_pos h0]
      split <;> rfl
    · have hstart : sv.pc idx = .start := (h.later idx slot hslot h0).resolve_right hdone
      rw [hstart]
      exact .inr (.inr ⟨h0, rfl, taskCall_later hdir fits h0⟩)

variable (d path o n r user) in
/-- What holds of a daemon between two steps, besides what it has to do with its storage. -/
structure ServingInv (sv : Serving) : Prop where
  srv : ∃ vis rest, SrvInv d path o n r user vis rest sv.srv
  fresh : ∀ idx, sv.srv.loop.slots[idx]? = none → sv.pc idx = .start
  done : ∀ idx w, sv.pc idx = .done w → (sv.srv.handed idx).isSome ∧
    sv.srv.loop.slots[idx]?.map (fun slot => slot.size.toInt64) = some w
  later : ∀ idx slot, sv.srv.loop.slots[idx]? = some slot → slot.chnkId ≠ 0 →
    sv.pc idx = .start ∨ ∃ w, sv.pc idx = .done w
  reply : ∀ out, sv.srv.reply = some out → ∀ idx < sv.srv.loop.slots.length, (sv.eventual idx).isSome

theorem ServingInv.init (hr : Plans d path o n r) : ServingInv d path o n r user (Serving.init r) where
  srv := ⟨[], blocks C o n, SrvInv.init hr⟩
  fresh _ _ := rfl
  done _ _ h := by cases h
  later _ _ _ _ := .inl rfl
  reply _ h := by cases h

theorem ServingInv.tasks (h : ServingInv d path o n r user sv) : TasksInv d path o n r user sv := by
  obtain ⟨vis, rest, hsrv⟩ := h.srv
  refine ⟨⟨vis, rest, { hsrv with reply := fun out hout => by cases hout }⟩, h.fresh, h.later, fun hsome => ?_⟩
  obtain ⟨out, hout⟩ := Option.ne_none_iff_exists'.mp hsome
  refine ⟨?_, h.reply out hout⟩
  rw [hsrv.rest_eq, (hsrv.reply out hout).1, List.map_nil]

theorem ServingInv.visit (h : ServingInv d path o n r user sv) (hr : Plans d path o n r) (hu : user.length = n)
    (hn : 0 < n) (hn' : n < 2 ^ 63) (hon : o + n < 2 ^ 64) :
    ServingInv d path o n r user { sv with srv := sv.srv.visit d.strHash user true } := by
  have htasks := h.tasks.visit hr hu hn hn' hon
  obtain ⟨hhanded, ⟨new, hslots⟩, -⟩ := visit_spec user d.strHash true sv.srv
  refine ⟨SrvInv.step (a := .visit true) hr hu hn hon (by decide) h.srv, htasks.fresh, fun idx w hw => ?_,
    htasks.later, fun out hout => (htasks.reply fun hnone => ?_).2⟩
  · obtain ⟨hsome, hsize⟩ := h.done idx w hw
    obtain ⟨slot, hslot, rfl⟩ := Option.map_eq_some_iff.mp hsize
    dsimp only
    rw [hhanded, hslots, List.getElem?_append_left (List.getElem?_eq_some_iff.mp hslot).1, hslot]
    exact ⟨hsome, rfl⟩
  · cases hout.symm.trans hnone

theorem ServingInv.wait (h : ServingInv d path o n r user sv) : ServingInv d path o n r user sv.wait := by
  rw [Serving.wait]
  split
  · rename_i hwait
    obtain ⟨hrest, hnone, hall⟩ := hwait
    have hdone : ∀ idx w, sv.eventual idx = some w → (sv.srv.handed idx).isSome ∧
        sv.srv.loop.slots[idx]?.map (fun slot => slot.size.toInt64) = some w :=
      fun idx w hw => h.done idx w (eventual_eq_some.mp hw)
    have hsizes : (List.range sv.srv.inp.chunkN.toNat).map sv.eventual = sv.srv.taskSizes := by
      apply List.map_congr_left
      intro idx _
      cases hslot : sv.srv.loop.slots[idx]? with
      | none => rw [Serving.eventual, h.fresh idx hslot, Option.map_none]
      | some slot =>
        obtain ⟨w, hw⟩ := Option.isSome_iff_exists.mp (hall idx (List.getElem?_eq_some_iff.mp hslot).1)
        have hsize := (hdone idx w hw).2
        rw [hslot] at hsize
        rw [hw, hsize]
    have hwait : sv.srv.wait = { sv.srv with reply := some (waitForTasks sv.srv.taskSizes) } := by
      refine if_pos ⟨hrest, hnone, fun idx hidx => ?_⟩
      obtain ⟨w, hw⟩ := Option.isSome_iff_exists.mp (hall idx hidx)
      exact (hdone idx w hw).1
    obtain ⟨vis, rest, hsrv⟩ := h.srv
    refine ⟨⟨vis, rest, ?_⟩, h.fresh, h.done, h.later, fun _ _ => hall⟩
    rw [hsizes, ← hwait]
    exact hsrv.wait
  · exact h

/-- Bookkeeping of a task's call, which leaves it started or done with the size of its slot. -/
theorem ServingInv.call (h : ServingInv d path o n r user sv) {idx : Nat} {slot : Slot} {pc : Pc}
    (hslot : sv.srv.loop.slots[idx]? = some slot) (hdone : ∀ w, pc = .done w → w = slot.size.toInt64)
    (hlater : slot.chnkId ≠ 0 → ∃ w, pc = .done w) (hkeeps : ∀ w, sv.pc idx = .done w → pc = .done w) :
    ServingInv d path o n r user ⟨sv.srv.run idx, Function.update sv.pc idx pc⟩ := by
  have htasks := h.tasks.call hslot hlater hkeeps
  obtain ⟨vis, rest, hsrv⟩ := h.srv
  have hloop : (sv.srv.run idx).loop = sv.srv.loop := by
    rw [Srv.run]
    split <;> rfl
  have hhanded : ((sv.srv.run idx).handed idx).isSome ∧
      ∀ i, (sv.srv.handed i).isSome → ((sv.srv.run idx).handed i).isSome := by
    rw [Srv.run]
    cases hsome : sv.srv.handed idx with
    | none =>
      simp only [hslot, Function.update_self, Option.isSome_some, true_and]
      intro i hi
      by_cases he : i = idx
      · rw [he, Function.update_self]
        rfl
      · rw [Function.update_of_ne he]
        exact hi
    | some bytes =>
      simp only [hslot, hsome, Option.isSome_some, true_and]
      exact fun i hi => hi
  refine ⟨⟨vis, rest, hsrv.run idx⟩, htasks.fresh, fun i w hw => ?_, htasks.later,
    fun out hout => (htasks.reply fun hnone => ?_).2⟩
  · change Function.update sv.pc idx pc i = .done w at hw
    change ((sv.srv.run idx).handed i).isSome ∧
      (sv.srv.run idx).loop.slots[i]?.map (fun slot => slot.size.toInt64) = some w
    rw [hloop]
    by_cases he : i = idx
    · rw [he, Function.update_self] at hw
      rw [he, hslot, hdone w hw]
      exact ⟨hhanded.1, rfl⟩
    · rw [Function.update_of_ne he] at hw
      exact ⟨hhanded.2 i (h.done i w hw).1, (h.done i w hw).2⟩
  · cases hout.symm.trans hnone

theorem ServingInv.inp_path (h : ServingInv d path o n r user sv) (hr : Plans d path o n r) :
    sv.srv.inp.path = path := by
  obtain ⟨vis, rest, hsrv⟩ := h.srv
  rw [hsrv.inp_eq, hr.path_eq]

/-- The next call of a task: it is done already, or the call has its effect. -/
theorem ServingInv.taskOut (h : ServingInv d path o n r user sv) (hr : Plans d path o n r)
    (hu : user.length = n) (hn : 0 < n) (heap : Nat → UInt8) {host : Host} {dir : Bytes}
    (hdir : chunkDir host.rootPath path = some dir) {idx : Nat} {slot : Slot}
    (hslot : sv.srv.loop.slots[idx]? = some slot)
    (hfirst : slot.chnkId = 0 → FirstClean (host.store path).data ∧
      Stands (host.store path).data.firstChunk (sv.pc idx) ∧
      o ≤ (((host.store path).data.stored dir 0).getD []).length ∧ 0 ∉ part o n user 0) :
    ∃ c ∈ blocks C o n, home d path c = r.hostId ∧ slot.chnkId.toNat = c ∧
      slot.size.toInt64 = Int64.ofNat (part o n user c).length ∧
      ((∃ w, sv.pc idx = .done w ∧
          sv.taskOut heap host slot (sv.pc idx) = (.done w, (host.store path).data)) ∨
        (∀ w, sv.pc idx ≠ .done w) ∧ TaskEffect dir (host.store path).data slot.chnkId (part o n user c)
          (cut C o n c - c * C) (sv.taskOut heap host slot (sv.pc idx))) := by
  obtain ⟨vis, rest, hsrv⟩ := h.srv
  obtain ⟨c, hc, hhome, hid, hoff, hsize, hbytes⟩ := SrvInv.slot_spec hsrv heap hslot
  have hlen := length_part (o := o) (c := c) hu
  have fits : cut C o n c - c * C + (part o n user c).length ≤ C := by
    rw [hlen]
    exact cut_sub_add_len_le C_pos hc
  refine ⟨c, hc, hhome, hid, ?_, ?_⟩
  · rw [hlen, ← hsize, ← UInt64.toInt64_ofNat', UInt64.ofNat_toNat]
  rw [Serving.taskOut, h.inp_path hr, hbytes, hoff]
  by_cases hdone : ∃ w, sv.pc idx = .done w
  · obtain ⟨w, hw⟩ := hdone
    exact .inl ⟨w, hw, by rw [hw, taskCall_done fits]⟩
  · have hunfinished : ∀ w, sv.pc idx ≠ .done w := fun w hw => hdone ⟨w, hw⟩
    refine .inr ⟨hunfinished, ?_⟩
    by_cases h0 : slot.chnkId = 0
    · obtain ⟨hclean, hstands, hgap, hbuf⟩ := hfirst h0
      have hc0 : c = 0 := by rw [← hid, h0]; rfl
      subst hc0
      rw [h0]
      refine taskCall_first hclean fits (part_ne_nil hu hn hc) hbuf ?_ hstands hunfinished
      have hcut : cut C o n 0 = o := by
        simp only [cut]
        omega
      rw [hcut, Nat.zero_mul, Nat.sub_zero]
      exact hgap
    · have hstart : sv.pc idx = .start := (h.later idx slot hslot h0).resolve_right hdone
      rw [hstart]
      exact taskCall_later hdir fits h0

end Steps

end GaoFS.StoredWrites
