import GaoFS.SrvData
import GaoFS.Library.ByteFile
import GaoFS.Library.Rounds
import GaoFS.Library.Runs
import Mathlib.Data.List.Nodup

namespace GaoFS.WriteRun

open Arithmetic Chunks Replies ForwardData SrvData
open Library.NumberText Library.Blocks Library.ByteFile Library.Rounds Library.Runs

variable {α : Type*}

/-- A bulk transfer, which fails when it leaves one of the two buffers. -/
def bulkTransfer (src : List α) (srcOff : Nat) (dst : List α) (dstOff size : Nat) :
    Option (List α) :=
  if srcOff + size ≤ src.length ∧ dstOff + size ≤ dst.length then
    some (copyAt dstOff (pread srcOff size src) dst)
  else none

/-- A daemon that serves one write request. Its buffer starts uninitialised, and
`handed i` is what the task at index `i` found in it when it ran. -/
structure Srv (α : Type*) where
  inp : DataIn
  rest : List UInt64
  loop : Loop
  bulkBuf : List (Option α)
  handed : Nat → Option (List (Option α))
  reply : Option DataOut

def Srv.init (inp : DataIn) : Srv α where
  inp := inp
  rest := chnkIds inp.chunkStart inp.chunkEnd
  loop := Loop.init inp
  bulkBuf := List.replicate inp.totalChunkSize.toNat none
  handed := fun _ => none
  reply := none

/-- Steps of one daemon: an iteration of the loop, of which only a transfer can
fail; a launched task that runs to its end; the wait for all tasks. -/
inductive Act where
  | visit (transferred : Bool)
  | run (idx : Nat)
  | wait
  deriving DecidableEq

def pull (user : List α) (transferred : Bool) (bulkBuf : List (Option α)) (slot : Slot) :
    Option (List (Option α)) :=
  if transferred then
    bulkTransfer (user.map some) slot.originOffset.toNat bulkBuf slot.localOffset.toNat slot.size.toNat
  else none

/-- One iteration of `rpc_srv_write`. A failed transfer ends the handler only on
the path of a first chunk with an offset. A daemon that traps stays where it is. -/
def Srv.visit (strHash : Bytes → UInt64) (user : List α) (transferred : Bool) (s : Srv α) : Srv α :=
  match s.rest with
  | [] => s
  | chnkIdFile :: rest =>
    match SrvData.visit strHash s.inp s.loop chnkIdFile with
    | none => s
    | some l =>
      match l.slots[s.loop.slots.length]? with
      | none => { s with rest := rest, loop := l }
      | some slot =>
        match pull user transferred s.bulkBuf slot with
        | some buf => { s with rest := rest, loop := l, bulkBuf := buf }
        | none =>
          if slot.chnkId = s.inp.chunkStart ∧ 0 < s.inp.offset then
            { s with rest := [], reply := some ⟨EBUSY, 0⟩ }
          else { s with rest := rest, loop := l }

def Srv.run (s : Srv α) (idx : Nat) : Srv α :=
  match s.loop.slots[idx]?, s.handed idx with
  | some slot, none =>
    { s with
      handed := Function.update s.handed idx
        (some (pread slot.bufPtr.toNat slot.size.toNat s.bulkBuf)) }
  | _, _ => s

def waitForTask (s : Int32 × UInt64) : Option Int64 → Int32 × UInt64
  | none => ( EIO, s.2)
  | some taskSize =>
    if taskSize < 0 then ((-taskSize).toInt32, s.2) else (s.1, s.2 + taskSize.toUInt64)

def waitForTasks (taskSizes : List (Option Int64)) : DataOut :=
  let s := taskSizes.foldl waitForTask (0, 0)
  ⟨s.1, if s.1 ≠ 0 then 0 else s.2⟩

/-- What each of the `chunk_n` eventuals delivers. A task that ran has written
all its bytes, and an eventual without a task cannot be waited on. -/
def Srv.taskSizes (s : Srv α) : List (Option Int64) :=
  (List.range s.inp.chunkN.toNat).map fun idx => s.loop.slots[idx]?.map fun slot => slot.size.toInt64

def Srv.wait (s : Srv α) : Srv α :=
  if s.rest = [] ∧ s.reply = none ∧ ∀ idx < s.loop.slots.length, (s.handed idx).isSome then
    { s with reply := some (waitForTasks s.taskSizes) }
  else s

def Srv.step (strHash : Bytes → UInt64) (user : List α) (s : Srv α) : Act → Srv α
  | .visit transferred => s.visit strHash user transferred
  | .run idx => s.run idx
  | .wait => s.wait

structure HandedByte (α : Type*) where
  host : UInt64
  chunk : Nat
  pos : Nat
  byte : Option α
  deriving DecidableEq

def placed (host : UInt64) (p : Piece) (bytes : List (Option α)) : List (HandedByte α) :=
  bytes.mapIdx fun j b => ⟨host, p.chunk, p.off + j, b⟩

def Srv.handedBytes (host : UInt64) (s : Srv α) : List (HandedByte α) :=
  s.loop.slots.zipIdx.flatMap fun p => (s.handed p.2).elim [] (placed host p.1.piece)

section Daemon

variable {d : SimpleHashDistributor} {path : Path} {o n : Nat} {r : DataIn} {user : List α}

def source (user : List α) (p : Piece) : List (Option α) := (pread p.origin p.size user).map some

variable (d path o n r user) in
/-- What holds of a daemon between two steps: its buffer contains the bytes of
the pieces recorded so far, and its tasks have received those. -/
structure SrvInv (vis rest : List Nat) (s : Srv α) : Prop where
  inp_eq : s.inp = r
  split : blocks C o n = vis ++ rest
  rest_eq : s.rest = rest.map UInt64.ofNat
  loop : LoopInv d path o n r vis rest s.loop
  length : s.bulkBuf.length = ((chunksAt d path o n r.hostId).map (len C o n)).sum
  buf : ∀ p ∈ pieces o n 0 (held d path r.hostId vis), pread p.ptr p.size s.bulkBuf = source user p
  handed : ∀ idx bytes, s.handed idx = some bytes →
    (pieces o n 0 (held d path r.hostId vis))[idx]?.map (source user) = some bytes
  reply : ∀ out, s.reply = some out → rest = [] ∧ out = waitForTasks s.taskSizes ∧
    ∀ idx < s.loop.slots.length, (s.handed idx).isSome

theorem SrvInv.init (hr : Plans d path o n r) :
    SrvInv d path o n r user [] (blocks C o n) (Srv.init r) := by
  refine ⟨rfl, rfl, chnkIds_eq hr.chunkStart hr.chunkEnd, LoopInv.init hr, ?_, ?_, ?_, ?_⟩
  · simp [Srv.init, hr.total]
  · simp [pieces]
  · simp [Srv.init]
  · simp [Srv.init]

variable {vis rest : List Nat} {s : Srv α}

theorem SrvInv.piece_of_slot (h : SrvInv d path o n r user vis rest s) (idx : Nat) :
    (pieces o n 0 (held d path r.hostId vis))[idx]? = s.loop.slots[idx]?.map Slot.piece := by
  rw [← h.loop.slots, List.getElem?_map]

theorem SrvInv.run (h : SrvInv d path o n r user vis rest s) (idx : Nat) :
    SrvInv d path o n r user vis rest (s.run idx) := by
  unfold Srv.run
  split
  · rename_i slot hslot hnone
    have hpiece := h.piece_of_slot idx
    rw [hslot, Option.map_some] at hpiece
    have hread := h.buf _ (List.mem_of_getElem? hpiece)
    refine { h with handed := ?_, reply := ?_ }
    · intro i bytes hi
      change Function.update s.handed idx _ i = some bytes at hi
      by_cases he : i = idx
      · subst he
        rw [Function.update_self] at hi
        rw [hpiece, Option.map_some, ← hi, ← hread]
        rfl
      · rw [Function.update_of_ne he] at hi
        exact h.handed i bytes hi
    · intro out hout
      have hall := (h.reply out hout).2.2 idx (List.getElem?_eq_some_iff.mp hslot).1
      rw [hnone] at hall
      exact absurd hall (by simp)
  · exact h

theorem SrvInv.wait (h : SrvInv d path o n r user vis rest s) :
    SrvInv d path o n r user vis rest s.wait := by
  unfold Srv.wait
  split
  · rename_i hw
    refine { h with reply := ?_ }
    intro out hout
    refine ⟨?_, (Option.some.inj hout).symm, hw.2.2⟩
    have hnil := hw.1
    rw [h.rest_eq] at hnil
    exact List.map_eq_nil_iff.mp hnil
  · exact h

theorem SrvInv.pull (h : SrvInv d path o n r user vis (c :: rest) s) (hu : user.length = n)
    {slot : Slot} (hc : home d path c = r.hostId)
    (hs : slot.piece = piece o n ((held d path r.hostId vis).map (len C o n)).sum c) :
    ∃ buf, pull user true s.bulkBuf slot = some buf ∧ buf.length = s.bulkBuf.length ∧
      ∀ p ∈ pieces o n 0 (held d path r.hostId (vis ++ [c])),
        pread p.ptr p.size buf = source user p := by
  have horigin : slot.originOffset.toNat = cut C o n c - o := congrArg Piece.origin hs
  have hplace := congrArg Piece.place hs
  have hsize : slot.size.toNat = len C o n c := congrArg Piece.size hs
  simp only [Slot.piece, piece] at hplace
  have hsrc : cut C o n c - o + len C o n c ≤ (user.map some).length := by
    rw [List.length_map, hu]
    simp only [len, cut]
    omega
  have hdst : ((held d path r.hostId vis).map (len C o n)).sum + len C o n c ≤ s.bulkBuf.length := by
    rw [h.length, chunksAt_split h.split hc, List.map_append, List.sum_append, List.map_cons,
      List.sum_cons]
    omega
  have hlen : (pread (cut C o n c - o) (len C o n c) (user.map some)).length = len C o n c := by
    rw [length_pread]
    omega
  refine ⟨copyAt ((held d path r.hostId vis).map (len C o n)).sum
    (pread (cut C o n c - o) (len C o n c) (user.map some)) s.bulkBuf, ?_, length_copyAt _ _ _ ?_, ?_⟩
  · rw [WriteRun.pull, if_pos rfl, bulkTransfer, horigin, hplace, hsize, if_pos ⟨hsrc, hdst⟩]
  · rw [hlen]
    exact hdst
  · intro p hp
    rw [held_snoc hc, pieces_append, List.mem_append] at hp
    cases hp with
    | inl hold =>
      obtain ⟨e, he, a, h1, h2, rfl⟩ := mem_pieces hold
      rw [pread_copyAt_disjoint _ _ _ (by rw [hlen]; exact hdst)]
      · exact h.buf _ hold
      · left
        simp only [piece]
        omega
    | inr hnew =>
      simp only [pieces, List.mem_singleton, Nat.zero_add] at hnew
      subst hnew
      have hself := pread_copyAt_self ((held d path r.hostId vis).map (len C o n)).sum
        (pread (cut C o n c - o) (len C o n c) (user.map some)) s.bulkBuf (by rw [hlen]; exact hdst)
      rw [hlen] at hself
      simp only [piece, source, pread, List.map_take, List.map_drop] at hself ⊢
      exact hself

/-- A daemon with chunks left to visit has not answered. -/
theorem unanswered {c : Nat} {rest : List Nat} {P : DataOut → Prop}
    (h : ∀ out, s.reply = some out → c :: rest = [] ∧ P out) : s.reply = none := by
  cases hs : s.reply with
  | none => rfl
  | some out => exact absurd (h out hs).1 (List.cons_ne_nil c rest)

theorem SrvInv.visit (h : SrvInv d path o n r user vis (c :: rest) s) (hr : Plans d path o n r)
    (hu : user.length = n) (hn : 0 < n) (hon : o + n < 2 ^ 64) :
    SrvInv d path o n r user (vis ++ [c]) rest (s.visit d.strHash user true) := by
  obtain ⟨l, hl, hloop⟩ := h.loop.visit hr h.split hn hon
  have hsplit : blocks C o n = (vis ++ [c]) ++ rest := by simp [h.split]
  have hreply : s.reply = none := unanswered h.reply
  have hlen : s.loop.slots.length = (held d path r.hostId vis).length := by
    rw [← List.length_map Slot.piece, h.loop.slots, length_pieces]
  simp only [Srv.visit, h.rest_eq, List.map_cons, h.inp_eq, hl]
  have hget : l.slots[s.loop.slots.length]?.map Slot.piece =
      (pieces o n 0 (held d path r.hostId (vis ++ [c])))[(held d path r.hostId vis).length]? := by
    rw [hlen, ← List.getElem?_map, hloop.slots]
  by_cases hc : home d path c = r.hostId
  · have hv := held_snoc hc vis
    rw [hv, pieces_append, List.getElem?_append_right (by rw [length_pieces]), length_pieces,
      Nat.sub_self, Nat.zero_add] at hget
    obtain ⟨slot, hslot, hpiece⟩ := Option.map_eq_some_iff.mp hget
    obtain ⟨buf, hbuf, hbuflen, hread⟩ := h.pull hu hc hpiece
    simp only [hslot, hbuf]
    refine ⟨rfl, hsplit, rfl, hloop, hbuflen.trans h.length, hread, ?_, ?_⟩
    · intro idx bytes hb
      have hold := h.handed idx bytes hb
      obtain ⟨p, hp, hpb⟩ := Option.map_eq_some_iff.mp hold
      rw [hv, pieces_append, List.getElem?_append_left (List.getElem?_eq_some_iff.mp hp).1, hp,
        Option.map_some, hpb]
    · intro out hout
      rw [hreply] at hout
      exact absurd hout (by simp)
  · have hv := held_snoc_of_ne hc vis
    have hbeyond : (pieces o n 0 (held d path r.hostId vis))[(held d path r.hostId vis).length]? =
        none := List.getElem?_eq_none (by rw [length_pieces])
    have hnone : l.slots[s.loop.slots.length]? = none := by
      rw [hv, hbeyond] at hget
      exact Option.map_eq_none_iff.mp hget
    simp only [hnone]
    refine ⟨rfl, hsplit, rfl, hloop, h.length, ?_, ?_, ?_⟩
    · rw [hv]
      exact h.buf
    · rw [hv]
      exact h.handed
    · intro out hout
      rw [hreply] at hout
      exact absurd hout (by simp)

/-- Every step but a failing transfer keeps the invariant. -/
theorem SrvInv.step (hr : Plans d path o n r) (hu : user.length = n) (hn : 0 < n)
    (hon : o + n < 2 ^ 64) {a : Act} (ha : a ≠ .visit false)
    (h : ∃ vis rest, SrvInv d path o n r user vis rest s) :
    ∃ vis rest, SrvInv d path o n r user vis rest (s.step d.strHash user a) := by
  obtain ⟨vis, rest, h⟩ := h
  cases a with
  | run idx => exact ⟨vis, rest, h.run idx⟩
  | wait => exact ⟨vis, rest, h.wait⟩
  | visit transferred =>
    cases transferred with
    | false => exact absurd rfl ha
    | true =>
      cases rest with
      | nil =>
        refine ⟨vis, [], ?_⟩
        have hnil : s.rest = [] := h.rest_eq
        simpa only [Srv.step, Srv.visit, hnil] using h
      | cons c rest => exact ⟨vis ++ [c], rest, h.visit hr hu hn hon⟩

theorem foldl_waitForTask (sizes : List Int64) (hs : ∀ x ∈ sizes, 0 ≤ x) (t : UInt64) :
    (sizes.map some).foldl waitForTask (0, t) = (0, t + (sizes.map Int64.toUInt64).sum) := by
  induction sizes generalizing t with
  | nil => simp
  | cons x sizes ih =>
    have hx : ¬ x < 0 := Int64.not_lt.mpr (hs x List.mem_cons_self)
    rw [List.map_cons, List.foldl_cons, waitForTask, if_neg hx,
      ih (fun y hy => hs y (List.mem_cons_of_mem x hy)), List.map_cons, List.sum_cons,
      UInt64.add_assoc]

variable {vis : List Nat}

/-- The tasks of a daemon whose loop has ended account for all its bytes. -/
theorem waitForTasks_finished (h : LoopInv d path o n r (blocks C o n) [] s.loop)
    (hinp : s.inp = r) (hr : Plans d path o n r) (hn : 0 < n) (hn' : n < 2 ^ 63) :
    waitForTasks s.taskSizes = ⟨0, r.totalChunkSize⟩ := by
  obtain ⟨-, -, hslots⟩ := h.finished hr
  have hlen : s.loop.slots.length = r.chunkN.toNat := by
    rw [← List.length_map Slot.piece, hslots, length_pieces, hr.chunkN]
  have hsizes : (s.loop.slots.map Slot.size).map UInt64.toNat =
      (chunksAt d path o n r.hostId).map (len C o n) := by
    rw [← map_size_pieces o n 0, ← hslots, List.map_map, List.map_map]
    rfl
  have hsum : (s.loop.slots.map Slot.size).sum = r.totalChunkSize := by
    rw [← UInt64.toNat_inj, toNat_sum _ (by rw [hsizes, ← hr.total]; exact UInt64.toNat_lt _),
      hsizes, hr.total]
  have hnonneg : ∀ x ∈ s.loop.slots.map (fun slot => slot.size.toInt64), 0 ≤ x := by
    intro x hx
    obtain ⟨slot, hslot, rfl⟩ := List.mem_map.mp hx
    apply toInt64_nonneg
    have hmem : slot.size.toNat ∈ (chunksAt d path o n r.hostId).map (len C o n) := by
      rw [← hsizes, List.map_map]
      exact List.mem_map_of_mem hslot
    have hle := List.le_sum_of_mem hmem
    have hle' := sum_len_chunksAt_le d path o hn r.hostId
    omega
  have hmap : (s.loop.slots.map (fun slot => slot.size.toInt64)).map Int64.toUInt64 =
      s.loop.slots.map Slot.size := by
    simp [Function.comp_def]
  rw [waitForTasks, Srv.taskSizes, hinp, ← hlen, map_range_getElem?, foldl_waitForTask _ hnonneg, hmap,
    hsum, UInt64.zero_add]
  rfl

/-- A daemon that has replied launched all of its tasks, each of which has run,
and replied their total. -/
theorem SrvInv.replied {rest : List Nat} (h : SrvInv d path o n r user vis rest s)
    (hr : Plans d path o n r) (hn : 0 < n) (hn' : n < 2 ^ 63) {out : DataOut}
    (hout : s.reply = some out) :
    s.loop.slots.length = r.chunkN.toNat ∧ s.loop.chnkSizeLeftHost = 0 ∧
      s.loop.slots.map Slot.piece = pieces o n 0 (chunksAt d path o n r.hostId) ∧
      (∀ idx < s.loop.slots.length,
        s.handed idx = (pieces o n 0 (chunksAt d path o n r.hostId))[idx]?.map (source user)) ∧
      out.err = 0 ∧ out.ioSize = r.totalChunkSize := by
  obtain ⟨hnil, hwait, hall⟩ := h.reply out hout
  subst hnil
  have hsplit := h.split
  rw [List.append_nil] at hsplit
  subst hsplit
  obtain ⟨-, hleft, hslots⟩ := h.loop.finished hr
  have hlen : s.loop.slots.length = r.chunkN.toNat := by
    rw [← List.length_map Slot.piece, hslots, length_pieces, hr.chunkN]
  have hreply := waitForTasks_finished h.loop h.inp_eq hr hn hn'
  refine ⟨hlen, hleft, hslots, ?_, by rw [hwait, hreply], by rw [hwait, hreply]⟩
  intro idx hidx
  obtain ⟨bytes, hbytes⟩ := Option.isSome_iff_exists.mp (hall idx hidx)
  rw [hbytes, ← h.handed idx bytes hbytes]
  rfl

variable (d path o n r) in
/-- What holds of a daemon whatever its transfers do: it has given up on the
request, or its loop is where the list of its chunks says. -/
structure Counting (vis rest : List Nat) (s : Srv α) : Prop where
  inp_eq : s.inp = r
  split : blocks C o n = vis ++ rest
  loop : LoopInv d path o n r vis rest s.loop
  rest_eq : s.rest = rest.map UInt64.ofNat
  reply : ∀ out, s.reply = some out → rest = [] ∧ out = waitForTasks s.taskSizes

variable (d path o n r) in
def Counted (s : Srv α) : Prop :=
  (s.rest = [] ∧ s.reply = some ⟨EBUSY, 0⟩) ∨ ∃ vis rest, Counting d path o n r vis rest s

theorem Counting.visit {c : Nat} {rest : List Nat} (h : Counting d path o n r vis (c :: rest) s)
    (hr : Plans d path o n r) (hn : 0 < n) (hon : o + n < 2 ^ 64) (transferred : Bool) :
    Counted d path o n r (s.visit d.strHash user transferred) := by
  obtain ⟨l, hl, hloop⟩ := h.loop.visit hr h.split hn hon
  have hsplit : blocks C o n = (vis ++ [c]) ++ rest := by simp [h.split]
  have hreply : s.reply = none := unanswered h.reply
  have hnext : ∀ buf, Counting d path o n r (vis ++ [c]) rest
      { s with inp := r, rest := rest.map UInt64.ofNat, loop := l, bulkBuf := buf } := by
    intro buf
    refine ⟨rfl, hsplit, hloop, rfl, fun out hout => ?_⟩
    change s.reply = some out at hout
    rw [hreply] at hout
    cases hout
  simp only [Srv.visit, h.rest_eq, List.map_cons, h.inp_eq, hl]
  split
  · exact .inr ⟨_, _, hnext s.bulkBuf⟩
  · split
    · exact .inr ⟨_, _, hnext _⟩
    · split
      · exact .inl ⟨rfl, rfl⟩
      · exact .inr ⟨_, _, hnext s.bulkBuf⟩

theorem Counted.step (hr : Plans d path o n r) (hn : 0 < n) (hon : o + n < 2 ^ 64) (a : Act)
    (h : Counted d path o n r s) : Counted d path o n r (s.step d.strHash user a) := by
  obtain ⟨hrest, hreply⟩ | ⟨vis, rest, h⟩ := h
  · refine .inl ?_
    cases a with
    | visit transferred => simp only [Srv.step, Srv.visit, hrest, hreply, and_self]
    | run idx =>
      rw [Srv.step, Srv.run]
      split <;> exact ⟨hrest, hreply⟩
    | wait => simp [Srv.step, Srv.wait, hrest, hreply]
  · cases a with
    | visit transferred =>
      cases rest with
      | nil =>
        refine .inr ⟨vis, [], ?_⟩
        have hnil : s.rest = [] := h.rest_eq
        simpa only [Srv.step, Srv.visit, hnil] using h
      | cons c rest => exact h.visit hr hn hon transferred
    | run idx =>
      refine .inr ⟨vis, rest, ?_⟩
      rw [Srv.step, Srv.run]
      split
      · exact ⟨h.inp_eq, h.split, h.loop, h.rest_eq, h.reply⟩
      · exact h
    | wait =>
      refine .inr ⟨vis, rest, ?_⟩
      rw [Srv.step, Srv.wait]
      split
      · rename_i hwait
        refine ⟨h.inp_eq, h.split, h.loop, h.rest_eq, fun out hout => ⟨?_, (Option.some.inj hout).symm⟩⟩
        have hnil := hwait.1
        rw [h.rest_eq] at hnil
        exact List.map_eq_nil_iff.mp hnil
      · exact h

/-- No daemon counts more bytes than its message is about, even if transfers fail. -/
theorem run_bounded (hr : Plans d path o n r) (hn : 0 < n) (hn' : n < 2 ^ 63) (hon : o + n < 2 ^ 64)
    (as : List Act) {out : DataOut}
    (hout : (as.foldl (Srv.step d.strHash user) (Srv.init r)).reply = some out) :
    out.ioSize ≤ r.totalChunkSize := by
  have hinit : Counted d path o n r (Srv.init r : Srv α) := by
    refine .inr ⟨[], blocks C o n, rfl, rfl, LoopInv.init hr, chnkIds_eq hr.chunkStart hr.chunkEnd, ?_⟩
    intro out hout
    cases hout
  have hrun : Counted d path o n r (as.foldl (Srv.step d.strHash user) (Srv.init r)) :=
    invariant_foldl (fun s a h => Counted.step hr hn hon a h) as hinit
  generalize as.foldl (Srv.step d.strHash user) (Srv.init r) = s at hout hrun
  obtain ⟨-, hreply⟩ | ⟨vis, rest, h⟩ := hrun
  · rw [hout] at hreply
    obtain rfl := Option.some.inj hreply
    exact UInt64.le_iff_toNat_le.mpr (Nat.zero_le _)
  · obtain ⟨rfl, rfl⟩ := h.reply out hout
    obtain rfl : vis = blocks C o n := by rw [h.split, List.append_nil]
    rw [waitForTasks_finished h.loop h.inp_eq hr hn hn']
    exact UInt64.le_refl _

def fileByte (o : Nat) (user : List α) (host : UInt64) (x : Nat) : HandedByte α :=
  ⟨host, x / C, x % C, user[x - o]?⟩

theorem placed_source (hu : user.length = n) (hn : 0 < n) (host : UInt64) (a : Nat) {c : Nat}
    (hc : c ∈ blocks C o n) :
    placed host (piece o n a c) (source user (piece o n a c)) =
      (List.range' (cut C o n c) (len C o n c)).map (fileByte o user host) := by
  apply List.ext_getElem?
  intro i
  simp only [placed, piece, source, List.getElem?_mapIdx, List.getElem?_map, getElem?_pread]
  by_cases hi : i < len C o n c
  · have hmem : cut C o n c + i ∈ List.range' (cut C o n c) (len C o n c) :=
      List.mem_range'_1.mpr ⟨by omega, by omega⟩
    obtain ⟨hlo, hhi, hdiv⟩ := (mem_part C_pos hc hn).mp hmem
    have hle : c * C ≤ cut C o n c := by
      obtain ⟨h1, h2⟩ := mem_blocks.mp hc
      by_cases he : c = o / C
      · rw [he, cut_first]
        exact Nat.div_mul_le_self o C
      · exact (cut_of_pos (by omega) h2 C_pos hn).ge
    have hge : o ≤ cut C o n c := le_max_left _ _
    have hget : user[cut C o n c - o + i]? = user[cut C o n c + i - o]? := by
      congr 1
      omega
    have hlt : cut C o n c + i - o < user.length := by omega
    have hmod : cut C o n c - c * C + i = (cut C o n c + i) % C := by
      have := Nat.div_add_mod (cut C o n c + i) C
      rw [hdiv, Nat.mul_comm] at this
      omega
    rw [if_pos hi, hget, List.getElem?_range' hi, Nat.one_mul, Option.map_some, fileByte, hdiv, hmod,
      List.getElem?_eq_getElem hlt]
    rfl
  · rw [if_neg hi, List.getElem?_eq_none (by simpa using hi)]
    rfl

theorem flatMap_pieces {β : Type*} (G : Piece → List β) (K : Nat → List β) (cs : List Nat)
    (h : ∀ c ∈ cs, ∀ a, G (piece o n a c) = K c) (acc : Nat) :
    (pieces o n acc cs).flatMap G = cs.flatMap K := by
  induction cs generalizing acc with
  | nil => rfl
  | cons c cs ih =>
    rw [pieces, List.flatMap_cons, List.flatMap_cons, h c List.mem_cons_self,
      ih (fun e he => h e (List.mem_cons_of_mem c he))]

theorem flatMap_zipIdx {β γ : Type*} (l : List β) (f : β → Nat → List γ) (g : β → List γ)
    (h : ∀ i x, l[i]? = some x → f x i = g x) :
    l.zipIdx.flatMap (fun p => f p.1 p.2) = l.flatMap g := by
  have hcongr : l.zipIdx.flatMap (fun p => f p.1 p.2) = l.zipIdx.flatMap (fun p => g p.1) :=
    List.flatMap_congr fun p hp => h p.2 p.1 (List.mem_zipIdx_iff_getElem?.mp hp)
  rw [hcongr, ← List.flatMap_map, List.zipIdx_map_fst]

theorem SrvInv.handedBytes_eq {rest : List Nat} (h : SrvInv d path o n r user vis rest s)
    (hr : Plans d path o n r) (hu : user.length = n) (hn : 0 < n) (hn' : n < 2 ^ 63)
    {out : DataOut} (hout : s.reply = some out) (host : UInt64) :
    s.handedBytes host = (chunksAt d path o n r.hostId).flatMap fun c =>
      (List.range' (cut C o n c) (len C o n c)).map (fileByte o user host) := by
  obtain ⟨-, -, hslots, hhanded, -⟩ := h.replied hr hn hn' hout
  have hg : ∀ i slot, s.loop.slots[i]? = some slot →
      (s.handed i).elim [] (placed host slot.piece) =
        placed host slot.piece (source user slot.piece) := by
    intro i slot hslot
    have hpiece := congrArg (fun l => l[i]?) hslots
    simp only [List.getElem?_map, hslot, Option.map_some] at hpiece
    rw [hhanded i (List.getElem?_eq_some_iff.mp hslot).1, ← hpiece]
    rfl
  have hmem : ∀ c ∈ chunksAt d path o n r.hostId, c ∈ blocks C o n :=
    fun c hc => List.mem_of_mem_filter hc
  have hzip := flatMap_zipIdx s.loop.slots
    (fun slot i => (s.handed i).elim [] (placed host slot.piece)) _ hg
  rw [Srv.handedBytes, hzip, ← flatMap_pieces (fun p => placed host p (source user p)) _ _
      (fun c hc a => placed_source hu hn host a (hmem c hc)) 0, ← hslots, List.flatMap_map]

end Daemon

section Progress

variable {d : SimpleHashDistributor} {path : Path} {o n : Nat} {r : DataIn} {user : List α} {s s' : Srv α}
  {vis rest : List Nat} {k : Nat}

variable (r) in
/-- The loop, every task and the wait of a daemon get a turn in the steps. -/
structure Srv.Turns (as : List Act) : Prop where
  visit : .visit true ∈ as
  run : ∀ idx < r.chunkN.toNat, .run idx ∈ as
  wait : .wait ∈ as

instance decidableTurns (r : DataIn) (as : List Act) : Decidable (Srv.Turns r as) :=
  decidable_of_iff (.visit true ∈ as ∧ (∀ idx < r.chunkN.toNat, .run idx ∈ as) ∧ .wait ∈ as)
    ⟨fun h => ⟨h.1, h.2.1, h.2.2⟩, fun h => ⟨h.visit, h.run, h.wait⟩⟩

def Srv.Complete (s : Srv α) : Prop :=
  s.rest = [] ∧ ∀ idx < s.loop.slots.length, (s.handed idx).isSome

/-- The daemon has answered within `k` rounds: it has chunks to visit, or only waits for its tasks. -/
def Srv.Near (k : Nat) (s : Srv α) : Prop :=
  s.reply.isSome ∨ s.rest.length + 2 ≤ k ∨ 0 < k ∧ s.Complete

structure Srv.Advances (s s' : Srv α) : Prop where
  reply : s.reply.isSome → s'.reply.isSome
  rest : s'.rest.length ≤ s.rest.length
  slots : s.rest = [] → s'.loop.slots = s.loop.slots
  handed : ∀ idx, (s.handed idx).isSome → (s'.handed idx).isSome

theorem Srv.Advances.refl (s : Srv α) : Srv.Advances s s := ⟨id, le_rfl, fun _ => rfl, fun _ => id⟩

theorem Srv.Advances.rest_nil (h : Srv.Advances s s') (hrest : s.rest = []) : s'.rest = [] := by
  have hle := h.rest
  rw [hrest] at hle
  exact List.length_eq_zero_iff.mp (Nat.le_zero.mp hle)

theorem Srv.Complete.advances (h : s.Complete) (hadv : Srv.Advances s s') : s'.Complete := by
  refine ⟨hadv.rest_nil h.1, fun idx hidx => ?_⟩
  rw [hadv.slots h.1] at hidx
  exact hadv.handed idx (h.2 idx hidx)

theorem Srv.Near.advances (h : Srv.Near k s) (hadv : Srv.Advances s s') : Srv.Near k s' := by
  obtain hreply | hrest | ⟨hpos, hcomplete⟩ := h
  · exact .inl (hadv.reply hreply)
  · exact .inr (.inl ((Nat.add_le_add_right hadv.rest 2).trans hrest))
  · exact .inr (.inr ⟨hpos, hcomplete.advances hadv⟩)

theorem handed_visit (strHash : Bytes → UInt64) (user : List α) (transferred : Bool) (s : Srv α) :
    (s.visit strHash user transferred).handed = s.handed := by
  unfold Srv.visit
  repeat' split
  all_goals rfl

/-- A loop that has not ended has one visit less before it. -/
theorem SrvInv.visit_advances (h : SrvInv d path o n r user vis rest s) (hr : Plans d path o n r)
    (hu : user.length = n) (hn : 0 < n) (hon : o + n < 2 ^ 64) :
    Srv.Advances s (s.visit d.strHash user true) ∧
      (s.visit d.strHash user true).rest.length ≤ s.rest.length - 1 := by
  cases rest with
  | nil =>
    have hnil : s.rest = [] := h.rest_eq
    have hsame : s.visit d.strHash user true = s := by simp only [Srv.visit, hnil]
    rw [hsame, hnil]
    exact ⟨Srv.Advances.refl s, le_rfl⟩
  | cons c rest =>
    have hnext := h.visit hr hu hn hon
    have hrest : s.rest.length = rest.length + 1 := by
      rw [h.rest_eq, List.length_map, List.length_cons]
    have hrest' : (s.visit d.strHash user true).rest.length = rest.length := by
      rw [hnext.rest_eq, List.length_map]
    refine ⟨⟨fun hreply => ?_, by omega, fun hnil => ?_, fun idx hidx => ?_⟩, by omega⟩
    · rw [unanswered h.reply] at hreply
      cases hreply
    · rw [hnil] at hrest
      cases hrest
    · rw [handed_visit]
      exact hidx

theorem run_advances (s : Srv α) (idx : Nat) :
    Srv.Advances s (s.run idx) ∧ (idx < s.loop.slots.length → ((s.run idx).handed idx).isSome) := by
  unfold Srv.run
  split
  · refine ⟨⟨id, le_rfl, fun _ => rfl, fun i hi => ?_⟩, fun _ => ?_⟩
    · dsimp only
      rw [Function.update_apply]
      split
      · rfl
      · exact hi
    · dsimp only
      rw [Function.update_self]
      rfl
  · rename_i hran
    refine ⟨Srv.Advances.refl s, fun hidx => Option.isSome_iff_ne_none.mpr fun hnone => ?_⟩
    exact hran _ (List.getElem?_eq_getElem hidx) hnone

theorem wait_advances (s : Srv α) : Srv.Advances s s.wait ∧ (s.Complete → s.wait.reply.isSome) := by
  unfold Srv.wait
  split
  · exact ⟨⟨fun _ => rfl, le_rfl, fun _ => rfl, fun _ => id⟩, fun _ => rfl⟩
  · rename_i hno
    refine ⟨Srv.Advances.refl s, fun hcomplete => Option.isSome_iff_ne_none.mpr fun hnone => ?_⟩
    exact hno ⟨hcomplete.1, hnone, hcomplete.2⟩

theorem step_advances (hr : Plans d path o n r) (hu : user.length = n) (hn : 0 < n) (hon : o + n < 2 ^ 64)
    {a : Act} (ha : a ≠ .visit false) (h : ∃ vis rest, SrvInv d path o n r user vis rest s) :
    Srv.Advances s (s.step d.strHash user a) := by
  obtain ⟨vis, rest, h⟩ := h
  cases a with
  | run idx => exact (run_advances s idx).1
  | wait => exact (wait_advances s).1
  | visit transferred =>
    cases transferred with
    | false => exact absurd rfl ha
    | true => exact (h.visit_advances hr hu hn hon).1

theorem SrvInv.length_slots_le (h : SrvInv d path o n r user vis rest s) (hr : Plans d path o n r) :
    s.loop.slots.length ≤ r.chunkN.toNat := by
  have hlen : s.loop.slots.length = (held d path r.hostId vis).length := by
    rw [← List.length_map Slot.piece, h.loop.slots, length_pieces]
  rw [hlen, hr.chunkN, chunksAt, h.split, List.filter_append, List.length_append]
  exact Nat.le_add_right _ _

theorem kept_run (hr : Plans d path o n r) (hu : user.length = n) (hn : 0 < n) (hon : o + n < 2 ^ 64)
    {as : List Act} (hok : ∀ a ∈ as, a ≠ .visit false) {Q : Srv α → Prop}
    (hkeep : ∀ s s', Srv.Advances s s' → Q s → Q s')
    (h : ∃ vis rest, SrvInv d path o n r user vis rest s) (hq : Q s) :
    (∃ vis rest, SrvInv d path o n r user vis rest (as.foldl (Srv.step d.strHash user) s)) ∧
      Q (as.foldl (Srv.step d.strHash user) s) :=
  kept (I := fun s => ∃ vis rest, SrvInv d path o n r user vis rest s)
    (fun _ a ha h => SrvInv.step hr hu hn hon (hok a ha) h)
    (fun s a ha h => hkeep s _ (step_advances hr hu hn hon (hok a ha) h)) h hq

/-- What a turn of the round brings about, and nothing takes back, is there at its end. -/
theorem reached_run (hr : Plans d path o n r) (hu : user.length = n) (hn : 0 < n) (hon : o + n < 2 ^ 64)
    {as : List Act} (hok : ∀ a ∈ as, a ≠ .visit false) {P Q : Srv α → Prop}
    (hP : ∀ s s', Srv.Advances s s' → P s → P s') (hQ : ∀ s s', Srv.Advances s s' → Q s → Q s')
    {a : Act} (ha : a ∈ as)
    (hact : ∀ s vis rest, SrvInv d path o n r user vis rest s → P s → Q (s.step d.strHash user a))
    (h : ∃ vis rest, SrvInv d path o n r user vis rest s) (hp : P s) :
    Q (as.foldl (Srv.step d.strHash user) s) := by
  refine reached (I := fun s => (∃ vis rest, SrvInv d path o n r user vis rest s) ∧ P s) ?_ ?_ ha ?_ ⟨h, hp⟩
  · exact fun s b hb hs =>
      ⟨SrvInv.step hr hu hn hon (hok b hb) hs.1, hP s _ (step_advances hr hu hn hon (hok b hb) hs.1) hs.2⟩
  · exact fun s b hb hs hq => hQ s _ (step_advances hr hu hn hon (hok b hb) hs.1) hq
  · rintro s ⟨⟨vis, rest, hs⟩, hp⟩
    exact hact s vis rest hs hp

/-- A round brings a daemon nearer to its answer. -/
theorem near_round (hr : Plans d path o n r) (hu : user.length = n) (hn : 0 < n) (hon : o + n < 2 ^ 64)
    {as : List Act} (hturns : Srv.Turns r as) (hok : ∀ a ∈ as, a ≠ .visit false)
    (h : ∃ vis rest, SrvInv d path o n r user vis rest s) (hnear : Srv.Near (k + 1) s) :
    Srv.Near k (as.foldl (Srv.step d.strHash user) s) := by
  obtain hreply | hrest | ⟨-, hcomplete⟩ := hnear
  · exact .inl (kept_run hr hu hn hon hok (fun _ _ hadv => hadv.reply) h hreply).2
  · by_cases hnil : s.rest = []
    · -- the loop has ended, so every task is there to be run
      rw [hnil] at hrest
      refine .inr (.inr ⟨Nat.le_of_succ_le_succ hrest, ?_⟩)
      have hended : ∀ t t' : Srv α, Srv.Advances t t' → t.rest = [] ∧ t.loop.slots = s.loop.slots →
          t'.rest = [] ∧ t'.loop.slots = s.loop.slots := fun t t' hadv ht =>
        ⟨hadv.rest_nil ht.1, (hadv.slots ht.1).trans ht.2⟩
      obtain ⟨hrest', hslots'⟩ := (kept_run hr hu hn hon hok hended h ⟨hnil, rfl⟩).2
      refine ⟨hrest', fun idx hidx => ?_⟩
      rw [hslots'] at hidx
      have hchunks : idx < r.chunkN.toNat := by
        obtain ⟨vis, rest, hsrv⟩ := h
        exact hidx.trans_le (hsrv.length_slots_le hr)
      refine reached_run hr hu hn hon hok (Q := fun t => (t.handed idx).isSome = true) hended
        (fun _ _ hadv => hadv.handed idx) (hturns.run idx hchunks) ?_ h ⟨hnil, rfl⟩
      rintro t vis rest - ⟨-, hslots⟩
      rw [← hslots] at hidx
      exact (run_advances t idx).2 hidx
    · have hpos := List.length_pos_of_ne_nil hnil
      refine .inr (.inl (Nat.add_le_of_le_sub (by omega) ?_))
      refine reached_run hr hu hn hon hok (P := fun t => t.rest.length ≤ s.rest.length)
        (Q := fun t => t.rest.length ≤ k - 2) (fun _ _ hadv hle => hadv.rest.trans hle)
        (fun _ _ hadv hle => hadv.rest.trans hle) hturns.visit ?_ h le_rfl
      intro t vis rest hsrv hle
      have hvisit := (hsrv.visit_advances hr hu hn hon).2
      change (t.visit d.strHash user true).rest.length ≤ k - 2
      omega
  · exact .inl (reached_run hr hu hn hon hok (fun _ _ hadv ht => Srv.Complete.advances ht hadv)
      (Q := fun t => t.reply.isSome = true) (fun _ _ hadv => hadv.reply) hturns.wait
      (fun t _ _ _ hcomplete => (wait_advances t).2 hcomplete) h hcomplete)

/-- A daemon answers after as many rounds as the request has chunks, and two for the tasks and the wait. -/
theorem replied_of_rounds (hr : Plans d path o n r) (hu : user.length = n) (hn : 0 < n) (hon : o + n < 2 ^ 64)
    {rounds : List (List Act)} (hturns : ∀ as ∈ rounds, Srv.Turns r as)
    (hok : ∀ as ∈ rounds, ∀ a ∈ as, a ≠ .visit false) (hlen : (blocks C o n).length + 2 ≤ rounds.length) :
    (rounds.flatten.foldl (Srv.step d.strHash user) (Srv.init r)).reply.isSome := by
  have hnear : Srv.Near 0 (rounds.flatten.foldl (Srv.step d.strHash user) (Srv.init r)) := by
    refine countdown (I := fun s => ∃ vis rest, SrvInv d path o n r user vis rest s)
      (N := Srv.Near) (R := fun as => Srv.Turns r as ∧ ∀ a ∈ as, a ≠ .visit false) ?_ ?_ ?_
      (fun as has => ⟨hturns as has, hok as has⟩) hlen ⟨[], blocks C o n, SrvInv.init hr⟩ ?_
    · exact fun s as hround h =>
        (kept_run hr hu hn hon hround.2 (Q := fun _ => True) (fun _ _ _ _ => trivial) h trivial).1
    · exact fun k s as hround h hnear => near_round hr hu hn hon hround.1 hround.2 h hnear
    · exact fun s as hround h hnear =>
        (kept_run hr hu hn hon hround.2 (fun _ _ hadv hq => Srv.Near.advances hq hadv) h hnear).2
    · refine .inr (.inl ?_)
      rw [(SrvInv.init hr : SrvInv d path o n r user _ _ _).rest_eq, List.length_map]
  obtain hreply | hrest | ⟨hpos, -⟩ := hnear
  · exact hreply
  · omega
  · exact absurd hpos (Nat.lt_irrefl 0)

end Progress

section Cluster

abbrev Cluster (α : Type*) := UInt64 → Option (Srv α)

def start (reqs : List DataIn) : Cluster α :=
  fun host => (reqs.find? (fun r => r.hostId = host)).map Srv.init

/-- The contacted daemons share nothing, so an action moves one of them. -/
def clusterStep (strHash : Bytes → UInt64) (user : List α) : Cluster α → UInt64 × Act → Cluster α :=
  stepAt fun _ s a => s.map fun s => s.step strHash user a

/-- Messages of `gaofs_pwrite` once the metadata host has replied. -/
def gaofsPwrite (d : SimpleHashDistributor) (path : Path) (appendFlag : Bool) (count : UInt64)
    (offset : Int64) (size : SizeOut) : List DataIn :=
  if size.err ≠ 0 then [] else forwardWrite d path appendFlag offset count size.retSize

def gaofsPwriteResult (size : SizeOut) (outs : List (Option DataOut)) : Int64 :=
  if size.err ≠ 0 then -1
  else
    let ret := collectReplies outs
    if ret.1 ≠ 0 then -1 else ret.2

def replies (reqs : List DataIn) (s : Cluster α) : List (Option DataOut) :=
  reqs.map fun r => (s r.hostId).bind Srv.reply

def actsAt (host : UInt64) (as : List (UInt64 × Act)) : List Act :=
  (as.filter fun a => a.1 = host).map Prod.snd

/-- Each contacted daemon gets its turns in every round, whatever else and in whatever order happens
there: one round for each chunk, one for the tasks and one for the wait. -/
def Fair (reqs : List DataIn) (chunks : Nat) (as : List (UInt64 × Act)) : Prop :=
  ∃ rounds : List (List (UInt64 × Act)), as = rounds.flatten ∧ chunks + 2 ≤ rounds.length ∧
    ∀ r ∈ reqs, ∀ bs ∈ rounds, Srv.Turns r (actsAt r.hostId bs)

def handedBytes (d : SimpleHashDistributor) (s : Cluster α) : List (HandedByte α) :=
  ((List.range d.hostsSize.toNat).map UInt64.ofNat).flatMap fun host =>
    (s host).elim [] (Srv.handedBytes host)

variable {d : SimpleHashDistributor} {path : Path} {o n : Nat} {user : List α}

theorem cluster_inv {reqs : List DataIn} (hplans : ∀ r ∈ reqs, Plans d path o n r)
    (hu : user.length = n) (hn : 0 < n) (hon : o + n < 2 ^ 64) {as : List (UInt64 × Act)}
    (hok : ∀ a ∈ as, a.2 ≠ .visit false) (host : UInt64) :
    (as.foldl (clusterStep d.strHash user) (start reqs) host = none ∧
        ∀ r ∈ reqs, r.hostId ≠ host) ∨
      ∃ s, as.foldl (clusterStep d.strHash user) (start reqs) host = some s ∧
        ∃ r ∈ reqs, r.hostId = host ∧ ∃ vis rest, SrvInv d path o n r user vis rest s := by
  have hrun := foldl_stepAt (fun _ s a => Option.map (fun s => Srv.step d.strHash user s a) s)
    (start reqs) as host
  cases hfind : reqs.find? (fun r => r.hostId = host) with
  | none =>
    left
    refine ⟨?_, fun r hr => by simpa using List.find?_eq_none.mp hfind r hr⟩
    rw [clusterStep, hrun]
    refine List.foldlRecOn (motive := (· = none)) _ _ ?_ ?_
    · rw [start, hfind, Option.map_none]
    · intro b hb a _
      rw [hb, Option.map_none]
  | some r =>
    right
    have hmem := List.mem_of_find?_eq_some hfind
    have hhost : r.hostId = host := by simpa using List.find?_some hfind
    have hr := hplans r hmem
    rw [clusterStep, hrun]
    have hinv := List.foldlRecOn
      (motive := fun b => ∃ s, b = some s ∧ ∃ vis rest, SrvInv d path o n r user vis rest s)
      ((as.filter (fun a => a.1 = host)).map Prod.snd)
      (fun s a => Option.map (fun s => Srv.step d.strHash user s a) s)
      (b := start reqs host)
      ⟨Srv.init r, by rw [start, hfind, Option.map_some], [], blocks C o n, SrvInv.init hr⟩
      (by
        rintro b ⟨s, rfl, hs⟩ a ha
        obtain ⟨p, hp, rfl⟩ := List.mem_map.mp ha
        exact ⟨_, rfl, SrvInv.step hr hu hn hon (hok p (List.mem_of_mem_filter hp)) hs⟩)
    obtain ⟨s, hs, hs'⟩ := hinv
    exact ⟨s, hs, r, hmem, hhost, hs'⟩

theorem actsAt_flatten (host : UInt64) (rounds : List (List (UInt64 × Act))) :
    actsAt host rounds.flatten = (rounds.map (actsAt host)).flatten := by
  induction rounds with
  | nil => rfl
  | cons bs rounds ih =>
    rw [List.flatten_cons, List.map_cons, List.flatten_cons, ← ih, actsAt, List.filter_append, List.map_append]
    rfl

/-- All contacted daemons answer, if they get their turns often enough. -/
theorem replies_of_fair {reqs : List DataIn} (hplans : ∀ r ∈ reqs, Plans d path o n r)
    (hnodup : (reqs.map DataIn.hostId).Nodup) (hu : user.length = n) (hn : 0 < n) (hon : o + n < 2 ^ 64)
    {as : List (UInt64 × Act)} (hok : ∀ a ∈ as, a.2 ≠ .visit false)
    (hfair : Fair reqs (blocks C o n).length as) {r : DataIn} (hr : r ∈ reqs) :
    ((as.foldl (clusterStep d.strHash user) (start reqs) r.hostId).bind Srv.reply).isSome := by
  obtain ⟨rounds, rfl, hlen, hturns⟩ := hfair
  have hstart : start reqs r.hostId = some (Srv.init r : Srv α) := by
    cases hfind : reqs.find? (fun q => q.hostId = r.hostId) with
    | none => simpa using List.find?_eq_none.mp hfind r hr
    | some q =>
      have hq : q.hostId = r.hostId := by simpa using List.find?_some hfind
      obtain rfl := List.inj_on_of_nodup_map hnodup (List.mem_of_find?_eq_some hfind) hr hq
      rw [start, hfind, Option.map_some]
  have hacts : ((rounds.flatten.filter fun a => a.1 = r.hostId).map Prod.snd) =
      (rounds.map (actsAt r.hostId)).flatten := actsAt_flatten r.hostId rounds
  have hsome : (rounds.map (actsAt r.hostId)).flatten.foldl
      (fun s a => Option.map (fun s => Srv.step d.strHash user s a) s) (some (Srv.init r)) =
        some ((rounds.map (actsAt r.hostId)).flatten.foldl (Srv.step d.strHash user) (Srv.init r)) :=
    List.foldl_hom some fun _ _ => rfl
  rw [clusterStep, foldl_stepAt, hacts, hstart, hsome, Option.bind_some]
  refine replied_of_rounds (hplans r hr) hu hn hon ?_ ?_ ?_
  · exact List.forall_mem_map.mpr fun bs hbs => hturns r hr bs hbs
  · refine List.forall_mem_map.mpr fun bs hbs a ha => ?_
    obtain ⟨p, hp, rfl⟩ := List.mem_map.mp ha
    exact hok p (List.mem_flatten.mpr ⟨bs, hbs, List.mem_of_mem_filter hp⟩)
  · rw [List.length_map]
    exact hlen

theorem host_handedBytes {reqs : List DataIn} (hplans : ∀ r ∈ reqs, Plans d path o n r)
    (hhosts : ∀ k, (∃ c ∈ blocks C o n, home d path c = k) → ∃ r ∈ reqs, r.hostId = k)
    (hu : user.length = n) (hn : 0 < n) (hn' : n < 2 ^ 63) (hon : o + n < 2 ^ 64)
    {as : List (UInt64 × Act)} (hok : ∀ a ∈ as, a.2 ≠ .visit false) {s : Cluster α}
    (hs : as.foldl (clusterStep d.strHash user) (start reqs) = s)
    (hdone : ∀ r ∈ reqs, ((s r.hostId).bind Srv.reply).isSome) (host : UInt64) :
    (s host).elim [] (Srv.handedBytes host) =
      (chunksAt d path o n host).flatMap fun c =>
        (List.range' (cut C o n c) (len C o n c)).map fun x =>
          fileByte o user (home d path (x / C)) x := by
  have hhome : ∀ c ∈ chunksAt d path o n host,
      (List.range' (cut C o n c) (len C o n c)).map (fileByte o user host) =
        (List.range' (cut C o n c) (len C o n c)).map fun x =>
          fileByte o user (home d path (x / C)) x := by
    intro c hc
    obtain ⟨hb, hc⟩ := mem_chunksAt.mp hc
    apply List.map_congr_left
    intro x hx
    rw [((mem_part C_pos hb hn).mp hx).2.2, hc]
  rw [← List.flatMap_congr hhome]
  cases cluster_inv hplans hu hn hon hok host with
  | inl hnone =>
    rw [hs] at hnone
    have hempty : chunksAt d path o n host = [] := by
      rw [List.eq_nil_iff_forall_not_mem]
      intro c hc
      obtain ⟨r, hr, hrk⟩ := hhosts host ⟨c, mem_chunksAt.mp hc⟩
      exact hnone.2 r hr hrk
    rw [hnone.1, hempty]
    rfl
  | inr hsome =>
    obtain ⟨t, ht, r, hr, hrk, vis, rest, hinv⟩ := hsome
    rw [hs] at ht
    have hreply := hdone r hr
    rw [hrk, ht, Option.bind_some] at hreply
    obtain ⟨out, hout⟩ := Option.isSome_iff_exists.mp hreply
    rw [ht, Option.elim_some, hinv.handedBytes_eq (hplans r hr) hu hn hn' hout, hrk]

theorem home_mem_hosts (c : Nat) :
    home d path c ∈ (List.range d.hostsSize.toNat).map UInt64.ofNat := by
  have hlt := locateData_lt d path (UInt64.ofNat c).toUInt32
  refine List.mem_map.mpr ⟨(d.locateData path (UInt64.ofNat c).toUInt32).toNat,
    List.mem_range.mpr (UInt32.lt_iff_toNat_lt.mp hlt), ?_⟩
  rw [← UInt64.toNat_inj, UInt64.toNat_ofNat', home, target, UInt32.toNat_toUInt64]
  have := (d.locateData path (UInt64.ofNat c).toUInt32).toNat_lt
  exact Nat.mod_eq_of_lt (by omega)

theorem hosts_nodup : ((List.range d.hostsSize.toNat).map UInt64.ofNat).Nodup := by
  refine List.Nodup.map_on ?_ List.nodup_range
  intro a ha b hb hab
  have h1 := List.mem_range.mp ha
  have h2 := List.mem_range.mp hb
  have hlt := d.hostsSize.toNat_lt
  have hab' := congrArg UInt64.toNat hab
  rw [UInt64.toNat_ofNat', UInt64.toNat_ofNat', Nat.mod_eq_of_lt (by omega),
    Nat.mod_eq_of_lt (by omega)] at hab'
  exact hab'

theorem handedBytes_perm {reqs : List DataIn} (hplans : ∀ r ∈ reqs, Plans d path o n r)
    (hhosts : ∀ k, (∃ c ∈ blocks C o n, home d path c = k) → ∃ r ∈ reqs, r.hostId = k)
    (hu : user.length = n) (hn : 0 < n) (hn' : n < 2 ^ 63) (hon : o + n < 2 ^ 64)
    {as : List (UInt64 × Act)} (hok : ∀ a ∈ as, a.2 ≠ .visit false) {s : Cluster α}
    (hs : as.foldl (clusterStep d.strHash user) (start reqs) = s)
    (hdone : ∀ r ∈ reqs, ((s r.hostId).bind Srv.reply).isSome) :
    (handedBytes d s).Perm ((List.range' o n).map fun x =>
      fileByte o user (home d path (x / C)) x) := by
  have hbytes := host_handedBytes hplans hhosts hu hn hn' hon hok hs hdone
  have hperm := flatMap_filter_perm (home d path) (blocks C o n) _ (hosts_nodup (d := d))
    (fun c _ => home_mem_hosts c)
  have hmap := congrArg (List.map fun x => fileByte o user (home d path (x / C)) x)
    (flatMap_blocks (o := o) C_pos hn)
  rw [List.map_flatMap] at hmap
  rw [handedBytes, List.flatMap_congr (fun host _ => hbytes host), ← List.flatMap_assoc, ← hmap]
  exact hperm.flatMap_right _

theorem sum_replies {reqs : List DataIn} (hplans : ∀ r ∈ reqs, Plans d path o n r)
    (hnodup : (reqs.map DataIn.hostId).Nodup)
    (hhosts : ∀ k, (∃ c ∈ blocks C o n, home d path c = k) → ∃ r ∈ reqs, r.hostId = k)
    (hn : 0 < n) : (reqs.map fun r => r.totalChunkSize.toNat).sum = n := by
  have hperm := flatMap_filter_perm (home d path) (blocks C o n) (reqs.map DataIn.hostId) hnodup
    (fun c hc => List.mem_map.mpr (hhosts _ ⟨c, hc, rfl⟩))
  have hsum := (hperm.map (len C o n)).sum_eq
  rw [List.map_flatMap, List.flatMap_def, List.sum_flatten, List.map_map, List.map_map,
    sum_len_blocks C_pos hn] at hsum
  rw [← hsum]
  congr 1
  apply List.map_congr_left
  intro r hr
  exact (hplans r hr).total

theorem cluster_replied {reqs : List DataIn} (hplans : ∀ r ∈ reqs, Plans d path o n r)
    (hnodup : (reqs.map DataIn.hostId).Nodup) (hu : user.length = n) (hn : 0 < n)
    (hn' : n < 2 ^ 63) (hon : o + n < 2 ^ 64)
    {as : List (UInt64 × Act)} (hok : ∀ a ∈ as, a.2 ≠ .visit false) {s : Cluster α}
    (hs : as.foldl (clusterStep d.strHash user) (start reqs) = s)
    (hdone : ∀ r ∈ reqs, ((s r.hostId).bind Srv.reply).isSome) {r : DataIn} (hr : r ∈ reqs) :
    ∃ t, s r.hostId = some t ∧ t.reply = some ⟨0, r.totalChunkSize⟩ ∧
      t.loop.slots.length = r.chunkN.toNat ∧ t.loop.chnkSizeLeftHost = 0 ∧
      ∀ slot ∈ t.loop.slots, slot.off.toUInt64.toNat + slot.size.toNat ≤ C := by
  cases cluster_inv hplans hu hn hon hok r.hostId with
  | inl hnone => exact absurd rfl (hnone.2 r hr)
  | inr hsome =>
    obtain ⟨t, ht, r', hr', hrk, vis, rest, hinv⟩ := hsome
    obtain rfl : r' = r := List.inj_on_of_nodup_map hnodup hr' hr hrk
    rw [hs] at ht
    have hreply := hdone r' hr
    rw [ht, Option.bind_some] at hreply
    obtain ⟨out, hout⟩ := Option.isSome_iff_exists.mp hreply
    obtain ⟨hlen, hleft, hslots, -, herr, hsize⟩ := hinv.replied (hplans r' hr) hn hn' hout
    refine ⟨t, ht, ?_, hlen, hleft, ?_⟩
    · rw [hout, ← herr, ← hsize]
    · intro slot hslot
      have hp := List.mem_map_of_mem (f := Slot.piece) hslot
      rw [hslots] at hp
      obtain ⟨c, hc, a, -, -, hpc⟩ := mem_pieces hp
      have hoff : slot.off.toUInt64.toNat = cut C o n c - c * C := congrArg Piece.off hpc
      have hlenc : slot.size.toNat = len C o n c := congrArg Piece.size hpc
      rw [hoff, hlenc]
      exact cut_sub_add_len_le C_pos (mem_chunksAt.mp hc).1

/-- A distributed write is a byte-array write: whatever the order of the steps, all contacted daemons
answer if they get their turns often enough, and when they have answered, each byte of the buffer has
gone to one task, at its place, and all bytes are counted. -/
theorem gaofsPwrite_distributes (d : SimpleHashDistributor) (path : Path) (user : List α)
    (offset : Int64) (hoffset : 0 ≤ offset) (hcount : user ≠ [])
    (hend : offset.toInt + user.length ≤ 2 ^ 63 - 1)
    (as : List (UInt64 × Act)) (hok : ∀ a ∈ as, a.2 ≠ .visit false) :
    let count := UInt64.ofNat user.length
    let size := updateMetadentrySizeOut (.ok ()) count offset
    let reqs := gaofsPwrite d path false count offset size
    let s := as.foldl (clusterStep d.strHash user) (start reqs)
    (Fair reqs (blocks C offset.toUInt64.toNat user.length).length as →
      ∀ r ∈ reqs, ((s r.hostId).bind Srv.reply).isSome) ∧
    ((∀ r ∈ reqs, ((s r.hostId).bind Srv.reply).isSome) →
      (handedBytes d s).Perm ((List.range user.length).map fun i =>
        let x := offset.toUInt64.toNat + i
        ⟨home d path (x / C), x / C, x % C, user[i]?⟩) ∧
      (∀ r ∈ reqs, ∃ t, s r.hostId = some t ∧ t.loop.slots.length = r.chunkN.toNat ∧
        t.loop.chnkSizeLeftHost = 0 ∧
        ∀ slot ∈ t.loop.slots, slot.off.toUInt64.toNat + slot.size.toNat ≤ C) ∧
      ((replies reqs s).map fun out => out.elim 0 fun out => out.ioSize.toNat).sum = user.length ∧
      gaofsPwriteResult size (replies reqs s) = Int64.ofNat user.length) := by
  intro count size reqs s
  have hn : 0 < user.length := List.length_pos_of_ne_nil hcount
  have hoff : offset.toInt = offset.toUInt64.toNat := toInt_of_nonneg hoffset
  have hcnt : count.toNat = user.length := by
    rw [UInt64.toNat_ofNat']
    omega
  have hn' : user.length < 2 ^ 63 := by omega
  have hon : offset.toUInt64.toNat + user.length < 2 ^ 64 := by omega
  have hreqs : reqs = dataRequests d path offset.toUInt64 count := by
    have hret : (offset.toUInt64 + count).toInt64.toUInt64 - count = offset.toUInt64 := by
      rw [UInt64.toUInt64_toInt64, UInt64.add_sub_cancel]
    rw [← hret]
    rfl
  have hplans : ∀ r ∈ reqs, Plans d path offset.toUInt64.toNat user.length r := by
    rw [hreqs]
    exact dataRequests_plans rfl hcnt hn hn' hon
  have hboth := dataRequests_hosts d path (rfl : offset.toUInt64.toNat = _) hcnt hn hon
  rw [← hreqs] at hboth
  obtain ⟨hnodup, hmem⟩ := hboth
  have hhosts : ∀ k, (∃ c ∈ blocks C offset.toUInt64.toNat user.length, home d path c = k) →
      ∃ r ∈ reqs, r.hostId = k := fun k hk => List.mem_map.mp ((hmem k).mpr hk)
  refine ⟨fun hfair r hr => replies_of_fair hplans hnodup rfl hn hon hok hfair hr, fun hdone => ?_⟩
  have hreplied := fun r hr =>
    cluster_replied (r := r) hplans hnodup rfl hn hn' hon hok (s := s) rfl hdone hr
  have houts : replies reqs s = (reqs.map fun r => (⟨0, r.totalChunkSize⟩ : DataOut)).map some := by
    rw [replies, List.map_map]
    apply List.map_congr_left
    intro r hr
    obtain ⟨t, ht, hreply, -⟩ := hreplied r hr
    rw [ht, Option.bind_some, hreply]
    rfl
  have hsum := sum_replies hplans hnodup hhosts hn
  refine ⟨?_, ?_, ?_, ?_⟩
  · have hperm := handedBytes_perm hplans hhosts rfl hn hn' hon hok (s := s) rfl hdone
    rw [List.range'_eq_map_range, List.map_map] at hperm
    refine hperm.trans (List.Perm.of_eq (List.map_congr_left fun i _ => ?_))
    simp only [Function.comp_apply, fileByte, Nat.add_sub_cancel_left]
  · intro r hr
    obtain ⟨t, ht, -, hrest⟩ := hreplied r hr
    exact ⟨t, ht, hrest⟩
  · rw [houts, List.map_map, List.map_map]
    exact hsum
  · have htotal : ((reqs.map fun r => (⟨0, r.totalChunkSize⟩ : DataOut)).map DataOut.ioSize).sum =
        count := by
      rw [← UInt64.toNat_inj, toNat_sum, List.map_map, List.map_map, hcnt]
      · exact hsum
      · rw [List.map_map, List.map_map]
        exact Nat.lt_of_le_of_lt hsum.le (by omega)
    have hok' := collectReplies_ok (reqs.map fun r => (⟨0, r.totalChunkSize⟩ : DataOut)) (by simp)
    have herr : size.err = 0 := rfl
    rw [← houts, htotal] at hok'
    rw [gaofsPwriteResult, herr, hok']
    simp [count]

/-- The steps of two daemons alternate, the later ones of a request first. -/
def straddlingRound : List (UInt64 × Act) :=
  [(1, .wait), (0, .run 0), (1, .visit true), (0, .visit true), (1, .run 0), (0, .wait)]

/-- Two bytes across a chunk boundary and two hosts. -/
theorem gaofsPwrite_distributes_straddling :
    let size := updateMetadentrySizeOut (.ok ()) 2 524287
    let reqs := gaofsPwrite twoHosts (text "/f") false 2 524287 size
    let s := (List.replicate 4 straddlingRound).flatten.foldl (clusterStep twoHosts.strHash [7, 8]) (start reqs)
    (handedBytes twoHosts s).Perm [⟨0, 0, 524287, some 7⟩, ⟨1, 1, 0, some 8⟩] ∧
      gaofsPwriteResult size (replies reqs s) = 2 := by
  have hturns : ∀ r ∈ gaofsPwrite twoHosts (text "/f") false 2 524287
      (updateMetadentrySizeOut (.ok ()) 2 524287), Srv.Turns r (actsAt r.hostId straddlingRound) := by
    decide +kernel
  obtain ⟨hreplies, hdistributes⟩ := gaofsPwrite_distributes twoHosts (text "/f") [7, 8] 524287 (by decide)
    (by decide) (by decide) (List.replicate 4 straddlingRound).flatten (by decide)
  have h := hdistributes (hreplies ⟨_, rfl, by decide +kernel, fun r hr bs hbs => by
    rw [List.eq_of_mem_replicate hbs]
    exact hturns r hr⟩)
  exact ⟨h.1, h.2.2.2⟩

end Cluster

end GaoFS.WriteRun
