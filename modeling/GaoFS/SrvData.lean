import GaoFS.ForwardData

namespace GaoFS.SrvData

open Arithmetic Chunks ForwardData Library.NumberText Library.Blocks

/-- What the handlers record for one chunk: the place of its bytes in the
client's buffer and in their own, and the arguments of its task. -/
structure Slot where
  chnkId : UInt64
  originOffset : UInt64
  localOffset : UInt64
  bufPtr : UInt64
  size : UInt64
  off : Int64
  deriving DecidableEq

/-- Variables of the loop over the chunk ids of a request, the same in
`rpc_srv_write` and `rpc_srv_read`. -/
structure Loop where
  chnkIdCurr : UInt64
  chnkSizeLeftHost : UInt64
  chnkPtr : UInt64
  transferSize : UInt64
  slots : List Slot

def Loop.init (inp : DataIn) : Loop where
  chnkIdCurr := 0
  chnkSizeLeftHost := inp.totalChunkSize
  chnkPtr := 0
  transferSize := if inp.bulkSize ≤ chunksize then inp.bulkSize else chunksize
  slots := []

def Loop.push (l : Loop) (s : Slot) : Loop where
  chnkIdCurr := l.chnkIdCurr + 1
  chnkSizeLeftHost := l.chnkSizeLeftHost - s.size
  chnkPtr := l.chnkPtr + s.size
  transferSize := l.transferSize
  slots := l.slots ++ [s]

def offsetTransferSize (inp : DataIn) : UInt64 :=
  if inp.offset.toUInt64 + inp.bulkSize ≤ chunksize then inp.bulkSize
  else chunksize - inp.offset.toUInt64

def originOffset (inp : DataIn) (chnkIdFile : UInt64) : UInt64 :=
  if 0 < inp.offset then
    (chunksize - inp.offset.toUInt64) + (chnkIdFile - inp.chunkStart - 1) * chunksize
  else (chnkIdFile - inp.chunkStart) * chunksize

/-- Body of the loop for a chunk of this host. The size of the last one is what
is left, and the transfer size keeps that value. -/
def takeChunk (inp : DataIn) (l : Loop) (chnkIdFile : UInt64) : Loop :=
  if chnkIdFile = inp.chunkStart ∧ 0 < inp.offset then
    l.push {
      chnkId := chnkIdFile
      originOffset := 0
      localOffset := 0
      bufPtr := l.chnkPtr
      size := offsetTransferSize inp
      off := if chnkIdFile = inp.chunkStart then inp.offset else 0 }
  else
    let transferSize :=
      if l.chnkIdCurr = inp.chunkN - 1 then l.chnkSizeLeftHost else l.transferSize
    Loop.push { l with transferSize := transferSize } {
      chnkId := chnkIdFile
      originOffset := originOffset inp chnkIdFile
      localOffset := inp.totalChunkSize - l.chnkSizeLeftHost
      bufPtr := l.chnkPtr
      size := transferSize
      off := if chnkIdFile = inp.chunkStart then inp.offset else 0 }

/-- One iteration. After `chunk_n` chunks the loop has ended and the remaining
ids change nothing; `none` is the division by a host count of 0. -/
def visit (strHash : Bytes → UInt64) (inp : DataIn) (l : Loop) (chnkIdFile : UInt64) : Option Loop :=
  if l.chnkIdCurr < inp.chunkN then
    (locateDataSized strHash inp.path chnkIdFile.toUInt32 inp.hostSize.toUInt32).map fun host =>
      if host.toUInt64 ≠ inp.hostId then l else takeChunk inp l chnkIdFile
  else some l

structure Piece where
  chunk : Nat
  origin : Nat
  place : Nat
  ptr : Nat
  size : Nat
  off : Nat
  deriving DecidableEq

def Slot.piece (s : Slot) : Piece where
  chunk := s.chnkId.toNat
  origin := s.originOffset.toNat
  place := s.localOffset.toNat
  ptr := s.bufPtr.toNat
  size := s.size.toNat
  off := s.off.toUInt64.toNat

/-- The part of `[o, o + n)` in chunk `c`, kept at `acc` in the daemon's buffer. -/
def piece (o n acc c : Nat) : Piece where
  chunk := c
  origin := cut C o n c - o
  place := acc
  ptr := acc
  size := len C o n c
  off := cut C o n c - c * C

def pieces (o n : Nat) : Nat → List Nat → List Piece
  | _, [] => []
  | acc, c :: cs => piece o n acc c :: pieces o n (acc + len C o n c) cs

theorem pieces_append (o n : Nat) (cs ds : List Nat) (acc : Nat) :
    pieces o n acc (cs ++ ds) =
      pieces o n acc cs ++ pieces o n (acc + (cs.map (len C o n)).sum) ds := by
  induction cs generalizing acc with
  | nil => simp [pieces]
  | cons c cs ih => simp [pieces, ih, Nat.add_assoc]

theorem length_pieces (o n acc : Nat) (cs : List Nat) : (pieces o n acc cs).length = cs.length := by
  induction cs generalizing acc with
  | nil => rfl
  | cons c cs ih => simp [pieces, ih]

theorem map_pieces {β : Type*} (o n : Nat) (K : Piece → β)
    (hK : ∀ a c, K (piece o n a c) = K (piece o n 0 c)) (acc : Nat) (cs : List Nat) :
    (pieces o n acc cs).map K = cs.map fun c => K (piece o n 0 c) := by
  induction cs generalizing acc with
  | nil => rfl
  | cons c cs ih => rw [pieces, List.map_cons, List.map_cons, ih, hK]

theorem map_size_pieces (o n acc : Nat) (cs : List Nat) :
    (pieces o n acc cs).map Piece.size = cs.map (len C o n) := by
  induction cs generalizing acc with
  | nil => rfl
  | cons c cs ih => simp [pieces, piece, ih]

theorem pieces_pairwise (o n acc : Nat) (cs : List Nat) :
    (pieces o n acc cs).Pairwise fun p q => p.ptr + p.size ≤ q.ptr := by
  have hle : ∀ (cs : List Nat) (acc : Nat), ∀ q ∈ pieces o n acc cs, acc ≤ q.ptr := by
    intro cs
    induction cs with
    | nil => simp [pieces]
    | cons c cs ih =>
      intro acc q hq
      cases List.mem_cons.mp hq with
      | inl he => rw [he]; exact le_rfl
      | inr ht => exact (Nat.le_add_right _ _).trans (ih _ q ht)
  induction cs generalizing acc with
  | nil => exact List.Pairwise.nil
  | cons c cs ih => exact List.pairwise_cons.mpr ⟨fun q hq => hle cs _ q hq, ih _⟩

theorem mem_pieces {o n acc : Nat} {cs : List Nat} {p : Piece} (h : p ∈ pieces o n acc cs) :
    ∃ c ∈ cs, ∃ a, acc ≤ a ∧ a + len C o n c ≤ acc + (cs.map (len C o n)).sum ∧ p = piece o n a c := by
  induction cs generalizing acc with
  | nil => simp [pieces] at h
  | cons c cs ih =>
    simp only [List.map_cons, List.sum_cons]
    cases List.mem_cons.mp h with
    | inl he => exact ⟨c, List.mem_cons_self, acc, le_rfl, by omega, he⟩
    | inr ht =>
      obtain ⟨e, he, a, h1, h2, h3⟩ := ih ht
      exact ⟨e, List.mem_cons_of_mem c he, a, by omega, by omega, h3⟩

section Numbers

theorem map_range_getElem? {β γ : Type*} (l : List β) (f : β → γ) :
    (List.range l.length).map (fun i => l[i]?.map f) = (l.map f).map some := by
  apply List.ext_getElem?
  intro i
  by_cases hi : i < l.length <;> simp [hi]

variable {o n c : Nat}

theorem len_first : len C o n (o / C) = min n (C - o % C) := by
  simp only [len, cut_first]
  simp only [cut, C]
  omega

/-- A chunk that the range enters at its beginning and does not end in is full. -/
theorem len_middle (hn : 0 < n) (hc : c ∈ blocks C o n) (hfirst : c = o / C → o % C = 0)
    (hlast : c < (o + n - 1) / C) : len C o n c = C ∧ C < n := by
  have h := len_eq C_pos hn hc
  obtain ⟨hlo, hhi⟩ := mem_blocks.mp hc
  have hz : (if c = o / C then o % C else 0) = 0 := by
    split
    · rename_i he; exact hfirst he
    · rfl
  rw [hz, if_neg (by omega)] at h
  refine ⟨by omega, ?_⟩
  have hstart : o ≤ c * C := by
    by_cases he : c = o / C
    · have := hfirst he
      subst he
      simp only [C] at *
      omega
    · simp only [C] at *
      omega
  simp only [C] at *
  omega

end Numbers

section Invariant

variable {d : SimpleHashDistributor} {path : Path} {o n : Nat} {r : DataIn}

abbrev held (d : SimpleHashDistributor) (path : Path) (k : UInt64) (cs : List Nat) : List Nat :=
  cs.filter (fun c => home d path c = k)

theorem held_snoc {k : UInt64} {c : Nat} (hc : home d path c = k) (cs : List Nat) :
    held d path k (cs ++ [c]) = held d path k cs ++ [c] := by simp [hc]

theorem held_cons {k : UInt64} {c : Nat} (hc : home d path c = k) (cs : List Nat) :
    held d path k (c :: cs) = c :: held d path k cs := by simp [hc]

theorem held_snoc_of_ne {k : UInt64} {c : Nat} (hc : home d path c ≠ k) (cs : List Nat) :
    held d path k (cs ++ [c]) = held d path k cs := by simp [hc]

/-- The chunks of a host, as they stand when its loop comes to one of them. -/
theorem chunksAt_split {k : UInt64} {vis rest : List Nat} {c : Nat}
    (hb : blocks C o n = vis ++ c :: rest) (hc : home d path c = k) :
    chunksAt d path o n k = held d path k vis ++ c :: held d path k rest := by
  simp [chunksAt, hb, hc]

variable (d path o n r) in
/-- The loop has visited the chunks `vis` and has `rest` still to visit. -/
structure LoopInv (vis rest : List Nat) (l : Loop) : Prop where
  curr : l.chnkIdCurr.toNat = (held d path r.hostId vis).length
  left : l.chnkSizeLeftHost.toNat = ((held d path r.hostId rest).map (len C o n)).sum
  ptr : l.chnkPtr.toNat = ((held d path r.hostId vis).map (len C o n)).sum
  slots : l.slots.map Slot.piece = pieces o n 0 (held d path r.hostId vis)
  transfer : held d path r.hostId rest ≠ [] → l.transferSize.toNat = min n C

theorem LoopInv.init (hr : Plans d path o n r) :
    LoopInv d path o n r [] (blocks C o n) (Loop.init r) := by
  refine ⟨rfl, ?_, rfl, rfl, fun _ => ?_⟩
  · rw [Loop.init, hr.total]
    rfl
  · simp only [Loop.init, UInt64.le_iff_toNat_le, hr.bulkSize, toNat_chunksize]
    split
    · rename_i h; rw [hr.bulkSize, Nat.min_eq_left h]
    · rename_i h; rw [toNat_chunksize, Nat.min_eq_right (by omega)]

theorem LoopInv.skip {vis rest : List Nat} {c : Nat} {l : Loop}
    (h : LoopInv d path o n r vis (c :: rest) l) (hc : home d path c ≠ r.hostId) :
    LoopInv d path o n r (vis ++ [c]) rest l := by
  have hv := held_snoc_of_ne hc vis
  have hr' : held d path r.hostId (c :: rest) = held d path r.hostId rest := by simp [hc]
  have h1 := h.left
  have h2 := h.transfer
  rw [hr'] at h1 h2
  exact ⟨by rw [hv]; exact h.curr, h1, by rw [hv]; exact h.ptr, by rw [hv]; exact h.slots, h2⟩

theorem LoopInv.push {vis rest : List Nat} {c : Nat} {l : Loop} {s : Slot} {t : UInt64}
    (h : LoopInv d path o n r vis (c :: rest) l) (hr : Plans d path o n r)
    (hb : blocks C o n = vis ++ c :: rest) (hc : home d path c = r.hostId)
    (hs : s.piece = piece o n ((held d path r.hostId vis).map (len C o n)).sum c)
    (ht : held d path r.hostId rest ≠ [] → t.toNat = min n C) :
    LoopInv d path o n r (vis ++ [c]) rest (Loop.push { l with transferSize := t } s) := by
  have hv := held_snoc hc vis
  have hN := hr.chunkN
  have htotal := hr.total
  have hNlt := r.chunkN.toNat_lt
  have htlt := r.totalChunkSize.toNat_lt
  have hsize : s.size.toNat = len C o n c := congrArg Piece.size hs
  have hcurr := h.curr
  have hleft := h.left
  have hptr := h.ptr
  rw [chunksAt_split hb hc, List.length_append, List.length_cons] at hN
  rw [chunksAt_split hb hc, List.map_append, List.sum_append, List.map_cons, List.sum_cons] at htotal
  rw [held_cons hc, List.map_cons, List.sum_cons] at hleft
  refine ⟨?_, ?_, ?_, ?_, ht⟩
  · rw [hv, List.length_append, List.length_singleton]
    simp only [Loop.push, UInt64.toNat_add, hcurr]
    rw [UInt64.toNat_one]
    omega
  · have hsub : (l.chnkSizeLeftHost - s.size).toNat =
        ((held d path r.hostId rest).map (len C o n)).sum := by
      rw [UInt64.toNat_sub_of_le _ _ (UInt64.le_iff_toNat_le.mpr (by omega))]
      omega
    exact hsub
  · rw [hv, List.map_append, List.sum_append, List.map_singleton, List.sum_singleton]
    simp only [Loop.push, UInt64.toNat_add, hptr, hsize]
    omega
  · rw [hv, pieces_append, Loop.push, List.map_append, h.slots, Nat.zero_add]
    simp [pieces, hs]

variable {vis rest : List Nat} {c : Nat}

theorem lt_last_of_split (hb : blocks C o n = vis ++ c :: rest) {e : Nat} (he : e ∈ rest) :
    c < (o + n - 1) / C := by
  have hsorted : (vis ++ c :: rest).Pairwise (· < ·) := by
    rw [← hb]
    exact List.pairwise_lt_range'
  have hlt := (List.pairwise_cons.mp (List.pairwise_append.mp hsorted).2.1).1 e he
  have hle := (mem_blocks.mp (hb ▸ List.mem_append_right vis (List.mem_cons_of_mem c he))).2
  exact Nat.lt_of_lt_of_le hlt hle

/-- The chunk is the last one of this host exactly if no later one is held. -/
theorem LoopInv.last_iff {l : Loop} (h : LoopInv d path o n r vis (c :: rest) l)
    (hr : Plans d path o n r) (hb : blocks C o n = vis ++ c :: rest)
    (hc : home d path c = r.hostId) :
    l.chnkIdCurr = r.chunkN - 1 ↔ held d path r.hostId rest = [] := by
  have hcurr := h.curr
  have hN := hr.chunkN
  rw [chunksAt_split hb hc, List.length_append, List.length_cons] at hN
  rw [← UInt64.toNat_inj, UInt64.toNat_sub_of_le _ _ (UInt64.le_iff_toNat_le.mpr (by
    rw [UInt64.toNat_one]; omega)), UInt64.toNat_one, hcurr, hN, ← List.length_eq_zero_iff]
  omega

theorem off_pos_iff (hr : Plans d path o n r) : 0 < r.offset ↔ 0 < o % C := by
  have h := hr.offset
  have hlt : o % C < C := Nat.mod_lt _ C_pos
  rw [pos_iff_toUInt64 (by rw [h]; simp only [C] at *; omega), h]

theorem originOffset_eq (hr : Plans d path o n r) (hon : o + n < 2 ^ 64) {u : UInt64}
    (hu : u.toNat = c) (hc : c ∈ blocks C o n) (hfirst : c = o / C → o % C = 0) (hn : 0 < n) :
    (originOffset r u).toNat = cut C o n c - o := by
  obtain ⟨hlo, hhi⟩ := mem_blocks.mp hc
  have hstart := hr.chunkStart
  have hsub : (u - r.chunkStart).toNat = c - o / C := by
    rw [UInt64.toNat_sub_of_le _ _ (UInt64.le_iff_toNat_le.mpr (by omega)), hu, hstart]
  have hcut : cut C o n c = c * C := by
    by_cases he : c = o / C
    · rw [he, cut_first]
      have := hfirst he
      simp only [C] at *
      omega
    · exact cut_of_pos (by omega) hhi C_pos hn
  simp only [originOffset, off_pos_iff hr]
  split
  · rename_i hpos
    have hne : c ≠ o / C := fun he => by have := hfirst he; omega
    have hover : (chunksize - r.offset.toUInt64).toNat = C - o % C := by
      rw [UInt64.toNat_sub_of_le, hr.offset, toNat_chunksize]
      rw [UInt64.le_iff_toNat_le, hr.offset, toNat_chunksize]
      exact (Nat.mod_lt _ C_pos).le
    rw [UInt64.toNat_add, hover, UInt64.toNat_mul, UInt64.toNat_sub_of_le, hsub, UInt64.toNat_one,
      toNat_chunksize, hcut]
    · simp only [C] at *
      omega
    · rw [UInt64.le_iff_toNat_le, hsub, UInt64.toNat_one]
      omega
  · rw [UInt64.toNat_mul, hsub, toNat_chunksize, hcut]
    simp only [C] at *
    omega

theorem toNat_offsetTransferSize (hr : Plans d path o n r) (hon : o + n < 2 ^ 64) :
    (offsetTransferSize r).toNat = len C o n (o / C) := by
  have hmod : o % C < C := Nat.mod_lt _ C_pos
  simp only [offsetTransferSize, UInt64.le_iff_toNat_le, UInt64.toNat_add, hr.offset, hr.bulkSize,
    toNat_chunksize]
  rw [Nat.mod_eq_of_lt (by simp only [C] at *; omega), len_first]
  split
  · rw [hr.bulkSize]
    omega
  · rw [UInt64.toNat_sub_of_le, hr.offset, toNat_chunksize]
    · omega
    · rw [UInt64.le_iff_toNat_le, hr.offset, toNat_chunksize]
      exact hmod.le

/-- The offset inside the chunk, which only the first chunk of the range has. -/
theorem toNat_startOffset (hr : Plans d path o n r) (hn : 0 < n) (hc : c ∈ blocks C o n) :
    (if c = o / C then r.offset else 0).toUInt64.toNat = cut C o n c - c * C := by
  split
  · rename_i he
    rw [hr.offset, he, cut_first]
    simp only [C]
    omega
  · rename_i he
    obtain ⟨hlo, hhi⟩ := mem_blocks.mp hc
    rw [cut_of_pos (by omega) hhi C_pos hn, Nat.sub_self]
    rfl

theorem held_before_first (hb : blocks C o n = vis ++ o / C :: rest) (k : UInt64) :
    held d path k vis = [] := by
  rw [List.filter_eq_nil_iff]
  intro e he
  have hsorted : (vis ++ o / C :: rest).Pairwise (· < ·) := by
    rw [← hb]
    exact List.pairwise_lt_range'
  have hlt := (List.pairwise_append.mp hsorted).2.2 e he (o / C) List.mem_cons_self
  have hge := (mem_blocks.mp (hb ▸ List.mem_append_left _ he)).1
  omega

/-- What the host has placed in its buffer so far. -/
theorem LoopInv.toNat_placed {l : Loop} (h : LoopInv d path o n r vis (c :: rest) l)
    (hr : Plans d path o n r) (hb : blocks C o n = vis ++ c :: rest) (hc : home d path c = r.hostId) :
    (r.totalChunkSize - l.chnkSizeLeftHost).toNat =
      ((held d path r.hostId vis).map (len C o n)).sum := by
  have hleft := h.left
  have htotal := hr.total
  rw [held_cons hc, List.map_cons, List.sum_cons] at hleft
  rw [chunksAt_split hb hc, List.map_append, List.sum_append, List.map_cons, List.sum_cons] at htotal
  rw [UInt64.toNat_sub_of_le _ _ (UInt64.le_iff_toNat_le.mpr (by omega))]
  omega

theorem LoopInv.toNat_size {l : Loop} (h : LoopInv d path o n r vis (c :: rest) l)
    (hr : Plans d path o n r) (hb : blocks C o n = vis ++ c :: rest) (hc : home d path c = r.hostId)
    (hentry : c = o / C → o % C = 0) (hn : 0 < n) :
    (if l.chnkIdCurr = r.chunkN - 1 then l.chnkSizeLeftHost else l.transferSize).toNat =
      len C o n c := by
  have hmem : c ∈ blocks C o n := by
    rw [hb]
    exact List.mem_append_right vis List.mem_cons_self
  have hlast := h.last_iff hr hb hc
  split
  · rename_i hl
    rw [h.left, held_cons hc, hlast.mp hl, List.map_singleton, List.sum_singleton]
  · rename_i hl
    obtain ⟨e, he⟩ := List.exists_mem_of_ne_nil _ fun hnil => hl (hlast.mpr hnil)
    obtain ⟨hfull, hlt⟩ := len_middle hn hmem hentry (lt_last_of_split hb (List.mem_of_mem_filter he))
    rw [h.transfer (by rw [held_cons hc]; exact List.cons_ne_nil _ _), hfull]
    omega

theorem LoopInv.take {l : Loop} (h : LoopInv d path o n r vis (c :: rest) l)
    (hr : Plans d path o n r) (hb : blocks C o n = vis ++ c :: rest)
    (hc : home d path c = r.hostId) (hn : 0 < n) (hon : o + n < 2 ^ 64) :
    LoopInv d path o n r (vis ++ [c]) rest (takeChunk r l (UInt64.ofNat c)) := by
  have hmem : c ∈ blocks C o n := by
    rw [hb]
    exact List.mem_append_right vis List.mem_cons_self
  have hu : (UInt64.ofNat c).toNat = c := toNat_ofNat_block hon hmem
  have hfirst : UInt64.ofNat c = r.chunkStart ↔ c = o / C := by
    rw [← UInt64.toNat_inj, hu, hr.chunkStart]
  have htransfer := h.transfer (by rw [held_cons hc]; exact List.cons_ne_nil _ _)
  simp only [takeChunk, hfirst, off_pos_iff hr]
  split
  · -- the request enters the first chunk at an offset
    rename_i hp
    obtain ⟨rfl, -⟩ := hp
    have hvis : held d path r.hostId vis = [] := held_before_first hb r.hostId
    have hptr : l.chnkPtr.toNat = 0 := by
      rw [h.ptr, hvis]
      rfl
    have hstart := toNat_startOffset hr hn hmem
    rw [if_pos rfl] at hstart
    apply h.push hr hb hc
    · simp only [Slot.piece, hu, hptr, toNat_offsetTransferSize hr hon, if_true, hstart]
      simp only [piece, hvis, cut_first, Nat.sub_self]
      rfl
    · exact fun _ => htransfer
  · rename_i hp
    have hentry : c = o / C → o % C = 0 := fun he => by omega
    apply h.push hr hb hc
    · simp only [Slot.piece, piece, hu, h.ptr, h.toNat_size hr hb hc hentry hn,
        h.toNat_placed hr hb hc, toNat_startOffset hr hn hmem,
        originOffset_eq hr hon hu hmem hentry hn]
    · intro hne
      rw [if_neg fun hl => hne ((h.last_iff hr hb hc).mp hl)]
      exact htransfer

theorem LoopInv.visit {l : Loop} (h : LoopInv d path o n r vis (c :: rest) l)
    (hr : Plans d path o n r) (hb : blocks C o n = vis ++ c :: rest)
    (hn : 0 < n) (hon : o + n < 2 ^ 64) :
    ∃ l', visit d.strHash r l (UInt64.ofNat c) = some l' ∧
      LoopInv d path o n r (vis ++ [c]) rest l' := by
  have hloc : locateDataSized d.strHash r.path (UInt64.ofNat c).toUInt32 r.hostSize.toUInt32 =
      some (d.locateData path (UInt64.ofNat c).toUInt32) := by
    rw [hr.hostSize, hr.path_eq, locateDataSized_eq]
  by_cases hc : home d path c = r.hostId
  · have hlt : l.chnkIdCurr < r.chunkN := by
      rw [UInt64.lt_iff_toNat_lt, h.curr, hr.chunkN, chunksAt_split hb hc, List.length_append,
        List.length_cons]
      omega
    refine ⟨takeChunk r l (UInt64.ofNat c), ?_, h.take hr hb hc hn hon⟩
    rw [SrvData.visit, if_pos hlt, hloc, Option.map_some]
    exact congrArg some (if_neg (not_not.mpr hc))
  · refine ⟨l, ?_, h.skip hc⟩
    rw [SrvData.visit, hloc, Option.map_some]
    split
    · exact congrArg some (if_pos hc)
    · rfl

theorem LoopInv.run {l : Loop} (h : LoopInv d path o n r vis rest l)
    (hr : Plans d path o n r) (hb : blocks C o n = vis ++ rest) (hn : 0 < n) (hon : o + n < 2 ^ 64) :
    ∃ l', (rest.map UInt64.ofNat).foldlM (SrvData.visit d.strHash r) l = some l' ∧
      LoopInv d path o n r (blocks C o n) [] l' := by
  induction rest generalizing vis l with
  | nil =>
    rw [List.append_nil] at hb
    exact ⟨l, rfl, by rw [hb]; exact h⟩
  | cons c rest ih =>
    obtain ⟨l', hl', hinv⟩ := h.visit hr hb hn hon
    obtain ⟨l'', hl'', hinv'⟩ := ih hinv (by rw [hb, List.append_assoc]; rfl)
    refine ⟨l'', ?_, hinv'⟩
    rw [List.map_cons, List.foldlM_cons, hl']
    exact hl''

/-- After the last chunk id the host has all its chunks and nothing is left. -/
theorem LoopInv.finished {l : Loop} (h : LoopInv d path o n r (blocks C o n) [] l)
    (hr : Plans d path o n r) :
    l.chnkIdCurr = r.chunkN ∧ l.chnkSizeLeftHost = 0 ∧
      l.slots.map Slot.piece = pieces o n 0 (chunksAt d path o n r.hostId) := by
  refine ⟨?_, ?_, h.slots⟩
  · rw [← UInt64.toNat_inj, h.curr, hr.chunkN]
    rfl
  · rw [← UInt64.toNat_inj, h.left]
    rfl

end Invariant

end GaoFS.SrvData
