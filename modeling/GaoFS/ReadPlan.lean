import GaoFS.ReadRun

namespace GaoFS.ReadPlan

open Arithmetic Chunks ForwardData SrvData ReadRun Library.NumberText Library.Blocks

/-- The file positions that a task reads. -/
def positions (s : Slot) : List Nat :=
  List.range' (s.chnkId.toNat * C + s.off.toUInt64.toNat) s.size.toNat

/-- The tasks that `rpc_srv_read` launches for a request. A handler that traps launches none. -/
def launched (strHash : Bytes → UInt64) (r : DataIn) : List Slot := (readSlots strHash r).getD []

/-- The tasks of one daemon fit a request for the file range from `offset` on. -/
structure Fits (offset : Nat) (r : DataIn) (slots : List Slot) : Prop where
  count : slots.length = r.chunkN.toNat
  in_chunk : ∀ s ∈ slots, s.off.toUInt64.toNat + s.size.toNat ≤ C
  after_start : ∀ s ∈ slots, offset ≤ s.chnkId.toNat * C + s.off.toUInt64.toNat
  origin : ∀ s ∈ slots,
    s.originOffset.toNat = s.chnkId.toNat * C + s.off.toUInt64.toNat - offset
  buffer : ∀ s ∈ slots, s.bufPtr = s.localOffset
  in_buffer : ∀ s ∈ slots, s.localOffset.toNat + s.size.toNat ≤ r.totalChunkSize.toNat
  disjoint : slots.Pairwise fun s t => s.localOffset.toNat + s.size.toNat ≤ t.localOffset.toNat

section Daemon

variable {d : SimpleHashDistributor} {path : Path} {o n : Nat} {r : DataIn} {slots : List Slot}

theorem exists_piece (h : slots.map Slot.piece = pieces o n 0 (chunksAt d path o n r.hostId))
    {s : Slot} (hs : s ∈ slots) : ∃ c ∈ blocks C o n, ∃ a,
      a + len C o n c ≤ ((chunksAt d path o n r.hostId).map (len C o n)).sum ∧
        s.piece = piece o n a c := by
  have hp := List.mem_map_of_mem (f := Slot.piece) hs
  rw [h] at hp
  obtain ⟨c, hc, a, -, ha, hpc⟩ := mem_pieces hp
  exact ⟨c, (mem_chunksAt.mp hc).1, a, by omega, hpc⟩

/-- A task reads exactly the part of the range that lies in its chunk. -/
theorem start_of_piece {s : Slot} {a c : Nat} (hn : 0 < n) (hc : c ∈ blocks C o n)
    (h : s.piece = piece o n a c) :
    s.chnkId.toNat * C + s.off.toUInt64.toNat = cut C o n c := by
  have hid : s.chnkId.toNat = c := congrArg Piece.chunk h
  have hoff : s.off.toUInt64.toNat = cut C o n c - c * C := congrArg Piece.off h
  rw [hid, hoff, Nat.add_sub_cancel' (mul_le_cut C_pos hn hc)]

theorem fits_of_pieces (hr : Plans d path o n r) (hn : 0 < n)
    (h : slots.map Slot.piece = pieces o n 0 (chunksAt d path o n r.hostId)) : Fits o r slots where
  count := length_of_pieces hr h
  in_chunk := by
    intro s hs
    obtain ⟨c, hc, a, -, hp⟩ := exists_piece h hs
    have hoff : s.off.toUInt64.toNat = cut C o n c - c * C := congrArg Piece.off hp
    have hsize : s.size.toNat = len C o n c := congrArg Piece.size hp
    rw [hoff, hsize]
    exact cut_sub_add_len_le C_pos hc
  after_start := by
    intro s hs
    obtain ⟨c, hc, a, -, hp⟩ := exists_piece h hs
    rw [start_of_piece hn hc hp]
    exact Nat.le_max_left _ _
  origin := by
    intro s hs
    obtain ⟨c, hc, a, -, hp⟩ := exists_piece h hs
    rw [start_of_piece hn hc hp]
    exact congrArg Piece.origin hp
  buffer := by
    intro s hs
    obtain ⟨c, -, a, -, hp⟩ := exists_piece h hs
    have hptr : s.bufPtr.toNat = a := congrArg Piece.ptr hp
    have hplace : s.localOffset.toNat = a := congrArg Piece.place hp
    exact UInt64.toNat_inj.mp (hptr.trans hplace.symm)
  in_buffer := by
    intro s hs
    obtain ⟨c, -, a, ha, hp⟩ := exists_piece h hs
    have hplace : s.localOffset.toNat = a := congrArg Piece.place hp
    have hsize : s.size.toNat = len C o n c := congrArg Piece.size hp
    rw [hr.total, hplace, hsize]
    exact ha
  disjoint := by
    have hpieces := pieces_pairwise o n 0 (chunksAt d path o n r.hostId)
    rw [← h, List.pairwise_map] at hpieces
    have hplace : ∀ s ∈ slots, s.piece.ptr = s.localOffset.toNat := by
      intro s hs
      obtain ⟨c, -, a, -, hp⟩ := exists_piece h hs
      rw [hp]
      exact (congrArg Piece.place hp).symm
    refine hpieces.imp_of_mem fun {s t} hs ht hst => ?_
    rw [hplace s hs, hplace t ht] at hst
    exact hst

theorem flatMap_positions (hn : 0 < n)
    (h : slots.map Slot.piece = pieces o n 0 (chunksAt d path o n r.hostId)) :
    slots.flatMap positions =
      (chunksAt d path o n r.hostId).flatMap fun c => List.range' (cut C o n c) (len C o n c) := by
  let part := fun p : Piece => List.range' (p.chunk * C + p.off) p.size
  have hmap := map_pieces o n part (fun _ _ => rfl) 0 (chunksAt d path o n r.hostId)
  rw [← h, List.map_map] at hmap
  rw [List.flatMap_def, List.flatMap_def]
  refine congrArg List.flatten (hmap.trans (List.map_congr_left fun c hc => ?_))
  have hle := mul_le_cut C_pos hn (mem_chunksAt.mp hc).1
  change List.range' (c * C + (cut C o n c - c * C)) (len C o n c) = _
  rw [Nat.add_sub_cancel' hle]

end Daemon

section Call

variable (d : SimpleHashDistributor) (path : Path) {offset : Int64} {readSize : UInt64}

theorem launched_perm {o n : Nat} (hn : 0 < n) (hon : o + n < 2 ^ 64) {reqs : List DataIn}
    (hplans : ∀ r ∈ reqs, Plans d path o n r) (hnodup : (reqs.map DataIn.hostId).Nodup)
    (hhosts : ∀ c ∈ blocks C o n, home d path c ∈ reqs.map DataIn.hostId) :
    (reqs.flatMap fun r => (launched d.strHash r).flatMap positions).Perm (List.range' o n) := by
  let part := fun c => List.range' (cut C o n c) (len C o n c)
  have hreq : reqs.map (fun r => (launched d.strHash r).flatMap positions) =
      (reqs.map DataIn.hostId).map fun k => (chunksAt d path o n k).flatMap part := by
    rw [List.map_map]
    apply List.map_congr_left
    intro r hr
    obtain ⟨slots, hslots, hpieces⟩ := readSlots_pieces (hplans r hr) hn hon
    rw [launched, hslots, Option.getD_some, flatMap_positions hn hpieces]
    rfl
  have hperm := (flatMap_filter_perm (home d path) (blocks C o n) _ hnodup hhosts).flatMap_right part
  rw [List.flatMap_assoc, flatMap_blocks C_pos hn] at hperm
  rw [List.flatMap_def, hreq, ← List.flatMap_def]
  exact hperm

/-- Every request of a read is served by tasks that fit it, and over all hosts
the tasks read each position of the range once and no other. -/
theorem readPlan_exact (hoffset : 0 ≤ offset) (hsize : 1 ≤ readSize)
    (hend : offset.toInt + readSize.toNat ≤ 2 ^ 63 - 1) :
    (∀ r ∈ forwardRead d path offset readSize, ∃ slots, readSlots d.strHash r = some slots ∧
        Fits offset.toUInt64.toNat r slots) ∧
      ((forwardRead d path offset readSize).flatMap fun r =>
          (launched d.strHash r).flatMap positions).Perm
        (List.range' offset.toUInt64.toNat readSize.toNat) := by
  have hn : 0 < readSize.toNat := UInt64.le_iff_toNat_le.mp hsize
  have hoff := toInt_of_nonneg hoffset
  have hn' : readSize.toNat < 2 ^ 63 := by omega
  have hon : offset.toUInt64.toNat + readSize.toNat < 2 ^ 64 := by omega
  have hplans : ∀ r ∈ forwardRead d path offset readSize,
      Plans d path offset.toUInt64.toNat readSize.toNat r := dataRequests_plans rfl rfl hn hn' hon
  obtain ⟨hnodup, hmem⟩ := dataRequests_hosts d path (rfl : offset.toUInt64.toNat = _) rfl hn hon
  constructor
  · intro r hr
    obtain ⟨slots, hslots, hpieces⟩ := readSlots_pieces (hplans r hr) hn hon
    exact ⟨slots, hslots, fits_of_pieces (hplans r hr) hn hpieces⟩
  · exact launched_perm d path hn hon hplans hnodup fun c hc => (hmem _).mpr ⟨c, hc, rfl⟩

/-- The second half of one chunk and the first byte of the next. -/
theorem readPlan_exact_straddling :
    (∀ r ∈ forwardRead twoHosts (text "/f") 262144 262145, ∃ slots,
        readSlots twoHosts.strHash r = some slots ∧ Fits (262144 : Int64).toUInt64.toNat r slots) ∧
      ((forwardRead twoHosts (text "/f") 262144 262145).flatMap fun r =>
          (launched twoHosts.strHash r).flatMap positions).Perm
        (List.range' (262144 : Int64).toUInt64.toNat (262145 : UInt64).toNat) :=
  readPlan_exact twoHosts (text "/f") (by decide) (by decide) (by decide)

end Call

end GaoFS.ReadPlan
