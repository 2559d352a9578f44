import GaoFS.FileSizes
import GaoFS.ReadRun

namespace GaoFS.ChunkRanges

open Arithmetic Chunks Replies ForwardData Dirents GaofsFunctions FileSizes Library.Blocks

/-- The chunk ids that the loop of `forward_read` visits. -/
def visited (offset : Int64) (count : UInt64) : List UInt64 :=
  chnkIds (blockIndex offset.toUInt64 chunksize) (blockIndex (offset.toUInt64 + count - 1) chunksize)

section Functions

variable (d : SimpleHashDistributor) (f : OpenFile) (reply : DataIn → Option DataOut)
  (count : UInt64) (offset : Int64) (io : Io)

/-- `gaofs_pread`, where the data hosts answer `reply`. -/
def gaofsPread : Int64 × Io :=
  if f.type = .directory then (-1, { io with errno := EISDIR })
  else
    let ret := collectReplies ((forwardRead d f.path offset count).map reply)
    if ret.1 ≠ 0 then (-1, { io with errno := ret.1 }) else (ret.2, io)

/-- `gaofs_pwrite`, where `forward_update_metadentry_size` has returned `upd`. There is no
result if the assertion of `forward_write` fails. -/
def gaofsPwrite (upd : Int32 × Int64) : Option Int64 × Io :=
  if f.type = .directory then io.fail EISDIR
  else
    let append := hasFlag f.flags O_APPEND
    if upd.1 ≠ 0 then io.fail upd.1
    else if count = 0 then (none, io)
    else
      let w := collectReplies ((forwardWrite d f.path append offset count upd.2).map reply)
      if w.1 ≠ 0 then io.fail w.1 else (some w.2, io)

/-- The metadata host of the file is the one that has answered. -/
theorem gaofsPwrite_upd (hosts : DataHosts d) (h : f.type ≠ .directory) :
    let upd := forwardUpdateMetadentrySize io.store count offset (hasFlag f.flags O_APPEND)
    FileSizes.gaofsPwrite f hosts count offset io =
      gaofsPwrite d f hosts.reply count offset { io with store := upd.2 } upd.1 := by
  intro upd
  rw [FileSizes.gaofsPwrite, gaofsPwrite, if_neg h, if_neg h]

/-- A range of chunks that is right for a read. -/
structure RangeRight : Prop where
  visits : ∀ c, c ∈ (visited offset count).map UInt64.toNat ↔
    ∃ x, offset.toUInt64.toNat ≤ x ∧ x < offset.toUInt64.toNat + count.toNat ∧ x / C = c
  once : (visited offset count).Nodup
  few : (visited offset count).length ≤ count.toNat / C + 2
  empty : count = 0 → visited offset count = []
  returns : count = 0 → f.type = .regular → (gaofsPread d f reply count offset io).1 = 0

end Functions

section Range

variable {offset : Int64} {count : UInt64}

theorem toNat_chnkIds (start stop : UInt64) :
    (chnkIds start stop).map UInt64.toNat = List.range' start.toNat (stop.toNat + 1 - start.toNat) := by
  have hid : ∀ c ∈ List.range' start.toNat (stop.toNat + 1 - start.toNat),
      (UInt64.toNat ∘ UInt64.ofNat) c = id c := by
    intro c hc
    have hstop := stop.toNat_lt
    obtain ⟨hlo, hhi⟩ := List.mem_range'_1.mp hc
    rw [Function.comp_apply, UInt64.toNat_ofNat', Nat.mod_eq_of_lt (by omega), id_eq]
  rw [chnkIds, List.map_map, List.map_congr_left hid, List.map_id]

/-- The last address, and with it the end chunk, wraps around. -/
theorem toNat_visited (offset : Int64) (count : UInt64) :
    let o := offset.toUInt64.toNat
    let last := (o + count.toNat + (2 ^ 64 - 1)) % 2 ^ 64
    (visited offset count).map UInt64.toNat = List.range' (o / C) (last / C + 1 - o / C) := by
  intro o last
  have hlast : (offset.toUInt64 + count - 1).toNat = last := by
    rw [UInt64.toNat_sub, UInt64.toNat_add, UInt64.toNat_one]
    omega
  rw [visited, toNat_chnkIds, toNat_chunkIndex, toNat_chunkIndex, hlast]

theorem length_visited (offset : Int64) (count : UInt64) :
    (visited offset count).length = ((visited offset count).map UInt64.toNat).length :=
  (List.length_map _).symm

theorem exists_in_chunk_iff {o n c : Nat} (hn : 0 < n) :
    (∃ x, o ≤ x ∧ x < o + n ∧ x / C = c) ↔ o / C ≤ c ∧ c ≤ (o + n - 1) / C := by
  constructor
  · rintro ⟨x, hlo, hhi, rfl⟩
    exact ⟨Nat.div_le_div_right hlo, Nat.div_le_div_right (by omega)⟩
  · rintro ⟨hlo, hhi⟩
    refine ⟨max o (c * C), Nat.le_max_left _ _, ?_, ?_⟩
    · simp only [C] at *
      omega
    · simp only [C] at *
      omega

/-- A read that finds no chunk asks nobody and returns nothing. -/
theorem gaofsPread_of_empty {d : SimpleHashDistributor} {f : OpenFile}
    (reply : DataIn → Option DataOut) (io : Io) (hf : f.type = .regular)
    (h : visited offset count = []) : (gaofsPread d f reply count offset io).1 = 0 := by
  have hrequests : forwardRead d f.path offset count = [] := by
    change dataRequests d f.path offset.toUInt64 count = []
    rw [dataRequests, collectTargets, show chnkIds _ _ = [] from h]
    rfl
  rw [gaofsPread, if_neg (by rw [hf]; decide), hrequests]
  rfl

theorem rangeRight_iff (d : SimpleHashDistributor) (f : OpenFile) (reply : DataIn → Option DataOut)
    (count : UInt64) (offset : Int64) (io : Io) :
    RangeRight d f reply count offset io ↔
      0 < count.toNat ∧ offset.toUInt64.toNat + count.toNat ≤ 2 ^ 64 ∨
        count = 0 ∧ 0 < offset.toUInt64.toNat ∧ C ∣ offset.toUInt64.toNat := by
  have hvisited := toNat_visited offset count
  have hlt := offset.toUInt64.toNat_lt
  have hzero : count = 0 ↔ count.toNat = 0 := UInt64.toNat_inj.symm
  have hnil : visited offset count = [] ↔ (visited offset count).map UInt64.toNat = [] := List.map_eq_nil_iff.symm
  dsimp only at hvisited
  constructor
  · intro h
    by_cases hn : count.toNat = 0
    · have hempty := hnil.mp (h.empty (hzero.mpr hn))
      rw [hvisited, List.range'_eq_nil_iff] at hempty
      refine .inr ⟨hzero.mpr hn, ?_, ?_⟩
      · simp only [C] at *
        omega
      · simp only [C] at *
        omega
    · refine .inl ⟨Nat.pos_of_ne_zero hn, ?_⟩
      by_contra hbig
      generalize hx : offset.toUInt64.toNat + count.toNat - 1 = x
      have hmem := (h.visits (x / C)).mpr ⟨x, by omega, by omega, rfl⟩
      rw [hvisited, List.mem_range'_1] at hmem
      simp only [C] at *
      omega
  · have honce : (visited offset count).Nodup := by
      apply List.Nodup.of_map UInt64.toNat
      rw [hvisited]
      exact List.nodup_range'
    rintro (⟨hn, hfit⟩ | ⟨rfl, hpos, hdvd⟩)
    · have hlast : (offset.toUInt64.toNat + count.toNat + (2 ^ 64 - 1)) % 2 ^ 64 =
          offset.toUInt64.toNat + count.toNat - 1 := by omega
      rw [hlast] at hvisited
      have hne : ¬ count = 0 := hzero.not.mpr (Nat.ne_of_gt hn)
      refine ⟨fun c => ?_, honce, ?_, fun h => absurd h hne, fun h => absurd h hne⟩
      · rw [hvisited, exists_in_chunk_iff hn, List.mem_range'_1]
        omega
      · rw [length_visited, hvisited, List.length_range']
        simp only [C] at *
        omega
    · have hempty : visited offset 0 = [] := by
        rw [hnil, hvisited, List.range'_eq_nil_iff, UInt64.toNat_zero]
        simp only [C] at *
        omega
      refine ⟨fun c => ?_, honce, by rw [hempty]; exact Nat.zero_le _, fun _ => hempty,
        fun _ hf => gaofsPread_of_empty reply io hf hempty⟩
      rw [hempty]
      refine iff_of_false (List.not_mem_nil) ?_
      rintro ⟨x, hlo, hhi, _⟩
      rw [UInt64.toNat_zero] at hhi
      omega

theorem gaofsPwrite_zero_iff (d : SimpleHashDistributor) (f : OpenFile)
    (reply : DataIn → Option DataOut) (offset : Int64) (io : Io) (upd : Int32 × Int64) :
    (gaofsPwrite d f reply 0 offset io upd).1 ≠ none ↔ f.type = .directory ∨ upd.1 ≠ 0 := by
  rw [gaofsPwrite]
  split
  · exact iff_of_true (Option.some_ne_none _) (.inl ‹_›)
  · dsimp only
    split
    · exact iff_of_true (Option.some_ne_none _) (.inr ‹_›)
    · rw [if_pos rfl]
      exact iff_of_false (not_not.mpr rfl) (not_or.mpr ⟨‹_›, ‹_›⟩)

end Range

section Result

/-- The ranges of a read and the assertion of a write are right exactly if the read asks for
something that ends within the address space, or for nothing at the boundary of a chunk other than
the first, and the write of nothing is refused before. -/
theorem ranges_iff (d : SimpleHashDistributor) (f : OpenFile) (reply : DataIn → Option DataOut)
    (count : UInt64) (offset : Int64) (io : Io) (g : OpenFile) (offset' : Int64) (io' : Io)
    (upd : Int32 × Int64) :
    RangeRight d f reply count offset io ∧ (gaofsPwrite d g reply 0 offset' io' upd).1 ≠ none ↔
      (0 < count.toNat ∧ offset.toUInt64.toNat + count.toNat ≤ 2 ^ 64 ∨
          count = 0 ∧ 0 < offset.toUInt64.toNat ∧ C ∣ offset.toUInt64.toNat) ∧
        (g.type = .directory ∨ upd.1 ≠ 0) :=
  and_congr (rangeRight_iff d f reply count offset io) (gaofsPwrite_zero_iff d g reply offset' io' upd)

def plainFile : OpenFile where
  type := .regular
  path := [47, 102]
  flags := 0
  pos := 1
  noAppend := by decide

/-- A read of no bytes behind the first one asks for the first chunk, and a write of none
that a metadata host has accepted ends in the assertion. -/
theorem empty_range_wrong :
    let io : Io := ⟨0, ForwardRemove.oneByte 33188⟩
    ¬ RangeRight twoHosts plainFile (fun _ => none) 0 1 io ∧
      (gaofsPwrite twoHosts plainFile (fun _ => none) 0 1 io (0, 1)).1 = none := by
  intro io
  refine ⟨fun h => ?_, rfl⟩
  exact absurd (congrArg List.length (h.empty rfl)) (by decide +kernel)

end Result

end GaoFS.ChunkRanges
