import GaoFS.FileSizes
import GaoFS.Library.ByteFile

namespace GaoFS.VectorIo

open Arithmetic Chunks Replies Library.NumberText Library.ByteFile

section Loop

variable {ι σ : Type*} (count : ι → UInt64) (io : ι → Int64 → σ → Option Int64 × σ)

/-- The loop of `gaofs_preadv` and of `gaofs_pwritev` around one transfer, in which the client
may die. -/
def vectorLoop : List ι → Int64 → Int64 → σ → Option Int64 × σ
  | [], _, moved, s => (some moved, s)
  | v :: iov, pos, moved, s =>
    if count v = 0 then vectorLoop iov pos moved s
    else match io v pos s with
      | (none, s) => (none, s)
      | (some ret, s) =>
        if ret = -1 then (some moved, s)
        else if ret.toUInt64 < count v then (some (moved + ret), s)
        else vectorLoop iov (pos + ret) (moved + ret) s

def vectorAt (iov : List ι) (offset : Int64) (s : σ) : Option Int64 × σ :=
  let out := vectorLoop count io iov offset 0 s
  (out.1.map fun moved => if moved = 0 then -1 else moved, out.2)

/-- `gaofs_readv` and `gaofs_writev`, with the position afterwards. They assert a result other
than zero. -/
def vectorNext (iov : List ι) (pos : UInt64) (s : σ) : (Option Int64 × σ) × UInt64 :=
  let out := vectorAt count io iov pos.toInt64 s
  match out.1 with
  | none => (out, pos)
  | some ret =>
    if ret = 0 then ((none, out.2), pos)
    else if ret < 0 then ((some (-1), out.2), pos)
    else (out, pos + ret.toUInt64)

end Loop

section Sizes

variable {d : SimpleHashDistributor} (f : FileSizes.OpenFile)

/-- The transfer of `gaofs_pwritev` with answers of the data hosts. -/
def pwriteHosts (v : UInt64 × FileSizes.DataHosts d) (pos : Int64) (io : FileSizes.Io) :
    Option Int64 × FileSizes.Io :=
  FileSizes.gaofsPwrite f v.2 v.1 pos io

theorem pwritevLoop_eq (iov : List (UInt64 × FileSizes.DataHosts d)) (pos written : Int64)
    (io : FileSizes.Io) :
    FileSizes.pwritevLoop f iov pos written io = vectorLoop Prod.fst (pwriteHosts f) iov pos written io := by
  induction iov generalizing pos written io with
  | nil => rfl
  | cons v iov ih =>
    rw [FileSizes.pwritevLoop, vectorLoop, ih, pwriteHosts]
    rcases FileSizes.gaofsPwrite f v.2 v.1 pos io with ⟨ret | ret, io⟩
    · rfl
    · dsimp only
      rw [ih]

theorem gaofsPwritev_eq (iov : List (UInt64 × FileSizes.DataHosts d)) (offset : Int64) (io : FileSizes.Io) :
    FileSizes.gaofsPwritev f iov offset io = vectorAt Prod.fst (pwriteHosts f) iov offset io := by
  rw [FileSizes.gaofsPwritev, pwritevLoop_eq, vectorAt]

theorem vectorAt_ne_zero {ι σ : Type*} (count : ι → UInt64) (io : ι → Int64 → σ → Option Int64 × σ)
    (iov : List ι) (offset : Int64) (s : σ) : (vectorAt count io iov offset s).1 ≠ some 0 := by
  intro h
  obtain ⟨moved, -, hmoved⟩ := Option.map_eq_some_iff.mp h
  split_ifs at hmoved with hzero
  · exact absurd hmoved (by decide)
  · exact hzero hmoved

theorem gaofsWritev_eq (iov : List (UInt64 × FileSizes.DataHosts d)) (io : FileSizes.Io) :
    FileSizes.gaofsWritev f iov io = vectorNext Prod.fst (pwriteHosts f) iov f.pos io := by
  have hne := vectorAt_ne_zero Prod.fst (pwriteHosts f) iov f.pos.toInt64 io
  rw [FileSizes.gaofsWritev, vectorNext, gaofsPwritev_eq]
  rcases hout : vectorAt Prod.fst (pwriteHosts f) iov f.pos.toInt64 io with ⟨ret | ret, io'⟩
  · rfl
  · have hret : ret ≠ 0 := by
      rintro rfl
      exact hne (congrArg Prod.fst hout)
    dsimp only
    rw [if_neg hret]
    rfl

end Sizes

section Memory

structure Iovec where
  base : Nat
  len : UInt64

abbrev Memory := Nat → UInt8

def store (m : Memory) (base : Nat) (bytes : Bytes) : Memory := fun a =>
  if base ≤ a then bytes[a - base]?.getD (m a) else m a

def load (m : Memory) (base n : Nat) : Bytes := (List.range' base n).map m

def total (iov : List Iovec) : Nat := (iov.map fun v => v.len.toNat).sum

/-- The bytes fill the buffers in their order. -/
def scatter : List Iovec → Bytes → Memory → Memory
  | [], _, m => m
  | v :: iov, bytes, m =>
    scatter iov (bytes.drop v.len.toNat) (store m v.base (bytes.take v.len.toNat))

/-- The concatenation of the buffers. -/
def gather (m : Memory) (iov : List Iovec) : Bytes := iov.flatMap fun v => load m v.base v.len.toNat

end Memory

section Calls

/-- The content of a file, no longer than its size can say. -/
structure File where
  bytes : Bytes
  fits : bytes.length < 2 ^ 63

/-- What `gaofs_pread` finds: what there is from the offset on, up to `n` bytes. -/
def found (file : Bytes) (offset : Int64) (n : Nat) : Bytes := pread offset.toInt.toNat n file

/-- `gaofs_pread` where no message fails. -/
def gaofsPread (file : Bytes) (v : Iovec) (offset : Int64) (m : Memory) : Option Int64 × Memory :=
  let bytes := found file offset v.len.toNat
  (some (Int64.ofNat bytes.length), store m v.base bytes)

/-- `gaofs_pwrite` of the bytes where no message fails. -/
def written (bytes : Bytes) (offset : Int64) (file : Bytes) : Option Int64 × Bytes :=
  (some (Int64.ofNat bytes.length), pwrite 0 offset.toInt.toNat bytes file)

def gaofsPwrite (m : Memory) (v : Iovec) : Int64 → Bytes → Option Int64 × Bytes :=
  written (load m v.base v.len.toNat)

def gaofsPreadv (file : Bytes) : List Iovec → Int64 → Memory → Option Int64 × Memory :=
  vectorAt Iovec.len (gaofsPread file)

def gaofsReadv (file : Bytes) : List Iovec → UInt64 → Memory → (Option Int64 × Memory) × UInt64 :=
  vectorNext Iovec.len (gaofsPread file)

def gaofsPwritev (m : Memory) : List Iovec → Int64 → Bytes → Option Int64 × Bytes :=
  vectorAt Iovec.len (gaofsPwrite m)

def gaofsWritev (m : Memory) : List Iovec → UInt64 → Bytes → (Option Int64 × Bytes) × UInt64 :=
  vectorNext Iovec.len (gaofsPwrite m)

/-- One `gaofs_pread` of the total length, scattered over the list. -/
def readOnce (file : Bytes) (iov : List Iovec) (offset : Int64) (m : Memory) : Option Int64 × Memory :=
  let bytes := found file offset (total iov)
  (some (Int64.ofNat bytes.length), scatter iov bytes m)

/-- One `gaofs_pwrite` of the concatenation. -/
def writeOnce (m : Memory) (iov : List Iovec) : Int64 → Bytes → Option Int64 × Bytes :=
  written (gather m iov)

end Calls

section Lists

@[simp] theorem store_nil (m : Memory) (base : Nat) : store m base [] = m := by
  funext a
  simp [store]

theorem scatter_nil (iov : List Iovec) (m : Memory) : scatter iov [] m = m := by
  induction iov generalizing m with
  | nil => rfl
  | cons v iov ih => rw [scatter, List.drop_nil, List.take_nil, store_nil, ih]

@[simp] theorem length_load (m : Memory) (base n : Nat) : (load m base n).length = n := by
  rw [load, List.length_map, List.length_range']

theorem length_gather (m : Memory) (iov : List Iovec) : (gather m iov).length = total iov := by
  simp only [gather, total, List.length_flatMap, length_load]

theorem total_cons (v : Iovec) (iov : List Iovec) : total (v :: iov) = v.len.toNat + total iov := rfl

theorem gather_cons (m : Memory) (v : Iovec) (iov : List Iovec) :
    gather m (v :: iov) = load m v.base v.len.toNat ++ gather m iov := rfl

end Lists

section Reads

variable {file : Bytes}

theorem toNat_ofNat_toUInt64 {n : Nat} (h : n < 2 ^ 63) : (Int64.ofNat n).toUInt64.toNat = n := by
  have hnonneg : 0 ≤ Int64.ofNat n := Int64.not_lt.mp (not_ofNat_neg h)
  have hint := toInt_of_nonneg hnonneg
  rw [Int64.toInt_ofNat_of_lt h] at hint
  omega

theorem ofNat_ne_neg_one {n : Nat} (h : n < 2 ^ 63) : Int64.ofNat n ≠ -1 := by
  intro heq
  apply not_ofNat_neg h
  rw [heq]
  decide

/-- One transfer of the loop, `n` bytes at `p` after `r` bytes. -/
theorem vectorLoop_transfer {ι σ : Type*} {count : ι → UInt64} {io : ι → Int64 → σ → Option Int64 × σ}
    {v : ι} {p n : Nat} {s t : σ} (hv : count v ≠ 0) (hn : n < 2 ^ 63)
    (hio : io v (Int64.ofNat p) s = (some (Int64.ofNat n), t)) (iov : List ι) (r : Nat) :
    vectorLoop count io (v :: iov) (Int64.ofNat p) (Int64.ofNat r) s =
      if n < (count v).toNat then (some (Int64.ofNat (r + n)), t)
      else vectorLoop count io iov (Int64.ofNat (p + n)) (Int64.ofNat (r + n)) t := by
  rw [vectorLoop, if_neg hv, hio]
  dsimp only
  rw [if_neg (ofNat_ne_neg_one hn)]
  simp only [UInt64.lt_iff_toNat_lt, toNat_ofNat_toUInt64 hn, Int64.ofNat_add]

/-- A short read ends at the end of the file, where the reads behind it would find nothing. -/
theorem vectorLoop_read (hfile : file.length < 2 ^ 63) (iov : List Iovec) {p r : Nat} (hp : p < 2 ^ 63)
    (m : Memory) :
    vectorLoop Iovec.len (gaofsPread file) iov (Int64.ofNat p) (Int64.ofNat r) m =
      (some (Int64.ofNat (r + (pread p (total iov) file).length)),
        scatter iov (pread p (total iov) file) m) := by
  induction iov generalizing p r m with
  | nil =>
    have hnone : pread p (total []) file = [] := List.take_zero
    rw [hnone, scatter_nil]
    rfl
  | cons v iov ih =>
    by_cases hv : v.len = 0
    · rw [vectorLoop, if_pos hv, ih hp, total_cons, scatter, hv]
      simp
    have hlength := length_pread p v.len.toNat file
    have hio : gaofsPread file v (Int64.ofNat p) m =
        (some (Int64.ofNat (pread p v.len.toNat file).length), store m v.base (pread p v.len.toNat file)) := by
      rw [gaofsPread, found, Int64.toInt_ofNat_of_lt hp, Int.toNat_natCast]
    rw [vectorLoop_transfer hv (by omega) hio, total_cons, pread_add, scatter]
    by_cases hshort : (pread p v.len.toNat file).length < v.len.toNat
    · have hrest : pread (p + v.len.toNat) (total iov) file = [] := pread_beyond _ _ _ (by omega)
      rw [if_pos hshort, hrest, List.append_nil, List.take_of_length_le (by omega),
        List.drop_eq_nil_of_le (by omega), scatter_nil]
    · have hall : (pread p v.len.toNat file).length = v.len.toNat := by omega
      rw [if_neg hshort, hall, ih (by omega), List.take_left' hall, List.drop_left' hall, List.length_append,
        hall, Nat.add_assoc]

end Reads

section Writes

theorem vectorLoop_write (m : Memory) (iov : List Iovec) {p r : Nat} (hp : p + total iov < 2 ^ 63)
    (file : Bytes) :
    vectorLoop Iovec.len (gaofsPwrite m) iov (Int64.ofNat p) (Int64.ofNat r) file =
      (some (Int64.ofNat (r + total iov)), pwrite 0 p (gather m iov) file) := by
  induction iov generalizing p r file with
  | nil => rfl
  | cons v iov ih =>
    rw [total_cons] at hp ⊢
    by_cases hv : v.len = 0
    · rw [vectorLoop, if_pos hv, ih (by omega), gather_cons, hv]
      simp [load]
    have hio : gaofsPwrite m v (Int64.ofNat p) file =
        (some (Int64.ofNat v.len.toNat), pwrite 0 p (load m v.base v.len.toNat) file) := by
      rw [gaofsPwrite, written, length_load, Int64.toInt_ofNat_of_lt (by omega), Int.toNat_natCast]
    have hwrite := pwrite_pwrite 0 p (load m v.base v.len.toNat) (gather m iov) file
    rw [length_load] at hwrite
    rw [vectorLoop_transfer hv (by omega) hio, if_neg (Nat.lt_irrefl _), ih (by omega), hwrite, gather_cons,
      Nat.add_assoc]

end Writes

section Results

variable {ι σ : Type*} {count : ι → UInt64} {io : ι → Int64 → σ → Option Int64 × σ} {iov : List ι}
  {s t : σ} {n : Nat}

/-- Nothing transferred and an error are one result. -/
def folded (n : Nat) : Int64 := if n = 0 then -1 else Int64.ofNat n

theorem folded_eq_iff (hn : n < 2 ^ 63) : folded n = Int64.ofNat n ↔ 0 < n := by
  rw [folded]
  split_ifs with hzero
  · subst hzero
    decide
  · exact iff_of_true rfl (Nat.pos_of_ne_zero hzero)

theorem vectorAt_moved {offset : Int64} (hn : n < 2 ^ 63)
    (h : vectorLoop count io iov offset 0 s = (some (Int64.ofNat n), t)) :
    vectorAt count io iov offset s = (some (folded n), t) := by
  rw [vectorAt, h, folded]
  simp only [Option.map_some, ofNat_eq_zero_iff hn]

/-- The assertion holds, and nothing transferred leaves the position alone. -/
theorem vectorNext_moved {pos : UInt64} (hn : n < 2 ^ 63)
    (h : vectorLoop count io iov pos.toInt64 0 s = (some (Int64.ofNat n), t)) :
    vectorNext count io iov pos s = ((some (folded n), t), pos + UInt64.ofNat n) := by
  rw [vectorNext, vectorAt_moved hn h, folded]
  by_cases hzero : n = 0
  · subst hzero
    exact congrArg (Prod.mk _) (UInt64.add_zero pos).symm
  · have hne : Int64.ofNat n ≠ 0 := mt (ofNat_eq_zero_iff hn).mp hzero
    dsimp only
    rw [if_neg hzero, if_neg hne, if_neg (not_ofNat_neg hn)]
    rfl

end Results

section Refinement

variable (m : Memory) (file : File) (iov : List Iovec)

/-- The vectored calls are one scalar call exactly where that transfers a byte. The position moves
by what the scalar call returns, with no assertion in the way, even where it does not. -/
theorem vector_iff {offset : Int64} (h : 0 ≤ offset) :
    (gaofsPreadv file.bytes iov offset m = readOnce file.bytes iov offset m ↔
      0 < min (total iov) (file.bytes.length - offset.toInt.toNat)) ∧
    gaofsReadv file.bytes iov offset.toUInt64 m = (gaofsPreadv file.bytes iov offset m,
      offset.toUInt64 + UInt64.ofNat (min (total iov) (file.bytes.length - offset.toInt.toNat))) ∧
    (gaofsPreadv file.bytes iov offset m).1.isSome ∧
    (offset.toInt + total iov < 2 ^ 63 →
      (gaofsPwritev m iov offset file.bytes = writeOnce m iov offset file.bytes ↔ 0 < total iov) ∧
      gaofsWritev m iov offset.toUInt64 file.bytes =
        (gaofsPwritev m iov offset file.bytes, offset.toUInt64 + UInt64.ofNat (total iov)) ∧
      (gaofsPwritev m iov offset file.bytes).1.isSome) := by
  obtain ⟨p, hp, rfl⟩ : ∃ p : Nat, p < 2 ^ 63 ∧ Int64.ofNat p = offset := by
    have hlt := offset.toInt_lt
    have hnonneg : 0 ≤ offset.toInt := Int64.le_iff_toInt_le.mp h
    refine ⟨offset.toInt.toNat, by omega, ?_⟩
    apply Int64.toInt_inj.mp
    rw [Int64.toInt_ofNat_of_lt (by omega)]
    omega
  have hfits := file.fits
  have hfound : (found file.bytes (Int64.ofNat p) (total iov)).length =
      min (total iov) (file.bytes.length - (Int64.ofNat p).toInt.toNat) := length_pread _ _ _
  have hoffset : (Int64.ofNat p).toInt.toNat = p := by rw [Int64.toInt_ofNat_of_lt hp, Int.toNat_natCast]
  have hread : vectorLoop Iovec.len (gaofsPread file.bytes) iov (Int64.ofNat p) 0 m =
      (some (Int64.ofNat (min (total iov) (file.bytes.length - (Int64.ofNat p).toInt.toNat))),
        scatter iov (found file.bytes (Int64.ofNat p) (total iov)) m) := by
    rw [← hfound, found, hoffset]
    exact (vectorLoop_read hfits iov hp m).trans (by rw [Nat.zero_add])
  have hpreadv := vectorAt_moved (by omega) hread
  refine ⟨?_, ?_, ?_, ?_⟩
  · rw [gaofsPreadv, hpreadv, readOnce, ← hfound, Prod.mk_inj, and_iff_left rfl, Option.some_inj,
      folded_eq_iff (by omega)]
  · rw [gaofsReadv, gaofsPreadv, hpreadv]
    exact vectorNext_moved (by omega) hread
  · rw [gaofsPreadv, hpreadv]
    rfl
  intro htotal
  rw [Int64.toInt_ofNat_of_lt hp] at htotal
  have hwrite : vectorLoop Iovec.len (gaofsPwrite m) iov (Int64.ofNat p) 0 file.bytes =
      (some (Int64.ofNat (total iov)), pwrite 0 p (gather m iov) file.bytes) :=
    (vectorLoop_write m iov (by omega) file.bytes).trans (by rw [Nat.zero_add])
  have hpwritev := vectorAt_moved (by omega) hwrite
  refine ⟨?_, ?_, ?_⟩
  · rw [gaofsPwritev, hpwritev, writeOnce, written, length_gather, hoffset, Prod.mk_inj, and_iff_left rfl,
      Option.some_inj, folded_eq_iff (by omega)]
  · rw [gaofsWritev, gaofsPwritev, hpwritev]
    exact vectorNext_moved (by omega) hwrite
  · rw [gaofsPwritev, hpwritev]
    rfl

def oneByte : File := ⟨[7], by decide⟩

theorem vector_two_buffers :
    gaofsPreadv oneByte.bytes [⟨0, 0⟩, ⟨8, 2⟩] 0 (fun _ => 0) =
      readOnce oneByte.bytes [⟨0, 0⟩, ⟨8, 2⟩] 0 (fun _ => 0) ∧
    gaofsPwritev (fun _ => 3) [⟨0, 0⟩, ⟨8, 2⟩] 0 oneByte.bytes =
      writeOnce (fun _ => 3) [⟨0, 0⟩, ⟨8, 2⟩] 0 oneByte.bytes := by
  have hoffset : (0 : Int64) ≤ 0 := by decide
  constructor
  · exact (vector_iff (fun _ => 0) oneByte [⟨0, 0⟩, ⟨8, 2⟩] hoffset).1.mpr (by decide)
  · exact ((vector_iff (fun _ => 3) oneByte [⟨0, 0⟩, ⟨8, 2⟩] hoffset).2.2.2 (by decide)).1.mpr (by decide)

/-- At the end of the file, and with nothing to write, the result is an error where one call
would return zero. -/
theorem nothing_transferred :
    (gaofsPreadv oneByte.bytes [⟨8, 2⟩] 1 (fun _ => 0)).1 = some (-1) ∧
    (readOnce oneByte.bytes [⟨8, 2⟩] 1 (fun _ => 0)).1 = some 0 ∧
    (gaofsPwritev (fun _ => 0) [⟨8, 0⟩] 1 oneByte.bytes).1 = some (-1) ∧
    (writeOnce (fun _ => 0) [⟨8, 0⟩] 1 oneByte.bytes).1 = some 0 := by
  refine ⟨?_, ?_, ?_, ?_⟩ <;> decide

end Refinement

end GaoFS.VectorIo
