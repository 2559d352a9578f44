import GaoFS.GaofsFunctions
import GaoFS.Library.Columns

namespace GaoFS.Getdents

open Chunks Dirents GaofsFunctions ChunkStorage
open Library.NumberText Library.Wire Library.ByteFile Library.Columns

/-- The records of `getdents` and of `getdents64`. Both have `d_ino`, `d_off` and `d_reclen` at
0, 8 and 16. -/
inductive Layout where
  | linuxDirent
  | linuxDirent64
  deriving DecidableEq

/-- `offsetof(d_name)`. -/
def Layout.nameOff : Layout → Nat
  | .linuxDirent => 18
  | .linuxDirent64 => 19

/-- What a record needs behind the name. -/
def Layout.extra : Layout → Nat
  | .linuxDirent => 3
  | .linuxDirent64 => 1

def align8 (x : Nat) : Nat := (x + 7) / 8 * 8

def Layout.totalSize (l : Layout) (name : Bytes) : Nat := align8 (l.nameOff + name.length + l.extra)

/-- The type is the last byte of a record, or a field before the name. -/
def Layout.typeOff (l : Layout) (totalSize : Nat) : Nat :=
  match l with
  | .linuxDirent => totalSize - 1
  | .linuxDirent64 => 18

def dType : FileType → UInt8
  | .regular => 8
  | .directory => 4

structure OpenDir where
  path : Path
  entries : List (Bytes × FileType)

/-- The position is passed as an `unsigned int`. No entry is an exception of `at`. -/
def OpenDir.getdent (dir : OpenDir) (pos : Nat) : Option (Bytes × FileType) :=
  dir.entries[pos % 2 ^ 32]?

section Functions

variable (strHash : Bytes → UInt64) (l : Layout) (dir : OpenDir)

def fillRecord (pos : Nat) (de : Bytes × FileType) (start : Nat) (buf : Bytes) : Option Bytes := do
  let totalSize := l.totalSize de.1
  let buf ← poke start (leBytes 8 (strHash (dir.path ++ separator :: de.1)).toNat) buf
  let buf ← poke (start + 16) (leBytes 2 totalSize) buf
  let buf ← poke (start + l.typeOff totalSize) [dType de.2] buf
  let buf ← poke (start + l.nameOff) (cString de.1 ++ [0]) buf
  poke (start + 8) (leBytes 8 (pos + 1)) buf

/-- The loop, of at most `n` iterations. `buf` has as many bytes as the caller counts. -/
def fill : Nat → Nat → Nat → Bytes → Option (Nat × Nat × Bytes)
  | 0, pos, written, buf => some (pos, written, buf)
  | n + 1, pos, written, buf =>
    if pos < dir.entries.length then
      (dir.getdent pos).bind fun de =>
        if buf.length - written < l.totalSize de.1 then some (pos, written, buf)
        else (fillRecord strHash l dir pos de written buf).bind fun buf =>
          fill n (pos + 1) (written + l.totalSize de.1) buf
    else some (pos, written, buf)

structure Reply where
  ret : Int
  errno : Option Int32
  buf : Bytes

/-- `gaofs_getdents` and `gaofs_getdents64`, with the position afterwards. -/
def getdents (pos : Nat) (buf : Bytes) : Option (Reply × Nat) :=
  if dir.entries.length ≤ pos then some (⟨0, none, buf⟩, pos)
  else (fill strHash l dir (dir.entries.length - pos) pos 0 buf).map fun r =>
    if r.2.1 = 0 then (⟨-1, some EINVAL, r.2.2⟩, pos) else (⟨r.2.1, none, r.2.2⟩, r.1)

end Functions

/-- What a caller finds at the start of a record. -/
structure Rec where
  name : Bytes
  reclen : Nat
  deriving DecidableEq

/-- The records before `stop`, as a caller goes through them. -/
def records (l : Layout) (buf : Bytes) (stop : Nat) : Nat → Nat → List Rec
  | 0, _ => []
  | n + 1, start =>
    if start < stop then
      ⟨cString (buf.drop (start + l.nameOff)), wordAt 2 buf (start + 16)⟩ ::
        records l buf stop n (start + wordAt 2 buf (start + 16))
    else []

def Reply.records (l : Layout) (r : Reply) : List Rec :=
  Getdents.records l r.buf r.ret.toNat r.ret.toNat 0

/-- A call of one of the two functions, with the buffer that is passed. -/
structure Call where
  layout : Layout
  buf : Bytes
  count_le : buf.length ≤ 2147483647

/-- Calls one after the other on one open directory: the names that they bring. -/
def run (strHash : Bytes → UInt64) (dir : OpenDir) : Nat → List Call → Option (List Bytes × Nat)
  | pos, [] => some ([], pos)
  | pos, c :: cs =>
    (getdents strHash c.layout dir pos c.buf).bind fun r =>
      (run strHash dir r.2 cs).map fun rest => ((r.1.records c.layout).map Rec.name ++ rest.1, rest.2)

/-- A record that has room for its header, its name and its type. -/
structure Fits (l : Layout) (r : Rec) : Prop where
  aligned : 8 ∣ r.reclen
  name : l.nameOff + r.name.length + 1 ≤ r.reclen
  type : l.typeOff r.reclen < r.reclen
  apart : l.typeOff r.reclen < l.nameOff ∨ l.nameOff + r.name.length + 1 ≤ l.typeOff r.reclen

/-- What a call owes that finds the directory at `pos` and leaves it at `pos'`. -/
structure Answers (dir : OpenDir) (pos : Nat) (c : Call) (r : Reply) (pos' : Nat) : Prop where
  within : r.buf.length = c.buf.length ∧ r.ret ≤ c.buf.length
  total : 0 ≤ r.ret → r.ret = ((r.records c.layout).map Rec.reclen).sum
  fits : ∀ e ∈ r.records c.layout, Fits c.layout e
  refused : r.ret < 0 ↔ ∃ e, dir.entries[pos]? = some e ∧ c.buf.length < c.layout.totalSize e.1
  einval : r.ret < 0 → r.errno = some EINVAL ∧ pos' = pos
  ended : r.ret = 0 ↔ pos = dir.entries.length

/-- Whatever has been called so far, the names before the position have been delivered, and
the next call answers as it should. -/
def Streamed (strHash : Bytes → UInt64) (used : List Layout) (dir : OpenDir) : Prop :=
  ∀ calls : List Call, (∀ c ∈ calls, c.layout ∈ used) →
    ∃ names pos, run strHash dir 0 calls = some (names, pos) ∧
      names = (dir.entries.take pos).map Prod.fst ∧
      ∀ c : Call, c.layout ∈ used →
        ∃ r pos', getdents strHash c.layout dir pos c.buf = some (r, pos') ∧ Answers dir pos c r pos'

section Layouts

variable (l : Layout) (name : Bytes)

theorem align8_dvd (x : Nat) : 8 ∣ align8 x := Nat.dvd_mul_left 8 _

theorem le_align8 (x : Nat) : x ≤ align8 x := by
  rw [align8]
  omega

theorem nameOff_le_totalSize : l.nameOff + name.length + 1 ≤ l.totalSize name := by
  have h := le_align8 (l.nameOff + name.length + l.extra)
  rw [Layout.totalSize]
  cases l <;> simp only [Layout.extra] at h ⊢ <;> omega

theorem le_nameOff : 18 ≤ l.nameOff := by cases l <;> decide

/-- Where the type is, between the header and the end of the record but not in the name. -/
theorem typeOff_spec : 18 ≤ l.typeOff (l.totalSize name) ∧
    l.typeOff (l.totalSize name) < l.totalSize name ∧
    (l.typeOff (l.totalSize name) < l.nameOff ∨
      l.nameOff + name.length + 1 ≤ l.typeOff (l.totalSize name)) := by
  have h := le_align8 (l.nameOff + name.length + l.extra)
  rw [Layout.totalSize]
  cases l <;> simp only [Layout.extra, Layout.nameOff, Layout.typeOff] at h ⊢ <;> omega

theorem length_cString_le : (cString name).length ≤ name.length := (List.takeWhile_sublist _).length_le

end Layouts

section Record

variable (strHash : Bytes → UInt64) {l : Layout} {dir : OpenDir}

/-- A record of a name in the buffer, as far as a caller reads it. -/
structure RecordAt (l : Layout) (buf : Bytes) (start : Nat) (name : Bytes) : Prop where
  reclen : pread (start + 16) 2 buf = leBytes 2 (l.totalSize name)
  name : pread (start + l.nameOff) ((cString name).length + 1) buf = cString name ++ [0]

theorem RecordAt.of_frame {buf buf' : Bytes} {start : Nat} {name : Bytes} (h : RecordAt l buf start name)
    (hframe : ∀ p n, p + n ≤ start + l.totalSize name → pread p n buf' = pread p n buf) :
    RecordAt l buf' start name := by
  have hoff := le_nameOff l
  have hname := nameOff_le_totalSize l name
  have hlength := length_cString_le name
  exact ⟨(hframe _ _ (by omega)).trans h.reclen, (hframe _ _ (by omega)).trans h.name⟩

/-- A record is written inside its bytes, which are behind what has been written. -/
theorem fillRecord_spec (l : Layout) (dir : OpenDir) (pos : Nat) (de : Bytes × FileType) {start : Nat}
    {buf : Bytes} (h : start + l.totalSize de.1 ≤ buf.length) :
    ∃ buf', fillRecord strHash l dir pos de start buf = some buf' ∧ buf'.length = buf.length ∧
      RecordAt l buf' start de.1 ∧ ∀ p n, p + n ≤ start → pread p n buf' = pread p n buf := by
  have hoff := le_nameOff l
  have hname := nameOff_le_totalSize l de.1
  have hcstring := length_cString_le de.1
  obtain ⟨htype, htype', hapart⟩ := typeOff_spec l de.1
  generalize hino : leBytes 8 (strHash (dir.path ++ separator :: de.1)).toNat = ino
  generalize hlen : leBytes 2 (l.totalSize de.1) = reclen
  generalize hdoff : leBytes 8 (pos + 1) = doff
  have hino' : ino.length = 8 := hino ▸ length_leBytes 8 _
  have hlen' : reclen.length = 2 := hlen ▸ length_leBytes 2 _
  have hdoff' : doff.length = 8 := hdoff ▸ length_leBytes 8 _
  have htext : (cString de.1 ++ [0]).length = (cString de.1).length + 1 := List.length_append
  have h1 : start + ino.length ≤ buf.length := by omega
  have l1 := length_copyAt start ino buf h1
  generalize hb1 : copyAt start ino buf = b1 at l1
  have h2 : start + 16 + reclen.length ≤ b1.length := by omega
  have l2 := length_copyAt (start + 16) reclen b1 h2
  generalize hb2 : copyAt (start + 16) reclen b1 = b2 at l2
  have h3 : start + l.typeOff (l.totalSize de.1) + [dType de.2].length ≤ b2.length := by
    rw [List.length_singleton]
    omega
  have l3 := length_copyAt _ [dType de.2] b2 h3
  generalize hb3 : copyAt (start + l.typeOff (l.totalSize de.1)) [dType de.2] b2 = b3 at l3
  have h4 : start + l.nameOff + (cString de.1 ++ [0]).length ≤ b3.length := by omega
  have l4 := length_copyAt _ (cString de.1 ++ [0]) b3 h4
  generalize hb4 : copyAt (start + l.nameOff) (cString de.1 ++ [0]) b3 = b4 at l4
  have h5 : start + 8 + doff.length ≤ b4.length := by omega
  have l5 := length_copyAt (start + 8) doff b4 h5
  refine ⟨copyAt (start + 8) doff b4, ?_, by omega, ⟨?_, ?_⟩, fun p n hp => ?_⟩
  · simp only [fillRecord, hino, hlen, hdoff, Option.bind_eq_bind]
    rw [poke_eq h1, hb1, Option.bind_some, poke_eq h2, hb2, Option.bind_some, poke_eq h3, hb3,
      Option.bind_some, poke_eq h4, hb4, Option.bind_some, poke_eq h5]
  · rw [pread_copyAt_disjoint _ _ _ h5 _ _ (by omega), ← hb4,
      pread_copyAt_disjoint _ _ _ h4 _ _ (by omega), ← hb3,
      pread_copyAt_disjoint _ _ _ h3 _ _ (by omega), ← hb2]
    have hself := pread_copyAt_self _ _ _ h2
    rw [hlen'] at hself
    exact hself.trans hlen.symm
  · rw [pread_copyAt_disjoint _ _ _ h5 _ _ (by omega), ← hb4, ← htext, pread_copyAt_self _ _ _ h4]
  · rw [pread_copyAt_disjoint _ _ _ h5 _ _ (by omega), ← hb4,
      pread_copyAt_disjoint _ _ _ h4 _ _ (by omega), ← hb3,
      pread_copyAt_disjoint _ _ _ h3 _ _ (by omega), ← hb2,
      pread_copyAt_disjoint _ _ _ h2 _ _ (by omega), ← hb1,
      pread_copyAt_disjoint _ _ _ h1 _ _ (by omega)]

theorem drop_eq_of_pread {buf data : Bytes} {p : Nat} (h : pread p data.length buf = data) :
    buf.drop p = data ++ buf.drop (p + data.length) := by
  rw [← List.drop_drop, ← h, h]
  exact (List.take_append_drop data.length (buf.drop p)).symm.trans (congrArg (· ++ _) h)

theorem RecordAt.wordAt_reclen {buf : Bytes} {start : Nat} {name : Bytes} (h : RecordAt l buf start name)
    (hshort : l.totalSize name ≤ 65535) : wordAt 2 buf (start + 16) = l.totalSize name := by
  have hlength : (leBytes 2 (l.totalSize name)).length = 2 := length_leBytes 2 _
  have hreclen : pread (start + 16) (leBytes 2 (l.totalSize name)).length buf =
      leBytes 2 (l.totalSize name) := by
    rw [hlength]
    exact h.reclen
  exact wordAt_leBytes (drop_eq_of_pread hreclen) (by omega)

theorem RecordAt.cString_drop {buf : Bytes} {start : Nat} {name : Bytes} (h : RecordAt l buf start name) :
    cString (buf.drop (start + l.nameOff)) = cString name := by
  have hlength : (cString name ++ [0]).length = (cString name).length + 1 :=
    List.length_append
  have hname : pread (start + l.nameOff) (cString name ++ [0]).length buf =
      cString name ++ [0] := by
    rw [hlength]
    exact h.name
  rw [drop_eq_of_pread hname, List.append_assoc]
  exact cString_append (cString_clean name)

end Record

section Loop

variable (strHash : Bytes → UInt64) {l : Layout} {dir : OpenDir}

/-- The entry that the loop takes for the one at `i`. -/
def OpenDir.taken (dir : OpenDir) (i : Nat) : Bytes × FileType := (dir.getdent i).getD ([], .regular)

theorem getdent_eq {i : Nat} (h : i < dir.entries.length) :
    dir.getdent i = some (dir.taken i) ∧ dir.taken i ∈ dir.entries := by
  have hlt : i % 2 ^ 32 < dir.entries.length := (Nat.mod_le _ _).trans_lt h
  have hget : dir.getdent i = some (dir.entries[i % 2 ^ 32]) := List.getElem?_eq_getElem hlt
  rw [OpenDir.taken, hget]
  exact ⟨rfl, List.getElem_mem hlt⟩

variable (l dir) in
/-- The records of `k` entries from `pos` on lie side by side. -/
def Laid (buf : Bytes) : Nat → Nat → Nat → Nat → Prop
  | 0, _, start, stop => start = stop
  | k + 1, pos, start, stop =>
    RecordAt l buf start (dir.taken pos).1 ∧
      Laid buf k (pos + 1) (start + l.totalSize (dir.taken pos).1) stop

theorem fill_spec (l : Layout) (n pos written : Nat) {buf : Bytes} (hw : written ≤ buf.length)
    (hn : dir.entries.length ≤ pos + n) (hpos : pos ≤ dir.entries.length) :
    ∃ k written' buf', fill strHash l dir n pos written buf = some (pos + k, written', buf') ∧
      buf'.length = buf.length ∧ written' ≤ buf.length ∧ Laid l dir buf' k pos written written' ∧
      (∀ p m, p + m ≤ written → pread p m buf' = pread p m buf) ∧ pos + k ≤ dir.entries.length ∧
      (pos + k < dir.entries.length → buf.length < written' + l.totalSize (dir.taken (pos + k)).1) := by
  induction n generalizing pos written buf with
  | zero =>
    refine ⟨0, written, buf, rfl, rfl, hw, rfl, fun _ _ _ => rfl, hpos, fun h => ?_⟩
    exact absurd h (by omega)
  | succ n ih =>
    by_cases hlt : pos < dir.entries.length
    · have hget := (getdent_eq hlt).1
      by_cases hfull : buf.length - written < l.totalSize (dir.taken pos).1
      · refine ⟨0, written, buf, ?_, rfl, hw, rfl, fun _ _ _ => rfl, hpos, fun _ => by
          rw [Nat.add_zero]
          omega⟩
        rw [fill, if_pos hlt, hget, Option.bind_some, if_pos hfull, Nat.add_zero]
      · obtain ⟨buf₁, hrecord, hlen₁, hat, hframe₁⟩ := fillRecord_spec strHash l dir pos
          (dir.taken pos) (by omega : written + l.totalSize (dir.taken pos).1 ≤ buf.length)
        obtain ⟨k, written', buf', hfill, hlen, hle, hlaid, hframe, hend, hstop⟩ :=
          ih (pos + 1) (written + l.totalSize (dir.taken pos).1)
            (by omega : written + l.totalSize (dir.taken pos).1 ≤ buf₁.length) (by omega) hlt
        have hnext : pos + 1 + k = pos + (k + 1) := by omega
        rw [hnext] at hfill hend hstop
        rw [hlen₁] at hlen hle hstop
        refine ⟨k + 1, written', buf', ?_, hlen, hle, ⟨hat.of_frame hframe, hlaid⟩, fun p m hp => ?_,
          hend, hstop⟩
        · rw [fill, if_pos hlt, hget, Option.bind_some, if_neg hfull, hrecord, Option.bind_some, hfill]
        · rw [hframe p m (by omega), hframe₁ p m hp]
    · refine ⟨0, written, buf, ?_, rfl, hw, rfl, fun _ _ _ => rfl, hpos, fun h => absurd h hlt⟩
      rw [fill, if_neg hlt, Nat.add_zero]

variable (l dir) in
/-- What a caller finds of the entry at `i`. -/
def recOf (i : Nat) : Rec := ⟨cString (dir.taken i).1, l.totalSize (dir.taken i).1⟩

theorem records_of_laid {buf : Bytes} {k pos start stop : Nat} (h : Laid l dir buf k pos start stop)
    (hshort : ∀ i, pos ≤ i → i < pos + k → l.totalSize (dir.taken i).1 ≤ 65535) :
    stop = start + ((List.range' pos k).map fun i => (recOf l dir i).reclen).sum ∧
      ∀ n, k ≤ n → records l buf stop n start = (List.range' pos k).map (recOf l dir) := by
  induction k generalizing pos start with
  | zero =>
    obtain rfl : start = stop := h
    refine ⟨rfl, fun n _ => ?_⟩
    cases n with
    | zero => rfl
    | succ n => rw [records, if_neg (Nat.lt_irrefl start)]; rfl
  | succ k ih =>
    obtain ⟨hat, hrest⟩ := h
    obtain ⟨hstop, hrecords⟩ := ih hrest fun i hlo hhi => hshort i (by omega) (by omega)
    have hword := hat.wordAt_reclen (hshort pos le_rfl (by omega))
    have hpos := nameOff_le_totalSize l (dir.taken pos).1
    rw [List.range'_succ, List.map_cons, List.map_cons, List.sum_cons]
    have hreclen : (recOf l dir pos).reclen = l.totalSize (dir.taken pos).1 := rfl
    refine ⟨by rw [hstop, hreclen, Nat.add_assoc], fun n hn => ?_⟩
    obtain ⟨n, rfl⟩ := Nat.exists_eq_succ_of_ne_zero (Nat.ne_of_gt (Nat.lt_of_lt_of_le (Nat.succ_pos k) hn))
    have hlt : start < stop := by omega
    rw [records, if_pos hlt, hword, hat.cString_drop, hrecords n (Nat.le_of_succ_le_succ hn)]
    rfl

theorem fits_recOf (i : Nat) : Fits l (recOf l dir i) := by
  obtain ⟨_, htype, hapart⟩ := typeOff_spec l (dir.taken i).1
  have hname := nameOff_le_totalSize l (dir.taken i).1
  have hlength := length_cString_le (dir.taken i).1
  refine ⟨align8_dvd _, ?_, htype, hapart.imp_right fun h => ?_⟩
  · change l.nameOff + (cString (dir.taken i).1).length + 1 ≤ l.totalSize (dir.taken i).1
    omega
  · change l.nameOff + (cString (dir.taken i).1).length + 1 ≤ _
    exact le_trans (by omega) h

end Loop

section Calls

variable {strHash : Bytes → UInt64} {dir : OpenDir} {c : Call} {pos : Nat}

/-- What a call does: it ends, it refuses, or it brings `k` entries. -/
structure Brings (dir : OpenDir) (pos k : Nat) (c : Call) (r : Reply) : Prop where
  within : r.buf.length = c.buf.length ∧ r.ret ≤ c.buf.length
  le : pos + k ≤ dir.entries.length
  records : r.records c.layout = (List.range' pos k).map (recOf c.layout dir)
  total : 0 ≤ r.ret → r.ret = ((r.records c.layout).map Rec.reclen).sum
  refused : r.ret < 0 ↔ pos < dir.entries.length ∧ c.buf.length < c.layout.totalSize (dir.taken pos).1
  einval : r.ret < 0 → r.errno = some EINVAL ∧ k = 0
  ended : r.ret = 0 ↔ pos = dir.entries.length
  brings : 0 < r.ret → 0 < k

theorem getdents_brings (strHash : Bytes → UInt64) (hpos : pos ≤ dir.entries.length)
    (hshort : ∀ e ∈ dir.entries, c.layout.totalSize e.1 ≤ 65535) :
    ∃ r k, getdents strHash c.layout dir pos c.buf = some (r, pos + k) ∧ Brings dir pos k c r := by
  by_cases hend : dir.entries.length ≤ pos
  · obtain rfl : pos = dir.entries.length := le_antisymm hpos hend
    have hzero : ¬ (0 : Int) < 0 := by decide
    refine ⟨⟨0, none, c.buf⟩, 0, if_pos le_rfl, ⟨rfl, Int.natCast_nonneg _⟩, le_rfl, rfl, fun _ => rfl, ?_,
      fun h => absurd h hzero, iff_of_true rfl rfl, fun h => absurd h hzero⟩
    exact iff_of_false hzero fun h => absurd h.1 (Nat.lt_irrefl _)
  have hlt : pos < dir.entries.length := Nat.lt_of_not_le hend
  obtain ⟨k, written, buf, hfill, hlen, hle, hlaid, _, hk, hstop⟩ :=
    fill_spec strHash c.layout (dir.entries.length - pos) pos 0 (Nat.zero_le c.buf.length)
      (by omega) hpos
  have htaken : ∀ i, pos ≤ i → i < pos + k → c.layout.totalSize (dir.taken i).1 ≤ 65535 :=
    fun i _ hi => hshort _ (getdent_eq (by omega)).2
  obtain ⟨hwritten, hrecords⟩ := records_of_laid hlaid htaken
  rw [Nat.zero_add] at hwritten
  have hstep : ∀ i, 0 < (recOf c.layout dir i).reclen := fun i =>
    Nat.lt_of_lt_of_le (Nat.succ_pos _) (nameOff_le_totalSize c.layout (dir.taken i).1)
  have hcount : k ≤ written := by
    have hsum := List.length_le_sum_of_one_le ((List.range' pos k).map fun i => (recOf c.layout dir i).reclen)
      (List.forall_mem_map.mpr fun i _ => hstep i)
    rw [List.length_map, List.length_range'] at hsum
    omega
  rw [getdents, if_neg hend, hfill, Option.map_some]
  cases k with
  | zero =>
    have hzero : written = 0 := hwritten
    have hsmall := hstop hlt
    rw [hzero, Nat.zero_add, Nat.add_zero] at hsmall
    have hneg : (-1 : Int) < 0 := by decide
    refine ⟨⟨-1, some EINVAL, buf⟩, 0, by rw [if_pos hzero]; rfl, ⟨hlen, ?_⟩, hk, rfl,
      fun h => absurd hneg (Int.not_lt.mpr h), iff_of_true hneg ⟨hlt, hsmall⟩, fun _ => ⟨rfl, rfl⟩,
      iff_of_false (Int.ne_of_lt hneg) (Nat.ne_of_lt hlt), fun h => absurd h (Int.lt_asymm hneg)⟩
    exact (Int.le_of_lt hneg).trans (Int.natCast_nonneg c.buf.length)
  | succ k =>
    have hne : written ≠ 0 := by omega
    have hall : (Reply.mk written none buf).records c.layout =
        (List.range' pos (k + 1)).map (recOf c.layout dir) := hrecords written hcount
    have hfirst : c.layout.totalSize (dir.taken pos).1 ≤ written := by
      rw [hwritten, List.range'_succ, List.map_cons, List.sum_cons]
      exact Nat.le_add_right _ _
    refine ⟨⟨written, none, buf⟩, k + 1, by rw [if_neg hne], ⟨hlen, Int.ofNat_le.mpr hle⟩, hk, hall,
      fun _ => ?_, iff_of_false (Int.not_lt.mpr (Int.natCast_nonneg written)) fun h => ?_,
      fun h => absurd h (Int.not_lt.mpr (Int.natCast_nonneg written)),
      iff_of_false (Int.natCast_ne_zero.mpr hne) (Nat.ne_of_lt hlt), fun _ => Nat.succ_pos k⟩
    · rw [hall, List.map_map, hwritten]
      rfl
    · exact absurd h.2 (by omega)

theorem run_names (strHash : Bytes → UInt64) (hpos : pos ≤ dir.entries.length) {calls : List Call}
    (hshort : ∀ c ∈ calls, ∀ e ∈ dir.entries, c.layout.totalSize e.1 ≤ 65535) :
    ∃ k, run strHash dir pos calls =
        some ((List.range' pos k).map fun i => cString (dir.taken i).1, pos + k) ∧
      pos + k ≤ dir.entries.length := by
  induction calls generalizing pos with
  | nil => exact ⟨0, rfl, hpos⟩
  | cons c calls ih =>
    obtain ⟨hc, hcalls⟩ := List.forall_mem_cons.mp hshort
    obtain ⟨r, k, hr, hbrings⟩ := getdents_brings strHash hpos hc
    obtain ⟨m, hrun, hm⟩ := ih hbrings.le hcalls
    refine ⟨k + m, ?_, by rw [← Nat.add_assoc]; exact hm⟩
    rw [run, hr, Option.bind_some]
    dsimp only
    rw [hrun, Option.map_some, hbrings.records, List.map_map, ← Nat.add_assoc, ← List.range'_append_1,
      List.map_append]
    rfl

/-- A call whose buffer takes any record comes at least one entry further. -/
theorem run_advances (hpos : pos ≤ dir.entries.length)
    (hshort : ∀ e ∈ dir.entries, c.layout.totalSize e.1 ≤ 65535)
    (hroom : ∀ e ∈ dir.entries, c.layout.totalSize e.1 ≤ c.buf.length) (n : Nat) {names : List Bytes}
    {pos' : Nat} (h : run strHash dir pos (List.replicate n c) = some (names, pos')) :
    min (pos + n) dir.entries.length ≤ pos' := by
  induction n generalizing pos names with
  | zero =>
    obtain ⟨_, rfl⟩ := Prod.mk.inj (Option.some.inj h)
    exact Nat.min_le_left _ _
  | succ n ih =>
    obtain ⟨r, k, hr, hbrings⟩ := getdents_brings strHash hpos hshort
    rw [List.replicate_succ, run, hr, Option.bind_some] at h
    obtain ⟨rest, hrest, hres⟩ := Option.map_eq_some_iff.mp h
    obtain ⟨_, rfl⟩ := Prod.mk.inj hres
    have hle := ih hbrings.le hrest
    by_cases hend : pos = dir.entries.length
    · omega
    · have hlt : pos < dir.entries.length := by omega
      have hret : ¬ r.ret < 0 := fun hneg =>
        absurd (hbrings.refused.mp hneg).2 (Nat.not_lt.mpr (hroom _ (getdent_eq hlt).2))
      have hne : r.ret ≠ 0 := fun hzero => hend (hbrings.ended.mp hzero)
      have hk : 0 < k := hbrings.brings (by omega)
      omega

end Calls

section Result

variable {strHash : Bytes → UInt64} {used : List Layout} {dir : OpenDir}

/-- Every position has an entry whose name is text, and it is the entry there. -/
def Found (dir : OpenDir) : Prop :=
  ∀ i < dir.entries.length,
    (dir.entries[i % 2 ^ 32]?).map (fun e => cString e.1) = (dir.entries[i]?).map Prod.fst

theorem Found.cString_eq (h : Found dir) {i : Nat} {e : Bytes × FileType} (he : dir.entries[i]? = some e) :
    cString (dir.taken i).1 = e.1 := by
  have hlt : i < dir.entries.length := (List.getElem?_eq_some_iff.mp he).1
  have hfound := h i hlt
  rw [he, show dir.entries[i % 2 ^ 32]? = some (dir.taken i) from (getdent_eq hlt).1] at hfound
  exact Option.some.inj hfound

/-- The entry taken is found where it stands, so that its own name is text. -/
theorem Found.taken_eq (h : Found dir) {i : Nat} {e : Bytes × FileType} (he : dir.entries[i]? = some e) :
    (dir.taken i).1 = e.1 := by
  have hlt : i < dir.entries.length := (List.getElem?_eq_some_iff.mp he).1
  have hself : dir.taken (i % 2 ^ 32) = dir.taken i := by
    rw [OpenDir.taken, OpenDir.taken, OpenDir.getdent, OpenDir.getdent, Nat.mod_mod]
  have hclean := h.cString_eq (i := i % 2 ^ 32) (getdent_eq hlt).1
  rw [hself] at hclean
  exact hclean.symm.trans (h.cString_eq he)

theorem Found.names (h : Found dir) {k : Nat} (hk : k ≤ dir.entries.length) :
    (List.range' 0 k).map (fun i => cString (dir.taken i).1) = (dir.entries.take k).map Prod.fst := by
  apply List.ext_getElem?
  intro i
  by_cases hi : i < k
  · have he := List.getElem?_eq_getElem (hi.trans_le hk)
    have hrange : (List.range' 0 k)[i]? = some i := by
      rw [List.getElem?_range' hi, Nat.one_mul, Nat.zero_add]
    rw [List.getElem?_map, List.getElem?_map, hrange, List.getElem?_take_of_lt hi, he]
    exact congrArg some (h.cString_eq he)
  · rw [List.getElem?_eq_none, List.getElem?_eq_none]
    · rw [List.length_map, List.length_take]
      omega
    · rw [List.length_map, List.length_range']
      omega

theorem Brings.answers {pos k : Nat} {c : Call} {r : Reply} (hb : Brings dir pos k c r)
    (h : Found dir) : Answers dir pos c r (pos + k) := by
  have hrefused : r.ret < 0 ↔ ∃ e, dir.entries[pos]? = some e ∧ c.buf.length < c.layout.totalSize e.1 := by
    rw [hb.refused]
    have hsize : ∀ {e : Bytes × FileType}, dir.entries[pos]? = some e →
        c.layout.totalSize (dir.taken pos).1 = c.layout.totalSize e.1 := fun he => by
      rw [h.taken_eq he]
    constructor
    · rintro ⟨hlt, hsmall⟩
      have he := List.getElem?_eq_getElem hlt
      exact ⟨_, he, hsize he ▸ hsmall⟩
    · rintro ⟨e, he, hsmall⟩
      exact ⟨(List.getElem?_eq_some_iff.mp he).1, (hsize he).symm ▸ hsmall⟩
  refine ⟨hb.within, hb.total, fun e he => ?_, hrefused, fun hneg => ?_, hb.ended⟩
  · rw [hb.records] at he
    obtain ⟨i, _, rfl⟩ := List.mem_map.mp he
    exact fits_recOf i
  · obtain ⟨herr, rfl⟩ := hb.einval hneg
    exact ⟨herr, Nat.add_zero pos⟩

theorem exists_call (l : Layout) : ∃ c : Call, c.layout = l ∧ c.buf.length = 65535 := by
  have hlength : (List.replicate 65535 (0 : UInt8)).length = 65535 := List.length_replicate
  exact ⟨⟨l, List.replicate 65535 0, by omega⟩, rfl, hlength⟩

theorem found_of_streamed (hused : used ≠ [])
    (hshort : ∀ l ∈ used, ∀ e ∈ dir.entries, l.totalSize e.1 ≤ 65535)
    (h : Streamed strHash used dir) : Found dir := by
  obtain ⟨l, hl⟩ := List.exists_mem_of_ne_nil used hused
  -- One call for each entry, with room for any of them, goes through the whole directory.
  obtain ⟨c, rfl, hc⟩ := exists_call l
  have hroom : ∀ e ∈ dir.entries, c.layout.totalSize e.1 ≤ c.buf.length := fun e he =>
    (hshort c.layout hl e he).trans hc.ge
  have hcalls : ∀ x ∈ List.replicate dir.entries.length c, x.layout ∈ used := fun x hx => by
    rw [List.eq_of_mem_replicate hx]
    exact hl
  obtain ⟨names, pos, hrun, hnames, _⟩ := h _ hcalls
  obtain ⟨k, hrun', hk⟩ := run_names strHash (Nat.zero_le dir.entries.length)
    (fun x hx => hshort x.layout (hcalls x hx))
  have hfar := run_advances (Nat.zero_le _) (hshort c.layout hl) hroom _ hrun
  rw [hrun] at hrun'
  obtain ⟨rfl, rfl⟩ := Prod.mk.inj (Option.some.inj hrun')
  intro i hi
  have hat := congrArg (fun ns => ns[i]?) hnames
  have hik : i < k := by omega
  rw [List.getElem?_map, List.getElem?_map, List.getElem?_range' hik, List.getElem?_take_of_lt (by omega),
    Nat.one_mul, Nat.zero_add] at hat
  rw [← hat, show dir.entries[i % 2 ^ 32]? = some (dir.taken i) from (getdent_eq hi).1]
  rfl

/-- A directory is streamed exactly if its names are text and the position, cut to 32 bits,
still leads to the name it stands for. -/
theorem streamed_iff (strHash : Bytes → UInt64) (hused : used ≠ [])
    (hshort : ∀ l ∈ used, ∀ e ∈ dir.entries, l.totalSize e.1 ≤ 65535) :
    Streamed strHash used dir ↔ Found dir := by
  constructor
  · exact found_of_streamed hused hshort
  · intro h calls hcalls
    obtain ⟨k, hrun, hk⟩ := run_names strHash (Nat.zero_le dir.entries.length)
      (fun x hx => hshort x.layout (hcalls x hx))
    rw [Nat.zero_add] at hrun hk
    refine ⟨_, k, hrun, h.names hk, fun c hc => ?_⟩
    obtain ⟨r, m, hr, hbrings⟩ := getdents_brings strHash hk (hshort c.layout hc)
    exact ⟨r, k + m, hr, hbrings.answers h⟩

def twoEntries : OpenDir where
  path := [47, 100]
  entries := [([97], .regular), ([98, 99], .directory)]

theorem twoEntries_streamed :
    (∀ l ∈ [Layout.linuxDirent, .linuxDirent64], ∀ e ∈ twoEntries.entries, l.totalSize e.1 ≤ 65535) ∧
      Streamed (fun _ => 0) [.linuxDirent, .linuxDirent64] twoEntries := by
  have hshort : ∀ l ∈ [Layout.linuxDirent, .linuxDirent64], ∀ e ∈ twoEntries.entries,
      l.totalSize e.1 ≤ 65535 := by decide
  refine ⟨hshort, (streamed_iff (fun _ => 0) (by decide) hshort).mpr fun i hi => ?_⟩
  have hcases : i = 0 ∨ i = 1 := Nat.le_one_iff_eq_zero_or_eq_one.mp (Nat.le_of_lt_succ hi)
  obtain rfl | rfl := hcases
  · rfl
  · rfl

/-- One entry more than an `unsigned int` counts. -/
def longDir : OpenDir where
  path := [47, 100]
  entries := List.replicate (2 ^ 32) ([97], .regular) ++ [([98], .regular)]

/-- Behind the last position that fits the first entry comes once more. -/
theorem longDir_not_streamed :
    (∀ e ∈ longDir.entries, Layout.linuxDirent.totalSize e.1 ≤ 65535) ∧
      ¬ Streamed (fun _ => 0) [.linuxDirent] longDir := by
  have hshort : ∀ e ∈ longDir.entries, Layout.linuxDirent.totalSize e.1 ≤ 65535 := by
    intro e he
    obtain hrepeated | hlast := List.mem_append.mp he
    · rw [List.eq_of_mem_replicate hrepeated]
      decide
    · rw [List.mem_singleton.mp hlast]
      decide
  refine ⟨hshort, fun h => ?_⟩
  have hfound := found_of_streamed (by decide) (List.forall_mem_singleton.mpr hshort) h
  have hlength : (List.replicate (2 ^ 32) (([97] : Bytes), FileType.regular)).length = 2 ^ 32 :=
    List.length_replicate
  have hfirst : longDir.entries[2 ^ 32 % 2 ^ 32]? = some ([97], .regular) := by
    rw [Nat.mod_self, longDir, List.getElem?_append_left (by omega), List.getElem?_replicate,
      if_pos (by decide)]
  have hlast : longDir.entries[2 ^ 32]? = some ([98], .regular) := by
    rw [longDir, List.getElem?_append_right hlength.le, hlength, Nat.sub_self]
    rfl
  have hname := hfound (2 ^ 32) (by
    rw [longDir, List.length_append, hlength]
    exact Nat.lt_succ_self _)
  rw [hfirst, hlast] at hname
  exact absurd hname (by decide)

end Result

end GaoFS.Getdents
