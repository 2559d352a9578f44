import GaoFS.DataOps

namespace GaoFS.DaemonTruncate

open Arithmetic Chunks Replies ChunkStorage FirstChunkRecord DataOps
open Library.NumberText Library.ByteFile

def ownDir (rootPath : Bytes) (f : FilePath) : Bytes := rootPath ++ separator :: getChunksDir f.path

theorem chunkDir_ownDir (rootPath : Bytes) (f : FilePath) :
    chunkDir rootPath f.path = some (ownDir rootPath f) := by
  obtain ⟨dir, hdir⟩ := exists_chunkDir rootPath f
  rw [hdir]
  rw [chunkDir, if_pos (isAbsolute_path f.toCanonicalPath), absolute] at hdir
  split at hdir
  · exact hdir.symm
  · cases hdir

section Store

variable (l : Local) (dir : Bytes)

/-- The bytes of a chunk as the daemon stores them, those behind a zero byte of the
record too. -/
def held (c : UInt64) : Option Bytes :=
  if c = 0 then l.firstChunk.map rawContent else chunkFile l.fs dir c

def byteAt (c : UInt64) (i : Nat) : Option UInt8 := (held l dir c).bind (·[i]?)

end Store

def OnHost (strHash : Bytes → UInt64) (f : FilePath) (hostId hostSize : UInt64) (c : UInt64) : Prop :=
  (locateDataSized strHash f.path c.toUInt32 hostSize.toUInt32).map UInt32.toUInt64 = some hostId

instance (strHash : Bytes → UInt64) (f : FilePath) (hostId hostSize c : UInt64) :
    Decidable (OnHost strHash f hostId hostSize c) :=
  inferInstanceAs (Decidable (_ = _))

/-- What a daemon can have of a file: a record with a content and files for chunks
from 1, none of them longer than a chunk, and all hashed to the daemon. -/
structure LocalState (strHash : Bytes → UInt64) (rootPath : Bytes) (f : FilePath)
    (hostId hostSize : UInt64) where
  store : Local
  record : ∀ raw, store.firstChunk = some raw → ∃ content, raw = recordOf content
  noFile : chunkFile store.fs (ownDir rootPath f) 0 = none
  length_le : ∀ c b, held store (ownDir rootPath f) c = some b → b.length ≤ C
  home : ∀ c b, held store (ownDir rootPath f) c = some b → OnHost strHash f hostId hostSize c

/-- No byte from the new end on, the bytes before it as they were, no chunk more than
there was, the chunks that begin before the end still there, a record that holds its
content, and the same directories. -/
structure Exact (dir : Bytes) (n : Nat) (l l' : Local) : Prop where
  dropped : ∀ c i, n ≤ c.toNat * C + i → byteAt l' dir c i = none
  kept : ∀ c i, c.toNat * C + i < n → byteAt l' dir c i = byteAt l dir c i
  created : ∀ c, held l dir c = none → held l' dir c = none
  present : ∀ c, c.toNat * C < n → (held l' dir c).isSome = (held l dir c).isSome
  record : l'.firstChunk = (held l' dir 0).map recordOf
  directory : (l'.fs dir).isSome = (l.fs dir).isSome
  others : ∀ d, d ≠ dir → l'.fs d = l.fs d

section Truncate

variable (strHash : Bytes → UInt64) (rootPath : Bytes) (f : FilePath) (hostId hostSize : UInt64)

def TruncatesExactly (s : LocalState strHash rootPath f hostId hostSize) (size : UInt64) : Prop :=
  ∃ l', truncateFileAbt rootPath f.path s.store strHash size hostId hostSize = some (0, l') ∧
    Exact (ownDir rootPath f) size.toNat s.store l'

/-- The daemon has a directory to scan, and a chunk to cut where it has to cut one: a
record without a zero byte before the cut, or a chunk file that reaches it. -/
structure Cuttable (s : LocalState strHash rootPath f hostId hostSize) (size : UInt64) : Prop where
  hosts : hostSize.toUInt32 ≠ 0
  directory : (s.store.fs (ownDir rootPath f)).isSome
  boundary : OnHost strHash f hostId hostSize (blockIndex size chunksize) → size.toNat % C ≠ 0 →
    ∃ b, held s.store (ownDir rootPath f) (blockIndex size chunksize) = some b ∧
      if blockIndex size chunksize = 0 then ∀ p, p < size.toNat % C → b[p]? ≠ some 0
      else size.toNat % C ≤ b.length

end Truncate

section Trim

variable {rootPath dir : Bytes} {path : Path}

/-- What the scan leaves. -/
def trimmed (dir : Bytes) (l : Local) (start : UInt64) : Local :=
  { l with
    fs := Function.update l.fs dir
      ((l.fs dir).map fun files id => if start ≤ id then none else files id) }

theorem fs_trimmed (l : Local) (start : UInt64) : (trimmed dir l start).fs dir =
    (l.fs dir).map fun files id => if start ≤ id then none else files id := Function.update_self _ _ _

theorem held_zero (l : Local) : held l dir 0 = l.firstChunk.map rawContent := if_pos rfl

theorem held_of_ne (l : Local) {c : UInt64} (h : c ≠ 0) : held l dir c = chunkFile l.fs dir c :=
  if_neg h

theorem held_trimmed (l : Local) (start c : UInt64) :
    held (trimmed dir l start) dir c = if c ≠ 0 ∧ start ≤ c then none else held l dir c := by
  by_cases h0 : c = 0
  · subst h0
    rw [if_neg fun h => h.1 rfl, held_zero, held_zero]
    rfl
  · rw [held_of_ne _ h0, held_of_ne _ h0, chunkFile, chunkFile, fs_trimmed]
    cases l.fs dir with
    | none => simp
    | some files => simp [h0]

theorem trimChunkSpace_eq (hdir : chunkDir rootPath path = some dir) (l : Local) (start : UInt64) :
    trimChunkSpace rootPath path l.fs start =
      some (if (l.fs dir).isSome then .ok () else .error .stdException, (trimmed dir l start).fs) := by
  rw [trimChunkSpace, hdir, Option.map_some, trimmed]
  cases h : l.fs dir with
  | none =>
    have hsame : Function.update l.fs dir none = l.fs := by rw [← h, Function.update_eq_self]
    simp [hsame]
  | some files => simp

end Trim

section Boundary

variable {rootPath dir : Bytes} {path : Path} {l : Local} {pad : UInt64}

theorem truncateBoundary_aligned (c : UInt64) : truncateBoundary rootPath path l c 0 =
    some (if c = 0 then (.ok (c + 1), { l with firstChunk := none }) else (.ok c, l)) := by
  rw [truncateBoundary]
  split <;> simp

theorem truncateBoundary_record (hpad : pad ≠ 0) : truncateBoundary rootPath path l 0 pad =
    (getFirstChunk l).map fun
      | .ok x => (.ok 1, putFirstChunk l (x.content.take pad.toNat))
      | .error e => (.error e, l) := by
  rw [truncateBoundary, if_pos rfl, if_pos hpad]
  rfl

theorem truncateBoundary_file (hdir : chunkDir rootPath path = some dir) {c : UInt64} (hc : c ≠ 0)
    (hpad : 0 < pad.toNat) (hle : pad.toNat ≤ C) : truncateBoundary rootPath path l c pad =
    some (match held l dir c with
      | none => (.error (.chunkStorageException ENOENT), l)
      | some b => (.ok (c + 1), { l with fs := putChunkFile l.fs dir c (resize 0 pad.toNat b) })) := by
  have hne : pad ≠ 0 := by
    rintro rfl
    exact Nat.lt_irrefl _ hpad
  rw [truncateBoundary, if_neg hc, if_pos hne, truncateChunkFile, if_pos ⟨hpad, hle⟩, hdir,
    held_of_ne l hc]
  cases h : chunkFile l.fs dir c <;> simp [h, Except.map]

theorem take_cString_iff (b : Bytes) (n : Nat) :
    (∀ i, i < n → ((cString b).take n)[i]? = b[i]?) ↔ ∀ p, p < n → b[p]? ≠ some 0 := by
  constructor
  · intro h p hp hzero
    have hkept := h p hp
    rw [hzero, List.getElem?_take_of_lt hp] at hkept
    have hlen : p < (cString b).length := (List.getElem?_eq_some_iff.mp hkept).1
    exact ((lt_length_cString_iff b p).mp hlen).2 p le_rfl hzero
  · intro h i hi
    rw [List.getElem?_take_of_lt hi]
    by_cases hlen : i < b.length
    · refine getElem?_cString ((lt_length_cString_iff b i).mpr ⟨hlen, fun p hp => h p ?_⟩)
      omega
    · have hle : (cString b).length ≤ b.length := (List.takeWhile_sublist _).length_le
      rw [List.getElem?_eq_none (by omega), List.getElem?_eq_none (by omega)]

theorem take_cString_eq {b : Bytes} {n : Nat} (h : ∀ p, p < n → b[p]? ≠ some 0) :
    (cString b).take n = b.take n := by
  apply List.ext_getElem?
  intro i
  by_cases hi : i < n
  · rw [(take_cString_iff b n).mpr h i hi, List.getElem?_take_of_lt hi]
  · rw [List.getElem?_take_eq_none (by omega), List.getElem?_take_eq_none (by omega)]

end Boundary

section Exactness

variable {dir : Bytes} {l m : Local} {size start : UInt64}

/-- Every chunk ends where the file does, or it is gone. -/
theorem held_cut (hlen : ∀ c b, held l dir c = some b → b.length ≤ C)
    (hsame : ∀ c, c ≠ blockIndex size chunksize → held m dir c = held l dir c)
    (hstart : start.toNat = size.toNat / C ∨ start.toNat = size.toNat / C + 1)
    (hcut : held (trimmed dir m start) dir (blockIndex size chunksize) =
      if size.toNat % C = 0 then none
      else (held l dir (blockIndex size chunksize)).map (·.take (size.toNat % C)))
    (c : UInt64) : held (trimmed dir m start) dir c =
      if c.toNat * C < size.toNat then (held l dir c).map (·.take (size.toNat - c.toNat * C))
      else none := by
  have hmod := Nat.div_add_mod size.toNat C
  rw [Nat.mul_comm] at hmod
  have hpad := Nat.mod_lt size.toNat C_pos
  have hindex : (blockIndex size chunksize).toNat = size.toNat / C := toNat_chunkIndex size
  by_cases hc : c = blockIndex size chunksize
  · rw [hc, hcut, hindex]
    by_cases hzero : size.toNat % C = 0
    · rw [if_pos hzero, if_neg (by omega)]
    · have hrest : size.toNat - size.toNat / C * C = size.toNat % C := by omega
      rw [if_neg hzero, if_pos (by omega), hrest]
  · have hne : c.toNat ≠ size.toNat / C := fun he => hc (UInt64.toNat_inj.mp (he.trans hindex.symm))
    rw [held_trimmed, hsame c hc]
    by_cases hbefore : c.toNat < size.toNat / C
    · have hle := Nat.mul_le_mul_right C (Nat.succ_le_of_lt hbefore)
      rw [Nat.succ_mul] at hle
      have hlow : ¬ (c ≠ 0 ∧ start ≤ c) := by
        rintro ⟨-, hge⟩
        rw [UInt64.le_iff_toNat_le] at hge
        omega
      rw [if_neg hlow, if_pos (by omega)]
      cases hb : held l dir c with
      | none => rfl
      | some b =>
        have hfit := hlen c b hb
        rw [Option.map_some, List.take_of_length_le (by omega)]
    · have hle := Nat.mul_le_mul_right C (show size.toNat / C + 1 ≤ c.toNat by omega)
      rw [Nat.succ_mul] at hle
      have hhigh : c ≠ 0 ∧ start ≤ c := by
        constructor
        · rintro rfl
          rw [UInt64.toNat_zero] at hbefore hne
          omega
        · rw [UInt64.le_iff_toNat_le]
          omega
      rw [if_pos hhigh, if_neg (by omega)]

theorem exact_of_held {l' : Local} {n : Nat}
    (hheld : ∀ c, held l' dir c =
      if c.toNat * C < n then (held l dir c).map (·.take (n - c.toNat * C)) else none)
    (hrecord : l'.firstChunk = (held l' dir 0).map recordOf)
    (hdirectory : (l'.fs dir).isSome = (l.fs dir).isSome)
    (hothers : ∀ d, d ≠ dir → l'.fs d = l.fs d) : Exact dir n l l' where
  dropped c i hi := by
    rw [byteAt, hheld]
    split
    · cases held l dir c with
      | none => rfl
      | some b =>
        have hshort := List.length_take_le (n - c.toNat * C) b
        have hle : (b.take (n - c.toNat * C)).length ≤ i := by omega
        rw [Option.map_some, Option.bind_some, List.getElem?_eq_none hle]
    · rfl
  kept c i hi := by
    have hbefore : c.toNat * C < n := Nat.lt_of_le_of_lt (Nat.le_add_right _ _) hi
    rw [byteAt, byteAt, hheld, if_pos hbefore]
    cases held l dir c with
    | none => rfl
    | some b =>
      rw [Option.map_some, Option.bind_some, Option.bind_some, List.getElem?_take_of_lt (by omega)]
  created c hc := by
    rw [hheld, hc]
    split <;> rfl
  present c hc := by rw [hheld, if_pos hc, Option.isSome_map]
  record := hrecord
  directory := hdirectory
  others := hothers

end Exactness

section Result

variable {strHash : Bytes → UInt64} {rootPath : Bytes} {f : FilePath} {hostId hostSize : UInt64}
  {s : LocalState strHash rootPath f hostId hostSize} {size : UInt64}

/-- The chunk that is cut and the first one to delete, on this host or away from it. -/
def boundary (s : LocalState strHash rootPath f hostId hostSize) (size : UInt64) :
    Option (Except Failure UInt64 × Local) :=
  if OnHost strHash f hostId hostSize (blockIndex size chunksize) then
    truncateBoundary rootPath f.path s.store (blockIndex size chunksize) (blockOverrun size chunksize)
  else some (.ok (blockIndex size chunksize), s.store)

theorem truncateFile_boundary (h : hostSize.toUInt32 ≠ 0) :
    truncateFile rootPath f.path s.store strHash size hostId hostSize = (boundary s size).bind fun
      | (.error e, l) => some (.error e, l)
      | (.ok start, l) => (trimChunkSpace rootPath f.path l.fs start).map fun r =>
        (r.1, { l with fs := r.2 }) := by
  have hhost : locateDataSized strHash f.path (blockIndex size chunksize).toUInt32 hostSize.toUInt32 =
      some (SimpleHashDistributor.locateData ⟨strHash, hostSize.toUInt32, h⟩ f.path
        (blockIndex size chunksize).toUInt32) := dif_pos h
  have hon : OnHost strHash f hostId hostSize (blockIndex size chunksize) ↔
      (SimpleHashDistributor.locateData ⟨strHash, hostSize.toUInt32, h⟩ f.path
        (blockIndex size chunksize).toUInt32).toUInt64 = hostId := by
    rw [OnHost, hhost, Option.map_some, Option.some.injEq]
  have hboundary : boundary s size = _ := if_congr hon rfl rfl
  rw [hboundary]
  dsimp only [truncateFile]
  rw [hhost]
  rfl

theorem abt_of_ok (h : hostSize.toUInt32 ≠ 0) {start : UInt64} {m : Local}
    (hm : boundary s size = some (.ok start, m)) :
    truncateFileAbt rootPath f.path s.store strHash size hostId hostSize =
      some (if (m.fs (ownDir rootPath f)).isSome then 0 else ( EIO : Int32),
        trimmed (ownDir rootPath f) m start) := by
  rw [truncateFileAbt, truncateFile_boundary h, hm, Option.bind_some]
  dsimp only
  rw [trimChunkSpace_eq (chunkDir_ownDir rootPath f)]
  cases (m.fs (ownDir rootPath f)).isSome <;> rfl

theorem abt_of_error (h : hostSize.toUInt32 ≠ 0) {e : Failure} {m : Local}
    (hm : boundary s size = some (.error e, m)) :
    truncateFileAbt rootPath f.path s.store strHash size hostId hostSize = some (truncateErr e, m) := by
  rw [truncateFileAbt, truncateFile_boundary h, hm]
  rfl

/-- Without an error at the boundary everything hangs on the directory and on the cut. -/
theorem exactly_of_ok (h : hostSize.toUInt32 ≠ 0) {start : UInt64} {m : Local}
    (hm : boundary s size = some (.ok start, m))
    (hdirectory : (m.fs (ownDir rootPath f)).isSome = (s.store.fs (ownDir rootPath f)).isSome) :
    TruncatesExactly strHash rootPath f hostId hostSize s size ↔
      (s.store.fs (ownDir rootPath f)).isSome ∧
        Exact (ownDir rootPath f) size.toNat s.store (trimmed (ownDir rootPath f) m start) := by
  rw [TruncatesExactly, abt_of_ok h hm, hdirectory]
  cases (s.store.fs (ownDir rootPath f)).isSome with
  | false =>
    constructor
    · rintro ⟨l', hl', -⟩
      exact absurd (Prod.mk.inj (Option.some.inj hl')).1 (by decide)
    · rintro ⟨hfalse, -⟩
      cases hfalse
  | true =>
    constructor
    · rintro ⟨l', hl', hexact⟩
      rw [(Prod.mk.inj (Option.some.inj hl')).2]
      exact ⟨rfl, hexact⟩
    · rintro ⟨-, hexact⟩
      exact ⟨_, rfl, hexact⟩

theorem not_exactly_of_error (h : hostSize.toUInt32 ≠ 0) {e : Failure} {m : Local}
    (hm : boundary s size = some (.error e, m)) (he : truncateErr e ≠ 0) :
    ¬ TruncatesExactly strHash rootPath f hostId hostSize s size := by
  rintro ⟨l', hl', -⟩
  rw [abt_of_error h hm] at hl'
  exact he (Prod.mk.inj (Option.some.inj hl')).1

theorem firstChunk_eq (s : LocalState strHash rootPath f hostId hostSize) :
    s.store.firstChunk = (held s.store (ownDir rootPath f) 0).map recordOf := by
  rw [held_zero]
  cases hraw : s.store.firstChunk with
  | none => rfl
  | some raw =>
    obtain ⟨content, rfl⟩ := s.record raw hraw
    rw [Option.map_some, Option.map_some, rawContent_recordOf]

theorem exact_of_cut {start : UInt64} {m : Local}
    (hsame : ∀ c, c ≠ blockIndex size chunksize →
      held m (ownDir rootPath f) c = held s.store (ownDir rootPath f) c)
    (hstart : start.toNat = size.toNat / C ∨ start.toNat = size.toNat / C + 1)
    (hcut : held (trimmed (ownDir rootPath f) m start) (ownDir rootPath f) (blockIndex size chunksize) =
      if size.toNat % C = 0 then none
      else (held s.store (ownDir rootPath f) (blockIndex size chunksize)).map
        (·.take (size.toNat % C)))
    (hrecord : m.firstChunk = (held m (ownDir rootPath f) 0).map recordOf)
    (hdirectory : (m.fs (ownDir rootPath f)).isSome = (s.store.fs (ownDir rootPath f)).isSome)
    (hothers : ∀ d, d ≠ ownDir rootPath f → m.fs d = s.store.fs d) :
    Exact (ownDir rootPath f) size.toNat s.store (trimmed (ownDir rootPath f) m start) := by
  refine exact_of_held (held_cut s.length_le hsame hstart hcut) ?_ ?_ fun d hd => ?_
  · rw [held_trimmed, if_neg fun h => h.1 rfl]
    exact hrecord
  · rw [fs_trimmed, Option.isSome_map, hdirectory]
  · exact (Function.update_of_ne hd _ _).trans (hothers d hd)

theorem exactly_away (h : hostSize.toUInt32 ≠ 0)
    (haway : ¬ OnHost strHash f hostId hostSize (blockIndex size chunksize)) :
    TruncatesExactly strHash rootPath f hostId hostSize s size ↔
      (s.store.fs (ownDir rootPath f)).isSome := by
  have hnone : held s.store (ownDir rootPath f) (blockIndex size chunksize) = none :=
    Option.eq_none_iff_forall_not_mem.mpr fun b hb => haway (s.home _ b hb)
  rw [exactly_of_ok h (if_neg haway) rfl, and_iff_left]
  refine exact_of_cut (fun c _ => rfl) (.inl (toNat_chunkIndex size)) ?_ (firstChunk_eq s) rfl
    fun d _ => rfl
  rw [held_trimmed, hnone, ite_self, Option.map_none, ite_self]

theorem exactly_aligned (h : hostSize.toUInt32 ≠ 0)
    (hon : OnHost strHash f hostId hostSize (blockIndex size chunksize)) (hpad : size.toNat % C = 0) :
    TruncatesExactly strHash rootPath f hostId hostSize s size ↔
      (s.store.fs (ownDir rootPath f)).isSome := by
  have hzero : blockOverrun size chunksize = 0 :=
    UInt64.toNat_inj.mp ((toNat_chunkOverrun size).trans hpad)
  have hindex : (blockIndex size chunksize).toNat = size.toNat / C := toNat_chunkIndex size
  have hboundary : boundary s size = some (if blockIndex size chunksize = 0
      then (.ok (blockIndex size chunksize + 1), { s.store with firstChunk := none })
      else (.ok (blockIndex size chunksize), s.store)) := by
    rw [boundary, if_pos hon, hzero, truncateBoundary_aligned]
  by_cases h0 : blockIndex size chunksize = 0
  · rw [if_pos h0] at hboundary
    rw [exactly_of_ok h hboundary rfl, and_iff_left]
    have hcut : ∀ l : Local, l.firstChunk = none → held l (ownDir rootPath f) 0 = none := by
      intro l hl
      rw [held_zero, hl, Option.map_none]
    refine exact_of_cut (fun c hc => ?_) (.inr ?_) ?_ ?_ rfl fun d _ => rfl
    · rw [h0] at hc
      rw [held_of_ne _ hc, held_of_ne _ hc]
    · rw [h0] at hindex ⊢
      rw [← hindex]
      rfl
    · rw [if_pos hpad, h0]
      exact hcut _ rfl
    · rw [hcut _ rfl]
      rfl
  · rw [if_neg h0] at hboundary
    rw [exactly_of_ok h hboundary rfl, and_iff_left]
    refine exact_of_cut (fun c _ => rfl) (.inl hindex) ?_ (firstChunk_eq s) rfl fun d _ => rfl
    rw [held_trimmed, if_pos ⟨h0, UInt64.le_refl _⟩, if_pos hpad]

theorem toNat_pad (size : UInt64) : (blockOverrun size chunksize).toNat = size.toNat % C :=
  toNat_chunkOverrun size

theorem succ_index (size : UInt64) : (blockIndex size chunksize + 1).toNat = size.toNat / C + 1 := by
  have hindex : (blockIndex size chunksize).toNat = size.toNat / C := toNat_chunkIndex size
  have hlast : size.toNat / C < 2 ^ 64 - 1 :=
    Nat.lt_of_le_of_lt (Nat.div_le_div_right size.toNat_lt.le) (by decide)
  rw [UInt64.toNat_add, hindex, UInt64.toNat_one, Nat.mod_eq_of_lt (by omega)]

/-- A cut in the record goes by the content up to its first zero byte. -/
theorem exactly_record (h : hostSize.toUInt32 ≠ 0)
    (hon : OnHost strHash f hostId hostSize (blockIndex size chunksize))
    (h0 : blockIndex size chunksize = 0) (hpad : size.toNat % C ≠ 0) :
    TruncatesExactly strHash rootPath f hostId hostSize s size ↔
      (s.store.fs (ownDir rootPath f)).isSome ∧
        ∃ b, held s.store (ownDir rootPath f) 0 = some b ∧
          ∀ p, p < size.toNat % C → b[p]? ≠ some 0 := by
  have hne : blockOverrun size chunksize ≠ 0 := by
    intro hz
    rw [← toNat_pad, hz] at hpad
    exact hpad rfl
  have hboundary : boundary s size = _ :=
    (if_pos hon).trans ((congrArg (truncateBoundary rootPath f.path s.store · _) h0).trans
      (truncateBoundary_record hne))
  have hraw := firstChunk_eq s
  cases hheld : held s.store (ownDir rootPath f) 0 with
  | none =>
    rw [hheld, Option.map_none] at hraw
    rw [getFirstChunk, hraw] at hboundary
    refine iff_of_false (not_exactly_of_error h hboundary (by decide)) ?_
    rintro ⟨-, b, hb, -⟩
    cases hb
  | some b =>
    have hlen := s.length_le 0 b hheld
    rw [hheld, Option.map_some] at hraw
    rw [getFirstChunk_recordOf hraw (hlen.trans_lt (by decide)), toNat_pad] at hboundary
    rw [exactly_of_ok h hboundary rfl]
    refine and_congr_right fun _ => ?_
    have hafter : held (trimmed (ownDir rootPath f)
        (putFirstChunk s.store ((cString b).take (size.toNat % C))) 1) (ownDir rootPath f) 0 =
        some ((cString b).take (size.toNat % C)) := by
      rw [held_trimmed, if_neg fun h => h.1 rfl, held_zero, putFirstChunk, Option.map_some,
        rawContent_recordOf]
    constructor
    · intro hexact
      refine ⟨b, rfl, (take_cString_iff b _).mp fun i hi => ?_⟩
      have hle := Nat.mod_le size.toNat C
      have hkept := hexact.kept 0 i (by rw [UInt64.toNat_zero, Nat.zero_mul]; omega)
      rwa [byteAt, byteAt, hafter, hheld] at hkept
    · rintro ⟨b', hb', hclean⟩
      obtain rfl := Option.some.inj hb'
      have hindex : (blockIndex size chunksize).toNat = size.toNat / C := toNat_chunkIndex size
      rw [h0] at hindex
      refine exact_of_cut (fun c hc => ?_) (.inr ?_) ?_ ?_ rfl fun d _ => rfl
      · rw [h0] at hc
        rw [held_of_ne _ hc, held_of_ne _ hc]
        rfl
      · rw [← hindex]
        rfl
      · rw [h0, hafter, if_neg hpad, hheld, Option.map_some, take_cString_eq hclean]
      · rw [held_zero, putFirstChunk, Option.map_some, Option.map_some, rawContent_recordOf]

theorem exactly_file (h : hostSize.toUInt32 ≠ 0)
    (hon : OnHost strHash f hostId hostSize (blockIndex size chunksize))
    (h0 : blockIndex size chunksize ≠ 0) (hpad : size.toNat % C ≠ 0) :
    TruncatesExactly strHash rootPath f hostId hostSize s size ↔
      (s.store.fs (ownDir rootPath f)).isSome ∧
        ∃ b, held s.store (ownDir rootPath f) (blockIndex size chunksize) = some b ∧
          size.toNat % C ≤ b.length := by
  have hmod := Nat.mod_lt size.toNat C_pos
  have hboundary : boundary s size = _ :=
    (if_pos hon).trans (truncateBoundary_file (chunkDir_ownDir rootPath f) h0
      (by rw [toNat_pad]; exact Nat.pos_of_ne_zero hpad) (by rw [toNat_pad]; exact hmod.le))
  cases hheld : held s.store (ownDir rootPath f) (blockIndex size chunksize) with
  | none =>
    rw [hheld] at hboundary
    refine iff_of_false (not_exactly_of_error h hboundary (by decide)) ?_
    rintro ⟨-, b, hb, -⟩
    cases hb
  | some b =>
    rw [hheld, toNat_pad] at hboundary
    have hfile : chunkFile s.store.fs (ownDir rootPath f) (blockIndex size chunksize) = some b := by
      rw [← held_of_ne s.store h0, hheld]
    have hdirectory : (s.store.fs (ownDir rootPath f)).isSome = true := by
      obtain ⟨files, hfiles, -⟩ := Option.bind_eq_some_iff.mp hfile
      rw [hfiles, Option.isSome_some]
    have hput : (putChunkFile s.store.fs (ownDir rootPath f) (blockIndex size chunksize)
        (resize 0 (size.toNat % C) b) (ownDir rootPath f)).isSome = true := by
      rw [putChunkFile, Function.update_self, Option.isSome_some]
    rw [exactly_of_ok h hboundary (hput.trans hdirectory.symm)]
    refine and_congr_right fun _ => ?_
    have hsucc := succ_index size
    have hindex : (blockIndex size chunksize).toNat = size.toNat / C := toNat_chunkIndex size
    have hlater : ¬ blockIndex size chunksize + 1 ≤ blockIndex size chunksize := by
      rw [UInt64.le_iff_toNat_le]
      omega
    have hafter : held (trimmed (ownDir rootPath f) { s.store with
        fs := putChunkFile s.store.fs (ownDir rootPath f) (blockIndex size chunksize)
          (resize 0 (size.toNat % C) b) } (blockIndex size chunksize + 1)) (ownDir rootPath f)
        (blockIndex size chunksize) = some (resize 0 (size.toNat % C) b) := by
      rw [held_trimmed, if_neg fun hlow => hlater hlow.2, held_of_ne _ h0, chunkFile_putChunkFile,
        if_pos ⟨rfl, rfl⟩]
    constructor
    · intro hexact
      refine ⟨b, rfl, ?_⟩
      -- a file that grows has a byte where there was none
      by_contra hshort
      have hsplit := Nat.div_add_mod size.toNat C
      rw [Nat.mul_comm] at hsplit
      have hkept := hexact.kept (blockIndex size chunksize) b.length (by rw [hindex]; omega)
      rw [byteAt, byteAt, hafter, hheld, Option.bind_some, Option.bind_some,
        getElem?_resize_ge _ _ _ (by omega), if_neg (Nat.lt_irrefl _), if_pos (by omega),
        List.getElem?_eq_none le_rfl] at hkept
      cases hkept
    · rintro ⟨b', hb', hreach⟩
      obtain rfl := Option.some.inj hb'
      refine exact_of_cut (fun c hc => ?_) (.inr hsucc) ?_ ?_ (hput.trans hdirectory.symm) fun d hd => ?_
      · by_cases hc0 : c = 0
        · rw [hc0, held_zero, held_zero]
        · rw [held_of_ne _ hc0, held_of_ne _ hc0, chunkFile_putChunkFile, if_neg fun he => hc he.2]
      · rw [hafter, if_neg hpad, hheld, Option.map_some, resize_eq_take _ _ _ hreach]
      · exact firstChunk_eq s
      · exact Function.update_of_ne hd _ _

/-- `truncate_abt` is exact on just the states that can be cut. -/
theorem exactly_iff (s : LocalState strHash rootPath f hostId hostSize) (size : UInt64) :
    TruncatesExactly strHash rootPath f hostId hostSize s size ↔
      Cuttable strHash rootPath f hostId hostSize s size := by
  by_cases h : hostSize.toUInt32 = 0
  · refine iff_of_false ?_ fun hcut => hcut.hosts h
    rintro ⟨l', hl', -⟩
    rw [truncateFileAbt, truncateFile_no_hosts _ _ _ _ _ _ h] at hl'
    cases hl'
  · by_cases hon : OnHost strHash f hostId hostSize (blockIndex size chunksize)
    · by_cases hpad : size.toNat % C = 0
      · rw [exactly_aligned h hon hpad]
        exact ⟨fun hdir => ⟨h, hdir, fun _ hne => absurd hpad hne⟩, fun hcut => hcut.directory⟩
      · by_cases h0 : blockIndex size chunksize = 0
        · rw [exactly_record h hon h0 hpad]
          constructor
          · rintro ⟨hdir, b, hb, hclean⟩
            exact ⟨h, hdir, fun _ _ => ⟨b, h0 ▸ hb, by rwa [if_pos h0]⟩⟩
          · intro hcut
            obtain ⟨b, hb, hclean⟩ := hcut.boundary hon hpad
            rw [if_pos h0] at hclean
            exact ⟨hcut.directory, b, h0 ▸ hb, hclean⟩
        · rw [exactly_file h hon h0 hpad]
          constructor
          · rintro ⟨hdir, b, hb, hreach⟩
            exact ⟨h, hdir, fun _ _ => ⟨b, hb, by rwa [if_neg h0]⟩⟩
          · intro hcut
            obtain ⟨b, hb, hreach⟩ := hcut.boundary hon hpad
            rw [if_neg h0] at hreach
            exact ⟨hcut.directory, b, hb, hreach⟩
    · rw [exactly_away h hon]
      exact ⟨fun hdir => ⟨h, hdir, fun hhere => absurd hhere hon⟩, fun hcut => hcut.directory⟩

end Result

/-- A file with a first chunk only. -/
def firstChunkOnly (content : Bytes) (h : content.length ≤ C) :
    LocalState (fun _ => 0) (text "/root") plainFile 0 1 where
  store := ⟨some (recordOf content), fun _ => none⟩
  record raw hraw := ⟨content, (Option.some.inj hraw).symm⟩
  noFile := rfl
  length_le c b hb := by
    by_cases hc : c = 0
    · rw [hc, held_zero, Option.map_some, rawContent_recordOf] at hb
      exact Option.some.inj hb ▸ h
    · rw [held_of_ne _ hc] at hb
      cases hb
  home c b _ := rfl

/-- The record is cut and the client is told of an error all the same. -/
theorem firstChunkOnly_reported :
    (∃ l', truncateFileAbt (text "/root") plainFile.path (firstChunkOnly [1, 2, 3, 4] (by decide)).store
        (fun _ => 0) 2 0 1 = some (( EIO : Int32), l') ∧ l'.firstChunk = some (recordOf [1, 2])) ∧
      ¬ TruncatesExactly (fun _ => 0) (text "/root") plainFile 0 1
        (firstChunkOnly [1, 2, 3, 4] (by decide)) 2 := by
  have hreported : (truncateFileAbt (text "/root") plainFile.path
      (firstChunkOnly [1, 2, 3, 4] (by decide)).store (fun _ => 0) 2 0 1).map
        (fun r => (r.1, r.2.firstChunk)) = some (( EIO : Int32), some (recordOf [1, 2])) := by decide +kernel
  obtain ⟨⟨err, l'⟩, hl', hpair⟩ := Option.map_eq_some_iff.mp hreported
  obtain ⟨herr, hrecord⟩ := Prod.mk.inj hpair
  dsimp only at herr hrecord
  subst herr
  refine ⟨⟨l', hl', hrecord⟩, ?_⟩
  rintro ⟨l'', hl'', -⟩
  rw [hl'] at hl''
  exact absurd (Prod.mk.inj (Option.some.inj hl'')).1 (by decide)

end GaoFS.DaemonTruncate
