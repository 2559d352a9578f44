import GaoFS.DataOps
import GaoFS.ForwardData
import GaoFS.Library.Runs

namespace GaoFS.FirstChunkFile

open Arithmetic Chunks Replies ChunkStorage FirstChunkRecord DataOps ForwardData
open Library.NumberText Library.ByteFile Library.Runs

inductive Task where
  | write (buf : Bytes) (off : Nat) (fits : off + buf.length ≤ C)
  | read (size off : Nat) (fits : off + size ≤ C)
  | truncate (length : Nat) (lt : length < C)

section Runs

variable (d : SimpleHashDistributor) (rootPath : Bytes) (path : Path)

def kvStep (l : Local) : Task → Local
  | .write buf off _ => ((writeFile rootPath path l 0 buf off).map Prod.snd).getD l
  | .read _ _ _ => l
  | .truncate length _ =>
    ((truncateFile rootPath path l d.strHash (UInt64.ofNat length) (target d path 0)
      d.hostsSize.toUInt64).map Prod.snd).getD l

def kvRead (l : Local) (size off : Nat) : Option (Int64 × Bytes) :=
  readFileAbt rootPath path l 0 size off

/-- Truncation of the plain chunk file: cut chunk 0 and delete the later chunks,
or delete all of them. -/
def plainTruncate (fs : Fs) (length : Nat) : Option (Except Failure Unit × Fs) :=
  if length ≠ 0 then
    (truncateChunkFile rootPath path fs 0 length).bind fun
      | (.error e, fs) => some (.error e, fs)
      | (.ok (), fs) => trimChunkSpace rootPath path fs 1
  else trimChunkSpace rootPath path fs 0

def plainStep (fs : Fs) : Task → Fs
  | .write buf off _ => ((writeChunk rootPath path fs 0 buf off).map Prod.snd).getD fs
  | .read _ _ _ => fs
  | .truncate length _ => ((plainTruncate rootPath path fs length).map Prod.snd).getD fs

def plainRead (fs : Fs) (size off : Nat) : Option (Int64 × Bytes) :=
  (readChunk rootPath path fs 0 size off).map fun
    | .ok bytes => (Int64.ofNat bytes.length, bytes)
    | .error e => (readErr e, [])

end Runs

/-- What a task makes of the content of the record. -/
def nextRecord (raw : Option Bytes) : Task → Option Bytes
  | .write buf off _ => some (writeContent (cString (raw.getD [])) buf off)
  | .read _ _ _ => raw
  | .truncate length _ => if length = 0 then none else raw.map fun b => (cString b).take length

def nextFile (x : Option Bytes) : Task → Option Bytes
  | .write buf off _ => some (pwrite 0 off buf (x.getD []))
  | .read _ _ _ => x
  | .truncate length _ => if length = 0 then none else x.map (resize 0 length)

/-- The tasks whose effect the record can express: no zero byte and no gap may
get into it, and it cannot be cut to more than it has. -/
def Expressible (x : Option Bytes) : Task → Prop
  | .write buf off _ => buf = [] ∨ 0 ∉ buf ∧ off ≤ (x.getD []).length
  | .read _ _ _ => True
  | .truncate length _ => ∀ content, x = some content → length ≤ content.length

theorem notNul_all_iff (buf : Bytes) : (∀ b ∈ buf, notNul b = true) ↔ 0 ∉ buf := by
  constructor
  · intro h h0
    simpa [notNul] using h 0 h0
  · intro h b hb
    have hne : b ≠ 0 := fun he => h (he ▸ hb)
    simpa [notNul] using hne

theorem next_agree_iff (raw : Option Bytes) (a : Task) :
    (nextRecord raw a).map cString = nextFile (raw.map cString) a ↔
      Expressible (raw.map cString) a := by
  cases a with
  | read size off => exact iff_of_true rfl trivial
  | write buf off =>
    have hx : (raw.map cString).getD [] = cString (raw.getD []) := by cases raw <;> rfl
    have hclean := cString_clean (raw.getD [])
    simp only [nextRecord, nextFile, Expressible, hx, Option.map_some, Option.some.injEq]
    by_cases hb : buf = []
    · subst hb
      have h : cString (writeContent (cString (raw.getD [])) [] off) = cString (raw.getD []) := by
        rw [writeContent_nil]
        exact takeWhile_resize notNul 0 (by decide) _ _ (le_max_right _ _) hclean
      simp only [h, pwrite, ↓reduceIte, true_or]
    · rw [writeContent_of_ne_nil _ _ _ hb, cString_eq_self_iff,
        all_pwrite_iff notNul 0 (by decide) off buf _ hclean hb, notNul_all_iff]
      simp only [hb, false_or]
  | truncate length =>
    cases raw with
    | none => simp [nextRecord, nextFile, Expressible]
    | some b =>
      by_cases h0 : length = 0
      · simp [nextRecord, nextFile, Expressible, h0]
      · have hclean : cString ((cString b).take length) = (cString b).take length :=
          (cString_eq_self_iff _).mpr fun c hc => cString_clean b c (List.mem_of_mem_take hc)
        simp only [nextRecord, nextFile, Expressible, h0, ↓reduceIte, Option.map_some,
          Option.some.injEq, hclean, forall_eq']
        constructor
        · intro h
          have hlen := congrArg List.length h
          rw [length_resize, List.length_take] at hlen
          omega
        · intro h
          rw [resize_eq_take _ _ _ h]

section Steps

variable {d : SimpleHashDistributor} {rootPath : Bytes} {path : Path} {dir : Bytes}

theorem length_nextRecord {raw : Option Bytes} (hlen : ∀ b, raw = some b → b.length ≤ C) (a : Task) :
    ∀ b, nextRecord raw a = some b → b.length ≤ C := by
  have hcut : (cString (raw.getD [])).length ≤ C := by
    cases raw with
    | none => exact Nat.zero_le C
    | some b => exact (List.takeWhile_sublist _).length_le.trans (hlen b rfl)
  intro b hb
  cases a with
  | read size off => exact hlen b hb
  | write buf off fits =>
    rw [← Option.some.inj hb, length_writeContent]
    exact max_le hcut fits
  | truncate length lt =>
    simp only [nextRecord] at hb
    split at hb
    · cases hb
    · obtain ⟨e, rfl, rfl⟩ := Option.map_eq_some_iff.mp hb
      exact (List.length_take_le _ _).trans lt.le

theorem truncate_args {length : Nat} (h : length < C) :
    blockIndex (UInt64.ofNat length) chunksize = 0 ∧
      (blockOverrun (UInt64.ofNat length) chunksize).toNat = length := by
  have hnat : (UInt64.ofNat length).toNat = length := by
    rw [UInt64.toNat_ofNat']
    simp only [C] at h
    omega
  constructor
  · rw [← UInt64.toNat_inj, toNat_chunkIndex, hnat, Nat.div_eq_of_lt h]
    rfl
  · rw [toNat_chunkOverrun, hnat, Nat.mod_eq_of_lt h]

theorem trimChunkSpace_some (hdir : chunkDir rootPath path = some dir) (fs : Fs) (start : UInt64) :
    ∃ r, trimChunkSpace rootPath path fs start = some r := by
  rw [trimChunkSpace, hdir]
  exact ⟨_, rfl⟩

theorem truncateFile_eq {l : Local} {length : Nat} (h : length < C) :
    truncateFile rootPath path l d.strHash (UInt64.ofNat length) (target d path 0)
        d.hostsSize.toUInt64 =
      (truncateBoundary rootPath path l 0 (blockOverrun (UInt64.ofNat length) chunksize)).bind fun
        | (.error e, l) => some (.error e, l)
        | (.ok start, l) => (trimChunkSpace rootPath path l.fs start).map fun r =>
          (r.1, { l with fs := r.2 }) := by
  have hhosts : d.hostsSize.toUInt64.toUInt32 = d.hostsSize := by simp
  simp only [truncateFile, (truncate_args h).1, hhosts, locateDataSized_eq, Option.bind_some]
  exact congrArg (Option.bind · _) (if_pos rfl)

theorem kvStep_firstChunk (hdir : chunkDir rootPath path = some dir) {l : Local} {raw : Option Bytes}
    (hl : l.firstChunk = raw.map recordOf) (hlen : ∀ b, raw = some b → b.length ≤ C) (a : Task) :
    (kvStep d rootPath path l a).firstChunk = (nextRecord raw a).map recordOf := by
  have hget : ∀ b, raw = some b → getFirstChunk l =
      some (.ok ⟨UInt64.ofNat b.length, cString b⟩) := by
    rintro b rfl
    have hb := hlen b rfl
    exact getFirstChunk_recordOf hl (by simp only [C] at hb; omega)
  cases a with
  | read size off => exact hl
  | write buf off fits =>
    cases raw with
    | none =>
      rw [Option.map_none] at hl
      simp [kvStep, writeFile, fits, hl, putFirstChunk, nextRecord, cString]
    | some b =>
      simp only [Option.map_some] at hl
      simp [kvStep, writeFile, fits, hl, hget b rfl, putFirstChunk, nextRecord]
  | truncate length lt =>
    obtain ⟨-, hpad⟩ := truncate_args lt
    obtain ⟨r, hr⟩ := trimChunkSpace_some hdir l.fs 1
    simp only [kvStep, truncateFile_eq lt, truncateBoundary, ↓reduceIte, nextRecord]
    generalize blockOverrun (UInt64.ofNat length) chunksize = pad at *
    by_cases h0 : length = 0
    · have hz : pad = 0 := UInt64.toNat_inj.mp (hpad.trans h0)
      simp [hz, h0, hr]
    · have hz : pad ≠ 0 := by
        rintro rfl
        exact h0 hpad.symm
      cases raw with
      | none =>
        have hnone : getFirstChunk l = some (.error .notFoundException) := by
          simp [getFirstChunk, hl]
        simp [hz, h0, hnone, hl]
      | some b => simp [hz, h0, hget b rfl, hpad, putFirstChunk, hr]

theorem plainStep_chunkFile (hdir : chunkDir rootPath path = some dir) (fs : Fs) (a : Task) :
    chunkFile (plainStep rootPath path fs a) dir 0 = nextFile (chunkFile fs dir 0) a := by
  cases a with
  | read size off => rfl
  | write buf off fits =>
    simp [plainStep, writeChunk, fits, hdir, chunkFile_putChunkFile, nextFile]
  | truncate length lt =>
    simp only [plainStep, plainTruncate, nextFile]
    by_cases h0 : length = 0
    · simp only [h0, trimChunkSpace, hdir, Option.map_some]
      cases hf : fs dir <;> simp [chunkFile, hf]
    · have hbound : 0 < length ∧ length ≤ C := ⟨by omega, lt.le⟩
      cases hf : chunkFile fs dir 0 with
      | none => simp [h0, truncateChunkFile, hbound, hdir, hf]
      | some content =>
        have hcut : truncateChunkFile rootPath path fs 0 length =
            some (.ok (), putChunkFile fs dir 0 (resize 0 length content)) := by
          simp [truncateChunkFile, hbound, hdir, hf]
        simp [h0, hcut, trimChunkSpace, hdir, putChunkFile, chunkFile]

theorem plainRead_eq (hdir : chunkDir rootPath path = some dir) (fs : Fs) {size off : Nat}
    (fits : off + size ≤ C) :
    plainRead rootPath path fs size off = some (fileRead (chunkFile fs dir 0) size off) := by
  cases h : chunkFile fs dir 0 <;> simp [plainRead, readChunk, fits, hdir, h, fileRead, readErr]

theorem ofNat_ne_readErr {n : Nat} (h : n ≤ C) : Int64.ofNat n ≠ readErr .notFoundException := by
  intro he
  have hn : (Int64.ofNat n).toInt = n := by
    rw [Int64.toInt_ofNat_of_lt]
    simp only [C] at h
    omega
  have hneg : (readErr .notFoundException).toInt = -2 := by decide
  rw [he, hneg] at hn
  omega

theorem fileRead_inj {x y : Option Bytes} (hx : ∀ b, x = some b → b.length ≤ C)
    (hy : ∀ b, y = some b → b.length ≤ C) (h : fileRead x C 0 = fileRead y C 0) : x = y := by
  have hall : ∀ b : Bytes, b.length ≤ C → pread 0 C b = b := fun b hb => by
    rw [pread, List.drop_zero, List.take_of_length_le hb]
  cases x with
  | none =>
    cases y with
    | none => rfl
    | some c =>
      simp only [fileRead, hall c (hy c rfl), Prod.mk.injEq] at h
      exact absurd h.1.symm (ofNat_ne_readErr (hy c rfl))
  | some b =>
    cases y with
    | none =>
      simp only [fileRead, hall b (hx b rfl), Prod.mk.injEq] at h
      exact absurd h.1 (ofNat_ne_readErr (hx b rfl))
    | some c =>
      simp only [fileRead, hall b (hx b rfl), hall c (hy c rfl), Prod.mk.injEq] at h
      rw [h.2]

end Steps

section Refinement

variable (d : SimpleHashDistributor) (rootPath : Bytes) (f : FilePath)

def step (s : Local × Fs) (a : Task) : Local × Fs :=
  (kvStep d rootPath f.path s.1 a, plainStep rootPath f.path s.2 a)

def empty : Local × Fs := (⟨none, fun _ => none⟩, fun _ => none)

def ReadsAgree (s : Local × Fs) : Prop :=
  ∀ size off, off + size ≤ C →
    kvRead rootPath f.path s.1 size off = plainRead rootPath f.path s.2 size off

def plainContent (fs : Fs) : Option Bytes :=
  (chunkDir rootPath f.path).bind fun dir => chunkFile fs dir 0

/-- The states that a run can reach: the record was stored by a task, and
neither content is longer than a chunk. -/
structure Stored (s : Local × Fs) : Prop where
  record : ∃ raw : Option Bytes, s.1.firstChunk = raw.map recordOf ∧ ∀ b, raw = some b → b.length ≤ C
  file : ∀ b, plainContent rootPath f s.2 = some b → b.length ≤ C

variable {d rootPath f}

theorem length_nextFile {x : Option Bytes} (hlen : ∀ b, x = some b → b.length ≤ C) (a : Task) :
    ∀ b, nextFile x a = some b → b.length ≤ C := by
  intro b hb
  cases a with
  | read size off => exact hlen b hb
  | write buf off fits =>
    rw [← Option.some.inj hb]
    have hold : (x.getD []).length ≤ C := by
      cases x with
      | none => exact Nat.zero_le C
      | some e => exact hlen e rfl
    by_cases hbuf : buf = []
    · rw [pwrite, if_pos hbuf]
      exact hold
    · rw [length_pwrite _ _ _ _ hbuf]
      exact max_le hold fits
  | truncate length lt =>
    simp only [nextFile] at hb
    split at hb
    · cases hb
    · obtain ⟨e, -, rfl⟩ := Option.map_eq_some_iff.mp hb
      rw [length_resize]
      exact lt.le

theorem plainContent_step (s : Local × Fs) (a : Task) :
    plainContent rootPath f (step d rootPath f s a).2 =
      nextFile (plainContent rootPath f s.2) a := by
  obtain ⟨dir, hdir⟩ := exists_chunkDir rootPath f
  simp only [plainContent, hdir, Option.bind_some]
  exact plainStep_chunkFile hdir s.2 a

theorem Stored.step {s : Local × Fs} (h : Stored rootPath f s) (a : Task) :
    Stored rootPath f (step d rootPath f s a) := by
  obtain ⟨raw, hraw, hlen⟩ := h.record
  obtain ⟨dir, hdir⟩ := exists_chunkDir rootPath f
  refine ⟨⟨nextRecord raw a, kvStep_firstChunk hdir hraw hlen a, length_nextRecord hlen a⟩, ?_⟩
  rw [plainContent_step]
  exact length_nextFile h.file a

theorem readsAgree_iff {s : Local × Fs} (h : Stored rootPath f s) (raw : Option Bytes)
    (hraw : s.1.firstChunk = raw.map recordOf) (hlen : ∀ b, raw = some b → b.length ≤ C) :
    ReadsAgree rootPath f s ↔ raw.map cString = plainContent rootPath f s.2 := by
  obtain ⟨dir, hdir⟩ := exists_chunkDir rootPath f
  have hfile : plainContent rootPath f s.2 = chunkFile s.2 dir 0 := by
    rw [plainContent, hdir, Option.bind_some]
  have hview : ∀ b, raw.map cString = some b → b.length ≤ C := by
    intro b hb
    obtain ⟨e, he, rfl⟩ := Option.map_eq_some_iff.mp hb
    exact (List.takeWhile_sublist _).length_le.trans (hlen e he)
  constructor
  · intro hagree
    have h0 := hagree C 0 (by omega)
    rw [kvRead, readFileAbt_record _ _ hraw hlen, plainRead_eq hdir s.2 (by omega), Option.some.injEq, ← hfile] at h0
    exact fileRead_inj hview h.file h0
  · intro heq size off fits
    rw [kvRead, readFileAbt_record _ _ hraw hlen, plainRead_eq hdir s.2 fits, ← hfile, heq]

/-- From agreeing states a task leads to agreeing states exactly if the record
can express its effect. -/
theorem readsAgree_step {s : Local × Fs} (h : Stored rootPath f s) (hagree : ReadsAgree rootPath f s)
    (a : Task) : ReadsAgree rootPath f (step d rootPath f s a) ↔
      Expressible (plainContent rootPath f s.2) a := by
  obtain ⟨raw, hraw, hlen⟩ := h.record
  obtain ⟨dir, hdir⟩ := exists_chunkDir rootPath f
  have heq := (readsAgree_iff h _ hraw hlen).mp hagree
  rw [readsAgree_iff (h.step a) _ (kvStep_firstChunk hdir hraw hlen a) (length_nextRecord hlen a),
    plainContent_step, ← heq]
  exact next_agree_iff raw a

/-- The first-chunk record behaves as the plain chunk file in every state of a
run exactly if every task of the run is one that the record can express. -/
theorem firstChunk_refines_iff (d : SimpleHashDistributor) (rootPath : Bytes) (f : FilePath)
    (tasks : List Task) :
    (∀ p, p <+: tasks → ReadsAgree rootPath f (p.foldl (step d rootPath f) empty)) ↔
      AllSteps (step d rootPath f) (fun s a => Expressible (plainContent rootPath f s.2) a)
        empty tasks := by
  have hempty : plainContent rootPath f (empty : Local × Fs).2 = none := by
    cases h : chunkDir rootPath f.path <;> simp [plainContent, empty, chunkFile, h]
  have hstored : Stored rootPath f empty :=
    ⟨⟨none, rfl, by simp⟩, by rw [hempty]; simp⟩
  have hstart : ReadsAgree rootPath f empty := by
    rw [readsAgree_iff hstored none rfl (by simp), hempty]
    rfl
  have hreach : ∀ p : List Task, Stored rootPath f (p.foldl (step d rootPath f) empty) :=
    fun p => invariant_foldl (fun s a hs => hs.step a) p hstored
  rw [← forall_prefix_iff (I := fun s => Stored rootPath f s ∧ ReadsAgree rootPath f s)
    (fun s a hs => by
      rw [← readsAgree_step (d := d) hs.1 hs.2 a]
      exact and_iff_right (hs.1.step a)) ⟨hstored, hstart⟩]
  exact forall₂_congr fun p _ => (and_iff_right (hreach p)).symm

/-- After a write of a zero byte the record reads back shorter than the file. -/
theorem firstChunk_zero_byte :
    let s := [Task.write [7, 0, 9] 0 (by decide)].foldl (step twoHosts (text "/root") plainFile) empty
    kvRead (text "/root") plainFile.path s.1 3 0 = some (1, [7]) ∧
      plainRead (text "/root") plainFile.path s.2 3 0 = some (3, [7, 0, 9]) := by
  decide

end Refinement

end GaoFS.FirstChunkFile
