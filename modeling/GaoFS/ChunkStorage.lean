import GaoFS.Chunks
import GaoFS.Replies
import GaoFS.Library.ByteFile

namespace GaoFS.ChunkStorage

open Chunks Replies Library.NumberText Library.ByteFile

def separator : UInt8 := 47

def isAbsolute (path : Bytes) : Bool := !path.isEmpty && path.head? == some separator

def isRelative (path : Bytes) : Bool := !path.isEmpty && path.head? != some separator

/-- A component that the path resolver lets through. -/
structure Component (c : Bytes) : Prop where
  ne_nil : c ≠ []
  no_separator : separator ∉ c
  no_nul : 0 ∉ c
  ne_dot : c ≠ text "."
  ne_dotdot : c ≠ text ".."

instance decidableComponent (c : Bytes) : Decidable (Component c) :=
  decidable_of_iff (c ≠ [] ∧ separator ∉ c ∧ 0 ∉ c ∧ c ≠ text "." ∧ c ≠ text "..")
    ⟨fun ⟨h1, h2, h3, h4, h5⟩ => ⟨h1, h2, h3, h4, h5⟩, fun ⟨h1, h2, h3, h4, h5⟩ => ⟨h1, h2, h3, h4, h5⟩⟩

/-- A canonical absolute path, given by its components. -/
structure CanonicalPath where
  components : List Bytes
  valid : ∀ c ∈ components, Component c

def CanonicalPath.path (p : CanonicalPath) : Path :=
  if p.components = [] then [separator] else p.components.flatMap (separator :: ·)

def getChunksDir (filePath : Path) : Bytes :=
  (filePath.drop 1).map fun b => if b = separator then 58 else b

def getChunkPath (filePath : Path) (chunkId : UInt64) : Bytes :=
  getChunksDir filePath ++ separator :: decimal chunkId.toNat

/-- `none` is a failed assertion: it aborts the daemon, here and below. -/
def absolute (rootPath internalPath : Bytes) : Option Bytes :=
  if isRelative internalPath then some (rootPath ++ separator :: internalPath) else none

/-- Local path of a file's chunk directory, with the assertions on the way. -/
def chunkDir (rootPath : Bytes) (filePath : Path) : Option Bytes :=
  if isAbsolute filePath then absolute rootPath (getChunksDir filePath) else none

/-- The chunk directories below the root, by local path. A directory holds chunk
files, named by the decimal of their id. -/
abbrev Fs := Bytes → Option (UInt64 → Option Bytes)

def chunkFile (fs : Fs) (dir : Bytes) (chunkId : UInt64) : Option Bytes :=
  (fs dir).bind fun files => files chunkId

def putChunkFile (fs : Fs) (dir : Bytes) (chunkId : UInt64) (content : Bytes) : Fs :=
  Function.update fs dir (some (Function.update ((fs dir).getD fun _ => none) chunkId (some content)))

section Operations

variable (rootPath : Bytes) (filePath : Path) (fs : Fs)

/-- `init_chunk_space`, `open` with creation, and the write loop: also an empty
write makes the file. -/
def writeChunk (chunkId : UInt64) (buf : Bytes) (offset : Nat) : Option (Except Failure Nat × Fs) :=
  if offset + buf.length ≤ C then
    (chunkDir rootPath filePath).map fun dir =>
      (.ok buf.length,
        putChunkFile fs dir chunkId (pwrite 0 offset buf ((chunkFile fs dir chunkId).getD [])))
  else none

def readChunk (chunkId : UInt64) (size offset : Nat) : Option (Except Failure Bytes) :=
  if offset + size ≤ C then
    (chunkDir rootPath filePath).map fun dir =>
      match chunkFile fs dir chunkId with
      | none => .error (.chunkStorageException ENOENT)
      | some content => .ok (pread offset size content)
  else none

def truncateChunkFile (chunkId : UInt64) (length : Nat) : Option (Except Failure Unit × Fs) :=
  if 0 < length ∧ length ≤ C then
    (chunkDir rootPath filePath).map fun dir =>
      match chunkFile fs dir chunkId with
      | none => (.error (.chunkStorageException ENOENT), fs)
      | some content => (.ok (), putChunkFile fs dir chunkId (resize 0 length content))
  else none

/-- A missing directory makes the directory iterator throw. -/
def trimChunkSpace (chunkStart : UInt64) : Option (Except Failure Unit × Fs) :=
  (chunkDir rootPath filePath).map fun dir =>
    match fs dir with
    | none => (.error .stdException, fs)
    | some files =>
      (.ok (), Function.update fs dir (some fun id => if chunkStart ≤ id then none else files id))

def destroyChunkSpace : Option (Except Failure Unit × Fs) :=
  (chunkDir rootPath filePath).map fun dir => (.ok (), Function.update fs dir none)

end Operations

inductive Op where
  | writeChunk (chunkId : UInt64) (buf : Bytes) (offset : Nat)
  | truncateChunkFile (chunkId : UInt64) (length : Nat)
  | trimChunkSpace (chunkStart : UInt64)
  | destroyChunkSpace

def apply (rootPath : Bytes) (filePath : Path) (fs : Fs) : Op → Fs
  | .writeChunk id buf offset => ((writeChunk rootPath filePath fs id buf offset).map Prod.snd).getD fs
  | .truncateChunkFile id length => ((truncateChunkFile rootPath filePath fs id length).map Prod.snd).getD fs
  | .trimChunkSpace start => ((trimChunkSpace rootPath filePath fs start).map Prod.snd).getD fs
  | .destroyChunkSpace => ((destroyChunkSpace rootPath filePath fs).map Prod.snd).getD fs

theorem chunkFile_putChunkFile (fs : Fs) (dir dir' : Bytes) (id id' : UInt64) (content : Bytes) :
    chunkFile (putChunkFile fs dir id content) dir' id' =
      if dir' = dir ∧ id' = id then some content else chunkFile fs dir' id' := by
  by_cases hd : dir' = dir
  · subst hd
    by_cases hi : id' = id
    · subst hi; simp [chunkFile, putChunkFile]
    · cases h : fs dir' <;> simp [chunkFile, putChunkFile, hi, h]
  · simp [chunkFile, putChunkFile, hd]

/-- An operation touches the directory of its own file only. -/
theorem apply_of_ne (rootPath : Bytes) (filePath : Path) (fs : Fs) (op : Op) (dir : Bytes)
    (h : chunkDir rootPath filePath ≠ some dir) : apply rootPath filePath fs op dir = fs dir := by
  cases hd : chunkDir rootPath filePath with
  | none => cases op <;> simp [apply, writeChunk, truncateChunkFile, trimChunkSpace,
      destroyChunkSpace, hd]
  | some own =>
    have hne : dir ≠ own := fun he => h (by rw [hd, he])
    cases op with
    | writeChunk id buf offset =>
      simp only [apply, writeChunk, hd]
      split <;> simp [putChunkFile, hne]
    | truncateChunkFile id length =>
      simp only [apply, truncateChunkFile, hd]
      split
      · cases hc : chunkFile fs own id <;> simp [hc, putChunkFile, hne]
      · rfl
    | trimChunkSpace start =>
      cases hf : fs own <;> simp [apply, trimChunkSpace, hd, hf, hne]
    | destroyChunkSpace => simp [apply, destroyChunkSpace, hd, hne]

theorem isAbsolute_path (p : CanonicalPath) : isAbsolute p.path = true := by
  unfold CanonicalPath.path
  split
  · rfl
  · rename_i h
    obtain ⟨c, cs, hc⟩ := List.exists_cons_of_ne_nil h
    rw [hc]
    rfl

theorem exists_cons_path (p : CanonicalPath) : ∃ tail, p.path = separator :: tail := by
  have h := isAbsolute_path p
  cases hp : p.path with
  | nil => simp [hp, isAbsolute] at h
  | cons a tail =>
    simp only [hp, isAbsolute] at h
    exact ⟨tail, by simpa using h⟩

theorem not_separator_mem_getChunksDir (filePath : Path) : separator ∉ getChunksDir filePath := by
  intro h
  obtain ⟨b, -, hb⟩ := List.mem_map.mp h
  by_cases hs : b = separator
  · simp [hs, separator] at hb
  · rw [if_neg hs] at hb
    exact hs hb

theorem getChunkPath_inj {p q : Path} {i j : UInt64} :
    getChunkPath p i = getChunkPath q j ↔ getChunksDir p = getChunksDir q ∧ i = j := by
  constructor
  · intro h
    have hcut : ∀ (r : Path) (k : UInt64),
        (getChunkPath r k).takeWhile (· != separator) = getChunksDir r := by
      intro r k
      rw [getChunkPath, List.takeWhile_append_of_pos]
      · simp
      · intro b hb
        have hne : b ≠ separator := fun he => not_separator_mem_getChunksDir r (he ▸ hb)
        simpa using hne
    have hdir : getChunksDir p = getChunksDir q := by rw [← hcut p i, h, hcut]
    refine ⟨hdir, ?_⟩
    rw [getChunkPath, getChunkPath, hdir, List.append_cancel_left_eq] at h
    exact UInt64.toNat_inj.mp (decimal_injective (List.cons.inj h).2)
  · rintro ⟨hdir, rfl⟩
    rw [getChunkPath, hdir]
    rfl

structure FilePath extends CanonicalPath where
  components_ne : components ≠ []

theorem exists_chunkDir (rootPath : Bytes) (f : FilePath) :
    ∃ dir, chunkDir rootPath f.path = some dir := by
  obtain ⟨c, cs, hcs⟩ := List.exists_cons_of_ne_nil f.components_ne
  have hc := f.valid c (by rw [hcs]; exact List.mem_cons_self)
  obtain ⟨b, bs, hbs⟩ := List.exists_cons_of_ne_nil hc.ne_nil
  have hb : b ≠ separator := by
    rintro rfl
    exact hc.no_separator (by rw [hbs]; exact List.mem_cons_self)
  have hpath : f.path = separator :: b :: (bs ++ cs.flatMap (separator :: ·)) := by
    rw [CanonicalPath.path, if_neg f.components_ne, hcs, List.flatMap_cons, hbs]
    rfl
  have hdir : isRelative (getChunksDir f.path) = true := by
    simp [hpath, getChunksDir, isRelative, hb]
  exact ⟨rootPath ++ separator :: getChunksDir f.path, by
    rw [chunkDir, if_pos (isAbsolute_path f.toCanonicalPath), absolute, if_pos hdir]⟩

def plainFile : FilePath := ⟨⟨[text "f"], by decide⟩, by decide⟩

/-- The two characters that the substitution cannot tell apart. -/
def Mixed (b : UInt8) : Prop := b = separator ∨ b = 58

/-- Two paths that differ in length, or at a position where they do not both
have a slash or a colon. -/
def DifferBeyondSeparators (p q : Path) : Prop :=
  p.length ≠ q.length ∨
    ∃ (i : Nat) (a b : UInt8), p[i]? = some a ∧ q[i]? = some b ∧ a ≠ b ∧ ¬ (Mixed a ∧ Mixed b)

theorem mangled_eq_iff (a b : UInt8) :
    ((if a = separator then 58 else a) = if b = separator then 58 else b) ↔
      a = b ∨ Mixed a ∧ Mixed b := by
  unfold Mixed separator
  grind

theorem getChunksDir_eq_iff (p q : CanonicalPath) :
    getChunksDir p.path = getChunksDir q.path ↔ ¬ DifferBeyondSeparators p.path q.path := by
  obtain ⟨s, hs⟩ := exists_cons_path p
  obtain ⟨t, ht⟩ := exists_cons_path q
  simp only [DifferBeyondSeparators, hs, ht, getChunksDir, List.drop_one, List.tail_cons,
    List.length_cons]
  constructor
  · intro h
    have hlen : s.length = t.length := by simpa using congrArg List.length h
    rintro (hne | ⟨i, a, b, ha, hb, hab, hmix⟩)
    · exact hne (by rw [hlen])
    · cases i with
      | zero =>
        simp only [List.getElem?_cons_zero, Option.some.injEq] at ha hb
        exact hab (ha.symm.trans hb)
      | succ i =>
        rw [List.getElem?_cons_succ] at ha hb
        have hi := congrArg (fun l => l[i]?) h
        simp only [List.getElem?_map, ha, hb, Option.map_some, Option.some.injEq] at hi
        exact ((mangled_eq_iff a b).mp hi).elim hab hmix
  · intro h
    have hlen : s.length = t.length := by
      by_contra hne
      exact h (.inl (by omega))
    apply List.ext_getElem?
    intro i
    rw [List.getElem?_map, List.getElem?_map]
    by_cases hi : i < s.length
    · have hi' : i < t.length := hlen ▸ hi
      rw [List.getElem?_eq_getElem hi, List.getElem?_eq_getElem hi']
      refine congrArg some ((mangled_eq_iff _ _).mpr ?_)
      by_contra hne
      rw [not_or] at hne
      exact h (.inr ⟨i + 1, s[i], t[i], by simp, by simp, hne.1, hne.2⟩)
    · rw [List.getElem?_eq_none (by omega), List.getElem?_eq_none (by omega)]

/-- The chunk paths of two files differ, and no sequence of operations on the
first changes a chunk of the second. -/
structure ChunksSeparate (p q : Path) : Prop where
  paths : ∀ i j, getChunkPath p i ≠ getChunkPath q j
  frame : ∀ (rootPath dir : Bytes) (fs : Fs) (ops : List Op) (id : UInt64),
    chunkDir rootPath q = some dir →
      chunkFile (ops.foldl (apply rootPath p) fs) dir id = chunkFile fs dir id

theorem chunkDir_inj {rootPath : Bytes} {p q : CanonicalPath} {dir : Bytes}
    (hp : chunkDir rootPath p.path = some dir) (hq : chunkDir rootPath q.path = some dir) :
    getChunksDir p.path = getChunksDir q.path := by
  have hdir : ∀ r : CanonicalPath, chunkDir rootPath r.path = some dir →
      rootPath ++ separator :: getChunksDir r.path = dir := by
    intro r hr
    rw [chunkDir, if_pos (isAbsolute_path r), absolute] at hr
    split at hr
    · exact Option.some.inj hr
    · cases hr
  have h := (hdir p hp).trans (hdir q hq).symm
  rw [List.append_cancel_left_eq] at h
  exact (List.cons.inj h).2

theorem foldl_apply_of_ne (rootPath : Bytes) (filePath : Path) (dir : Bytes)
    (h : chunkDir rootPath filePath ≠ some dir) (ops : List Op) (fs : Fs) :
    ops.foldl (apply rootPath filePath) fs dir = fs dir := by
  induction ops generalizing fs with
  | nil => rfl
  | cons op ops ih => rw [List.foldl_cons, ih, apply_of_ne _ _ _ _ _ h]

/-- Two files have separate chunk storage exactly if their paths differ in more
than the choice between slashes and colons. -/
theorem chunksSeparate_iff (p q : CanonicalPath) :
    ChunksSeparate p.path q.path ↔ DifferBeyondSeparators p.path q.path := by
  have hiff := getChunksDir_eq_iff p q
  constructor
  · intro h
    by_contra hn
    exact h.paths 0 0 (getChunkPath_inj.mpr ⟨hiff.mpr hn, rfl⟩)
  · intro h
    have hdir : getChunksDir p.path ≠ getChunksDir q.path := fun he => hiff.mp he h
    refine ⟨fun i j he => hdir (getChunkPath_inj.mp he).1, ?_⟩
    intro rootPath dir fs ops id hq
    have hp : chunkDir rootPath p.path ≠ some dir := fun hp => hdir (chunkDir_inj hp hq)
    rw [chunkFile, foldl_apply_of_ne _ _ _ hp, chunkFile]

def colonFile : CanonicalPath := ⟨[text "a:b"], by decide⟩

def nestedFile : CanonicalPath := ⟨[text "a", text "b"], by decide⟩

/-- Removing the file `/a:b` removes a chunk of `/a/b`. -/
theorem colonFile_not_separate :
    colonFile.path = text "/a:b" ∧ nestedFile.path = text "/a/b" ∧
      ¬ ChunksSeparate colonFile.path nestedFile.path ∧
      let dir := text "/root/a:b"
      let fs := putChunkFile (fun _ => none) dir 1 [7]
      chunkDir (text "/root") nestedFile.path = some dir ∧ chunkFile fs dir 1 = some [7] ∧
        chunkFile (apply (text "/root") colonFile.path fs .destroyChunkSpace) dir 1 = none := by
  refine ⟨by decide, by decide, fun h => h.paths 0 0 (by decide), by decide, ?_, ?_⟩
  · rw [chunkFile_putChunkFile, if_pos ⟨rfl, rfl⟩]
  · decide

end GaoFS.ChunkStorage
