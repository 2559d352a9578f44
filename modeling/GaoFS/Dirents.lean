import GaoFS.MetadataDB
import GaoFS.Library.Wire

namespace GaoFS.Dirents

open Chunks Replies ChunkStorage MetadataRecord MetadataKey MetadataDB
open Library.NumberText Library.OrderedMap Library.Wire

def ENOBUFS : Int32 := 105

def hasTrailingSlash (path : Path) : Bool := path.getLast? == some separator

/-- The directory with a slash behind it, as `MetadataDB::get_dirents` passes it on. -/
def rootPath (dir : Path) : Path :=
  if hasTrailingSlash dir = false ∧ dir.length ≠ 1 then dir ++ [separator] else dir

/-- The loop of the two listings over what the iterator visits. An entry whose
merge fails makes the iterator invalid, which the assertion behind the loop finds. -/
def scan (root : Path) : List (Bytes × Key) → Option (Except Failure (List (Bytes × Metadata)))
  | [] => some (.ok [])
  | (k, key) :: rest =>
    match getStr key with
    | some (.ok value) =>
      if root <+: k then
        if k.length = root.length ∨ separator ∈ k.drop root.length then scan root rest
        else match Metadata.decode config value with
          | .ok md => (scan root rest).map fun r => r.map fun es => (k.drop root.length, md) :: es
          | .error (.std _) => some (.error .stdException)
          | .error .assertion => none
      else some (.ok [])
    | _ => none

def getDirentsWith {ε : Type*} (entry : Bytes → Metadata → ε) (m : Mdb) (dir : Path) :
    Option (Except Failure (List ε)) :=
  if isAbsolute dir then
    (scan (rootPath dir) (m.map.seek (rootPath dir))).map fun r =>
      r.map fun es => es.map fun e => entry e.1 e.2
  else none

structure Dirent where
  name : Bytes
  isDir : Bool
  deriving DecidableEq

structure DirentExtended where
  name : Bytes
  isDir : Bool
  size : UInt64
  ctime : Int64
  deriving DecidableEq

def getDirents : Mdb → Path → Option (Except Failure (List Dirent)) :=
  getDirentsWith fun name md => ⟨name, S_ISDIR md.mode⟩

def getDirentsExtended : Mdb → Path → Option (Except Failure (List DirentExtended)) :=
  getDirentsWith fun name md => ⟨name, S_ISDIR md.mode, md.size, md.ctime⟩

/-- A name as `strcpy` leaves it in the room of the whole entry. -/
def strcpySlot (name : Bytes) : Bytes :=
  cString name ++ List.replicate (name.length + 1 - (cString name).length) 0

def boolByte (b : Bool) : Nat := if b then 1 else 0

/-- One value of every entry, side by side. -/
def column {ε : Type*} (w : Nat) (value : ε → Nat) (es : List ε) : Bytes :=
  es.flatMap fun e => leBytes w (value e)

def packDirents (es : List Dirent) : Bytes :=
  column 1 (fun e => boolByte e.isDir) es ++ es.flatMap fun e => strcpySlot e.name

def packDirentsExtended (es : List DirentExtended) : Bytes :=
  column 1 (fun e => boolByte e.isDir) es ++ column 8 (fun e => e.size.toNat) es ++
    column 8 (fun e => e.ctime.toUInt64.toNat) es ++ es.flatMap fun e => strcpySlot e.name

/-- Reply of a listing, and what it has pushed to the start of the client's buffer. -/
structure DirentsOut where
  err : Int32
  direntsSize : Nat
  pushed : Bytes

def outSize {ε : Type*} (name : ε → Bytes) (width : Nat) (es : List ε) : Nat :=
  (es.map fun e => (name e).length).sum + es.length * (width + 1)

/-- What the two handlers do with the entries of theirs. No reply is an aborted daemon. -/
def replyDirents {ε : Type*} (name : ε → Bytes) (width : Nat) (pack : List ε → Bytes) (bulkSize : Nat)
    (entries : Option (Except Failure (List ε))) : Option DirentsOut :=
  entries.map fun
    | .error _ => ⟨ EIO, 0, []⟩
    | .ok es =>
      if es.isEmpty then ⟨0, 0, []⟩
      else if bulkSize < outSize name width es then ⟨ENOBUFS, 0, []⟩
      else ⟨0, es.length, pack es⟩

def rpcSrvGetDirents (m : Mdb) (dir : Path) (bulkSize : Nat) : Option DirentsOut :=
  replyDirents Dirent.name 1 packDirents bulkSize (getDirents m dir)

def rpcSrvGetDirentsExtended (m : Mdb) (dir : Path) (bulkSize : Nat) : Option DirentsOut :=
  replyDirents DirentExtended.name 17 packDirentsExtended bulkSize (getDirentsExtended m dir)

inductive FileType where
  | regular
  | directory
  deriving DecidableEq

def fileType (isDir : Bool) : FileType := if isDir then .directory else .regular

/-- The client's loop over `n` entries, with `bool_ptr` and `names_ptr` as
positions of the buffer; `none` is a failed assertion. -/
def readDirents (perHost : Nat) (buf : Bytes) : Nat → Nat → Nat → Option (List (Bytes × FileType))
  | 0, _, _ => some []
  | n + 1, boolPtr, namesPtr =>
    if 0 < namesPtr ∧ namesPtr < perHost then
      let name := cString (buf.drop namesPtr)
      (readDirents perHost buf n (boolPtr + 1) (namesPtr + (name.length + 1))).map fun es =>
        (name, fileType (wordAt 1 buf boolPtr ≠ 0)) :: es
    else none

def readDirentsExtended (buf : Bytes) : Nat → Nat → Nat → Nat → Nat → List DirentExtended
  | 0, _, _, _, _ => []
  | n + 1, boolPtr, sizePtr, ctimePtr, namesPtr =>
    let name := cString (buf.drop namesPtr)
    ⟨name, wordAt 1 buf boolPtr ≠ 0, UInt64.ofNat (wordAt 8 buf sizePtr),
      (UInt64.ofNat (wordAt 8 buf ctimePtr)).toInt64⟩ ::
      readDirentsExtended buf n (boolPtr + 1) (sizePtr + 8) (ctimePtr + 8) (namesPtr + (name.length + 1))

def direntsBuffSize : Nat := 8 * 1024 * 1024

/-- One reply of a listing. The rest of the host's part of the buffer holds
whatever it held, `mem`. -/
def gatherDirents (perHost : Nat) (mem : Bytes) (acc : Int32 × List (Bytes × FileType)) :
    Option DirentsOut → Option (Int32 × List (Bytes × FileType))
  | none => some (EBUSY, acc.2)
  | some out =>
    if out.err ≠ 0 then some (out.err, acc.2)
    else (readDirents perHost (out.pushed ++ mem) out.direntsSize 0 out.direntsSize).map fun es =>
      (acc.1, acc.2 ++ es)

section Client

variable (d : SimpleHashDistributor) (dir : Path) (cl : Cluster)

def forwardGetDirents (mem : UInt64 → Bytes) : Option (Int32 × List (Bytes × FileType)) :=
  (allHosts d).foldlM (fun acc k =>
    gatherDirents (direntsBuffSize / (allHosts d).length) (mem k) acc
      (rpcSrvGetDirents (cl k).mdb dir (direntsBuffSize / (allHosts d).length))) (0, [])

/-- The listing of one server. Without a reply its entry count is 0. -/
def forwardGetDirentsSingle (mem : Bytes) (server : UInt64) : Int32 × List DirentExtended :=
  match rpcSrvGetDirentsExtended (cl server).mdb dir direntsBuffSize with
  | none => (EBUSY, [])
  | some out => (out.err, readDirentsExtended (out.pushed ++ mem) out.direntsSize 0 out.direntsSize
      (out.direntsSize * 9) (out.direntsSize * 17))

end Client

section Scan

/-- The record under a key, of keys that have one. -/
def recordAt (key : Key) : Option Metadata :=
  match getMetadata key with
  | some (.ok md) => some md
  | _ => none

/-- The entry that a key makes in the listing of `root`. -/
def listed (root : Path) (e : Bytes × Key) : Option (Bytes × Metadata) :=
  if e.1.length = root.length ∨ separator ∈ e.1.drop root.length then none
  else (recordAt e.2).map fun md => (e.1.drop root.length, md)

theorem scan_listed {root : Path} {es : List (Bytes × Key)}
    (hvalue : ∀ e ∈ es, ∃ value, getStr e.2 = some (.ok value))
    (hrecord : ∀ e ∈ es, root <+: e.1 → ∃ md, getMetadata e.2 = some (.ok md)) :
    scan root es = some (.ok ((es.takeWhile fun e => root <+: e.1).filterMap (listed root))) := by
  induction es with
  | nil => rfl
  | cons e es ih =>
    obtain ⟨k, key⟩ := e
    obtain ⟨value, hv⟩ := hvalue _ List.mem_cons_self
    have ih' := ih (fun x hx => hvalue x (List.mem_cons_of_mem _ hx))
      fun x hx => hrecord x (List.mem_cons_of_mem _ hx)
    by_cases hp : root <+: k
    · obtain ⟨md, hmd⟩ := hrecord _ List.mem_cons_self hp
      have hdecode : Metadata.decode config value = .ok md := by
        simp only [getMetadata, hv, Option.bind_some] at hmd
        split at hmd <;> simp_all
      by_cases hskip : k.length = root.length ∨ separator ∈ k.drop root.length
      · simp [scan, hv, hp, hskip, ih', listed]
      · simp [scan, hv, hp, hskip, ih', listed, hdecode, recordAt, hmd, Except.map]
    · simp [scan, hv, hp]

/-- Every key of the database has a value, and those outside the first-chunk
records have a metadata record. -/
def Readable (m : Mdb) : Prop :=
  ∀ b v, (b, v) ∈ m.map.entries → (∃ value, getStr v = some (.ok value)) ∧
    (isAbsolute b = true → ∃ md, getMetadata v = some (.ok md))

def visited (m : Mdb) (root : Path) : List (Bytes × Metadata) :=
  (m.map.entries.filter fun e => root <+: e.1).filterMap (listed root)

theorem isAbsolute_rootPath {dir : Path} (h : isAbsolute dir = true) : isAbsolute (rootPath dir) = true := by
  rw [rootPath]
  split
  · cases dir with
    | nil => cases h
    | cons b dir => exact h
  · exact h

theorem isAbsolute_of_prefix {p b : Path} (hp : isAbsolute p = true) (h : p <+: b) :
    isAbsolute b = true := by
  cases p with
  | nil => cases hp
  | cons a p =>
    obtain ⟨t, rfl⟩ := h
    exact hp

theorem getDirentsWith_eq {ε : Type*} (entry : Bytes → Metadata → ε) {m : Mdb} (hm : Readable m)
    {dir : Path} (hdir : isAbsolute dir = true) :
    getDirentsWith entry m dir = some (.ok ((visited m (rootPath dir)).map fun e => entry e.1 e.2)) := by
  have hsub : ∀ e ∈ m.map.seek (rootPath dir), e ∈ m.map.entries := fun e he =>
    (List.dropWhile_sublist _).subset he
  rw [getDirentsWith, if_pos hdir, scan_listed, SortedMap.scan_eq]
  · rfl
  · exact fun e he => (hm e.1 e.2 (hsub e he)).1
  · exact fun e he hp => (hm e.1 e.2 (hsub e he)).2 ( isAbsolute_of_prefix (isAbsolute_rootPath hdir) hp)

theorem recordAt_eq_some {key : Key} {md : Metadata} :
    recordAt key = some md ↔ getMetadata key = some (.ok md) := by
  rw [recordAt]
  split
  · rename_i h
    rw [h]
    simp
  · rename_i h
    constructor
    · intro hn
      cases hn
    · exact fun hk => absurd hk (h md)

theorem listed_append {root name : Path} {key : Key} {n : Bytes} {md : Metadata} :
    listed root (root ++ name, key) = some (n, md) ↔
      n = name ∧ name ≠ [] ∧ separator ∉ name ∧ getMetadata key = some (.ok md) := by
  rw [listed, List.drop_left, ← recordAt_eq_some]
  split
  · rename_i h
    constructor
    · intro hn
      cases hn
    · rintro ⟨-, hne, hsep, -⟩
      cases h with
      | inl hlen => exact absurd (List.length_eq_zero_iff.mp (by simpa using hlen)) hne
      | inr hmem => exact absurd hmem hsep
  · rename_i h
    rw [not_or] at h
    have hne : name ≠ [] := by
      rintro rfl
      exact h.1 (by simp)
    cases hr : recordAt key with
    | none => simp
    | some md' => simp [hne, h.2, eq_comm]

/-- The names are those of the keys right below the directory. -/
theorem mem_visited {m : Mdb} {root name : Path} {md : Metadata} :
    (name, md) ∈ visited m root ↔ name ≠ [] ∧ separator ∉ name ∧
      getMetadata (m.key (root ++ name)) = some (.ok md) := by
  rw [visited, List.mem_filterMap]
  constructor
  · rintro ⟨⟨b, key⟩, he, hl⟩
    obtain ⟨hmem, hp⟩ := List.mem_filter.mp he
    obtain ⟨rest, rfl⟩ := of_decide_eq_true hp
    obtain ⟨rfl, hne, hsep, hmd⟩ := listed_append.mp hl
    exact ⟨hne, hsep, by rw [(Mdb.mem_entries.mp hmem).1]; exact hmd⟩
  · rintro ⟨hne, hsep, hmd⟩
    have hlive : m.key (root ++ name) ≠ Key.absent := by
      intro habs
      rw [habs] at hmd
      cases hmd
    refine ⟨(root ++ name, m.key (root ++ name)), List.mem_filter.mpr
      ⟨Mdb.mem_entries.mpr ⟨rfl, hlive⟩, decide_eq_true (List.prefix_append _ _)⟩, ?_⟩
    exact listed_append.mpr ⟨rfl, hne, hsep, hmd⟩

theorem visited_nodup (m : Mdb) (root : Path) : ((visited m root).map Prod.fst).Nodup := by
  refine List.pairwise_map.mpr (List.Pairwise.filterMap _ ?_
    ((m.map.sorted.filter _).imp_of_mem (S := fun a b => root <+: a.1 ∧ root <+: b.1 ∧ a.1 ≠ b.1) ?_))
  · rintro ⟨a, ka⟩ ⟨b, kb⟩ ⟨⟨s, rfl⟩, ⟨t, rfl⟩, hne⟩ ⟨n, md⟩ hn ⟨n', md'⟩ hn'
    obtain ⟨rfl, -⟩ := listed_append.mp hn
    obtain ⟨rfl, -⟩ := listed_append.mp hn'
    exact fun he => hne (congrArg (root ++ ·) he)
  · intro a b ha hb hlt
    exact ⟨of_decide_eq_true (List.mem_filter.mp ha).2, of_decide_eq_true (List.mem_filter.mp hb).2,
      ne_of_lt hlt⟩

end Scan

section Transfer

variable {ε : Type*} {buf X : Bytes}

theorem length_column (w : Nat) (value : ε → Nat) (es : List ε) :
    (column w value es).length = es.length * w := by
  induction es with
  | nil => simp [column]
  | cons e es ih =>
    rw [column, List.flatMap_cons, List.length_append, length_leBytes, ← column, ih,
      List.length_cons, Nat.add_mul, Nat.one_mul, Nat.add_comm]

/-- The first value of a column, and where the column goes on. -/
theorem column_cons {w pos : Nat} {value : ε → Nat} {e : ε} {es : List ε}
    (h : buf.drop pos = column w value (e :: es) ++ X) (hv : value e < 256 ^ w) :
    wordAt w buf pos = value e ∧ buf.drop (pos + w) = column w value es ++ X := by
  rw [column, List.flatMap_cons, List.append_assoc] at h
  refine ⟨wordAt_leBytes h hv, ?_⟩
  rw [← List.drop_drop, h, List.drop_left' (length_leBytes w _)]
  rfl

theorem cString_append {name rest : Bytes} (h : ∀ b ∈ name, notNul b = true) :
    cString (name ++ 0 :: rest) = name := by
  rw [cString, List.takeWhile_append_of_pos h]
  exact List.append_nil _

theorem strcpySlot_eq {name : Bytes} (h : ∀ b ∈ name, notNul b = true) :
    strcpySlot name = name ++ [0] := by
  rw [strcpySlot, (cString_eq_self_iff name).mpr h, Nat.add_sub_cancel_left]
  rfl

/-- The first name, and where the names go on. -/
theorem names_cons (name : ε → Bytes) {pos : Nat} {e : ε} {es : List ε}
    (h : buf.drop pos = (e :: es).flatMap (fun e => strcpySlot (name e)) ++ X)
    (hname : ∀ b ∈ name e, notNul b = true) :
    cString (buf.drop pos) = name e ∧
      buf.drop (pos + ((name e).length + 1)) = es.flatMap (fun e => strcpySlot (name e)) ++ X := by
  rw [List.flatMap_cons, strcpySlot_eq hname, List.append_assoc, List.append_assoc,
    List.singleton_append] at h
  refine ⟨by rw [h, cString_append hname], ?_⟩
  rw [← List.drop_drop, h, ← List.drop_drop, List.drop_left]
  rfl

theorem boolByte_lt (b : Bool) : boolByte b < 256 ^ 1 := by cases b <;> decide

theorem boolByte_ne_zero (b : Bool) : decide (boolByte b ≠ 0) = b := by cases b <;> rfl

theorem readDirents_pack {perHost b p : Nat} {Y : Bytes} (es : List Dirent)
    (hnames : ∀ e ∈ es, ∀ c ∈ e.name, notNul c = true)
    (hb : buf.drop b = column 1 (fun e => boolByte e.isDir) es ++ X)
    (hp : buf.drop p = es.flatMap (fun e => strcpySlot e.name) ++ Y) (h0 : 0 < p)
    (hfit : p + (es.map fun e => e.name.length + 1).sum ≤ perHost) :
    readDirents perHost buf es.length b p = some (es.map fun e => (e.name, fileType e.isDir)) := by
  induction es generalizing b p with
  | nil => rfl
  | cons e es ih =>
    obtain ⟨hword, hb'⟩ := column_cons hb (boolByte_lt e.isDir)
    obtain ⟨hname, hp'⟩ := names_cons Dirent.name hp (hnames e List.mem_cons_self)
    rw [List.map_cons, List.sum_cons] at hfit
    have hlt : p < perHost := by omega
    have hrest := ih (fun x hx => hnames x (List.mem_cons_of_mem e hx)) hb' hp' (by omega) (by omega)
    simp only [List.length_cons, readDirents, h0, hlt, and_self, if_true, hname, hword,
      boolByte_ne_zero, hrest, Option.map_some, List.map_cons]

theorem readDirentsExtended_pack {b s t p : Nat} {Y Z W : Bytes} (es : List DirentExtended)
    (hnames : ∀ e ∈ es, ∀ c ∈ e.name, notNul c = true)
    (hb : buf.drop b = column 1 (fun e => boolByte e.isDir) es ++ X)
    (hs : buf.drop s = column 8 (fun e => e.size.toNat) es ++ Y)
    (ht : buf.drop t = column 8 (fun e => e.ctime.toUInt64.toNat) es ++ Z)
    (hp : buf.drop p = es.flatMap (fun e => strcpySlot e.name) ++ W) :
    readDirentsExtended buf es.length b s t p = es := by
  induction es generalizing b s t p with
  | nil => rfl
  | cons e es ih =>
    obtain ⟨hbool, hb'⟩ := column_cons hb (boolByte_lt e.isDir)
    obtain ⟨hsize, hs'⟩ := column_cons hs e.size.toNat_lt
    obtain ⟨htime, ht'⟩ := column_cons ht e.ctime.toUInt64.toNat_lt
    obtain ⟨hname, hp'⟩ := names_cons DirentExtended.name hp (hnames e List.mem_cons_self)
    have hrest := ih (fun x hx => hnames x (List.mem_cons_of_mem e hx)) hb' hs' ht' hp'
    simp only [List.length_cons, readDirentsExtended, hname, hbool, hsize, htime, boolByte_ne_zero,
      hrest, UInt64.ofNat_toNat, Int64.toInt64_toUInt64]

end Transfer

section Replies

theorem sum_slots {ε : Type*} (name : ε → Bytes) (es : List ε) :
    (es.map fun e => (name e).length + 1).sum = (es.map fun e => (name e).length).sum + es.length := by
  induction es with
  | nil => rfl
  | cons e es ih =>
    rw [List.map_cons, List.map_cons, List.sum_cons, List.sum_cons, List.length_cons, ih]
    omega

theorem replyDirents_ok {ε : Type*} {name : ε → Bytes} {width bulkSize : Nat} (pack : List ε → Bytes)
    {es : List ε} (hne : es ≠ []) (hfit : outSize name width es ≤ bulkSize) :
    replyDirents name width pack bulkSize (some (.ok es)) = some ⟨0, es.length, pack es⟩ := by
  have hempty : es.isEmpty = false := List.isEmpty_eq_false_iff.mpr hne
  simp only [replyDirents, Option.map_some, hempty, Bool.false_eq_true, if_false,
    if_neg (Nat.not_lt.mpr hfit)]

theorem gatherDirents_reply {perHost : Nat} (mem : Bytes) (acc : Int32 × List (Bytes × FileType))
    {es : List Dirent} (hnames : ∀ e ∈ es, ∀ c ∈ e.name, notNul c = true)
    (hfit : outSize Dirent.name 1 es ≤ perHost) :
    gatherDirents perHost mem acc
        (replyDirents Dirent.name 1 packDirents perHost (some (.ok es))) =
      some (acc.1, acc.2 ++ es.map fun e => (e.name, fileType e.isDir)) := by
  by_cases hne : es = []
  · subst hne
    simp [replyDirents, gatherDirents, readDirents]
  · have hread : readDirents perHost (packDirents es ++ mem) es.length 0 es.length =
        some (es.map fun e => (e.name, fileType e.isDir)) := by
      apply readDirents_pack (X := es.flatMap (fun e => strcpySlot e.name) ++ mem) (Y := mem) es hnames
      · rw [List.drop_zero, packDirents, List.append_assoc]
      · rw [packDirents, List.append_assoc]
        exact List.drop_left' (by rw [length_column, Nat.mul_one])
      · exact List.length_pos_of_ne_nil hne
      · rw [outSize] at hfit
        rw [sum_slots]
        omega
    simp [replyDirents_ok packDirents hne hfit, gatherDirents, hread]

theorem gatherDirents_overflow {perHost : Nat} (mem : Bytes) (acc : Int32 × List (Bytes × FileType))
    {es : List Dirent} (hfit : perHost < outSize Dirent.name 1 es) :
    gatherDirents perHost mem acc
        (replyDirents Dirent.name 1 packDirents perHost (some (.ok es))) = some (ENOBUFS, acc.2) := by
  have hempty : es.isEmpty = false := by
    cases es with
    | nil => exact absurd hfit (Nat.not_lt_zero _)
    | cons e es => rfl
  simp only [replyDirents, Option.map_some, hempty, Bool.false_eq_true, if_false, if_pos hfit]
  rfl

theorem readDirentsExtended_reply (mem : Bytes) {es : List DirentExtended}
    (hnames : ∀ e ∈ es, ∀ c ∈ e.name, notNul c = true) :
    readDirentsExtended (packDirentsExtended es ++ mem) es.length 0 es.length (es.length * 9)
      (es.length * 17) = es := by
  have h1 := length_column 1 (fun e : DirentExtended => boolByte e.isDir) es
  have h8 := length_column 8 (fun e : DirentExtended => e.size.toNat) es
  have h8' := length_column 8 (fun e : DirentExtended => e.ctime.toUInt64.toNat) es
  apply readDirentsExtended_pack es hnames (W := mem)
  · rw [List.drop_zero, packDirentsExtended, List.append_assoc, List.append_assoc, List.append_assoc]
  · rw [packDirentsExtended, List.append_assoc, List.append_assoc, List.append_assoc]
    exact List.drop_left' (by omega)
  · rw [packDirentsExtended, List.append_assoc, List.append_assoc]
    exact List.drop_left' (by rw [List.length_append]; omega)
  · rw [packDirentsExtended, List.append_assoc]
    exact List.drop_left' (by rw [List.length_append, List.length_append]; omega)

theorem forwardGetDirentsSingle_eq {dir : Path} {cl : Cluster} {server : UInt64} (mem : Bytes)
    {es : List DirentExtended} (hes : getDirentsExtended (cl server).mdb dir = some (.ok es))
    (hnames : ∀ e ∈ es, ∀ c ∈ e.name, notNul c = true)
    (hfit : outSize DirentExtended.name 17 es ≤ direntsBuffSize) :
    forwardGetDirentsSingle dir cl mem server = (0, es) := by
  rw [forwardGetDirentsSingle, rpcSrvGetDirentsExtended, hes]
  by_cases hne : es = []
  · subst hne
    rfl
  · rw [replyDirents_ok packDirentsExtended hne hfit]
    exact congrArg (Prod.mk 0) (readDirentsExtended_reply mem hnames)

end Replies

end GaoFS.Dirents
