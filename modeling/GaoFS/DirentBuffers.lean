import GaoFS.Dirents
import GaoFS.Library.Columns

namespace GaoFS.DirentBuffers

open Replies Dirents Library.NumberText Library.Wire Library.Columns

variable {ε : Type*}

/-- `bool_ptr`, `size_ptr` and `ctime_ptr`. -/
def valuePtr (w : Nat) (value : ε → Nat) : Cursor UInt8 ε where
  store e := leBytes w (value e)
  step _ := w

/-- `name_ptr`, at which `strcpy` copies a name up to its first zero. -/
def namePtr (name : ε → Bytes) : Cursor UInt8 ε where
  store e := cString (name e) ++ [0]
  step e := (name e).length + 1

/-- The loop of `rpc_srv_get_dirents`. No buffer is a store outside of it. -/
def fillDirents (es : List Dirent) : Bytes → Option Bytes :=
  storeAll es [(valuePtr 1 fun e => boolByte e.isDir, 0), (namePtr Dirent.name, es.length * 1)]

def fillDirentsExtended (es : List DirentExtended) : Bytes → Option Bytes :=
  storeAll es [(valuePtr 1 fun e => boolByte e.isDir, 0),
    (valuePtr 8 fun e => e.size.toNat, es.length * 1),
    (valuePtr 8 fun e => e.ctime.toUInt64.toNat, es.length * 9),
    (namePtr DirentExtended.name, es.length * 17)]

/-- The two handlers behind their listing. `bulkBuf` is the buffer of `out_size` bytes that
they have allocated. -/
def serve (name : ε → Bytes) (width : Nat) (fill : List ε → Bytes → Option Bytes) (bulkSize : Nat)
    (es : List ε) (bulkBuf : Bytes) : Option DirentsOut :=
  if es.isEmpty then some ⟨0, 0, []⟩
  else if bulkSize < outSize name width es then some ⟨ENOBUFS, 0, []⟩
  else (fill es bulkBuf).map fun buf => ⟨0, es.length, buf⟩

/-- The decoder of `forward_get_dirents`, with `mem` behind what has been pushed. -/
def decodeDirents (bulkSize : Nat) (out : DirentsOut) (mem : Bytes) : Option (List (Bytes × FileType)) :=
  readDirents bulkSize (out.pushed ++ mem) out.direntsSize 0 out.direntsSize

def decodeDirentsExtended (out : DirentsOut) (mem : Bytes) : Option (List DirentExtended) :=
  some (readDirentsExtended (out.pushed ++ mem) out.direntsSize 0 out.direntsSize
    (out.direntsSize * 9) (out.direntsSize * 17))

/-- What a buffer of entries is for: the client has the entries again, or is told that its
own buffer is too small. -/
structure RoundTrips {δ : Type*} (name : ε → Bytes) (width bulkSize : Nat) (es : List ε)
    (reply : Bytes → Option DirentsOut) (decode : DirentsOut → Bytes → Option δ) (result : δ) :
    Prop where
  overflow : bulkSize < outSize name width es → ∀ bulkBuf, reply bulkBuf = some ⟨ENOBUFS, 0, []⟩
  fits : outSize name width es ≤ bulkSize →
    ∃ out, out.err = 0 ∧ out.direntsSize = es.length ∧ out.pushed.length = outSize name width es ∧
      (∀ bulkBuf, bulkBuf.length = outSize name width es → reply bulkBuf = some out) ∧
      ∀ mem, decode out mem = some result

section Fill

theorem store_namePtr {name : ε → Bytes} {e : ε} (h : ∀ c ∈ name e, notNul c = true) :
    (namePtr name).store e = strcpySlot (name e) := by
  change cString (name e) ++ [0] = _
  rw [strcpySlot_eq h, (cString_eq_self_iff (name e)).mpr h]

theorem length_store_namePtr {name : ε → Bytes} {e : ε} (h : ∀ c ∈ name e, notNul c = true) :
    ((namePtr name).store e).length = (namePtr name).step e := by
  rw [store_namePtr h, strcpySlot_eq h, List.length_append]
  rfl

theorem sum_width (w : Nat) (es : List ε) : (es.map fun _ => w).sum = es.length * w := by
  induction es with
  | nil => rw [List.map_nil, List.sum_nil, List.length_nil, Nat.zero_mul]
  | cons e es ih => rw [List.map_cons, List.sum_cons, ih, List.length_cons, Nat.add_mul, Nat.one_mul, Nat.add_comm]

theorem outSize_eq (name : ε → Bytes) (width : Nat) (es : List ε) :
    outSize name width es = es.length * width + (es.map (namePtr name).step).sum := by
  have hslots : (es.map (namePtr name).step).sum = (es.map fun e => (name e).length).sum + es.length :=
    sum_slots name es
  rw [outSize, hslots, Nat.mul_add]
  omega

theorem flatMap_namePtr {name : ε → Bytes} {es : List ε}
    (h : ∀ e ∈ es, ∀ c ∈ name e, notNul c = true) :
    es.flatMap (namePtr name).store = es.flatMap fun e => strcpySlot (name e) :=
  List.flatMap_congr fun e he => store_namePtr (h e he)

/-- The loop stays inside the buffer and leaves nothing of what it held. -/
theorem fillDirents_eq {es : List Dirent} (hnames : ∀ e ∈ es, ∀ c ∈ e.name, notNul c = true)
    {bulkBuf : Bytes} (h : bulkBuf.length = outSize Dirent.name 1 es) :
    fillDirents es bulkBuf = some (packDirents es) := by
  have hstarts : starts es 0 [valuePtr 1 fun e => boolByte e.isDir, namePtr Dirent.name] =
      [(valuePtr 1 fun e => boolByte e.isDir, 0), (namePtr Dirent.name, es.length * 1)] := by
    simp only [starts, valuePtr, sum_width, Nat.zero_add]
  rw [fillDirents, ← hstarts, storeAll_starts]
  · simp only [List.flatMap_cons, List.flatMap_nil, List.append_nil, flatMap_namePtr hnames]
    rfl
  · simp only [List.forall_mem_cons]
    refine ⟨fun e _ => length_leBytes 1 _, fun e he => length_store_namePtr (hnames e he), ?_⟩
    exact List.forall_mem_nil _
  · rw [h, outSize_eq]
    simp only [List.map_cons, List.map_nil, List.sum_cons, List.sum_nil, Nat.add_zero]
    rw [← sum_width 1 es]
    rfl

theorem fillDirentsExtended_eq {es : List DirentExtended}
    (hnames : ∀ e ∈ es, ∀ c ∈ e.name, notNul c = true) {bulkBuf : Bytes}
    (h : bulkBuf.length = outSize DirentExtended.name 17 es) :
    fillDirentsExtended es bulkBuf = some (packDirentsExtended es) := by
  have hstarts : starts es 0 [valuePtr 1 fun e => boolByte e.isDir, valuePtr 8 fun e => e.size.toNat,
        valuePtr 8 fun e => e.ctime.toUInt64.toNat, namePtr DirentExtended.name] =
      [(valuePtr 1 fun e => boolByte e.isDir, 0), (valuePtr 8 fun e => e.size.toNat, es.length * 1),
        (valuePtr 8 fun e => e.ctime.toUInt64.toNat, es.length * 9),
        (namePtr DirentExtended.name, es.length * 17)] := by
    simp only [starts, valuePtr, sum_width, Nat.zero_add, ← Nat.mul_add]
  rw [fillDirentsExtended, ← hstarts, storeAll_starts]
  · simp only [List.flatMap_cons, List.flatMap_nil, List.append_nil, flatMap_namePtr hnames]
    rw [packDirentsExtended, List.append_assoc, List.append_assoc]
    rfl
  · simp only [List.forall_mem_cons]
    refine ⟨fun e _ => length_leBytes 1 _, fun e _ => length_leBytes 8 _,
      fun e _ => length_leBytes 8 _, fun e he => length_store_namePtr (hnames e he), ?_⟩
    exact List.forall_mem_nil _
  · rw [h, outSize_eq]
    simp only [List.map_cons, List.map_nil, List.sum_cons, List.sum_nil, Nat.add_zero, valuePtr,
      sum_width]
    omega

/-- What the handlers reply is what the listing has been said to reply. -/
theorem serve_eq_replyDirents (name : ε → Bytes) (width bulkSize : Nat)
    {fill : List ε → Bytes → Option Bytes} {pack : List ε → Bytes} {es : List ε} {bulkBuf : Bytes}
    (hfill : fill es bulkBuf = some (pack es)) :
    serve name width fill bulkSize es bulkBuf = replyDirents name width pack bulkSize (some (.ok es)) := by
  simp only [serve, replyDirents, Option.map_some, hfill]
  split
  · rfl
  · split
    · rfl
    · rfl

theorem serve_overflow {name : ε → Bytes} {width bulkSize : Nat} (fill : List ε → Bytes → Option Bytes)
    {es : List ε} (hne : es ≠ []) (h : bulkSize < outSize name width es) (bulkBuf : Bytes) :
    serve name width fill bulkSize es bulkBuf = some ⟨ENOBUFS, 0, []⟩ := by
  have hempty : es.isEmpty = false := List.isEmpty_eq_false_iff.mpr hne
  rw [serve, hempty, if_neg (by decide), if_pos h]

end Fill

section Result

theorem length_names {name : ε → Bytes} {es : List ε} (h : ∀ e ∈ es, ∀ c ∈ name e, notNul c = true) :
    (es.flatMap fun e => strcpySlot (name e)).length = (es.map (namePtr name).step).sum := by
  have hslot : ∀ e ∈ es, (strcpySlot (name e)).length = (namePtr name).step e := by
    intro e he
    rw [← store_namePtr (h e he), length_store_namePtr (h e he)]
  rw [List.length_flatMap, List.map_congr_left hslot]

theorem length_packDirents {es : List Dirent} (h : ∀ e ∈ es, ∀ c ∈ e.name, notNul c = true) :
    (packDirents es).length = outSize Dirent.name 1 es := by
  rw [packDirents, List.length_append, length_column, length_names h, outSize_eq]

theorem length_packDirentsExtended {es : List DirentExtended}
    (h : ∀ e ∈ es, ∀ c ∈ e.name, notNul c = true) :
    (packDirentsExtended es).length = outSize DirentExtended.name 17 es := by
  rw [packDirentsExtended, List.length_append, List.length_append, List.length_append, length_column,
    length_column, length_column, length_names h, outSize_eq]
  omega

theorem decodeDirents_pack {bulkSize : Nat} {es : List Dirent} (hne : es ≠ [])
    (hnames : ∀ e ∈ es, ∀ c ∈ e.name, notNul c = true) (hfit : outSize Dirent.name 1 es ≤ bulkSize)
    (mem : Bytes) :
    decodeDirents bulkSize ⟨0, es.length, packDirents es⟩ mem =
      some (es.map fun e => (e.name, fileType e.isDir)) := by
  have hgather := gatherDirents_reply mem (0, []) hnames hfit
  rw [replyDirents_ok packDirents hne hfit, gatherDirents, if_neg (not_not.mpr rfl)] at hgather
  obtain ⟨read, hread, hres⟩ := Option.map_eq_some_iff.mp hgather
  rw [List.nil_append, Prod.mk.injEq, List.nil_append] at hres
  rw [decodeDirents, hread, hres.2]

/-- A listing goes through its buffer unchanged if the buffer is as large as what the
handler computes, and otherwise not at all. -/
theorem dirents_roundTrip (es : List Dirent) (hne : es ≠ [])
    (hnames : ∀ e ∈ es, e.name ≠ [] ∧ ∀ c ∈ e.name, notNul c = true) (xs : List DirentExtended)
    (hne' : xs ≠ []) (hnames' : ∀ x ∈ xs, x.name ≠ [] ∧ ∀ c ∈ x.name, notNul c = true)
    (bulkSize : Nat) :
    RoundTrips Dirent.name 1 bulkSize es (serve Dirent.name 1 fillDirents bulkSize es)
        (decodeDirents bulkSize) (es.map fun e => (e.name, fileType e.isDir)) ∧
      RoundTrips DirentExtended.name 17 bulkSize xs
        (serve DirentExtended.name 17 fillDirentsExtended bulkSize xs) decodeDirentsExtended xs := by
  have hclean : ∀ e ∈ es, ∀ c ∈ e.name, notNul c = true := fun e he => (hnames e he).2
  have hclean' : ∀ x ∈ xs, ∀ c ∈ x.name, notNul c = true := fun x hx => (hnames' x hx).2
  constructor
  · refine ⟨serve_overflow fillDirents hne, fun hfit => ?_⟩
    refine ⟨⟨0, es.length, packDirents es⟩, rfl, rfl, length_packDirents hclean, fun bulkBuf hbuf => ?_,
      decodeDirents_pack hne hclean hfit⟩
    rw [serve_eq_replyDirents Dirent.name 1 bulkSize (fillDirents_eq hclean hbuf),
      replyDirents_ok packDirents hne hfit]
  · refine ⟨serve_overflow fillDirentsExtended hne', fun hfit => ?_⟩
    refine ⟨⟨0, xs.length, packDirentsExtended xs⟩, rfl, rfl, length_packDirentsExtended hclean',
      fun bulkBuf hbuf => ?_, fun mem => congrArg some (readDirentsExtended_reply mem hclean')⟩
    rw [serve_eq_replyDirents DirentExtended.name 17 bulkSize (fillDirentsExtended_eq hclean' hbuf),
      replyDirents_ok packDirentsExtended hne' hfit]

/-- A file of one byte and a directory behind it, in buffers that are just large enough, and with sizes
and times in one that is not. -/
theorem two_dirents_roundTrip :
    let es : List Dirent := [⟨[97], false⟩, ⟨[98, 99, 100], true⟩]
    let xs : List DirentExtended := [⟨[97], false, 1, 7⟩, ⟨[98, 99, 100], true, 0, 9⟩]
    (outSize Dirent.name 1 es = 8 ∧ RoundTrips Dirent.name 1 8 es (serve Dirent.name 1 fillDirents 8 es)
      (decodeDirents 8) [([97], .regular), ([98, 99, 100], .directory)]) ∧
    (outSize DirentExtended.name 17 xs = 40 ∧ RoundTrips DirentExtended.name 17 40 xs
      (serve DirentExtended.name 17 fillDirentsExtended 40 xs) decodeDirentsExtended xs) ∧
    RoundTrips DirentExtended.name 17 8 xs (serve DirentExtended.name 17 fillDirentsExtended 8 xs)
      decodeDirentsExtended xs := by
  intro es xs
  have h := dirents_roundTrip es (by decide) (by simp [es, notNul]) xs (by decide) (by simp [xs, notNul])
  exact ⟨⟨rfl, (h 8).1⟩, ⟨rfl, (h 40).2⟩, (h 8).2⟩

end Result

end GaoFS.DirentBuffers
