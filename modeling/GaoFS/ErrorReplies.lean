import GaoFS.GaofsFunctions

namespace GaoFS.ErrorReplies

open Replies MetadataRecord MetadataKey GaofsFunctions Library.NumberText

/-- The system calls that send a create, `mkdirat` and an `openat` with `O_CREAT`. -/
inductive Creator where
  | mkdirat
  | openat (flags : UInt32)

/-- A metadata request, with the outcomes of the backend calls that its handler
makes. To get a record includes to parse it, but for `stat`. -/
inductive Request where
  | create (creator : Creator) (put : Except Failure Unit)
  | stat (getStr : Except Failure Metadata)
  | decrSize (merge : Except Failure Unit)
  | removeMetadata (get : Except Failure Metadata) (remove removeFirstChunk destroy : Except Failure Unit)
  | removeData (removeFirstChunk destroy : Except Failure Unit)
  | updateMetadentry (get : Except Failure Metadata) (update : Except Failure Unit)
  | updateMetadentrySize (size : UInt64) (offset : Int64) (merge : Except Failure Unit)
  | getMetadentrySize (get : Except Failure Metadata)
  | mkSymlink (put : Except Failure Unit)

section Daemon

/-- `metadata::remove` and `metadata::remove_first_chunk` do not mind a missing key. -/
def ignoreNotFound : Except Failure Unit → Except Failure Unit
  | .error .notFoundException => .ok ()
  | r => r

def removeDataBody (removeFirstChunk destroy : Except Failure Unit) : Except Failure Unit := do
  ignoreNotFound removeFirstChunk
  destroy

def removeMetadataBody (get : Except Failure Metadata) (remove removeFirstChunk destroy : Except Failure Unit) :
    Except Failure Unit := do
  let md ← get
  ignoreNotFound remove
  if S_ISREG md.mode = true ∧ md.size ≠ 0 then
    removeDataBody removeFirstChunk destroy

def updateMetadentryBody (get : Except Failure Metadata) (update : Except Failure Unit) :
    Except Failure Unit := do
  let _ ← get
  update

/-- What leaves the `try` block of the handler. -/
def body : Request → Except Failure Unit
  | .create _ put => put
  | .stat getStr => getStr.map fun _ => ()
  | .decrSize merge => merge
  | .removeMetadata get remove removeFirstChunk destroy =>
    removeMetadataBody get remove removeFirstChunk destroy
  | .removeData removeFirstChunk destroy => removeDataBody removeFirstChunk destroy
  | .updateMetadentry get update => updateMetadentryBody get update
  | .updateMetadentrySize _ _ merge => merge
  | .getMetadentrySize get => get.map fun _ => ()
  | .mkSymlink put => put

def rpcSrvCreate (put : Except Failure Unit) : Int32 := createErr put

/-- Without a record `db_val` stays null. -/
def rpcSrvStat (getStr : Except Failure Metadata) : StatOut where
  err := statErr getStr
  dbVal := match getStr with
    | .ok md => some (cString (md.serialize config))
    | .error _ => none

def rpcSrvDecrSize (merge : Except Failure Unit) : Int32 := decrSizeErr merge

/-- Mode and size are set before the data is removed. -/
def rpcSrvRemoveMetadata (get : Except Failure Metadata)
    (remove removeFirstChunk destroy : Except Failure Unit) : RmMetadataOut :=
  let err := removeErr (removeMetadataBody get remove removeFirstChunk destroy)
  match get, ignoreNotFound remove with
  | .ok md, .ok _ => ⟨err, md.mode, md.size.toInt64⟩
  | _, _ => ⟨err, 0, 0⟩

def rpcSrvRemoveData (removeFirstChunk destroy : Except Failure Unit) : Int32 :=
  removeErr (removeDataBody removeFirstChunk destroy)

def rpcSrvUpdateMetadentry (get : Except Failure Metadata) (update : Except Failure Unit) : Int32 :=
  if (updateMetadentryBody get update).isOk then 0 else 1

def rpcSrvUpdateMetadentrySize (size : UInt64) (offset : Int64) (merge : Except Failure Unit) : SizeOut :=
  updateMetadentrySizeOut merge size offset

def rpcSrvGetMetadentrySize (get : Except Failure Metadata) : SizeOut :=
  getMetadentrySizeOut (get.map Metadata.size)

def rpcSrvMkSymlink (put : Except Failure Unit) : Int32 := if put.isOk then 0 else -1

/-- The error of the reply. -/
def replyErr : Request → Int32
  | .create _ put => rpcSrvCreate put
  | .stat getStr => (rpcSrvStat getStr).err
  | .decrSize merge => rpcSrvDecrSize merge
  | .removeMetadata get remove removeFirstChunk destroy =>
    (rpcSrvRemoveMetadata get remove removeFirstChunk destroy).err
  | .removeData removeFirstChunk destroy => rpcSrvRemoveData removeFirstChunk destroy
  | .updateMetadentry get update => rpcSrvUpdateMetadentry get update
  | .updateMetadentrySize size offset merge => (rpcSrvUpdateMetadentrySize size offset merge).err
  | .getMetadentrySize get => (rpcSrvGetMetadentrySize get).err
  | .mkSymlink put => rpcSrvMkSymlink put

end Daemon

section Client

/-- The `forward_*` functions return the error of the reply. -/
def forwardErr (err : Int32) : Int32 := if err ≠ 0 then err else 0

/-- The system call puts an error into `errno` and returns -1 to its hook. It goes
on if there is none. -/
def gaofsFails (err : Int32) : Option Int64 :=
  if err ≠ 0 then some (withErrno err (-1)) else none

/-- The same in `gaofs_lseek`, whose hook has no `with_errno`. -/
def gaofsLseekFails (err : Int32) : Option Int64 :=
  if err ≠ 0 then some (lseekErrno err (-1)) else none

/-- `gaofs_open` goes on with the file that is there, unless it must not be there. -/
def takesExisting : Creator → Int32 → Bool
  | .mkdirat, _ => false
  | .openat flags, err => err == EEXIST && !hasFlag flags O_EXCL

/-- With what the system call that sent the request returns because of the reply.
Without a value it goes on with what the reply says. -/
def returned : Request → Option Int64
  | .create creator put =>
    let err := forwardErr (rpcSrvCreate put)
    if takesExisting creator err then none else gaofsFails err
  | .getMetadentrySize get => gaofsLseekFails (forwardErr (rpcSrvGetMetadentrySize get).err)
  | r => gaofsFails (forwardErr (replyErr r))

/-- The record that `gaofs::utils::get_metadata` parses. A null string arrives as
an empty one. -/
def parsed : Request → Option Bytes
  | .stat getStr =>
    if forwardErr (rpcSrvStat getStr).err ≠ 0 then none else some ((rpcSrvStat getStr).dbVal.getD [])
  | _ => none

end Client

/-- A create that has met an entry, for an `openat` that takes what is there: without `O_EXCL` this is
no failure of the system call. -/
def MetExisting : Request → Prop
  | .create (.openat flags) put => put = .error .existsException ∧ hasFlag flags O_EXCL = false
  | _ => False

/-- The law of error replies: a request succeeds exactly if it has completed, and
a failure is a positive `errno` that ends the system call with a negative value. -/
structure Faithful (r : Request) : Prop where
  zero_iff : replyErr r = 0 ↔ body r = .ok ()
  positive : body r ≠ .ok () → 0 < replyErr r
  negative : body r ≠ .ok () → ¬ MetExisting r → ∃ ret, returned r = some ret ∧ ret < 0
  goesOn : MetExisting r → returned r = none
  record : parsed r ≠ some []

/-- An exception that the handler turns into a positive error. -/
def MappedTo : Request → Failure → Prop
  | .create _ _, e => e = .existsException
  | .stat _, e => e = .notFoundException
  | .removeMetadata _ _ _ _, e => ∀ code, e = .chunkStorageException code → 0 < code
  | .removeData _ _, e => ∀ code, e = .chunkStorageException code → 0 < code
  | .mkSymlink _, _ => False
  | _, _ => True

section Clauses

variable {r : Request} {e : Failure}

/-- The `catch` clauses of a handler, and what the end of its `try` block sets. -/
def clauses : Request → Except Failure Unit → Int32
  | .create _ _ => createErr
  | .stat _ => statErr
  | .decrSize _ => decrSizeErr
  | .removeMetadata _ _ _ _ => removeErr
  | .removeData _ _ => removeErr
  | .updateMetadentry _ _ => fun r => if r.isOk then 0 else 1
  | .updateMetadentrySize _ _ _ => sizeErr
  | .getMetadentrySize _ => sizeErr
  | .mkSymlink _ => fun r => if r.isOk then 0 else -1

theorem replyErr_eq (r : Request) : replyErr r = clauses r (body r) := by
  cases r with
  | stat getStr =>
    cases getStr with
    | ok md => rfl
    | error e => cases e <;> rfl
  | removeMetadata get remove removeFirstChunk destroy =>
    simp only [replyErr, rpcSrvRemoveMetadata]
    split <;> rfl
  | getMetadentrySize get =>
    cases get with
    | ok md => rfl
    | error e => cases e <;> rfl
  | _ => rfl

theorem clauses_ok (r : Request) : clauses r (.ok ()) = 0 := by cases r <;> rfl

theorem removeErr_pos_iff :
    0 < removeErr (.error e : Except Failure Unit) ↔ ∀ code, e = .chunkStorageException code → 0 < code := by
  cases e with
  | chunkStorageException code =>
    constructor
    · intro h code' he
      obtain rfl := Failure.chunkStorageException.inj he
      exact h
    · exact fun h => h code rfl
  | _ => exact ⟨fun _ code he => Failure.noConfusion he, fun _ => by decide⟩

theorem sizeErr_pos (e : Failure) : 0 < sizeErr (.error e : Except Failure Unit) := by
  have hbusy : (0 : Int32) < EBUSY := by decide
  cases e with
  | notFoundException => decide
  | _ => exact hbusy

theorem clauses_pos_iff (r : Request) (e : Failure) : 0 < clauses r (.error e) ↔ MappedTo r e := by
  cases r with
  | create creator put => cases e <;> simp [clauses, createErr, MappedTo, EEXIST]
  | stat getStr => cases e <;> simp [clauses, statErr, MappedTo, ENOENT]
  | decrSize merge =>
    have hpos : (0 : Int32) < ( EIO : Int32) := by decide
    exact ⟨fun _ => trivial, fun _ => hpos⟩
  | removeMetadata get remove removeFirstChunk destroy => exact removeErr_pos_iff
  | removeData removeFirstChunk destroy => exact removeErr_pos_iff
  | updateMetadentry get update =>
    have hpos : (0 : Int32) < 1 := by decide
    exact ⟨fun _ => trivial, fun _ => hpos⟩
  | updateMetadentrySize size offset merge => exact ⟨fun _ => trivial, fun _ => sizeErr_pos e⟩
  | getMetadentrySize get => exact ⟨fun _ => trivial, fun _ => sizeErr_pos e⟩
  | mkSymlink put =>
    have hneg : ¬ (0 : Int32) < -1 := by decide
    exact ⟨fun h => absurd h hneg, False.elim⟩

end Clauses

section Law

variable {r : Request}

theorem ne_zero_of_pos {x : Int32} (h : 0 < x) : x ≠ 0 := by
  rintro rfl
  exact absurd h (by decide)

theorem serialize_ne_nil (md : Metadata) : md.serialize config ≠ [] := by
  rw [Metadata.serialize]
  exact List.append_ne_nil_of_left_ne_nil (decimal_ne_nil _) _

/-- Only the handler's clause for an entry that is there answers `EEXIST`. -/
theorem takesExisting_iff (creator : Creator) (put : Except Failure Unit) :
    takesExisting creator (forwardErr (rpcSrvCreate put)) = true ↔ MetExisting (.create creator put) := by
  cases creator with
  | mkdirat => simp [takesExisting, MetExisting]
  | openat flags =>
    have herr : (forwardErr (rpcSrvCreate put) == EEXIST) = true ↔ put = .error .existsException := by
      cases put with
      | ok u => decide +revert
      | error e => cases e <;> simp [rpcSrvCreate, createErr, forwardErr, EEXIST]
    rw [takesExisting, Bool.and_eq_true, herr, Bool.not_eq_true', MetExisting]

/-- A positive error ends the system call with a negative value. -/
theorem returned_neg (h : 0 < replyErr r) (hmet : ¬ MetExisting r) :
    ∃ ret, returned r = some ret ∧ ret < 0 := by
  have hne := ne_zero_of_pos h
  have hfwd : forwardErr (replyErr r) = replyErr r := if_pos hne
  have hneg := withErrno_neg h
  refine ⟨_, ?_, hneg⟩
  cases r with
  | getMetadentrySize get =>
    change gaofsLseekFails (forwardErr (replyErr (.getMetadentrySize get))) = _
    rw [hfwd, gaofsLseekFails, if_pos hne]
    rfl
  | create creator put =>
    rw [← takesExisting_iff] at hmet
    refine (if_neg hmet).trans ?_
    change gaofsFails (forwardErr (replyErr (.create creator put))) = _
    rw [hfwd, gaofsFails, if_pos hne]
  | _ =>
    change gaofsFails (forwardErr (replyErr _)) = _
    rw [hfwd, gaofsFails, if_pos hne]

theorem returned_of_met (h : MetExisting r) : returned r = none := by
  cases r with
  | create creator put =>
    rw [← takesExisting_iff] at h
    exact if_pos h
  | _ => exact h.elim

theorem parsed_ne_nil (h : body r ≠ .ok () → 0 < replyErr r) : parsed r ≠ some [] := by
  cases r with
  | stat getStr =>
    cases getStr with
    | ok md =>
      intro hnil
      have hempty : cString (md.serialize config) = [] := Option.some.inj hnil
      rw [cString_serialize] at hempty
      exact serialize_ne_nil md hempty
    | error e =>
      have hne : statErr (.error e : Except Failure Metadata) ≠ 0 := ne_zero_of_pos (h (by rintro ⟨⟩))
      change (if forwardErr (statErr (.error e : Except Failure Metadata)) ≠ 0 then none else some _) ≠ _
      have hfwd : forwardErr (statErr (.error e : Except Failure Metadata)) ≠ 0 := by
        rw [forwardErr, if_pos hne]
        exact hne
      rw [if_pos hfwd]
      rintro ⟨⟩
  | _ => rintro ⟨⟩

/-- The law holds exactly of the requests whose exception, if there is one, the
handler maps to a positive error. -/
theorem faithful_iff (r : Request) : Faithful r ↔ ∀ e, body r = .error e → MappedTo r e := by
  constructor
  · intro h e he
    have hpos := h.positive (by rw [he]; rintro ⟨⟩)
    rw [replyErr_eq, he] at hpos
    exact (clauses_pos_iff r e).mp hpos
  · intro h
    have hpositive : body r ≠ .ok () → 0 < replyErr r := by
      intro hfail
      rw [replyErr_eq]
      cases hbody : body r with
      | ok u => exact absurd hbody hfail
      | error e => exact (clauses_pos_iff r e).mpr (h e hbody)
    refine ⟨⟨fun hzero => ?_, fun hok => ?_⟩, hpositive,
      fun hfail hmet => returned_neg (hpositive hfail) hmet, returned_of_met, parsed_ne_nil hpositive⟩
    · by_contra hfail
      exact ne_zero_of_pos (hpositive hfail) hzero
    · rw [replyErr_eq, hok, clauses_ok]

/-- A database error of a create reaches the application as the value 1, and that of
a stat as an empty record. -/
theorem failures_lost :
    ¬ (∀ r, Faithful r) ∧ returned (.create (.openat O_CREAT) (.error .dbException)) = some 1 ∧
      replyErr (.stat (.error .dbException)) = 0 ∧ parsed (.stat (.error .dbException)) = some [] ∧
      Metadata.decode config [] = .error (.std .invalidArgument) := by
  refine ⟨fun h => ?_, by decide, by decide, by decide, by decide +kernel⟩
  exact (h (.stat (.error .dbException))).record (by decide)

end Law

end GaoFS.ErrorReplies
