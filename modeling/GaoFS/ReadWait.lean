import GaoFS.ReadRun
import GaoFS.WriteWait

namespace GaoFS.ReadWait

open Arithmetic Replies ChunkStorage DataOps ForwardData WriteWait Library.NumberText

/-- How `read_file_abt` ends for a chunk, and whether the wait for it succeeds and the push
of its buffer would. -/
structure ChunkRead where
  outcome : Except Failure Int64
  waits : Bool
  pushed : Bool
  nonneg : ∀ bytes, outcome = .ok bytes → 0 ≤ bytes
  errno_pos : ∀ code, outcome = .error (.chunkStorageException code) → 0 < code

/-- The number that stands for the outcome in the eventual. -/
def reported : Except Failure Int64 → Int64
  | .ok bytes => bytes
  | .error e => readErr e

def ChunkRead.taskSize (t : ChunkRead) : Option Int64 := if t.waits then some (reported t.outcome) else none

structure Collected where
  ioErr : Int32
  totalRead : UInt64
  pushes : List Nat

/-- One iteration of `wait_for_tasks_and_push_back`. -/
def collect (idx : Nat) (s : Collected) (taskSize : Option Int64) (pushed : Bool) : Collected :=
  match taskSize with
  | none => { s with ioErr := EIO }
  | some taskSize =>
    if s.ioErr ≠ 0 then s
    else if taskSize < 0 then
      if taskSize = -ENOENT.toInt64 then s else { s with ioErr := (-taskSize).toInt32 }
    else if taskSize = 0 then s
    else if pushed then ⟨s.ioErr, s.totalRead + taskSize.toUInt64, s.pushes ++ [idx]⟩
    else ⟨EBUSY, s.totalRead, s.pushes ++ [idx]⟩

def collectFrom : Nat → Collected → List (Option Int64 × Bool) → Collected
  | _, s, [] => s
  | idx, s, t :: rest => collectFrom (idx + 1) (collect idx s t.1 t.2) rest

/-- The reply, and the tasks whose buffers were pushed. -/
def waitForTasksAndPushBack (tasks : List (Option Int64 × Bool)) : DataOut × List Nat :=
  let s := collectFrom 0 ⟨0, 0, []⟩ tasks
  (⟨s.ioErr, if s.ioErr ≠ 0 then 0 else s.totalRead⟩, s.pushes)

def ChunkRead.observed (t : ChunkRead) : Option Int64 × Bool := (t.taskSize, t.pushed)

def NotFound (e : Failure) : Prop := e = .notFoundException ∨ e = .chunkStorageException ENOENT

namespace ChunkRead

variable (t : ChunkRead)

def bytes : Nat :=
  match t.outcome with
  | .ok bytes => bytes.toInt.toNat
  | .error _ => 0

/-- The chunk was read and pushed, or there is nothing of it. -/
def Delivered : Prop :=
  t.waits = true ∧ match t.outcome with
    | .ok bytes => bytes = 0 ∨ t.pushed = true
    | .error e => NotFound e

/-- An exception that only the last catch clause takes, whose value arrives. -/
def Unforeseen : Prop := t.waits = true ∧ t.outcome = .error .stdException

/-- Any other failure. -/
def Raises : Prop := ¬ t.Delivered ∧ ¬ t.Unforeseen

end ChunkRead

/-- What the collection of the reads is for. -/
structure Reported (tasks : List ChunkRead) (r : DataOut × List Nat) : Prop where
  delivered : (∀ t ∈ tasks, t.Delivered) →
    r.1.err = 0 ∧ r.1.ioSize.toNat = (tasks.map ChunkRead.bytes).sum
  fails : (¬ ∀ t ∈ tasks, t.Delivered) → 0 < r.1.err ∧ r.1.ioSize = 0
  pushes : ∀ idx ∈ r.2, ∃ t bytes, tasks[idx]? = some t ∧ t.outcome = .ok bytes

section Step

variable {t : ChunkRead} {s : Collected} {idx : Nat}

theorem collect_failed (idx : Nat) (hs : 0 < s.ioErr) (t : ChunkRead) :
    0 < (collect idx s t.taskSize t.pushed).ioErr ∧
      (collect idx s t.taskSize t.pushed).pushes = s.pushes := by
  cases t.taskSize with
  | none => exact ⟨(by decide : (0 : Int32) < Replies.EIO), rfl⟩
  | some taskSize =>
    rw [collect, if_pos (ne_zero_of_pos hs)]
    exact ⟨hs, rfl⟩

theorem errno_eq_ENOENT {code : Int32} (h : -code.toInt64 = -ENOENT.toInt64) : code = ENOENT := by
  have hback := congrArg (fun x : Int64 => (-x).toInt32) h
  rwa [toInt32_neg_errno, toInt32_neg_errno] at hback

/-- What a task does to the collection, in which nothing has failed so far. -/
def Brings (t : ChunkRead) (idx : Nat) (s s' : Collected) : Prop :=
  (t.Delivered ∧ s'.ioErr = 0 ∧ s'.totalRead = s.totalRead + UInt64.ofNat t.bytes ∧
    (s'.pushes = s.pushes ∨ s'.pushes = s.pushes ++ [idx] ∧ ∃ n, t.outcome = .ok n)) ∨
  (t.Raises ∧ 0 < s'.ioErr ∧
    (s'.pushes = s.pushes ∨ s'.pushes = s.pushes ++ [idx] ∧ ∃ n, t.outcome = .ok n)) ∨
  (t.Unforeseen ∧ s'.pushes = s.pushes ++ [idx])

theorem brings_ok (idx : Nat) (hs : s.ioErr = 0) (hwaits : t.waits = true) {n : Int64}
    (houtcome : t.outcome = .ok n) : Brings t idx s (collect idx s (some n) t.pushed) := by
  have hnonneg := t.nonneg n houtcome
  have hbytes : t.bytes = n.toInt.toNat := by rw [ChunkRead.bytes, houtcome]
  have hword : UInt64.ofNat t.bytes = n.toUInt64 := by
    rw [hbytes, toInt_of_nonneg hnonneg, Int.toNat_natCast, UInt64.ofNat_toNat]
  rw [collect, if_neg (not_not.mpr hs), if_neg (Int64.not_lt.mpr hnonneg)]
  by_cases hzero : n = 0
  · rw [if_pos hzero]
    refine .inl ⟨⟨hwaits, by rw [houtcome]; exact .inl hzero⟩, hs, ?_, .inl rfl⟩
    rw [hword, hzero]
    exact (UInt64.add_zero _).symm
  rw [if_neg hzero]
  cases hpushed : t.pushed with
  | true =>
    refine .inl ⟨⟨hwaits, by rw [houtcome]; exact .inr hpushed⟩, hs, ?_, .inr ⟨rfl, n, houtcome⟩⟩
    rw [hword]
    rfl
  | false =>
    refine .inr (.inl ⟨⟨fun h => ?_, fun h => ?_⟩, (by decide : (0 : Int32) < EBUSY),
      .inr ⟨rfl, n, houtcome⟩⟩)
    · have hcase := h.2
      rw [houtcome] at hcase
      exact hcase.elim hzero fun hp => absurd (hpushed.symm.trans hp) Bool.false_ne_true
    · cases houtcome.symm.trans h.2

theorem brings_error (idx : Nat) (hs : s.ioErr = 0) (hwaits : t.waits = true) {e : Failure}
    (houtcome : t.outcome = .error e) :
    Brings t idx s (collect idx s (some (readErr e)) t.pushed) := by
  have hbytes : t.bytes = 0 := by rw [ChunkRead.bytes, houtcome]
  have hdelivered : t.Delivered ↔ NotFound e := by
    rw [ChunkRead.Delivered, houtcome]
    exact and_iff_right hwaits
  have hunforeseen : t.Unforeseen ↔ e = .stdException := by
    rw [ChunkRead.Unforeseen, houtcome, Except.error.injEq]
    exact and_iff_right hwaits
  rw [Brings, ChunkRead.Raises, hdelivered, hunforeseen, hbytes, collect, if_neg (not_not.mpr hs)]
  cases e with
  | notFoundException => exact .inl ⟨.inl rfl, hs, (UInt64.add_zero _).symm, .inl rfl⟩
  | existsException =>
    refine .inr (.inl ⟨⟨fun h => ?_, fun h => by cases h⟩, ?_, .inl rfl⟩)
    · obtain h | h := h <;> cases h
    · exact (by decide : (0 : Int32) < Replies.EIO)
  | dbException =>
    refine .inr (.inl ⟨⟨fun h => ?_, fun h => by cases h⟩, ?_, .inl rfl⟩)
    · obtain h | h := h <;> cases h
    · exact (by decide : (0 : Int32) < Replies.EIO)
  | chunkStorageException code =>
    have hpos := t.errno_pos code houtcome
    rw [readErr, if_pos (neg_errno_lt hpos)]
    by_cases hcode : -code.toInt64 = -ENOENT.toInt64
    · rw [if_pos hcode]
      refine .inl ⟨.inr ?_, hs, (UInt64.add_zero _).symm, .inl rfl⟩
      rw [errno_eq_ENOENT hcode]
    · rw [if_neg hcode]
      refine .inr (.inl ⟨⟨fun h => ?_, fun h => by cases h⟩, ?_, .inl rfl⟩)
      · obtain h | h := h
        · cases h
        · exact hcode (by rw [Failure.chunkStorageException.inj h])
      · dsimp only
        rw [toInt32_neg_errno]
        exact hpos
  | stdException =>
    refine .inr (.inr ⟨rfl, ?_⟩)
    cases t.pushed <;> rfl

/-- What a task brings as long as nothing has failed, its outcome being told from its number. -/
theorem collect_cases (idx : Nat) (hs : s.ioErr = 0) (t : ChunkRead) :
    Brings t idx s (collect idx s t.taskSize t.pushed) := by
  rw [ChunkRead.taskSize]
  cases hwaits : t.waits with
  | false =>
    refine .inr (.inl ⟨⟨fun h => ?_, fun h => ?_⟩, (by decide : (0 : Int32) < Replies.EIO), .inl rfl⟩)
    · exact absurd (hwaits.symm.trans h.1) Bool.false_ne_true
    · exact absurd (hwaits.symm.trans h.1) Bool.false_ne_true
  | true =>
    rw [if_pos rfl]
    cases houtcome : t.outcome with
    | ok n => exact brings_ok idx hs hwaits houtcome
    | error e => exact brings_error idx hs hwaits houtcome

theorem not_delivered_of_unforeseen (h : t.Unforeseen) : ¬ t.Delivered := by
  rintro ⟨-, hdelivered⟩
  rw [h.2] at hdelivered
  obtain hdelivered | hdelivered := hdelivered <;> cases hdelivered

end Step

section Loop

variable {s : Collected}

/-- Before every unforeseen exception something else has failed. -/
def Masked (tasks : List ChunkRead) : Prop :=
  ∀ before t rest, tasks = before ++ t :: rest → t.Unforeseen → ∃ u ∈ before, u.Raises

theorem collectFrom_failed (tasks : List ChunkRead) (idx : Nat) (hs : 0 < s.ioErr) :
    0 < (collectFrom idx s (tasks.map ChunkRead.observed)).ioErr ∧
      (collectFrom idx s (tasks.map ChunkRead.observed)).pushes = s.pushes := by
  induction tasks generalizing idx s with
  | nil => exact ⟨hs, rfl⟩
  | cons t rest ih =>
    obtain ⟨herr, hpushes⟩ := collect_failed idx hs t
    obtain ⟨herr', hpushes'⟩ := ih (idx + 1) herr
    exact ⟨herr', hpushes'.trans hpushes⟩

theorem masked_tail {t : ChunkRead} {rest : List ChunkRead} (h : Masked (t :: rest))
    (ht : ¬ t.Raises) : Masked rest := by
  intro before u after hrest hu
  obtain ⟨v, hv, hraises⟩ := h (t :: before) u after (congrArg (t :: ·) hrest) hu
  obtain rfl | hv := List.mem_cons.mp hv
  · exact absurd hraises ht
  · exact ⟨v, hv, hraises⟩

/-- Nothing has failed yet. The tasks are counted up to the first failure, which is one
that the code sees. -/
theorem collectFrom_masked (tasks : List ChunkRead) (idx : Nat) (hs : s.ioErr = 0)
    (h : Masked tasks) :
    ((∀ t ∈ tasks, t.Delivered) → (collectFrom idx s (tasks.map ChunkRead.observed)).ioErr = 0 ∧
      (collectFrom idx s (tasks.map ChunkRead.observed)).totalRead =
        s.totalRead + UInt64.ofNat (tasks.map ChunkRead.bytes).sum) ∧
    ((¬ ∀ t ∈ tasks, t.Delivered) →
      0 < (collectFrom idx s (tasks.map ChunkRead.observed)).ioErr) ∧
    ∀ i ∈ (collectFrom idx s (tasks.map ChunkRead.observed)).pushes,
      i ∈ s.pushes ∨ ∃ j t n, i = idx + j ∧ tasks[j]? = some t ∧ t.outcome = .ok n := by
  induction tasks generalizing idx s with
  | nil =>
    refine ⟨fun _ => ⟨hs, (UInt64.add_zero _).symm⟩, fun hno => ?_, fun i hi => .inl hi⟩
    exact absurd (List.forall_mem_nil _) hno
  | cons t rest ih =>
    -- a push of this task is a push of task `idx`
    have hpushed : ∀ {pushes : List Nat}, (pushes = s.pushes ∨
        pushes = s.pushes ++ [idx] ∧ ∃ n, t.outcome = .ok n) → ∀ i ∈ pushes,
        i ∈ s.pushes ∨ ∃ j u n, i = idx + j ∧ (t :: rest)[j]? = some u ∧ u.outcome = .ok n := by
      rintro pushes (rfl | ⟨rfl, n, hn⟩) i hi
      · exact .inl hi
      · obtain hi | hi := List.mem_append.mp hi
        · exact .inl hi
        · exact .inr ⟨0, t, n, List.mem_singleton.mp hi, rfl, hn⟩
    change (_ → (collectFrom (idx + 1) (collect idx s t.taskSize t.pushed)
      (rest.map ChunkRead.observed)).ioErr = 0 ∧ _) ∧ _
    obtain ⟨ht, herr, htotal, hpushes⟩ | ⟨ht, herr, hpushes⟩ | ⟨ht, -⟩ := collect_cases idx hs t
    · obtain ⟨hall, hsome, hfrom⟩ := ih (idx + 1) herr (masked_tail h fun hraises => hraises.1 ht)
      have hforall : (∀ u ∈ t :: rest, u.Delivered) ↔ ∀ u ∈ rest, u.Delivered := by
        simp [ht]
      rw [hforall]
      refine ⟨fun hok => ⟨(hall hok).1, ?_⟩, hsome, fun i hi => ?_⟩
      · have hrest := (hall hok).2
        rw [htotal] at hrest
        rw [List.map_cons (f := ChunkRead.bytes), List.sum_cons, UInt64.ofNat_add, ← UInt64.add_assoc]
        exact hrest
      · obtain hi | ⟨j, u, n, hj, hu, hn⟩ := hfrom i hi
        · exact hpushed hpushes i hi
        · exact .inr ⟨j + 1, u, n, by omega, hu, hn⟩
    · obtain ⟨herr', hpushes'⟩ := collectFrom_failed rest (idx + 1) herr
      refine ⟨fun hok => absurd (hok t List.mem_cons_self) ht.1, fun _ => herr', fun i hi => ?_⟩
      rw [List.map_cons, collectFrom, ChunkRead.observed, hpushes'] at hi
      exact hpushed hpushes i hi
    · obtain ⟨u, hu, -⟩ := h [] t rest rfl ht
      cases hu

theorem pushes_grow (idx : Nat) (s : Collected) (tasks : List ChunkRead) :
    s.pushes <+: (collectFrom idx s (tasks.map ChunkRead.observed)).pushes := by
  induction tasks generalizing idx s with
  | nil => exact List.prefix_rfl
  | cons t rest ih =>
    refine List.IsPrefix.trans ?_ (ih (idx + 1) (collect idx s t.taskSize t.pushed))
    by_cases hs : s.ioErr = 0
    · have hone : s.pushes <+: s.pushes ++ [idx] := List.prefix_append _ _
      obtain ⟨-, -, -, hp⟩ | ⟨-, -, hp⟩ | ⟨-, hp⟩ := collect_cases idx hs t
      · obtain hp | ⟨hp, -⟩ := hp <;> rw [hp]
        exact hone
      · obtain hp | ⟨hp, -⟩ := hp <;> rw [hp]
        exact hone
      · rw [hp]
        exact hone
    · cases htask : t.taskSize with
      | none => exact List.prefix_rfl
      | some taskSize =>
        rw [collect, if_pos hs]

theorem pushed_here {t : ChunkRead} (rest : List ChunkRead) {idx : Nat} (ht : t.Unforeseen)
    (hp : (collect idx s t.taskSize t.pushed).pushes = s.pushes ++ [idx]) :
    ∃ j u, idx + j ∈ (collectFrom idx s ((t :: rest).map ChunkRead.observed)).pushes ∧
      (t :: rest)[j]? = some u ∧ u.Unforeseen := by
  refine ⟨0, t, (pushes_grow (idx + 1) (collect idx s t.taskSize t.pushed) rest).subset ?_, rfl, ht⟩
  rw [hp]
  exact List.mem_append_right _ (List.mem_singleton_self idx)

/-- The buffer of an unforeseen exception is pushed if the code sees nothing before it. -/
theorem exists_pushed (before : List ChunkRead) {t : ChunkRead} (rest : List ChunkRead) (idx : Nat)
    (hs : s.ioErr = 0) (ht : t.Unforeseen) (hbefore : ∀ u ∈ before, ¬ u.Raises) :
    ∃ j u, idx + j ∈ (collectFrom idx s ((before ++ t :: rest).map ChunkRead.observed)).pushes ∧
      (before ++ t :: rest)[j]? = some u ∧ u.Unforeseen := by
  induction before generalizing idx s with
  | nil =>
    obtain ⟨hd, -⟩ | ⟨hraises, -⟩ | ⟨-, hp⟩ := collect_cases idx hs t
    · exact absurd hd (not_delivered_of_unforeseen ht)
    · exact absurd ht hraises.2
    · exact pushed_here rest ht hp
  | cons u before ih =>
    obtain ⟨-, herr, -⟩ | ⟨hraises, -⟩ | ⟨hu, hp⟩ := collect_cases idx hs u
    · obtain ⟨j, v, hj, hv, hunforeseen⟩ := ih (idx + 1) herr
        fun v hv => hbefore v (List.mem_cons_of_mem u hv)
      refine ⟨j + 1, v, ?_, hv, hunforeseen⟩
      rw [Nat.add_comm j, ← Nat.add_assoc]
      exact hj
    · exact absurd hraises (hbefore u List.mem_cons_self)
    · exact pushed_here (before ++ t :: rest) hu hp

end Loop

section Buffers

open ReadRun

variable (inp : DataIn) (buf : List (Option UInt8))

theorem readFileAbt_reported (rootPath : Bytes) (path : Chunks.Path) (l : Local) (chnkId : UInt64)
    (size off : Nat) : (readFileAbt rootPath path l chnkId size off).map Prod.fst =
      (readFile rootPath path l chnkId size off).map fun r =>
        reported (r.map fun bytes => Int64.ofNat bytes.length) := by
  rw [readFileAbt, Option.map_map]
  congr 1
  funext r
  cases r <;> rfl

/-- A task of the read loop with its buffers, as the collection sees it. -/
def observe (inp : DataIn) (buf : List (Option UInt8)) : Option ReadTask → Option Int64 × Bool
  | none => (none, true)
  | some t => (some t.taskSize, (bulkPush buf inp t.slot t.taskSize.toUInt64.toNat).isSome)

theorem pushBack_collect (idx : Nat) (s : PushState) (t : Option ReadTask) (pushes : List Nat) :
    (pushBack inp buf s t).ioErr =
        (collect idx ⟨s.ioErr, s.totalRead, pushes⟩ (observe inp buf t).1 (observe inp buf t).2).ioErr ∧
      (pushBack inp buf s t).totalRead =
        (collect idx ⟨s.ioErr, s.totalRead, pushes⟩ (observe inp buf t).1
          (observe inp buf t).2).totalRead := by
  cases t with
  | none => exact ⟨rfl, rfl⟩
  | some t =>
    rw [pushBack, observe, collect]
    split
    · exact ⟨rfl, rfl⟩
    · split
      · split <;> exact ⟨rfl, rfl⟩
      · split
        · exact ⟨rfl, rfl⟩
        · cases bulkPush buf inp t.slot t.taskSize.toUInt64.toNat <;> exact ⟨rfl, rfl⟩

/-- The collection with its buffers replies what the one without them does. -/
theorem waitForTasksAndPushBack_fst (tasks : List (Option ReadTask)) :
    (ReadRun.waitForTasksAndPushBack inp buf tasks).1 =
      (waitForTasksAndPushBack (tasks.map (observe inp buf))).1 := by
  have hfold : ∀ (idx : Nat) (s : PushState) (c : Collected), s.ioErr = c.ioErr →
      s.totalRead = c.totalRead →
      (tasks.foldl (pushBack inp buf) s).ioErr =
          (collectFrom idx c (tasks.map (observe inp buf))).ioErr ∧
        (tasks.foldl (pushBack inp buf) s).totalRead =
          (collectFrom idx c (tasks.map (observe inp buf))).totalRead := by
    induction tasks with
    | nil => exact fun _ _ _ herr htotal => ⟨herr, htotal⟩
    | cons t rest ih =>
      intro idx s c herr htotal
      obtain ⟨herr', htotal'⟩ := pushBack_collect inp buf idx s t c.pushes
      rw [herr, htotal] at herr' htotal'
      exact ih (idx + 1) _ _ herr' htotal'
  obtain ⟨herr, htotal⟩ := hfold 0 ⟨0, 0, []⟩ ⟨0, 0, []⟩ rfl rfl
  rw [ReadRun.waitForTasksAndPushBack, waitForTasksAndPushBack]
  dsimp only
  rw [herr, htotal]

end Buffers

section Result

/-- Every failure is reported exactly if an exception that only the last catch clause takes
never comes first, and the sum of bytes is one that a `size_t` can hold. -/
theorem reported_iff (tasks : List ChunkRead) :
    Reported tasks (waitForTasksAndPushBack (tasks.map ChunkRead.observed)) ↔
      (∀ before t rest, tasks = before ++ t :: rest → t.Unforeseen → ∃ u ∈ before, u.Raises) ∧
        ((∀ t ∈ tasks, t.Delivered) → (tasks.map ChunkRead.bytes).sum < 2 ^ 64) := by
  constructor
  · intro h
    refine ⟨fun before t rest htasks ht => ?_, fun hok => ?_⟩
    · by_contra hno
      obtain ⟨j, u, hj, hu, hunforeseen⟩ := exists_pushed (s := ⟨0, 0, []⟩) before rest 0 rfl ht
        fun u hu hraises => hno ⟨u, hu, hraises⟩
      rw [← htasks] at hj hu
      obtain ⟨v, n, hv, hn⟩ := h.pushes (0 + j) hj
      rw [Nat.zero_add, hu, Option.some.injEq] at hv
      rw [← hv, hunforeseen.2] at hn
      cases hn
    · rw [← (h.delivered hok).2]
      exact UInt64.toNat_lt _
  · rintro ⟨hmasked, hfit⟩
    obtain ⟨hall, hsome, hpushes⟩ := collectFrom_masked (s := ⟨0, 0, []⟩) tasks 0 rfl hmasked
    refine ⟨fun hok => ?_, fun hno => ⟨hsome hno, if_pos (ne_zero_of_pos (hsome hno))⟩, fun i hi => ?_⟩
    · obtain ⟨herr, htotal⟩ := hall hok
      refine ⟨herr, ?_⟩
      rw [waitForTasksAndPushBack]
      dsimp only
      rw [if_neg (not_not.mpr herr), htotal, UInt64.zero_add, UInt64.toNat_ofNat',
        Nat.mod_eq_of_lt (hfit hok)]
    · obtain hi | ⟨j, t, n, hj, ht, hn⟩ := hpushes i hi
      · cases hi
      · rw [hj, Nat.zero_add]
        exact ⟨t, n, ht, hn⟩

/-- One chunk, whose read ends in an exception that is none of the named ones. -/
def unforeseen : ChunkRead where
  outcome := .error .stdException
  waits := true
  pushed := true
  nonneg := by
    intro bytes h
    cases h
  errno_pos := by
    intro code h
    cases h

theorem unforeseen_counted : waitForTasksAndPushBack [unforeseen.observed] = (⟨0, 5⟩, [0]) ∧
    ¬ Reported [unforeseen] (waitForTasksAndPushBack [unforeseen.observed]) := by
  refine ⟨by decide, fun h => ?_⟩
  obtain ⟨t, n, ht, hn⟩ := h.pushes 0 (by decide)
  cases ht
  cases hn

end Result

end GaoFS.ReadWait
