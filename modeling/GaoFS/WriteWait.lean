import GaoFS.WriteRun

namespace GaoFS.WriteWait

open Arithmetic Replies ForwardData

def ENOSPC : Int32 := 28

/-- What the wait for a chunk task brings: the bytes that `write_file_abt` has written,
the error that it reports, or no value at all. -/
inductive Outcome where
  | wrote (bytes : Int64) (nonneg : 0 ≤ bytes)
  | failed (errno : Int32) (pos : 0 < errno)
  | waitFails
  deriving DecidableEq

/-- The value of the eventual. -/
def Outcome.taskSize : Outcome → Option Int64
  | .wrote bytes _ => some bytes
  | .failed errno _ => some (-errno.toInt64)
  | .waitFails => none

def Outcome.Succeeds : Outcome → Prop
  | .wrote _ _ => True
  | _ => False

def Outcome.bytes : Outcome → Nat
  | .wrote bytes _ => bytes.toInt.toNat
  | _ => 0

/-- What `wait_for_tasks` does to an eventual. `ABT_eventual_free` clears the handle, and
does nothing to a handle that is clear. -/
inductive Use where
  | read (idx : Nat)
  | release (idx : Nat)
  deriving DecidableEq

structure Wait where
  ioErr : Int32
  totalWritten : UInt64
  trace : List Use

/-- One iteration of `wait_for_tasks`. After an error the eventual is released before its
value is read, which then is whatever the memory holds, `junk`. -/
def collect (junk : Nat → Int64) (idx : Nat) (s : Wait) : Option Int64 → Wait
  | none => ⟨ EIO, s.totalWritten, s.trace ++ [.release idx]⟩
  | some value =>
    let trace := s.trace ++ if s.ioErr ≠ 0 then [.release idx, .read idx] else [.read idx, .release idx]
    let taskSize := if s.ioErr ≠ 0 then junk idx else value
    if taskSize < 0 then ⟨(-taskSize).toInt32, s.totalWritten, trace⟩
    else ⟨s.ioErr, s.totalWritten + taskSize.toUInt64, trace⟩

def waitFrom (junk : Nat → Int64) : Nat → Wait → List (Option Int64) → Wait
  | _, s, [] => s
  | idx, s, taskSize :: rest => waitFrom junk (idx + 1) (collect junk idx s taskSize) rest

def waitForTasks (junk : Nat → Int64) (taskSizes : List (Option Int64)) : DataOut × List Use :=
  let s := waitFrom junk 0 ⟨0, 0, []⟩ taskSizes
  (⟨s.ioErr, if s.ioErr ≠ 0 then 0 else s.totalWritten⟩, s.trace)

/-- No value is read behind the release of its eventual. -/
def ReadsLive (trace : List Use) : Prop :=
  trace.Pairwise fun a b => ∀ idx, a = .release idx → b ≠ .read idx

/-- What `wait_for_tasks` is for. -/
structure Collected (outcomes : List Outcome) (r : DataOut × List Use) : Prop where
  succeeds : (∀ o ∈ outcomes, o.Succeeds) →
    r.1.err = 0 ∧ r.1.ioSize.toNat = (outcomes.map Outcome.bytes).sum
  fails : (¬ ∀ o ∈ outcomes, o.Succeeds) → r.1.err ≠ 0 ∧ r.1.ioSize = 0
  released : ∀ idx < outcomes.length, r.2.count (.release idx) = 1
  live : ReadsLive r.2

section Errno

variable {errno : Int32}

theorem toInt_neg_toInt64 (errno : Int32) : (-errno.toInt64).toInt = -errno.toInt := by
  have hlt := errno.toInt_lt
  have hle := errno.le_toInt
  rw [Int64.toInt_neg, Int32.toInt_toInt64]
  exact Int.bmod_eq_of_le (by omega) (by omega)

theorem neg_errno_lt (h : 0 < errno) : -errno.toInt64 < 0 := by
  rw [Int64.lt_iff_toInt_lt, toInt_neg_toInt64]
  rw [Int32.lt_iff_toInt_lt] at h
  change (0 : Int) < errno.toInt at h
  change -errno.toInt < 0
  omega

theorem toInt32_neg_errno (errno : Int32) : (- -errno.toInt64).toInt32 = errno := by
  rw [Int64.neg_neg, Int32.toInt32_toInt64]

theorem ne_zero_of_pos (h : 0 < errno) : errno ≠ 0 := by
  rintro rfl
  exact absurd h (by decide)

end Errno

section Trace

/-- A trace in which every eventual is released as soon as its value is read. -/
def clean : Nat → List (Option Int64) → List Use
  | _, [] => []
  | idx, none :: rest => .release idx :: clean (idx + 1) rest
  | idx, some _ :: rest => .read idx :: .release idx :: clean (idx + 1) rest

theorem le_of_mem_clean {idx i : Nat} {taskSizes : List (Option Int64)}
    (h : .read i ∈ clean idx taskSizes ∨ .release i ∈ clean idx taskSizes) : idx ≤ i := by
  induction taskSizes generalizing idx with
  | nil => simp [clean] at h
  | cons o rest ih =>
    cases o with
    | none =>
      simp only [clean, List.mem_cons, reduceCtorEq, false_or, Use.release.injEq] at h
      obtain h | rfl | h := h
      · exact (Nat.le_succ idx).trans (ih (.inl h))
      · exact le_rfl
      · exact (Nat.le_succ idx).trans (ih (.inr h))
    | some value =>
      simp only [clean, List.mem_cons, reduceCtorEq, false_or, Use.release.injEq,
        Use.read.injEq] at h
      obtain (rfl | h) | rfl | h := h
      · exact le_rfl
      · exact (Nat.le_succ idx).trans (ih (.inl h))
      · exact le_rfl
      · exact (Nat.le_succ idx).trans (ih (.inr h))

theorem readsLive_clean (idx : Nat) (taskSizes : List (Option Int64)) :
    ReadsLive (clean idx taskSizes) := by
  induction taskSizes generalizing idx with
  | nil => exact List.Pairwise.nil
  | cons o rest ih =>
    have hrelease : ∀ b ∈ clean (idx + 1) rest, ∀ i, Use.release idx = .release i → b ≠ .read i := by
      intro b hb i hi he
      rw [he, ← Use.release.inj hi] at hb
      exact absurd (le_of_mem_clean (.inl hb)) (by omega)
    cases o with
    | none => exact List.pairwise_cons.mpr ⟨hrelease, ih (idx + 1)⟩
    | some value =>
      exact List.pairwise_cons.mpr ⟨(fun _ _ _ hi => by cases hi),
        List.pairwise_cons.mpr ⟨hrelease, ih (idx + 1)⟩⟩

theorem count_release_clean {idx i : Nat} {taskSizes : List (Option Int64)} (hle : idx ≤ i)
    (hlt : i < idx + taskSizes.length) : (clean idx taskSizes).count (.release i) = 1 := by
  induction taskSizes generalizing idx with
  | nil => exact absurd hlt (Nat.not_lt.mpr hle)
  | cons o rest ih =>
    rw [List.length_cons] at hlt
    have hcons : (clean idx (o :: rest)).count (.release i) =
        (clean (idx + 1) rest).count (.release i) + if idx = i then 1 else 0 := by
      cases o <;> simp [clean, List.count_cons]
    rw [hcons]
    by_cases he : idx = i
    · have hnone : Use.release i ∉ clean (idx + 1) rest := fun hmem =>
        absurd (le_of_mem_clean (.inr hmem)) (by omega)
      rw [if_pos he, List.count_eq_zero.mpr hnone]
    · rw [if_neg he, ih (by omega) (by omega)]

end Trace

section Loop

variable {junk : Nat → Int64} {s : Wait}

/-- Behind an error only waits that fail come on. -/
def Quiet (outcomes : List Outcome) : Prop :=
  outcomes.Pairwise fun a b => ¬ a.Succeeds → b = .waitFails

theorem waitFrom_failed (junk : Nat → Int64) {outcomes : List Outcome} (idx : Nat) (hs : s.ioErr ≠ 0)
    (h : ∀ o ∈ outcomes, o = .waitFails) :
    let t := waitFrom junk idx s (outcomes.map Outcome.taskSize)
    t.ioErr ≠ 0 ∧ t.trace = s.trace ++ clean idx (outcomes.map Outcome.taskSize) := by
  induction outcomes generalizing idx s with
  | nil => exact ⟨hs, (List.append_nil _).symm⟩
  | cons o rest ih =>
    obtain rfl := h o List.mem_cons_self
    have hrest := ih (s := collect junk idx s none) (idx + 1) (by decide : Replies.EIO ≠ 0)
      fun o ho => h o (List.mem_cons_of_mem _ ho)
    refine ⟨hrest.1, hrest.2.trans ?_⟩
    exact List.append_assoc s.trace [.release idx] _

/-- As long as nothing has failed the tasks are counted, and what is behind the first that
fails is released only. -/
theorem waitFrom_quiet (junk : Nat → Int64) {outcomes : List Outcome} (idx : Nat) (hs : s.ioErr = 0)
    (h : Quiet outcomes) :
    let t := waitFrom junk idx s (outcomes.map Outcome.taskSize)
    t.trace = s.trace ++ clean idx (outcomes.map Outcome.taskSize) ∧
      ((∀ o ∈ outcomes, o.Succeeds) → t.ioErr = 0 ∧
        t.totalWritten = s.totalWritten + UInt64.ofNat (outcomes.map Outcome.bytes).sum) ∧
      ((¬ ∀ o ∈ outcomes, o.Succeeds) → t.ioErr ≠ 0) := by
  induction outcomes generalizing idx s with
  | nil =>
    refine ⟨(List.append_nil _).symm, fun _ => ⟨hs, (UInt64.add_zero _).symm⟩, ?_⟩
    exact fun hno => absurd (List.forall_mem_nil _) hno
  | cons o rest ih =>
    obtain ⟨hafter, hrest⟩ := List.pairwise_cons.mp h
    cases o with
    | wrote bytes nonneg =>
      have hpos : ¬ bytes < 0 := Int64.not_lt.mpr nonneg
      have hcollect : collect junk idx s (some bytes) =
          ⟨0, s.totalWritten + bytes.toUInt64, s.trace ++ [.read idx, .release idx]⟩ := by
        simp only [collect, hs, ne_eq, not_true_eq_false, if_false, if_neg hpos]
      have hon := ih (s := collect junk idx s (some bytes)) (idx + 1) (by rw [hcollect]) hrest
      rw [hcollect] at hon
      obtain ⟨htrace, hall, hsome⟩ := hon
      have hforall : (∀ o ∈ Outcome.wrote bytes nonneg :: rest, o.Succeeds) ↔ ∀ o ∈ rest, o.Succeeds := by
        simp [Outcome.Succeeds]
      rw [hforall]
      simp only [List.map_cons, Outcome.taskSize, waitFrom, hcollect]
      refine ⟨?_, fun hok => ⟨(hall hok).1, ?_⟩, hsome⟩
      · rw [htrace, List.append_assoc]
        rfl
      · have hbytes : UInt64.ofNat (Outcome.wrote bytes nonneg).bytes = bytes.toUInt64 := by
          rw [Outcome.bytes, toInt_of_nonneg nonneg, Int.toNat_natCast, UInt64.ofNat_toNat]
        rw [(hall hok).2, List.sum_cons, UInt64.ofNat_add, hbytes, UInt64.add_assoc]
    | failed errno pos =>
      have hneg : -errno.toInt64 < 0 := neg_errno_lt pos
      have hcollect : collect junk idx s (some (-errno.toInt64)) =
          ⟨errno, s.totalWritten, s.trace ++ [.read idx, .release idx]⟩ := by
        simp only [collect, hs, ne_eq, not_true_eq_false, if_false, if_pos hneg, toInt32_neg_errno]
      have hon := waitFrom_failed junk (s := collect junk idx s (some (-errno.toInt64)))
        (idx + 1) (by rw [hcollect]; exact ne_zero_of_pos pos) fun o ho => hafter o ho id
      rw [hcollect] at hon
      simp only [List.map_cons, Outcome.taskSize, waitFrom, hcollect]
      refine ⟨?_, fun hok => (hok _ List.mem_cons_self).elim, fun _ => hon.1⟩
      rw [hon.2, List.append_assoc]
      rfl
    | waitFails =>
      have hon := waitFrom_failed junk (s := collect junk idx s none)
        (idx + 1) (by decide : Replies.EIO ≠ 0) fun o ho => hafter o ho id
      simp only [List.map_cons, Outcome.taskSize, waitFrom]
      refine ⟨?_, fun hok => (hok _ List.mem_cons_self).elim, fun _ => hon.1⟩
      rw [hon.2]
      exact List.append_assoc s.trace [.release idx] _

theorem trace_collect (junk : Nat → Int64) (idx : Nat) (s : Wait) (value : Int64) :
    (collect junk idx s (some value)).trace =
      s.trace ++ if s.ioErr ≠ 0 then [.release idx, .read idx] else [.read idx, .release idx] := by
  rw [collect, apply_ite Wait.trace, ite_self]

theorem trace_grow (idx : Nat) (s : Wait) (taskSizes : List (Option Int64)) :
    s.trace <+: (waitFrom junk idx s taskSizes).trace := by
  induction taskSizes generalizing idx s with
  | nil => exact List.prefix_rfl
  | cons o rest ih =>
    refine List.IsPrefix.trans ?_ (ih (idx + 1) (collect junk idx s o))
    cases o with
    | none => exact List.prefix_append _ _
    | some value =>
      rw [trace_collect]
      exact List.prefix_append _ _

/-- A task behind an error whose wait succeeds is read after its release. -/
theorem not_readsLive_collect (idx : Nat) (hs : s.ioErr ≠ 0) (value : Int64) :
    ¬ ReadsLive (collect junk idx s (some value)).trace := by
  rw [trace_collect, if_pos hs]
  intro h
  have hpair := (List.pairwise_append.mp h).2.1
  exact (List.pairwise_cons.mp hpair).1 _ List.mem_cons_self idx rfl rfl

theorem quiet_of_readsLive (outcomes : List Outcome) (idx : Nat)
    (h : ReadsLive (waitFrom junk idx s (outcomes.map Outcome.taskSize)).trace) :
    (s.ioErr ≠ 0 → ∀ o ∈ outcomes, o = .waitFails) ∧ Quiet outcomes := by
  induction outcomes generalizing idx s with
  | nil => exact ⟨fun _ => List.forall_mem_nil _, List.Pairwise.nil⟩
  | cons o rest ih =>
    obtain ⟨hfailed, hquiet⟩ := ih (s := collect junk idx s o.taskSize) (idx + 1) h
    have hstep : ReadsLive (collect junk idx s o.taskSize).trace :=
      List.Pairwise.sublist (trace_grow _ _ _).sublist h
    have hvalue : s.ioErr ≠ 0 → o = .waitFails := by
      intro hs
      cases o with
      | wrote bytes nonneg => exact absurd hstep (not_readsLive_collect idx hs bytes)
      | failed errno pos => exact absurd hstep (not_readsLive_collect idx hs _)
      | waitFails => rfl
    have herror : ¬ o.Succeeds → (collect junk idx s o.taskSize).ioErr ≠ 0 := by
      intro ho
      cases o with
      | wrote bytes nonneg => exact absurd trivial ho
      | failed errno pos =>
        have hzero : s.ioErr = 0 := not_not.mp fun hs => Outcome.noConfusion (hvalue hs)
        simp only [Outcome.taskSize, collect, hzero, ne_eq, not_true_eq_false, if_false,
          if_pos (neg_errno_lt pos), toInt32_neg_errno]
        exact ne_zero_of_pos pos
      | waitFails => exact (by decide : Replies.EIO ≠ 0)
    refine ⟨fun hs => List.forall_mem_cons.mpr ⟨hvalue hs, ?_⟩,
      List.pairwise_cons.mpr ⟨fun b hb ho => hfailed (herror ho) b hb, hquiet⟩⟩
    have hwait := hvalue hs
    exact hfailed (herror (by rw [hwait]; exact id))

theorem waitFrom_kept {taskSizes : List (Option Int64)} (idx : Nat)
    (h : ∀ j value, taskSizes[j]? = some (some value) → junk (idx + j) = value) :
    ((waitFrom junk idx s taskSizes).ioErr, (waitFrom junk idx s taskSizes).totalWritten) =
      taskSizes.foldl WriteRun.waitForTask (s.ioErr, s.totalWritten) := by
  induction taskSizes generalizing idx s with
  | nil => rfl
  | cons o rest ih =>
    have hstep : ((collect junk idx s o).ioErr, (collect junk idx s o).totalWritten) =
        WriteRun.waitForTask (s.ioErr, s.totalWritten) o := by
      cases o with
      | none => rfl
      | some value =>
        have hvalue : junk idx = value := h 0 value rfl
        simp only [collect, WriteRun.waitForTask, hvalue, ite_self]
        split <;> rfl
    rw [List.foldl_cons, ← hstep]
    refine ih (idx + 1) fun j value hj => ?_
    rw [Nat.add_assoc, Nat.add_comm 1 j]
    exact h (j + 1) value hj

/-- Where a released value is still in place, the result is the one without lifetimes. -/
theorem waitForTasks_kept {taskSizes : List (Option Int64)}
    (h : ∀ idx value, taskSizes[idx]? = some (some value) → junk idx = value) :
    (waitForTasks junk taskSizes).1 = WriteRun.waitForTasks taskSizes := by
  have hfold := waitFrom_kept (s := ⟨0, 0, []⟩) 0 fun j value hj => by
    rw [Nat.zero_add]
    exact h j value hj
  rw [waitForTasks, WriteRun.waitForTasks, ← hfold]

end Loop

section Result

/-- The tasks are collected as they should be exactly if every task behind the first that
fails has a wait that fails, and the sum of bytes is one that a `size_t` can hold. -/
theorem collected_iff (junk : Nat → Int64) (outcomes : List Outcome) :
    Collected outcomes (waitForTasks junk (outcomes.map Outcome.taskSize)) ↔
      outcomes.Pairwise (fun a b => ¬ a.Succeeds → b = .waitFails) ∧
        ((∀ o ∈ outcomes, o.Succeeds) → (outcomes.map Outcome.bytes).sum < 2 ^ 64) := by
  constructor
  · intro h
    refine ⟨(quiet_of_readsLive outcomes 0 h.live).2, fun hok => ?_⟩
    rw [← (h.succeeds hok).2]
    exact UInt64.toNat_lt _
  · rintro ⟨hquiet, hfit⟩
    obtain ⟨htrace, hall, hsome⟩ :=
      waitFrom_quiet junk (s := ⟨0, 0, []⟩) 0 rfl hquiet
    rw [List.nil_append] at htrace
    refine ⟨fun hok => ?_, fun hno => ⟨hsome hno, if_pos (hsome hno)⟩, fun idx hidx => ?_, ?_⟩
    · obtain ⟨herr, htotal⟩ := hall hok
      refine ⟨herr, ?_⟩
      rw [waitForTasks]
      dsimp only
      rw [if_neg (not_not.mpr herr), htotal, UInt64.zero_add, UInt64.toNat_ofNat',
        Nat.mod_eq_of_lt (hfit hok)]
    · rw [waitForTasks]
      dsimp only
      rw [htrace]
      exact count_release_clean (Nat.zero_le idx) (by rw [List.length_map, Nat.zero_add]; exact hidx)
    · rw [waitForTasks]
      dsimp only
      rw [htrace]
      exact readsLive_clean 0 _

/-- The disk of the first chunk is full, and the second chunk is written. -/
theorem second_read_released : ¬ Collected [.failed ENOSPC (by decide), .wrote 1 (by decide)]
    (waitForTasks (fun _ => 0) [some (-ENOSPC.toInt64), some 1]) := by
  intro h
  have hlive : ReadsLive (waitFrom (fun _ => 0) 0 ⟨0, 0, []⟩
    ([.failed ENOSPC (by decide), .wrote 1 (by decide)].map Outcome.taskSize)).trace := h.live
  have hquiet := (quiet_of_readsLive _ 0 hlive).2
  exact Outcome.noConfusion ((List.pairwise_cons.mp hquiet).1 _ (List.mem_singleton_self _) id)

end Result

end GaoFS.WriteWait
