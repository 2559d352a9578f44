import Mathlib.Data.List.Basic
import Mathlib.Data.Nat.Cast.Basic
import Mathlib.Order.Basic

namespace GaoFS.Statistics

inductive IopsOp where
  | iopsCreate
  | iopsWrite
  | iopsRead
  | iopsStats
  | iopsDirent
  | iopsRemove
  deriving DecidableEq

inductive SizeOp where
  | writeSize
  | readSize
  deriving DecidableEq

def maxStats : Nat := 1000000

/-- The clock counts nanoseconds. -/
def seconds (n : Nat) : Nat := n * 10 ^ 9

/-- `duration_cast` to whole minutes. -/
def minutes (duration : Nat) : Nat := duration / seconds 60

section Deques

variable {ε : Type*}

/-- A deque that has a front. -/
structure Deque (ε : Type*) where
  front : ε
  rest : List ε

def Deque.toList (q : Deque ε) : List ε := q.front :: q.rest

/-- `push_back` behind `pop_front`. -/
def Deque.shift (q : Deque ε) (e : ε) : Deque ε :=
  match q.rest with
  | [] => ⟨e, []⟩
  | front :: rest => ⟨front, rest ++ [e]⟩

/-- An entry comes in, and the oldest goes if it is more than ten seconds old or one too many. -/
def Deque.insert (time : ε → Nat) (now : Nat) (q : Deque ε) (e : ε) : Deque ε :=
  if seconds 10 < now - time q.front then q.shift e
  else if maxStats ≤ q.toList.length then q.shift e
  else ⟨q.front, q.rest ++ [e]⟩

end Deques

structure Stats where
  start : Nat
  iopsMean : IopsOp → UInt64
  sizeMean : SizeOp → UInt64
  timeIops : IopsOp → Deque Nat
  timeSize : SizeOp → Deque (Nat × UInt64)

/-- The constructor puts an element into each deque. -/
def Stats.init (start : Nat) (iopsAt : IopsOp → Nat) (sizeAt : SizeOp → Nat) : Stats where
  start := start
  iopsMean := fun _ => 0
  sizeMean := fun _ => 0
  timeIops := fun op => ⟨iopsAt op, []⟩
  timeSize := fun op => ⟨(sizeAt op, 0), []⟩

section Add

variable (s : Stats)

/-- The clock is read for the age of the oldest entry, and once more for the new one. -/
def addValueIops (op : IopsOp) (now pushed : Nat) : Stats :=
  { s with
    iopsMean := Function.update s.iopsMean op (s.iopsMean op + 1)
    timeIops := Function.update s.timeIops op ((s.timeIops op).insert id now pushed) }

def iopsOf : SizeOp → IopsOp
  | .readSize => .iopsRead
  | .writeSize => .iopsWrite

def addValueSize (op : SizeOp) (value : UInt64) (now pushed iopsNow iopsPushed : Nat) : Stats :=
  addValueIops
    { s with
      sizeMean := Function.update s.sizeMean op (s.sizeMean op + value)
      timeSize := Function.update s.timeSize op ((s.timeSize op).insert Prod.fst now (pushed, value)) }
    (iopsOf op) iopsNow iopsPushed

inductive Call where
  | iops (op : IopsOp) (now pushed : Nat)
  | size (op : SizeOp) (value : UInt64) (now pushed iopsNow iopsPushed : Nat)

def step : Call → Stats
  | .iops op now pushed => addValueIops s op now pushed
  | .size op value now pushed iopsNow iopsPushed => addValueSize s op value now pushed iopsNow iopsPushed

/-- What a call reads off the clock. -/
def Call.readings : Call → List Nat
  | .iops _ now pushed => [now, pushed]
  | .size _ _ now pushed iopsNow iopsPushed => [now, pushed, iopsNow, iopsPushed]

end Add

section Means

variable {δ ε : Type*} [Zero δ] [Add δ] [NatCast δ]

/-- Sums over the last minute, five minutes and ten minutes. -/
@[ext] structure Sums (δ : Type*) where
  one : δ
  five : δ
  ten : δ

/-- The loop of `get_four_means` over numbers of any kind, the `double` of the code among them. -/
def sumFrom (now : Nat) (time : ε → Nat) (value : ε → δ) : List ε → Sums δ → Sums δ
  | [], r => r
  | e :: rest, r =>
    let duration := minutes (now - time e)
    if 10 < duration then r
    else
      let r := { r with ten := r.ten + value e }
      if 5 < duration then sumFrom now time value rest r
      else
        let r := { r with five := r.five + value e }
        if 1 < duration then sumFrom now time value rest r
        else sumFrom now time value rest { r with one := r.one + value e }

def sums (now : Nat) (time : ε → Nat) (value : ε → δ) (q : Deque ε) : Sums δ :=
  sumFrom now time value q.toList ⟨0, 0, 0⟩

structure Means (δ : Type*) where
  total : δ
  sums : Sums δ

variable [Div δ] (s : Stats)

/-- `get_mean`, with its own reading of the clock. -/
def getMean (mean : UInt64) (now : Nat) : δ :=
  (mean.toNat : δ) / ((now - s.start) / seconds 1 : Nat)

def valueSize (e : Nat × UInt64) : δ := (e.2.toNat : δ)

def valueIops (_ : Nat) : δ := (1 : Nat)

/-- In megabytes a second. -/
def getFourMeansSize (op : SizeOp) (now meanNow : Nat) : Means δ :=
  let mb : Nat := 1024 * 1024
  let r := sums now Prod.fst valueSize (s.timeSize op)
  ⟨getMean s (s.sizeMean op) meanNow / (mb : δ),
    ⟨r.one / (60 * mb : Nat), r.five / (5 * 60 * mb : Nat), r.ten / (10 * 60 * mb : Nat)⟩⟩

def getFourMeansIops (op : IopsOp) (now meanNow : Nat) : Means δ :=
  let r := sums now id valueIops (s.timeIops op)
  ⟨getMean s (s.iopsMean op) meanNow, ⟨r.one / (60 : Nat), r.five / (5 * 60 : Nat), r.ten / (10 * 60 : Nat)⟩⟩

end Means

/-- A construction, the calls behind it and the moment of the question. Time does not go back. -/
structure History where
  start : Nat
  iopsAt : IopsOp → Nat
  sizeAt : SizeOp → Nat
  ready : Nat
  calls : List Call
  now : Nat
  iopsAt_le : ∀ op, iopsAt op ≤ ready
  sizeAt_le : ∀ op, sizeAt op ≤ ready
  ordered : (ready :: (calls.flatMap Call.readings ++ [now])).Pairwise (· ≤ ·)

def History.stats (h : History) : Stats := h.calls.foldl step (Stats.init h.start h.iopsAt h.sizeAt)

section Window

variable {δ ε : Type*} [Zero δ] [Add δ] {now : Nat} {time : ε → Nat}

def age (now : Nat) (time : ε → Nat) (e : ε) : Nat := minutes (now - time e)

/-- The sum over the entries that are at most `limit` whole minutes old. -/
def sumWithin (limit now : Nat) (time : ε → Nat) (value : ε → δ) (es : List ε) : δ :=
  (es.filter fun e => age now time e ≤ limit).foldl (fun r e => r + value e) 0

/-- What the three sums are for. -/
def Counts (now : Nat) (time : ε → Nat) (value : ε → δ) (q : Deque ε) : Prop :=
  sums now time value q = ⟨sumWithin 1 now time value q.toList, sumWithin 5 now time value q.toList,
    sumWithin 10 now time value q.toList⟩

omit [Zero δ] in
theorem sumFrom_young {value : ε → δ} {es : List ε} (h : ∀ e ∈ es, age now time e ≤ 10) (r : Sums δ) :
    sumFrom now time value es r =
      ⟨(es.filter fun e => age now time e ≤ 1).foldl (fun r e => r + value e) r.one,
        (es.filter fun e => age now time e ≤ 5).foldl (fun r e => r + value e) r.five,
        (es.filter fun e => age now time e ≤ 10).foldl (fun r e => r + value e) r.ten⟩ := by
  induction es generalizing r with
  | nil => rfl
  | cons e es ih =>
    obtain ⟨he, hes⟩ := List.forall_mem_cons.mp h
    have hten : ¬ 10 < minutes (now - time e) := Nat.not_lt.mpr he
    rw [sumFrom]
    dsimp only
    rw [if_neg hten]
    by_cases hfive : 5 < minutes (now - time e)
    · have hone : 1 < minutes (now - time e) := by omega
      rw [if_pos hfive, ih hes]
      simp only [age, List.filter_cons, Nat.not_lt.mp hten, Nat.not_le.mpr hfive, Nat.not_le.mpr hone,
        decide_true, decide_false, if_true, Bool.false_eq_true, if_false, List.foldl_cons]
    by_cases hone : 1 < minutes (now - time e)
    · rw [if_neg hfive, if_pos hone, ih hes]
      simp only [age, List.filter_cons, Nat.not_lt.mp hten, Nat.not_lt.mp hfive, Nat.not_le.mpr hone,
        decide_true, decide_false, if_true, Bool.false_eq_true, if_false, List.foldl_cons]
    · rw [if_neg hfive, if_neg hone, ih hes]
      simp only [age, List.filter_cons, Nat.not_lt.mp hten, Nat.not_lt.mp hfive, Nat.not_lt.mp hone,
        decide_true, if_true, List.foldl_cons]

/-- Entries stand in the order of their times, none of them behind `t`. -/
structure InOrder (time : ε → Nat) (t : Nat) (q : Deque ε) : Prop where
  sorted : q.toList.Pairwise fun a b => time a ≤ time b
  le : ∀ e ∈ q.toList, time e ≤ t

theorem InOrder.age_le {q : Deque ε} {t : Nat} (h : InOrder time t q) (now : Nat) :
    ∀ e ∈ q.toList, age now time e ≤ age now time q.front := by
  have hfront : ∀ e ∈ q.toList, time q.front ≤ time e :=
    List.forall_mem_cons.mpr ⟨le_rfl, (List.pairwise_cons.mp h.sorted).1⟩
  exact fun e he => Nat.div_le_div_right (Nat.sub_le_sub_left (hfront e he) now)

theorem counts_young {q : Deque ε} {t : Nat} (h : InOrder time t q) (value : ε → δ)
    (hfront : age now time q.front ≤ 10) : Counts now time value q :=
  sumFrom_young (fun e he => (h.age_le now e he).trans hfront) _

theorem sums_old {q : Deque ε} (value : ε → δ) (hfront : 10 < age now time q.front) :
    sums now time value q = ⟨0, 0, 0⟩ := if_pos hfront

theorem sumWithin_none {es : List ε} {limit : Nat} (value : ε → δ)
    (h : ∀ e ∈ es, limit < age now time e) : sumWithin limit now time value es = 0 := by
  have hnone : (es.filter fun e => age now time e ≤ limit) = [] := by
    apply List.filter_eq_nil_iff.mpr
    intro e he
    simpa using h e he
  rw [sumWithin, hnone, List.foldl_nil]

theorem counts_none {q : Deque ε} (value : ε → δ) (h : ∀ e ∈ q.toList, 10 < age now time e) :
    Counts now time value q := by
  have hlimit : ∀ limit ≤ 10, ∀ e ∈ q.toList, limit < age now time e :=
    fun limit hle e he => hle.trans_lt (h e he)
  rw [Counts, sums_old value (h q.front List.mem_cons_self), sumWithin_none value (hlimit 1 (by decide)),
    sumWithin_none value (hlimit 5 (by decide)), sumWithin_none value h]

theorem counts_unhidden {q : Deque ε} {t : Nat} (h : InOrder time t q) (value : ε → δ)
    (hq : age now time q.front ≤ 10 ∨ ∀ e ∈ q.toList, 10 < age now time e) : Counts now time value q := by
  obtain hfront | hnone := hq
  · exact counts_young h value hfront
  · exact counts_none value hnone

theorem foldl_add_eq_zero_iff (value : ε → Nat) (es : List ε) (r : Nat) :
    es.foldl (fun r e => r + value e) r = 0 ↔ r = 0 ∧ ∀ e ∈ es, value e = 0 := by
  induction es generalizing r with
  | nil => simp
  | cons e es ih => rw [List.foldl_cons, ih, Nat.add_eq_zero_iff, List.forall_mem_cons, and_assoc]

/-- Behind an entry of more than ten minutes nothing is counted, so nothing may be there. -/
theorem counts_iff {q : Deque ε} {t : Nat} (h : InOrder time t q) (value : ε → Nat) :
    Counts now time value q ↔ age now time q.front ≤ 10 ∨
      ∀ e ∈ q.toList, age now time e ≤ 10 → value e = 0 := by
  by_cases hfront : age now time q.front ≤ 10
  · exact iff_of_true (counts_young h value hfront) (.inl hfront)
  have hzero : ∀ limit, sumWithin limit now time value q.toList = 0 ↔
      ∀ e ∈ q.toList, age now time e ≤ limit → value e = 0 := by
    intro limit
    rw [sumWithin, foldl_add_eq_zero_iff, and_iff_right rfl]
    simp only [List.mem_filter, decide_eq_true_eq, and_imp]
  rw [Counts, sums_old value (Nat.not_le.mp hfront), or_iff_right hfront]
  constructor
  · intro hcounts
    exact (hzero 10).mp (congrArg Sums.ten hcounts).symm
  · intro hall
    have hlimit : ∀ limit ≤ 10, sumWithin limit now time value q.toList = 0 := fun limit hle =>
      (hzero limit).mpr fun e he hage => hall e he (hage.trans hle)
    rw [hlimit 1 (by decide), hlimit 5 (by decide), hlimit 10 le_rfl]

end Window

section Order

variable {ε : Type*} {time : ε → Nat} {t : Nat}

theorem InOrder.mono {q : Deque ε} (h : InOrder time t q) {t' : Nat} (ht : t ≤ t') : InOrder time t' q :=
  ⟨h.sorted, fun e he => (h.le e he).trans ht⟩

theorem toList_shift (q : Deque ε) (e : ε) : (q.shift e).toList = q.rest ++ [e] := by
  obtain ⟨front, rest⟩ := q
  cases rest <;> rfl

theorem InOrder.insert {q : Deque ε} (h : InOrder time t q) {e : ε} (he : t ≤ time e) (now : Nat) :
    InOrder time (time e) (q.insert time now e) := by
  have hlast : InOrder time (time e) ⟨q.front, q.rest ++ [e]⟩ := by
    have hle : ∀ a ∈ q.toList, time a ≤ time e := fun a ha => (h.le a ha).trans he
    refine ⟨List.pairwise_append.mpr ⟨h.sorted, List.pairwise_singleton _ _, ?_⟩, ?_⟩
    · exact fun a ha b hb => List.mem_singleton.mp hb ▸ hle a ha
    · exact List.forall_mem_append.mpr ⟨hle, List.forall_mem_singleton.mpr le_rfl⟩
  have hshift : InOrder time (time e) (q.shift e) := by
    refine ⟨?_, ?_⟩ <;> rw [toList_shift]
    · exact (List.pairwise_cons.mp hlast.sorted).2
    · exact (List.forall_mem_cons.mp hlast.le).2
  rw [Deque.insert]
  split_ifs
  · exact hshift
  · exact hshift
  · exact hlast

/-- All deques of the statistics are in order. -/
structure Kept (t : Nat) (s : Stats) : Prop where
  iops : ∀ op, InOrder id t (s.timeIops op)
  size : ∀ op, InOrder Prod.fst t (s.timeSize op)

theorem kept_addValueIops {s : Stats} (h : Kept t s) (op : IopsOp) {pushed : Nat} (hpushed : t ≤ pushed)
    (now : Nat) : Kept pushed (addValueIops s op now pushed) where
  iops op' := by
    by_cases hop : op' = op
    · subst hop
      dsimp only [addValueIops]
      rw [Function.update_self]
      exact (h.iops op').insert hpushed now
    · dsimp only [addValueIops]
      rw [Function.update_of_ne hop]
      exact (h.iops op').mono hpushed
  size op' := (h.size op').mono hpushed

theorem kept_addValueSize {s : Stats} (h : Kept t s) (op : SizeOp) (value : UInt64)
    {pushed iopsPushed : Nat} (hpushed : t ≤ pushed) (hiops : pushed ≤ iopsPushed) (now iopsNow : Nat) :
    Kept iopsPushed (addValueSize s op value now pushed iopsNow iopsPushed) := by
  apply kept_addValueIops _ _ hiops
  refine ⟨fun op' => (h.iops op').mono hpushed, fun op' => ?_⟩
  by_cases hop : op' = op
  · subst hop
    dsimp only
    rw [Function.update_self]
    exact (h.size op').insert (e := (pushed, value)) hpushed now
  · dsimp only
    rw [Function.update_of_ne hop]
    exact (h.size op').mono hpushed

theorem kept_run {s : Stats} (h : Kept t s) {calls : List Call} {now : Nat}
    (ordered : (t :: (calls.flatMap Call.readings ++ [now])).Pairwise (· ≤ ·)) :
    Kept now (calls.foldl step s) := by
  induction calls generalizing s t with
  | nil =>
    have hnow : t ≤ now := (List.pairwise_cons.mp ordered).1 now (List.mem_singleton_self now)
    exact ⟨fun op => (h.iops op).mono hnow, fun op => (h.size op).mono hnow⟩
  | cons c calls ih =>
    cases c with
    | iops op age pushed =>
      simp only [List.flatMap_cons, Call.readings, List.cons_append, List.nil_append,
        List.pairwise_cons, List.forall_mem_cons] at ordered
      obtain ⟨⟨-, hpushed, -⟩, -, hrest⟩ := ordered
      exact ih (kept_addValueIops h op hpushed age) (List.pairwise_cons.mpr hrest)
    | size op value age pushed iopsNow iopsPushed =>
      simp only [List.flatMap_cons, Call.readings, List.cons_append, List.nil_append,
        List.pairwise_cons, List.forall_mem_cons] at ordered
      obtain ⟨⟨-, hpushed, -⟩, -, ⟨-, hiops, -⟩, -, hrest⟩ := ordered
      exact ih (kept_addValueSize h op value hpushed hiops age iopsNow) (List.pairwise_cons.mpr hrest)

theorem History.kept (h : History) : Kept h.now h.stats := by
  refine kept_run ⟨fun op => ?_, fun op => ?_⟩ h.ordered
  · exact ⟨List.pairwise_singleton _ _, List.forall_mem_singleton.mpr (h.iopsAt_le op)⟩
  · exact ⟨List.pairwise_singleton _ _, List.forall_mem_singleton.mpr (h.sizeAt_le op)⟩

end Order

section Scaled

variable {δ : Type*} [Zero δ] [Add δ] [NatCast δ] [Div δ] (h : History)

/-- While the entry at the front is young the means are those of the windows. -/
theorem getFourMeansSize_young (op : SizeOp) (hfront : age h.now Prod.fst (h.stats.timeSize op).front ≤ 10)
    (meanNow : Nat) :
    let mb : Nat := 1024 * 1024
    let within limit : δ := sumWithin limit h.now Prod.fst valueSize (h.stats.timeSize op).toList
    (getFourMeansSize h.stats op h.now meanNow).sums =
      ⟨within 1 / (60 * mb : Nat), within 5 / (5 * 60 * mb : Nat), within 10 / (10 * 60 * mb : Nat)⟩ := by
  intro mb within
  have hcounts : Counts h.now Prod.fst (valueSize (δ := δ)) (h.stats.timeSize op) :=
    counts_young (h.kept.size op) _ hfront
  rw [getFourMeansSize, hcounts]

theorem getFourMeansIops_young (op : IopsOp) (hfront : age h.now id (h.stats.timeIops op).front ≤ 10)
    (meanNow : Nat) :
    let within limit : δ := sumWithin limit h.now id valueIops (h.stats.timeIops op).toList
    (getFourMeansIops h.stats op h.now meanNow).sums =
      ⟨within 1 / (60 : Nat), within 5 / (5 * 60 : Nat), within 10 / (10 * 60 : Nat)⟩ := by
  intro within
  have hcounts : Counts h.now id (valueIops (δ := δ)) (h.stats.timeIops op) :=
    counts_young (h.kept.iops op) _ hfront
  rw [getFourMeansIops, hcounts]

end Scaled

section Result

/-- The sums are right exactly if the entry at the front is not more than ten minutes old, or hides
nothing that would count. In numbers of any kind they are right if it hides nothing at all. -/
theorem fourMeans_iff {δ : Type*} [Zero δ] [Add δ] [NatCast δ] (h : History) :
    (∀ op, Counts h.now Prod.fst (valueSize (δ := Nat)) (h.stats.timeSize op) ↔
      age h.now Prod.fst (h.stats.timeSize op).front ≤ 10 ∨
        ∀ e ∈ (h.stats.timeSize op).toList, age h.now Prod.fst e ≤ 10 → e.2 = 0) ∧
    (∀ op, Counts h.now id (valueIops (δ := Nat)) (h.stats.timeIops op) ↔
      age h.now id (h.stats.timeIops op).front ≤ 10 ∨
        ∀ e ∈ (h.stats.timeIops op).toList, 10 < age h.now id e) ∧
    (∀ op, (age h.now Prod.fst (h.stats.timeSize op).front ≤ 10 ∨
        ∀ e ∈ (h.stats.timeSize op).toList, 10 < age h.now Prod.fst e) →
      Counts h.now Prod.fst (valueSize (δ := δ)) (h.stats.timeSize op)) ∧
    (∀ op, (age h.now id (h.stats.timeIops op).front ≤ 10 ∨
        ∀ e ∈ (h.stats.timeIops op).toList, 10 < age h.now id e) →
      Counts h.now id (valueIops (δ := δ)) (h.stats.timeIops op)) := by
  refine ⟨fun op => ?_, fun op => ?_, fun op => ?_, fun op => ?_⟩
  · rw [counts_iff (h.kept.size op)]
    simp only [valueSize, Nat.cast_id, ← UInt64.toNat_inj, UInt64.toNat_zero]
  · rw [counts_iff (h.kept.iops op)]
    simp only [valueIops, Nat.cast_one, Nat.one_ne_zero, imp_false, Nat.not_le]
  · exact counts_unhidden (h.kept.size op) valueSize
  · exact counts_unhidden (h.kept.iops op) valueIops

/-- A write after one second, one after twenty minutes, and the question right behind it. -/
def idle : History where
  start := 0
  iopsAt := fun _ => 0
  sizeAt := fun _ => 0
  ready := 0
  calls := [.size .writeSize 7 (seconds 1) (seconds 1) (seconds 1) (seconds 1),
    .size .writeSize 5 (seconds 1200) (seconds 1200) (seconds 1200) (seconds 1200)]
  now := seconds 1200
  iopsAt_le := fun _ => le_rfl
  sizeAt_le := fun _ => le_rfl
  ordered := by decide

/-- The bytes of the last write are held, and none of them is counted. -/
theorem idle_hidden :
    (idle.stats.timeSize .writeSize).toList = [(seconds 1, 7), (seconds 1200, 5)] ∧
    (sums idle.now Prod.fst (valueSize (δ := Nat)) (idle.stats.timeSize .writeSize)).ten = 0 ∧
    sumWithin 10 idle.now Prod.fst (valueSize (δ := Nat)) (idle.stats.timeSize .writeSize).toList = 5 ∧
    ¬ Counts idle.now Prod.fst (valueSize (δ := Nat)) (idle.stats.timeSize .writeSize) := by
  refine ⟨rfl, rfl, rfl, fun h => ?_⟩
  exact absurd (congrArg Sums.ten h) (by decide)

end Result

end GaoFS.Statistics
