import GaoFS.DataOps
import GaoFS.Library.Runs

namespace GaoFS.FirstChunkRace

open Chunks Replies ChunkStorage FirstChunkRecord DataOps
open Library.NumberText Library.ByteFile Library.Runs

structure Write where
  buf : Bytes
  off : Nat
  fits : off + buf.length ≤ C

def writeErr : Failure → Int64
  | .chunkStorageException code => -code.toInt64
  | .notFoundException => -ENOENT.toInt64
  | .existsException => - EIO.toInt64
  | .dbException => - EIO.toInt64
  | .stdException => - EIO.toInt64

def wrote (w : Write) : Int64 := Int64.ofNat w.buf.length

/-- Where a task stands between two calls into the store. After the existence
check it either goes on to `put_no_exist`, which checks once more before it
puts, or to get and update. -/
inductive Pc where
  | start
  | checking
  | putting
  | getting
  | updating (seen : Bytes) (content : Bytes)
  | done (wrote : Int64)
  | aborted
  deriving DecidableEq

structure State (ι : Type*) where
  record : Option Bytes
  pc : ι → Pc

variable {ι : Type*} [DecidableEq ι]

/-- The next call of a task: its new position, and the record if it stores one. -/
def call (w : Write) (record : Option Bytes) : Pc → Pc × Option Bytes
  | .start => (if record.isSome then .getting else .checking, record)
  | .checking => (if record.isSome then .done (writeErr .existsException) else .putting, record)
  | .putting => (.done (wrote w), some (recordOf (writeContent [] w.buf w.off)))
  | .getting =>
    match record with
    | none => (.done (writeErr .notFoundException), record)
    | some raw => match decode raw with
      | .ok x => (.updating raw x.content, record)
      | .error (.std _) => (.done (writeErr .stdException), record)
      | .error .assertion => (.aborted, record)
  | .updating _ content => (.done (wrote w), some (recordOf (writeContent content w.buf w.off)))
  | .done r => (.done r, record)
  | .aborted => (.aborted, record)

def step (reqs : ι → Write) (s : State ι) (i : ι) : State ι where
  record := (call (reqs i) s.record (s.pc i)).2
  pc := Function.update s.pc i (call (reqs i) s.record (s.pc i)).1

def eventual : Except Failure Nat → Int64
  | .ok n => Int64.ofNat n
  | .error e => writeErr e

/-- A task that makes its calls with nothing in between is the body of
`write_file_abt`. -/
theorem foldl_step_alone (reqs : ι → Write) (s : State ι) (i : ι) (hi : s.pc i = .start)
    (rootPath : Bytes) (path : Path) (fs : Fs) {r : Except Failure Nat} {l : Local}
    (h : writeFile rootPath path ⟨s.record, fs⟩ 0 (reqs i).buf (reqs i).off = some (r, l)) :
    ([i, i, i].foldl (step reqs) s).record = l.firstChunk ∧
      ([i, i, i].foldl (step reqs) s).pc i = .done (eventual r) := by
  simp only [writeFile, ↓reduceIte, (reqs i).fits] at h
  cases hrec : s.record with
  | none =>
    simp only [hrec, Option.some.injEq, Prod.mk.injEq] at h
    obtain ⟨rfl, rfl⟩ := h
    simp [step, call, hi, hrec, putFirstChunk, eventual, wrote]
  | some raw =>
    simp only [hrec, getFirstChunk] at h
    cases hdec : decode raw with
    | ok x =>
      simp only [hdec, Option.map_some, Option.some.injEq, Prod.mk.injEq] at h
      obtain ⟨rfl, rfl⟩ := h
      simp [step, call, hi, hrec, hdec, putFirstChunk, eventual, wrote]
    | error e =>
      cases e with
      | std e =>
        simp only [hdec, Option.map_some, Option.some.injEq, Prod.mk.injEq] at h
        obtain ⟨rfl, rfl⟩ := h
        simp [step, call, hi, hrec, hdec, eventual]
      | assertion => simp [hdec] at h

/-- What the decoder drops of a content, a request puts back: from the first
zero byte on, every byte is overwritten, or is a zero byte before its end. -/
def PutsBack (w : Write) (content : Bytes) : Prop :=
  ∀ p, ∀ _ : p < content.length, (cString content).length ≤ p →
    w.off ≤ p ∧ p < w.off + w.buf.length ∨ content[p] = 0 ∧ p < w.off + w.buf.length

instance decidablePutsBack (w : Write) (content : Bytes) : Decidable (PutsBack w content) :=
  inferInstanceAs (Decidable (∀ p, ∀ _ : p < content.length, _))

/-- A call that finds the record as the task's earlier calls have found it, and
whose decoder drops nothing that is lost. -/
def UndisturbedAt (w : Write) (record : Option Bytes) : Pc → Prop
  | .checking => record = none
  | .putting => record = none
  | .getting => ∀ raw ∈ record, PutsBack w (rawContent raw)
  | .updating seen _ => record = some seen
  | _ => True

instance decidableUndisturbedAt (w : Write) (record : Option Bytes) :
    ∀ pc, Decidable (UndisturbedAt w record pc)
  | .checking => inferInstanceAs (Decidable (record = none))
  | .putting => inferInstanceAs (Decidable (record = none))
  | .getting => inferInstanceAs (Decidable (∀ raw ∈ record, PutsBack w (rawContent raw)))
  | .updating seen _ => inferInstanceAs (Decidable (record = some seen))
  | .start => isTrue trivial
  | .done _ => isTrue trivial
  | .aborted => isTrue trivial

def Undisturbed (reqs : ι → Write) (s : State ι) (i : ι) : Prop :=
  UndisturbedAt (reqs i) s.record (s.pc i)

instance decidableUndisturbed (reqs : ι → Write) (s : State ι) (i : ι) :
    Decidable (Undisturbed reqs s i) := decidableUndisturbedAt _ _ _

def Disjoint (w v : Write) : Prop :=
  w.off + w.buf.length ≤ v.off ∨ v.off + v.buf.length ≤ w.off

instance decidableDisjoint (w v : Write) : Decidable (Disjoint w v) :=
  inferInstanceAs (Decidable (_ ∨ _))

def Holds (record : Option Bytes) (w : Write) : Prop :=
  ∃ content, record = some (recordOf content) ∧ pread w.off w.buf.length content = w.buf

/-- Every task that is done has succeeded and is stored, and a task about to
update has decoded the record that it saw. -/
structure Inv (reqs : ι → Write) (s : State ι) : Prop where
  record : ∃ raw : Option Bytes, s.record = raw.map recordOf ∧ ∀ c, raw = some c → c.length ≤ C
  done : ∀ i r, s.pc i = .done r → r = wrote (reqs i) ∧ Holds s.record (reqs i)
  updating : ∀ i seen content, s.pc i = .updating seen content →
    ∃ c, seen = recordOf c ∧ content = cString c ∧ PutsBack (reqs i) c
  getting : ∀ i, s.pc i = .getting → s.record.isSome
  aborted : ∀ i, s.pc i ≠ .aborted

theorem holds_writeContent_self (w : Write) (content : Bytes) :
    Holds (some (recordOf (writeContent content w.buf w.off))) w := by
  refine ⟨_, rfl, ?_⟩
  apply List.ext_getElem?
  intro p
  rw [getElem?_pread, getElem?_writeContent]
  by_cases hp : p < w.buf.length
  · rw [if_pos hp, if_pos (by omega), Nat.add_sub_cancel_left]
  · rw [if_neg hp, List.getElem?_eq_none (by omega)]

/-- An update that puts back what the decoder drops keeps the other requests. -/
theorem holds_writeContent_other {w v : Write} (hd : Disjoint w v) {content : Bytes}
    (hback : PutsBack w content) (hv : pread v.off v.buf.length content = v.buf) :
    Holds (some (recordOf (writeContent (cString content) w.buf w.off))) v := by
  refine ⟨_, rfl, ?_⟩
  apply List.ext_getElem?
  intro p
  have hbyte := congrArg (fun l => l[p]?) hv
  simp only [getElem?_pread] at hbyte ⊢
  by_cases hp : p < v.buf.length
  · rw [if_pos hp] at hbyte ⊢
    rw [getElem?_writeContent, if_neg (by unfold Disjoint at hd; omega)]
    by_cases hcut : v.off + p < (cString content).length
    · rw [if_pos hcut, getElem?_cString hcut, hbyte]
    · have hb : v.buf[p]? = some v.buf[p] := List.getElem?_eq_getElem hp
      rw [hb] at hbyte ⊢
      rw [if_neg hcut]
      obtain ⟨hlt, hget⟩ := List.getElem?_eq_some_iff.mp hbyte
      cases hback _ hlt (by omega) with
      | inl hown =>
        unfold Disjoint at hd
        omega
      | inr hzero => rw [if_pos hzero.2, ← hget, hzero.1]
  · rw [if_neg hp, List.getElem?_eq_none (by omega)]

section Run

variable {reqs : ι → Write} {s : State ι}

variable (reqs s) in
theorem pc_step_self (i : ι) : (step reqs s i).pc i = (call (reqs i) s.record (s.pc i)).1 :=
  Function.update_self i _ _

theorem pc_step_other {i j : ι} (h : j ≠ i) : (step reqs s i).pc j = s.pc j :=
  Function.update_of_ne h _ _

/-- The outcome of an undisturbed call: the task moves on without a store, or it
is done and its bytes have joined those of the finished requests. -/
inductive Effect (w : Write) (s : State ι) (i : ι) (s' : State ι) : Prop where
  | read (record : s'.record = s.record) (done : ∀ r, s'.pc i = .done r → s.pc i = .done r)
      (updating : ∀ seen content, s'.pc i = .updating seen content →
        ∃ c, seen = recordOf c ∧ content = cString c ∧ PutsBack w c)
      (getting : s'.pc i = .getting → s.record.isSome) (aborted : s'.pc i ≠ .aborted)
  | store (content : Bytes) (pc : s'.pc i = .done (wrote w))
      (record : s'.record = some (recordOf (writeContent (cString content) w.buf w.off)))
      (others : s.record = none ∧ content = [] ∨ s.record = some (recordOf content) ∧ PutsBack w content)
      (fits : content.length ≤ C)

theorem Inv.effect (h : Inv reqs s) {i : ι} (hok : Undisturbed reqs s i) :
    Effect (reqs i) s i (step reqs s i) := by
  obtain ⟨raw, hraw, hlen⟩ := h.record
  have hpc := pc_step_self reqs s i
  have hrec : (step reqs s i).record = (call (reqs i) s.record (s.pc i)).2 := rfl
  unfold Undisturbed at hok
  cases hi : s.pc i with
  | start =>
    rw [hi] at hpc hrec
    refine .read hrec ?_ ?_ ?_ ?_ <;> rw [hpc, call] <;> cases s.record <;> simp
  | checking =>
    rw [hi] at hok hpc hrec
    refine .read hrec ?_ ?_ ?_ ?_ <;> rw [hpc, call, hok] <;> simp
  | putting =>
    rw [hi] at hok hpc hrec
    exact .store [] hpc hrec (.inl ⟨hok, rfl⟩) (Nat.zero_le C)
  | getting =>
    rw [hi] at hok hpc hrec
    cases raw with
    | none =>
      have hsome := h.getting i hi
      rw [hraw] at hsome
      simp at hsome
    | some c =>
      have hc := hlen c rfl
      have hdec := decode_recordOf c (by simp only [C] at hc; omega)
      simp only [hraw, Option.map_some, call, hdec] at hpc hrec
      have hback := hok (recordOf c) hraw
      rw [rawContent_recordOf] at hback
      refine .read (by rw [hrec, hraw]; rfl) ?_ ?_ ?_ ?_
      · rw [hpc]; simp
      · intro seen content heq
        rw [hpc] at heq
        cases heq
        exact ⟨c, rfl, rfl, hback⟩
      · rw [hpc]; simp
      · rw [hpc]; simp
  | updating seen content =>
    rw [hi] at hok hpc hrec
    obtain ⟨c, rfl, rfl, hback⟩ := h.updating i seen content hi
    have hfit : c.length ≤ C := by
      cases raw with
      | none => rw [hraw] at hok; cases hok
      | some e =>
        have he : recordOf e = recordOf c := Option.some.inj (hraw.symm.trans hok)
        rw [← recordOf_injective he]
        exact hlen e rfl
    exact .store c hpc hrec (.inr ⟨hok, hback⟩) hfit
  | done r =>
    rw [hi] at hpc hrec
    refine .read hrec ?_ ?_ ?_ ?_ <;> rw [hpc, call] <;> simp [hi]
  | aborted => exact absurd hi (h.aborted i)

theorem Inv.read {i : ι} {s' : State ι} (h : Inv reqs s)
    (hother : ∀ j, j ≠ i → s'.pc j = s.pc j) (hrecord : s'.record = s.record)
    (hdone : ∀ r, s'.pc i = .done r → s.pc i = .done r)
    (hupd : ∀ seen content, s'.pc i = .updating seen content →
      ∃ c, seen = recordOf c ∧ content = cString c ∧ PutsBack (reqs i) c)
    (hget : s'.pc i = .getting → s.record.isSome) (habort : s'.pc i ≠ .aborted) : Inv reqs s' := by
  refine ⟨by rw [hrecord]; exact h.record, ?_, ?_, ?_, ?_⟩
  · intro j r hj
    rw [hrecord]
    by_cases he : j = i
    · subst he; exact h.done j r (hdone r hj)
    · exact h.done j r ((hother j he).symm.trans hj)
  · intro j seen content hj
    by_cases he : j = i
    · subst he; exact hupd seen content hj
    · exact h.updating j seen content ((hother j he).symm.trans hj)
  · intro j hj
    rw [hrecord]
    by_cases he : j = i
    · subst he; exact hget hj
    · exact h.getting j ((hother j he).symm.trans hj)
  · intro j hj
    by_cases he : j = i
    · subst he; exact habort hj
    · exact h.aborted j ((hother j he).symm.trans hj)

theorem Inv.store {i : ι} {s' : State ι} {content : Bytes} (h : Inv reqs s)
    (hdisjoint : ∀ j, j ≠ i → Disjoint (reqs i) (reqs j))
    (hother : ∀ j, j ≠ i → s'.pc j = s.pc j) (hpc : s'.pc i = .done (wrote (reqs i)))
    (hrecord : s'.record = some (recordOf (writeContent (cString content) (reqs i).buf (reqs i).off)))
    (hfound : s.record = none ∧ content = [] ∨
      s.record = some (recordOf content) ∧ PutsBack (reqs i) content)
    (hfits : content.length ≤ C) : Inv reqs s' := by
  refine ⟨⟨some _, hrecord, ?_⟩, ?_, ?_, ?_, ?_⟩
  · intro c hc
    rw [← Option.some.inj hc, length_writeContent]
    exact max_le ((List.takeWhile_sublist _).length_le.trans hfits) (reqs i).fits
  · intro j r hj
    rw [hrecord]
    by_cases he : j = i
    · subst he
      rw [hpc] at hj
      cases hj
      exact ⟨rfl, holds_writeContent_self _ _⟩
    · obtain ⟨hr, c, hc, hread⟩ := h.done j r ((hother j he).symm.trans hj)
      refine ⟨hr, ?_⟩
      cases hfound with
      | inl hnone => rw [hnone.1] at hc; cases hc
      | inr hsome =>
        have hcc : recordOf content = recordOf c := Option.some.inj (hsome.1.symm.trans hc)
        rw [← recordOf_injective hcc] at hread
        exact holds_writeContent_other (hdisjoint j he) hsome.2 hread
  · intro j seen c hj
    by_cases he : j = i
    · subst he; rw [hpc] at hj; cases hj
    · exact h.updating j seen c ((hother j he).symm.trans hj)
  · intro j _
    rw [hrecord]
    rfl
  · intro j hj
    by_cases he : j = i
    · subst he; rw [hpc] at hj; cases hj
    · exact h.aborted j ((hother j he).symm.trans hj)

theorem Inv.step (hdisjoint : ∀ i j, i ≠ j → Disjoint (reqs i) (reqs j)) (h : Inv reqs s) {i : ι}
    (hok : Undisturbed reqs s i) : Inv reqs (step reqs s i) := by
  have hother : ∀ j, j ≠ i → (FirstChunkRace.step reqs s i).pc j = s.pc j := fun j hj =>
    pc_step_other hj
  cases h.effect hok with
  | read hrecord hdone hupd hget habort => exact h.read hother hrecord hdone hupd hget habort
  | store content hpc hrecord hfound hfits =>
    exact h.store (fun j hj => hdisjoint i j hj.symm) hother hpc hrecord hfound hfits

def start (content : Option Bytes) : State ι := ⟨content.map recordOf, fun _ => .start⟩

omit [DecidableEq ι] in
theorem Inv.start {content : Option Bytes} (h : ∀ c, content = some c → c.length ≤ C) :
    Inv reqs (start content) :=
  ⟨⟨content, rfl, h⟩, by simp [FirstChunkRace.start], by simp [FirstChunkRace.start],
    by simp [FirstChunkRace.start], by simp [FirstChunkRace.start]⟩

end Run

/-- In a run of undisturbed calls no task fails, and the bytes of every task
that is done are stored. -/
theorem writes_stored (reqs : ι → Write) (hdisjoint : ∀ i j, i ≠ j → Disjoint (reqs i) (reqs j))
    (content : Option Bytes) (hfits : ∀ c, content = some c → c.length ≤ C) (sched : List ι)
    (hok : AllSteps (step reqs) (Undisturbed reqs) (start content) sched) :
    let s := sched.foldl (step reqs) (start content)
    ∀ i, s.pc i ≠ .aborted ∧ ∀ r, s.pc i = .done r → r = wrote (reqs i) ∧ Holds s.record (reqs i) := by
  have hinv : Inv reqs (sched.foldl (step reqs) (start content)) :=
    AllSteps.invariant (fun s i hs hi => hs.step hdisjoint hi) (Inv.start hfits) hok
  exact fun i => ⟨hinv.aborted i, hinv.done i⟩

def neighbours : Fin 2 → Write
  | 0 => ⟨[1], 0, by decide⟩
  | 1 => ⟨[2], 1, by decide⟩

theorem writes_stored_in_turn :
    let s := [0, 0, 0, 1, 1, 1].foldl (step neighbours) (start none)
    ∀ i, s.pc i ≠ .aborted ∧
      ∀ r, s.pc i = .done r → r = wrote (neighbours i) ∧ Holds s.record (neighbours i) :=
  writes_stored neighbours (by decide) none (by simp) [0, 0, 0, 1, 1, 1] (by decide)

/-- Two tasks that both read before either updates both succeed, and the bytes
of the first are lost; on an absent record the later one fails. -/
theorem interleaved_writes :
    let s := [0, 1, 0, 1, 0, 1].foldl (step neighbours) (start (some [9]))
    let t := [0, 1, 0, 0, 1].foldl (step neighbours) (start none)
    (s.pc 0 = .done 1 ∧ s.pc 1 = .done 1 ∧ ¬ Holds s.record (neighbours 0)) ∧
      t.pc 0 = .done 1 ∧ t.pc 1 = .done (-5) := by
  refine ⟨⟨by decide, by decide, ?_⟩, by decide, by decide⟩
  rintro ⟨content, hrecord, hread⟩
  have hlast : recordOf content = recordOf [9, 2] := Option.some.inj (hrecord.symm.trans (by decide))
  rw [recordOf_injective hlast] at hread
  exact absurd hread (by decide)

end GaoFS.FirstChunkRace
