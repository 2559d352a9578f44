import GaoFS.MetadataKey

namespace GaoFS.CreateRace

open Replies DataOps MetadataRecord MergeOperator MetadataKey Library.NumberText Library.Runs

structure Create where
  mode : UInt32
  valid : (S_ISDIR mode || S_ISREG mode) = true

def Create.operand (r : Create) : MergeOperand := .create ((Metadata.ofMode r.mode).serialize config)

/-- Where a handler of a create request stands between its calls into the store. -/
inductive Pc where
  | start
  | putting
  | done (err : Int32)
  | aborted
  deriving DecidableEq

structure State (ι : Type*) where
  key : Key
  pc : ι → Pc

variable {ι : Type*} [DecidableEq ι]

/-- The next call of a handler: the existence lookup of `put_no_exist`, then the
merge, after which it replies. -/
def call (r : Create) (k : Key) : Pc → Pc × Key
  | .start => match existsKey k with
    | none => (.aborted, k)
    | some (.error e) => (.done (createErr (.error e : Except Failure Unit)), k)
    | some (.ok true) => (.done (createErr (.error .existsException : Except Failure Unit)), k)
    | some (.ok false) => (.putting, k)
  | .putting => (.done (createErr (.ok ())), k.merge r.operand)
  | .done err => (.done err, k)
  | .aborted => (.aborted, k)

def step (reqs : ι → Create) (s : State ι) (i : ι) : State ι where
  key := (call (reqs i) s.key (s.pc i)).2
  pc := Function.update s.pc i (call (reqs i) s.key (s.pc i)).1

def start : State ι := ⟨Key.absent, fun _ => .start⟩

/-- A handler with nothing in between is `rpc_srv_create`. -/
theorem foldl_step_alone (reqs : ι → Create) (s : State ι) (i : ι) (hi : s.pc i = .start)
    (data : Local) {e : Int32} {t : Store}
    (h : rpcSrvCreate ⟨s.key, data⟩ (reqs i).mode = (some e, t)) :
    ([i, i].foldl (step reqs) s).key = t.key ∧ ([i, i].foldl (step reqs) s).pc i = .done e := by
  simp only [rpcSrvCreate, (reqs i).valid, if_true] at h
  cases hex : existsKey s.key with
  | none => simp [hex] at h
  | some r =>
    cases r with
    | error f =>
      simp only [hex, Prod.mk.injEq, Option.some.injEq] at h
      obtain ⟨rfl, rfl⟩ := h
      simp [step, call, hi, hex]
    | ok found =>
      cases found <;> simp only [hex, Prod.mk.injEq, Option.some.injEq] at h <;>
        obtain ⟨rfl, rfl⟩ := h <;> simp [step, call, hi, hex, Create.operand]

def Undisturbed (s : State ι) (i : ι) : Prop := s.pc i = .putting → NotFound s.key

instance decidableUndisturbed (s : State ι) (i : ι) : Decidable (Undisturbed s i) :=
  inferInstanceAs (Decidable (s.pc i = .putting → NotFound s.key))

/-- What `gaofs_open` with `O_CREAT | O_EXCL` makes of the reply to its create
request: the descriptor of a new file, or the errno. -/
def gaofsOpenExcl (fd err : Int32) : Except Int32 Int32 := if err ≠ 0 then .error err else .ok fd

def Opens (s : State ι) (i : ι) : Prop := ∃ err, s.pc i = .done err ∧ ∀ fd, gaofsOpenExcl fd err = .ok fd

omit [DecidableEq ι] in
theorem opens_iff (s : State ι) (i : ι) : Opens s i ↔ s.pc i = .done 0 := by
  constructor
  · rintro ⟨err, hpc, hopen⟩
    by_cases h : err = 0
    · rw [hpc, h]
    · have h0 := hopen 0
      rw [gaofsOpenExcl, if_pos h] at h0
      cases h0
  · exact fun h => ⟨0, h, fun fd => rfl⟩

/-- As soon as a request is answered, exactly one has succeeded, its mode is the
stored one, all other answers are `EEXIST`, and only it opens the file. -/
structure Exclusive (reqs : ι → Create) (s : State ι) : Prop where
  once : ∀ i err, s.pc i = .done err → ∃! j, s.pc j = .done 0
  others : ∀ i err, s.pc i = .done err → err = 0 ∨ err = EEXIST
  mode : ∀ i, s.pc i = .done 0 → ∃ md, getMetadata s.key = some (.ok md) ∧ md.mode = (reqs i).mode
  opens : ∀ i j, Opens s i → Opens s j → i = j
  answered : ∀ i, s.pc i ≠ .aborted

section Run

variable {reqs : ι → Create} {s : State ι}

theorem pc_step_self (i : ι) : (step reqs s i).pc i = (call (reqs i) s.key (s.pc i)).1 :=
  Function.update_self i _ _

theorem pc_step_other {i j : ι} (h : j ≠ i) : (step reqs s i).pc j = s.pc j :=
  Function.update_of_ne h _ _

theorem pc_step_done {i j : ι} {err : Int32} (h : s.pc j = .done err) :
    (step reqs s i).pc j = .done err := by
  by_cases he : j = i
  · subst he
    rw [pc_step_self, h]
    rfl
  · rw [pc_step_other he, h]

variable (reqs) in
theorem pc_foldl_done {j : ι} {err : Int32} (h : s.pc j = .done err) (sched : List ι) :
    (sched.foldl (step reqs) s).pc j = .done err :=
  invariant_foldl (I := fun s : State ι => s.pc j = .done err) (fun _ _ hs => pc_step_done hs) sched h

variable (reqs) in
theorem absent_or_created (sched : List ι) :
    let s := sched.foldl (step reqs) (start : State ι)
    s.key = Key.absent ∨ ∃ j, s.pc j = .done 0 := by
  refine invariant_foldl (I := fun s : State ι => s.key = Key.absent ∨ ∃ j, s.pc j = .done 0) ?_ sched
    (.inl rfl)
  intro s i hs
  cases hs with
  | inr hcreated =>
    obtain ⟨j, hj⟩ := hcreated
    exact .inr ⟨j, pc_step_done hj⟩
  | inl habsent =>
    cases hi : s.pc i with
    | putting =>
      refine .inr ⟨i, ?_⟩
      rw [pc_step_self, hi]
      rfl
    | start =>
      refine .inl ?_
      simp only [step, hi, call, habsent, existsKey_absent]
    | done err => exact .inl (by rw [step, hi]; exact habsent)
    | aborted => exact .inl (by rw [step, hi]; exact habsent)

/-- What holds in a run whose merges all find the path absent: nothing is
answered, or one create is stored and answered all other requests are told. -/
inductive Inv (reqs : ι → Create) (s : State ι) : Prop where
  | absent (key : s.key = Key.absent) (pc : ∀ i, s.pc i = .start ∨ s.pc i = .putting)
  | created (j : ι) (key : s.key = Key.absent.merge (reqs j).operand) (pc : s.pc j = .done 0)
      (others : ∀ i, i ≠ j → s.pc i = .start ∨ s.pc i = .putting ∨ s.pc i = .done EEXIST)

theorem inv_step_absent (hkey : s.key = Key.absent) (hpc : ∀ i, s.pc i = .start ∨ s.pc i = .putting)
    (i : ι) : Inv reqs (step reqs s i) := by
  cases hpc i with
  | inl hi =>
    refine .absent ?_ fun j => ?_
    · simp only [step, hi, call, hkey, existsKey_absent]
    · by_cases he : j = i
      · subst he
        refine .inr ?_
        rw [pc_step_self, hi, hkey]
        rfl
      · rw [pc_step_other he]
        exact hpc j
  | inr hi =>
    refine .created i ?_ ?_ fun j he => ?_
    · rw [step, hi, hkey]
      rfl
    · rw [pc_step_self, hi]
      rfl
    · rw [pc_step_other he]
      exact (hpc j).imp_right .inl

theorem inv_step_created {j : ι} (hkey : s.key = Key.absent.merge (reqs j).operand)
    (hpc : s.pc j = .done 0)
    (hothers : ∀ i, i ≠ j → s.pc i = .start ∨ s.pc i = .putting ∨ s.pc i = .done EEXIST) {i : ι}
    (hok : Undisturbed s i) : Inv reqs (step reqs s i) := by
  have hrec : Recorded s.key ((Metadata.ofMode (reqs j).mode).kept config) := by
    rw [hkey]
    exact recorded_created _
  have hex : existsKey s.key = some (.ok true) := existsKey_recorded hrec
  by_cases he : i = j
  · subst he
    refine .created i ?_ (pc_step_done hpc) fun k hk => ?_
    · rw [step, hpc]
      exact hkey
    · rw [pc_step_other hk]
      exact hothers k hk
  · refine .created j ?_ (pc_step_done hpc) fun k hk => ?_
    · rcases hothers i he with hi | hi | hi
      · simp only [step, hi, call, hex]
        exact hkey
      · exact absurd (hok hi) (not_notFound_recorded hrec)
      · rw [step, hi]
        exact hkey
    · by_cases hki : k = i
      · subst hki
        rcases hothers k hk with hi | hi | hi
        · refine .inr (.inr ?_)
          rw [pc_step_self, hi, call, hex]
          rfl
        · exact absurd (hok hi) (not_notFound_recorded hrec)
        · exact .inr (.inr (pc_step_done hi))
      · rw [pc_step_other hki]
        exact hothers k hk

theorem Inv.step (h : Inv reqs s) {i : ι} (hok : Undisturbed s i) : Inv reqs (step reqs s i) := by
  cases h with
  | absent hkey hpc => exact inv_step_absent hkey hpc i
  | created j hkey hpc hothers => exact inv_step_created hkey hpc hothers hok

omit [DecidableEq ι] in
theorem exclusive_absent (hpc : ∀ i, s.pc i = .start ∨ s.pc i = .putting) : Exclusive reqs s := by
  have hdone : ∀ i err, s.pc i ≠ .done err := by
    intro i err hi
    cases hpc i with
    | inl h => rw [h] at hi; cases hi
    | inr h => rw [h] at hi; cases hi
  refine ⟨fun i err hi => absurd hi (hdone i err), fun i err hi => absurd hi (hdone i err),
    fun i hi => absurd hi (hdone i 0), fun i j hi => absurd ((opens_iff s i).mp hi) (hdone i 0), ?_⟩
  intro i hi
  cases hpc i with
  | inl h => rw [h] at hi; cases hi
  | inr h => rw [h] at hi; cases hi

omit [DecidableEq ι] in
theorem exclusive_created {j : ι} (hkey : s.key = Key.absent.merge (reqs j).operand)
    (hpc : s.pc j = .done 0)
    (hothers : ∀ i, i ≠ j → s.pc i = .start ∨ s.pc i = .putting ∨ s.pc i = .done EEXIST) :
    Exclusive reqs s := by
  have hEEXIST : EEXIST ≠ 0 := by decide
  have honly : ∀ i, s.pc i = .done 0 → i = j := by
    intro i hi
    by_contra he
    rcases hothers i he with h | h | h <;> rw [h] at hi <;> cases hi
  refine ⟨fun i err _ => ⟨j, hpc, honly⟩, ?_, ?_, ?_, ?_⟩
  · intro i err hi
    by_cases he : i = j
    · subst he
      rw [hpc] at hi
      cases hi
      exact .inl rfl
    · rcases hothers i he with h | h | h <;> rw [h] at hi <;> cases hi
      exact .inr rfl
  · intro i hi
    obtain rfl := honly i hi
    have hrec : Recorded s.key ((Metadata.ofMode (reqs i).mode).kept config) := by
      rw [hkey]
      exact recorded_created _
    exact ⟨_, getMetadata_recorded hrec (Nat.two_pow_pos 63), rfl⟩
  · intro i k hi hk
    rw [honly i ((opens_iff s i).mp hi), honly k ((opens_iff s k).mp hk)]
  · intro i hi
    by_cases he : i = j
    · subst he
      rw [hpc] at hi
      cases hi
    · rcases hothers i he with h | h | h <;> rw [h] at hi <;> cases hi

omit [DecidableEq ι] in
theorem Inv.exclusive (h : Inv reqs s) : Exclusive reqs s := by
  cases h with
  | absent hkey hpc => exact exclusive_absent hpc
  | created j hkey hpc hothers => exact exclusive_created hkey hpc hothers

/-- Concurrent creates of an absent path exclude each other exactly if every
merge of the run still finds the path absent. -/
theorem create_exclusive_iff (reqs : ι → Create) (sched : List ι) :
    Exclusive reqs (sched.foldl (step reqs) start) ↔
      AllSteps (step reqs) Undisturbed start sched := by
  constructor
  · intro h
    rw [allSteps_iff_split]
    rintro p i q rfl hi
    cases absent_or_created reqs p with
    | inl habsent =>
      rw [habsent]
      exact notFound_absent
    | inr hcreated =>
      -- a second merge would answer success a second time
      obtain ⟨j, hj⟩ := hcreated
      have hmerge : (step reqs (p.foldl (step reqs) start) i).pc i = .done 0 := by
        rw [pc_step_self, hi]
        rfl
      have hfinal := fun {k} (hk : (step reqs (p.foldl (step reqs) start) i).pc k = .done 0) =>
        pc_foldl_done reqs hk q
      rw [List.foldl_append, List.foldl_cons] at h
      obtain ⟨k, -, hunique⟩ := h.once i 0 (hfinal hmerge)
      have hij : i = j :=
        (hunique i (hfinal hmerge)).trans (hunique j (hfinal (pc_step_done hj))).symm
      subst hij
      rw [hi] at hj
      cases hj
  · intro h
    have hinv : Inv reqs (sched.foldl (step reqs) start) :=
      AllSteps.invariant (fun s i hs hi => hs.step hi) (.absent rfl fun _ => .inl rfl) h
    exact hinv.exclusive

def twoModes : Fin 2 → Create
  | 0 => ⟨0o100644, by decide⟩
  | 1 => ⟨0o100600, by decide⟩

/-- Two handlers that both look before either merges both reply success, and
the mode of the second is not the stored one. -/
theorem interleaved_creates :
    let s := [0, 1, 0, 1].foldl (step twoModes) start
    s.pc 0 = .done 0 ∧ s.pc 1 = .done 0 ∧ ¬ Exclusive twoModes s ∧
      (getMetadata s.key).map (fun r => r.map Metadata.mode) = some (.ok 0o100644) := by
  refine ⟨by decide, by decide, fun h => ?_, by decide⟩
  obtain ⟨k, -, hunique⟩ := h.once 0 0 (by decide)
  have h01 : (0 : Fin 2) = 1 := (hunique 0 (by decide)).trans (hunique 1 (by decide)).symm
  exact absurd h01 (by decide)

end Run

end GaoFS.CreateRace
