import Mathlib.Data.List.Basic
import Mathlib.Logic.Function.Basic

namespace GaoFS.Library.Runs

variable {σ α ι : Type*}

/-- `P` holds of every step of a run, each step judged in the state it starts
from. A run of a deterministic system is a left fold of its step function. -/
def AllSteps (step : σ → α → σ) (P : σ → α → Prop) : σ → List α → Prop
  | _, [] => True
  | s, a :: as => P s a ∧ AllSteps step P (step s a) as

instance decidableAllSteps (step : σ → α → σ) (P : σ → α → Prop) [∀ s a, Decidable (P s a)] :
    ∀ s as, Decidable (AllSteps step P s as)
  | _, [] => isTrue trivial
  | s, a :: as =>
    have := decidableAllSteps step P (step s a) as
    inferInstanceAs (Decidable (P s a ∧ AllSteps step P (step s a) as))

theorem allSteps_append (step : σ → α → σ) (P : σ → α → Prop) (s : σ) (as bs : List α) :
    AllSteps step P s (as ++ bs) ↔
      AllSteps step P s as ∧ AllSteps step P (as.foldl step s) bs := by
  induction as generalizing s with
  | nil => simp [AllSteps]
  | cons a as ih => simp only [List.cons_append, AllSteps, ih, List.foldl_cons, and_assoc]

theorem AllSteps.invariant {step : σ → α → σ} {P : σ → α → Prop} {I : σ → Prop}
    (hstep : ∀ s a, I s → P s a → I (step s a)) {s : σ} {as : List α}
    (hs : I s) (has : AllSteps step P s as) : I (as.foldl step s) := by
  induction as generalizing s with
  | nil => exact hs
  | cons a as ih => exact ih (hstep s a hs has.1) has.2

/-- What follows from the invariant at a step that meets `P` holds of every step. -/
theorem AllSteps.imp {step : σ → α → σ} {P Q : σ → α → Prop} {I : σ → Prop}
    (hstep : ∀ s a, I s → P s a → I (step s a) ∧ Q s a) {s : σ} {as : List α}
    (hs : I s) (has : AllSteps step P s as) : AllSteps step Q s as := by
  induction as generalizing s with
  | nil => trivial
  | cons a as ih =>
    obtain ⟨hnext, ha⟩ := hstep s a hs has.1
    exact ⟨ha, ih hnext has.2⟩

theorem invariant_foldl {step : σ → α → σ} {I : σ → Prop}
    (hstep : ∀ s a, I s → I (step s a)) {s : σ} (as : List α) (hs : I s) :
    I (as.foldl step s) := by
  induction as generalizing s with
  | nil => exact hs
  | cons a as ih => exact ih (hstep s a hs)

theorem forall_prefix_append (xs ys : List α) (P : List α → Prop) :
    (∀ p, p <+: xs ++ ys → P p) ↔ (∀ p, p <+: xs → P p) ∧ ∀ q, q <+: ys → P (xs ++ q) := by
  constructor
  · exact fun h => ⟨fun p hp => h p (hp.trans (List.prefix_append xs ys)),
      fun q hq => h _ ((List.prefix_append_right_inj xs).mpr hq)⟩
  · rintro ⟨hx, hy⟩ p ⟨t, ht⟩
    obtain ⟨as, rfl, -⟩ | ⟨bs, rfl, rfl⟩ := List.append_eq_append_iff.mp ht
    · exact hx p ⟨as, rfl⟩
    · exact hy bs ⟨t, rfl⟩

theorem allSteps_iff_split (step : σ → α → σ) (P : σ → α → Prop) (s : σ) (as : List α) :
    AllSteps step P s as ↔ ∀ p a q, as = p ++ a :: q → P (p.foldl step s) a := by
  constructor
  · rintro h p a q rfl
    exact ((allSteps_append step P s p (a :: q)).mp h).2.1
  · intro h
    induction as generalizing s with
    | nil => trivial
    | cons a as ih =>
      refine ⟨h [] a as rfl, ih (step s a) ?_⟩
      rintro p b q rfl
      exact h (a :: p) b q rfl

/-- Two step conditions that agree wherever the invariant holds, the first of
them keeping it, hold of the same runs. -/
theorem allSteps_congr {step : σ → α → σ} {P Q : σ → α → Prop} {I : σ → Prop}
    (hstep : ∀ s a, I s → P s a → I (step s a)) (hiff : ∀ s a, I s → (P s a ↔ Q s a))
    {s : σ} (hs : I s) (as : List α) : AllSteps step P s as ↔ AllSteps step Q s as := by
  induction as generalizing s with
  | nil => exact Iff.rfl
  | cons a as ih =>
    constructor
    · rintro ⟨ha, has⟩
      exact ⟨(hiff s a hs).mp ha, (ih (hstep s a hs ha)).mp has⟩
    · rintro ⟨ha, has⟩
      have hp := (hiff s a hs).mpr ha
      exact ⟨hp, (ih (hstep s a hs hp)).mpr has⟩

/-- A property of states that holds after a step exactly if the step meets `P`, as long as it
has held before, holds of all states of a run exactly if its steps all meet `P`. The invariant
is what the property keeps besides. -/
theorem forall_prefix_iff_of {step : σ → α → σ} {P : σ → α → Prop} {K I : σ → Prop}
    (hstep : ∀ s a, I s → (K (step s a) ↔ P s a)) (hkeep : ∀ s a, I s → K (step s a) → I (step s a))
    (hinv : ∀ s, I s → K s) {s : σ} (hs : I s) (as : List α) :
    (∀ p, p <+: as → K (p.foldl step s)) ↔ AllSteps step P s as := by
  constructor
  · intro h
    induction as generalizing s with
    | nil => trivial
    | cons a as ih =>
      have ha : K (step s a) := h [a] ⟨as, rfl⟩
      refine ⟨(hstep s a hs).mp ha, ih (hkeep s a hs ha) ?_⟩
      rintro p ⟨q, rfl⟩
      exact h (a :: p) ⟨q, rfl⟩
  · rintro h p ⟨q, rfl⟩
    exact hinv _ (AllSteps.invariant (fun t a ht hp => hkeep t a ht ((hstep t a ht).mpr hp)) hs
      ((allSteps_append step P s p q).mp h).1)

/-- When a step keeps the invariant exactly if it meets `P`, the states of a
run all satisfy the invariant exactly if its steps all meet `P`. -/
theorem forall_prefix_iff {step : σ → α → σ} {P : σ → α → Prop} {I : σ → Prop}
    (hstep : ∀ s a, I s → (I (step s a) ↔ P s a)) {s : σ} (hs : I s) (as : List α) :
    (∀ p, p <+: as → I (p.foldl step s)) ↔ AllSteps step P s as :=
  forall_prefix_iff_of hstep (fun _ _ _ h => h) (fun _ h => h) hs as

variable [DecidableEq ι]

def stepAt (step : ι → σ → α → σ) (s : ι → σ) (a : ι × α) : ι → σ :=
  Function.update s a.1 (step a.1 (s a.1) a.2)

/-- What one component does in an interleaved run is its own run over the
actions that were addressed to it, in their order. -/
theorem foldl_stepAt (step : ι → σ → α → σ) (s : ι → σ) (as : List (ι × α)) (i : ι) :
    as.foldl (stepAt step) s i =
      ((as.filter (fun a => a.1 = i)).map Prod.snd).foldl (step i) (s i) := by
  induction as generalizing s with
  | nil => rfl
  | cons a as ih =>
    rw [List.foldl_cons, ih]
    by_cases h : a.1 = i
    · subst h; simp [stepAt]
    · simp [stepAt, h, Ne.symm h]

end GaoFS.Library.Runs
