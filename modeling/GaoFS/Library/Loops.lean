import Mathlib.Data.Fintype.Card
import Mathlib.Logic.Relation

namespace GaoFS.Library.Loops

open Relation

section Circles

variable {α : Type*} {R S : α → α → Prop} {a b : α}

/-- A path from `a` comes back to where it has been. -/
def Circles (R : α → α → Prop) (a : α) : Prop := ∃ b, ReflTransGen R a b ∧ TransGen R b b

theorem Circles.mono (hsub : ∀ a b, S a b → R a b) (h : Circles S a) : Circles R a := by
  obtain ⟨b, hb, hcycle⟩ := h
  exact ⟨b, ReflTransGen.mono hsub _ _ hb, TransGen.mono hsub _ _ hcycle⟩

theorem Circles.step (h : Circles R a) : ∃ b, R a b ∧ Circles R b := by
  obtain ⟨b, hb, hcycle⟩ := h
  cases hb using ReflTransGen.head_induction_on with
  | refl =>
    obtain ⟨c, hstep, hback⟩ := TransGen.head'_iff.mp hcycle
    exact ⟨c, hstep, _, hback, hcycle⟩
  | head hstep hrest => exact ⟨_, hstep, _, hrest, hcycle⟩

/-- From `a` there is one way only, and it does not end. -/
theorem Circles.forced (hsub : ∀ a b, S a b → R a b) (hdet : ∀ a b c, R a b → R a c → b = c)
    (h : Circles S a) (hab : ReflTransGen R a b) : Circles S b := by
  induction hab with
  | refl => exact h
  | tail _ hstep ih =>
    obtain ⟨c, hc, hcircles⟩ := ih.step
    exact hdet _ _ _ (hsub _ _ hc) hstep ▸ hcircles

/-- With finitely many places to go, not coming back means coming to an end. -/
theorem acc_of_not_circles (hfin : {b | ReflTransGen R a b}.Finite) (h : ¬ Circles R a) :
    Acc (Function.swap R) a := by
  have := hfin.to_subtype
  let later : {b | ReflTransGen R a b} → {b | ReflTransGen R a b} → Prop := fun c b => TransGen R b.1 c.1
  have htrans : IsTrans _ later := ⟨fun _ _ _ hcb hba => hba.trans hcb⟩
  have hirrefl : Std.Irrefl later := ⟨fun b hb => h ⟨b.1, b.2, hb⟩⟩
  have hacc : ∀ b : {b | ReflTransGen R a b}, Acc (Function.swap R) b.1 := by
    intro b
    induction b using (Finite.wellFounded_of_trans_of_irrefl later).induction with
    | _ b ih => exact ⟨_, fun c hc => ih ⟨c, b.2.tail hc⟩ (.single hc)⟩
  exact hacc ⟨a, .refl⟩

end Circles

section Loops

variable {σ ρ : Type*} {body : σ → σ ⊕ ρ} {s t : σ} {r : ρ} {n : Nat}

/-- A loop after at most `n` turns of its body, which goes on from another state or ends. -/
def turns (body : σ → σ ⊕ ρ) : Nat → σ → σ ⊕ ρ
  | 0, s => .inl s
  | n + 1, s => match body s with
    | .inl t => turns body n t
    | .inr r => .inr r

def Ends (body : σ → σ ⊕ ρ) (s : σ) (r : ρ) : Prop := ∃ n, turns body n s = .inr r

theorem turns_next (h : body s = .inl t) (n : Nat) : turns body (n + 1) s = turns body n t := by
  rw [turns, h]

theorem turns_last (h : body s = .inr r) (n : Nat) : turns body (n + 1) s = .inr r := by rw [turns, h]

/-- A loop that has ended stays at its end. -/
theorem turns_mono (h : turns body n s = .inr r) {m : Nat} (hle : n ≤ m) : turns body m s = .inr r := by
  induction n generalizing s m with
  | zero => cases h
  | succ n ih =>
    obtain ⟨m, rfl⟩ : ∃ k, m = k + 1 := ⟨m - 1, by omega⟩
    cases hbody : body s with
    | inl t =>
      rw [turns_next hbody] at h ⊢
      exact ih h (by omega)
    | inr r' =>
      rw [turns_last hbody] at h ⊢
      exact h

theorem Ends.last (h : body s = .inr r) : Ends body s r := ⟨1, turns_last h 0⟩

theorem Ends.next (h : body s = .inl t) (ht : Ends body t r) : Ends body s r := by
  obtain ⟨n, hn⟩ := ht
  exact ⟨n + 1, (turns_next h n).trans hn⟩

end Loops

section Simulation

variable {σ ρ α : Type*} {body : σ → σ ⊕ ρ} {R : α → α → Prop} {I : σ → α → Prop} {s : σ} {a : α}

/-- A loop whose turns are steps of a relation that comes to an end does too, in a state that
answers to the last place. -/
theorem ends_of_acc (hbody : ∀ s a, I s a → (∃ r, body s = .inr r) ∨
      ∃ t b, body s = .inl t ∧ R a b ∧ I t b)
    (hacc : Acc (Function.swap R) a) (h : I s a) :
    ∃ t b r, ReflTransGen R a b ∧ I t b ∧ body t = .inr r ∧ Ends body s r := by
  induction hacc generalizing s with
  | intro a _ ih =>
    obtain ⟨r, hr⟩ | ⟨t, b, ht, hstep, hnext⟩ := hbody s a h
    · exact ⟨s, a, r, .refl, h, hr, .last hr⟩
    · obtain ⟨u, c, r, hreach, hu, hlast, hends⟩ := ih b hstep hnext
      exact ⟨u, c, r, .head hstep hreach, hu, hlast, .next ht hends⟩

/-- A loop that follows the steps of a relation goes round with it. -/
theorem turns_of_circles (hbody : ∀ s a b, I s a → R a b → ∃ t, body s = .inl t ∧ I t b)
    (h : I s a) (hcircles : Circles R a) (n : Nat) : ∃ t b, turns body n s = .inl t ∧ I t b := by
  induction n generalizing s a with
  | zero => exact ⟨s, a, rfl, h⟩
  | succ n ih =>
    obtain ⟨b, hstep, hnext⟩ := hcircles.step
    obtain ⟨t, ht, hI⟩ := hbody s a b h hstep
    obtain ⟨u, c, hu, hc⟩ := ih hI hnext
    exact ⟨u, c, (turns_next ht n).trans hu, hc⟩

end Simulation

end GaoFS.Library.Loops
