import Mathlib.Data.List.Basic

namespace GaoFS.Library.Rounds

variable {σ α : Type*} {step : σ → α → σ}

theorem kept {I Q : σ → Prop} {as : List α} (hinv : ∀ s, ∀ a ∈ as, I s → I (step s a))
    (hstable : ∀ s, ∀ a ∈ as, I s → Q s → Q (step s a)) {s : σ} (hs : I s) (hq : Q s) :
    I (as.foldl step s) ∧ Q (as.foldl step s) := by
  induction as generalizing s with
  | nil => exact ⟨hs, hq⟩
  | cons a as ih =>
    exact ih (fun s b hb => hinv s b (List.mem_cons_of_mem a hb))
      (fun s b hb => hstable s b (List.mem_cons_of_mem a hb))
      (hinv s a List.mem_cons_self hs) (hstable s a List.mem_cons_self hs hq)

/-- An action brings something about that nothing takes back. Then it is there at the end of every
run that has the action in it. -/
theorem reached {I Q : σ → Prop} {as : List α} (hinv : ∀ s, ∀ a ∈ as, I s → I (step s a))
    (hstable : ∀ s, ∀ a ∈ as, I s → Q s → Q (step s a)) {a : α} (ha : a ∈ as)
    (hreach : ∀ s, I s → Q (step s a)) {s : σ} (hs : I s) : Q (as.foldl step s) := by
  induction as generalizing s with
  | nil => cases ha
  | cons b as ih =>
    have hinv' : ∀ s, ∀ a ∈ as, I s → I (step s a) := fun s c hc => hinv s c (List.mem_cons_of_mem b hc)
    have hstable' : ∀ s, ∀ a ∈ as, I s → Q s → Q (step s a) := fun s c hc =>
      hstable s c (List.mem_cons_of_mem b hc)
    have hnext := hinv s b List.mem_cons_self hs
    obtain rfl | hlater := List.mem_cons.mp ha
    · exact (kept hinv' hstable' hnext (hreach s hs)).2
    · exact ih hinv' hstable' hlater hnext

/-- What comes nearer in each round is reached after enough of them. -/
theorem countdown {I : σ → Prop} {N : Nat → σ → Prop} {R : List α → Prop}
    (hinv : ∀ s as, R as → I s → I (as.foldl step s))
    (hround : ∀ k s as, R as → I s → N (k + 1) s → N k (as.foldl step s))
    (hstay : ∀ s as, R as → I s → N 0 s → N 0 (as.foldl step s)) {rounds : List (List α)}
    (hrounds : ∀ as ∈ rounds, R as) {k : Nat} (hlen : k ≤ rounds.length) {s : σ} (hs : I s) (hnear : N k s) :
    N 0 (rounds.flatten.foldl step s) := by
  induction rounds generalizing k s with
  | nil =>
    obtain rfl : k = 0 := Nat.le_zero.mp hlen
    exact hnear
  | cons as rounds ih =>
    obtain ⟨has, hrest⟩ := List.forall_mem_cons.mp hrounds
    rw [List.flatten_cons, List.foldl_append]
    cases k with
    | zero => exact ih hrest (Nat.zero_le _) (hinv s as has hs) (hstay s as has hs hnear)
    | succ k => exact ih hrest (Nat.le_of_succ_le_succ hlen) (hinv s as has hs) (hround k s as has hs hnear)

end GaoFS.Library.Rounds
