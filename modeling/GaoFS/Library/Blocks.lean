import Mathlib.Algebra.BigOperators.Group.List.Basic
import Mathlib.Algebra.Order.BigOperators.Group.List
import Mathlib.Data.List.Perm.Basic
import Mathlib.Data.List.Count
import Mathlib.Data.Set.Card
import Mathlib.Tactic.Linarith

namespace GaoFS.Library.Blocks

/-- The `c`-th block boundary clamped to the interval `[o, o + n)`: block `c` of
size `B` meets the interval in `[cut c, cut (c + 1))`. -/
def cut (B o n c : Nat) : Nat := max o (min (o + n) (c * B))

/-- Length of the part of the interval that lies in block `c`. -/
def len (B o n c : Nat) : Nat := cut B o n (c + 1) - cut B o n c

variable {B o n c : Nat}

theorem cut_mono (c d : Nat) (h : c ≤ d) : cut B o n c ≤ cut B o n d := by
  have := Nat.mul_le_mul_right B h
  unfold cut
  omega

theorem cut_first : cut B o n (o / B) = o := by
  have := Nat.div_mul_le_self o B
  unfold cut
  omega

theorem cut_end (hB : 0 < B) (hn : 0 < n) : cut B o n ((o + n - 1) / B + 1) = o + n := by
  have := Nat.lt_div_mul_add (a := o + n - 1) hB
  unfold cut
  rw [Nat.add_mul]
  omega

theorem flatMap_range'_cut (f : Nat → Nat) (hf : ∀ c, f c ≤ f (c + 1)) (s m : Nat) :
    (List.range' s m).flatMap (fun c => List.range' (f c) (f (c + 1) - f c)) =
      List.range' (f s) (f (s + m) - f s) := by
  induction m generalizing s with
  | zero => simp
  | succ m ih =>
    have hmono : ∀ k, f (s + 1) ≤ f (s + 1 + k) := by
      intro k
      induction k with
      | zero => exact le_rfl
      | succ k ihk => exact ihk.trans (hf _)
    have h0 := hf s
    have h1 := hmono m
    rw [List.range'_succ, List.flatMap_cons, ih, Nat.add_right_comm s 1 m] at *
    rw [show s + (m + 1) = s + m + 1 by omega,
      show f (s + m + 1) - f s = (f (s + 1) - f s) + (f (s + m + 1) - f (s + 1)) by omega,
      ← List.range'_append_1, show f s + (f (s + 1) - f s) = f (s + 1) by omega]

/-- The blocks that meet a nonempty interval, in order. -/
def blocks (B o n : Nat) : List Nat := List.range' (o / B) ((o + n - 1) / B + 1 - o / B)

theorem mem_blocks : c ∈ blocks B o n ↔ o / B ≤ c ∧ c ≤ (o + n - 1) / B := by
  simp only [blocks, List.mem_range'_1]
  omega

theorem blocks_bounds (hB : 0 < B) (hc : c ∈ blocks B o n) : c * B ≤ o + n - 1 ∧ o < c * B + B := by
  obtain ⟨hlo, hhi⟩ := mem_blocks.mp hc
  have hstart := Nat.lt_div_mul_add (a := o) hB
  have hmono := Nat.mul_le_mul_right B hlo
  exact ⟨Nat.mul_le_of_le_div B c (o + n - 1) hhi, by omega⟩

theorem blocks_nodup : (blocks B o n).Nodup := List.nodup_range'

theorem flatMap_blocks (hB : 0 < B) (hn : 0 < n) :
    (blocks B o n).flatMap (fun c => List.range' (cut B o n c) (len B o n c)) =
      List.range' o n := by
  have hle : o / B ≤ (o + n - 1) / B := Nat.div_le_div_right (by omega)
  have h := flatMap_range'_cut (cut B o n) (fun c => cut_mono c (c + 1) (by omega)) (o / B)
    ((o + n - 1) / B + 1 - o / B)
  rw [show o / B + ((o + n - 1) / B + 1 - o / B) = (o + n - 1) / B + 1 by omega,
    cut_first, cut_end hB hn, Nat.add_sub_cancel_left] at h
  exact h

theorem sum_len_blocks (hB : 0 < B) (hn : 0 < n) : ((blocks B o n).map (len B o n)).sum = n := by
  have h := congrArg List.length (flatMap_blocks (o := o) hB hn)
  rw [List.length_flatMap, List.length_range'] at h
  simpa only [List.length_range'] using h

theorem cut_of_pos (h : o / B < c) (hl : c ≤ (o + n - 1) / B) (hB : 0 < B) (hn : 0 < n) :
    cut B o n c = c * B := by
  have h1 : o < c * B := Nat.lt_mul_of_div_lt h hB
  have h2 : c * B ≤ o + n - 1 := Nat.mul_le_of_le_div B c (o + n - 1) hl
  unfold cut
  generalize c * B = m at *
  omega

theorem mul_le_cut (hB : 0 < B) (hn : 0 < n) (hc : c ∈ blocks B o n) : c * B ≤ cut B o n c := by
  obtain ⟨hlo, hhi⟩ := mem_blocks.mp hc
  by_cases he : c = o / B
  · rw [he, cut_first]
    exact Nat.div_mul_le_self o B
  · exact (cut_of_pos (by omega) hhi hB hn).ge

/-- Length of the part of a block: what the first block lacks on its left and
the last block on its right. -/
theorem len_eq (hB : 0 < B) (hn : 0 < n) (hc : c ∈ blocks B o n) :
    len B o n c + (if c = o / B then o % B else 0) +
      (if c = (o + n - 1) / B then (c + 1) * B - (o + n) else 0) = B := by
  obtain ⟨hlo, hhi⟩ := mem_blocks.mp hc
  have hmod := Nat.div_add_mod o B
  have hlast := Nat.lt_div_mul_add (a := o + n - 1) hB
  have hstart : cut B o n c = c * B + if c = o / B then o % B else 0 := by
    split
    · rename_i h; subst h; rw [cut_first, Nat.mul_comm]; exact hmod.symm
    · rw [cut_of_pos (by omega) hhi hB hn, Nat.add_zero]
  have hend : cut B o n (c + 1) +
      (if c = (o + n - 1) / B then (c + 1) * B - (o + n) else 0) = (c + 1) * B := by
    split
    · rename_i h
      subst h
      rw [cut_end hB hn, Nat.add_mul]
      omega
    · rw [cut_of_pos (by omega) (by omega) hB hn, Nat.add_zero]
  have hmono := cut_mono (B := B) (o := o) (n := n) c (c + 1) (by omega)
  have hmul : (c + 1) * B = c * B + B := by rw [Nat.add_mul, Nat.one_mul]
  unfold len
  omega

theorem cut_sub_add_len_le (hB : 0 < B) (hc : c ∈ blocks B o n) :
    cut B o n c - c * B + len B o n c ≤ B := by
  obtain ⟨hend, hstart⟩ := blocks_bounds hB hc
  have hmono := cut_mono (B := B) (o := o) (n := n) c (c + 1) (by omega)
  have hmul : (c + 1) * B = c * B + B := by rw [Nat.add_mul, Nat.one_mul]
  have hright : cut B o n (c + 1) ≤ (c + 1) * B := by
    rw [cut]
    omega
  have hleft : c * B ≤ cut B o n c := by
    rw [cut]
    omega
  rw [len]
  omega

theorem div_eq_iff_mem (hB : 0 < B) {x : Nat} : x / B = c ↔ c * B ≤ x ∧ x < (c + 1) * B := by
  rw [Nat.div_eq_iff hB, Nat.add_mul]
  omega

theorem mem_part (hB : 0 < B) {x : Nat} (hc : c ∈ blocks B o n) (hn : 0 < n) :
    x ∈ List.range' (cut B o n c) (len B o n c) ↔ o ≤ x ∧ x < o + n ∧ x / B = c := by
  have hmono := cut_mono (B := B) (o := o) (n := n) c (c + 1) (by omega)
  obtain ⟨hend, hstart⟩ := blocks_bounds hB hc
  rw [List.mem_range'_1, div_eq_iff_mem hB]
  have hmul : (c + 1) * B = c * B + B := by rw [Nat.add_mul, Nat.one_mul]
  unfold len
  unfold cut at *
  simp only [max_def, min_def] at *
  split_ifs at * <;> omega

section Meeting

/-- The blocks that have a position in common with the interval. -/
def meeting (B o n : Nat) : Set Nat :=
  {b | ∃ x, (b * B ≤ x ∧ x < (b + 1) * B) ∧ o ≤ x ∧ x < o + n}

theorem meeting_empty : meeting B o 0 = ∅ := by
  ext b
  refine iff_of_false ?_ (Set.notMem_empty b)
  rintro ⟨x, -, hlo, hhi⟩
  omega

theorem mem_meeting_iff (hB : 0 < B) (hn : 0 < n) : c ∈ meeting B o n ↔ c ∈ blocks B o n := by
  constructor
  · rintro ⟨x, hx, hlo, hhi⟩
    rw [← div_eq_iff_mem hB] at hx
    rw [mem_blocks, ← hx]
    exact ⟨Nat.div_le_div_right hlo, Nat.div_le_div_right (by omega)⟩
  · intro hc
    obtain ⟨hend, hstart⟩ := blocks_bounds hB hc
    refine ⟨max o (c * B), ⟨le_max_right _ _, ?_⟩, le_max_left _ _, by omega⟩
    rw [Nat.add_mul]
    omega

theorem ncard_meeting (hB : 0 < B) (hn : 0 < n) :
    (meeting B o n).ncard = (o + n - 1) / B + 1 - o / B := by
  have hset : meeting B o n = ↑(blocks B o n).toFinset := by
    ext b
    rw [Finset.mem_coe, List.mem_toFinset, mem_meeting_iff hB hn]
  rw [hset, Set.ncard_coe_finset, List.toFinset_card_of_nodup blocks_nodup, blocks, List.length_range']

end Meeting

theorem sum_sub_special (l : List Nat) (hl : l.Nodup) (f : Nat → Nat) (B s e a b : Nat)
    (h : ∀ c ∈ l, f c + (if c = s then a else 0) + (if c = e then b else 0) = B) :
    (l.map f).sum + (if s ∈ l then a else 0) + (if e ∈ l then b else 0) = l.length * B := by
  induction l with
  | nil => simp
  | cons c l ih =>
    obtain ⟨hc, hl'⟩ := List.nodup_cons.mp hl
    have ih' := ih hl' (fun d hd => h d (List.mem_cons_of_mem c hd))
    have hhead := h c List.mem_cons_self
    have hs : (if s ∈ c :: l then a else 0) = (if c = s then a else 0) + if s ∈ l then a else 0 := by
      by_cases hsc : c = s
      · subst hsc; simp [hc]
      · simp [hsc, Ne.symm hsc]
    have he : (if e ∈ c :: l then b else 0) = (if c = e then b else 0) + if e ∈ l then b else 0 := by
      by_cases hec : c = e
      · subst hec; simp [hc]
      · simp [hec, Ne.symm hec]
    rw [List.map_cons, List.sum_cons, List.length_cons, Nat.add_mul, hs, he]
    omega

section Counting

theorem countP_range'_lt (a m t : Nat) :
    (List.range' a m).countP (fun x => decide (x < t)) = min m (t - a) := by
  induction m generalizing a with
  | zero => simp
  | succ m ih =>
    rw [List.range'_succ, List.countP_cons, ih]
    by_cases h : a < t
    · simp only [h, decide_true, ↓reduceIte]
      omega
    · simp only [h, decide_false, Bool.false_eq_true, ↓reduceIte]
      omega

theorem countP_eq_iff_of_imp {α : Type*} {p q : α → Bool} {l : List α}
    (h : ∀ x ∈ l, p x = true → q x = true) :
    l.countP p = l.countP q ↔ ∀ x ∈ l, q x = true → p x = true := by
  induction l with
  | nil => simp
  | cons x l ih =>
    have ih' := ih fun y hy => h y (List.mem_cons_of_mem x hy)
    have hle : l.countP p ≤ l.countP q :=
      List.countP_mono_left fun y hy => h y (List.mem_cons_of_mem x hy)
    have hx := h x List.mem_cons_self
    rw [List.countP_cons, List.countP_cons, List.forall_mem_cons, ← ih']
    cases hp : p x with
    | true => simp [hx hp]
    | false =>
      cases hq : q x with
      | false => simp
      | true =>
        simp only [Bool.false_eq_true, ↓reduceIte, imp_false, not_true_eq_false, false_and,
          iff_false]
        omega

end Counting

section Grouping

variable {α κ : Type*} [DecidableEq α] [DecidableEq κ]

/-- Elements grouped by a key, over a duplicate-free list of all the keys that
occur, are the elements in some order. -/
theorem flatMap_filter_perm (key : α → κ) (l : List α) (keys : List κ) (hk : keys.Nodup)
    (hmem : ∀ x ∈ l, key x ∈ keys) :
    (keys.flatMap (fun k => l.filter (fun x => key x = k))).Perm l := by
  rw [List.perm_iff_count]
  intro x
  have hcount : ∀ k, (l.filter (fun x => key x = k)).count x = if key x = k then l.count x else 0 := by
    intro k
    split
    · rename_i h; exact List.count_filter (by simpa using h)
    · rename_i h
      exact List.count_eq_zero.mpr (fun hm => h (by simpa using (List.mem_filter.mp hm).2))
  rw [List.count_flatMap]
  simp only [Function.comp_def, hcount]
  by_cases hx : x ∈ l
  · have hkx := hmem x hx
    clear hmem
    induction keys with
    | nil => simp at hkx
    | cons k keys ih =>
      obtain ⟨hk1, hk2⟩ := List.nodup_cons.mp hk
      rw [List.map_cons, List.sum_cons]
      by_cases h : key x = k
      · have hzero : (keys.map fun k => if key x = k then l.count x else 0).sum = 0 := by
          apply List.sum_eq_zero
          intro m hm
          obtain ⟨j, hj, rfl⟩ := List.mem_map.mp hm
          exact if_neg (fun hj' => hk1 (by rw [← h, hj']; exact hj))
        rw [if_pos h, hzero, Nat.add_zero]
      · rw [if_neg h, Nat.zero_add]
        exact ih hk2 ((List.mem_cons.mp hkx).resolve_left h)
  · simp [List.count_eq_zero.mpr hx]

end Grouping

end GaoFS.Library.Blocks
