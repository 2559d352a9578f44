import Mathlib.Data.List.TakeWhile
import Mathlib.Data.List.Basic
import Mathlib.Tactic.Linarith

namespace GaoFS.Library.ByteFile

variable {α : Type*}

/-- Cut or pad with the fill element, as `std::string::resize` and `ftruncate` do. -/
def resize (z : α) (n : Nat) (xs : List α) : List α :=
  xs.take n ++ List.replicate (n - xs.length) z

/-- Replace the elements from `off` on by `src`; the target has to be long enough. -/
def copyAt (off : Nat) (src xs : List α) : List α :=
  xs.take off ++ src ++ xs.drop (off + src.length)

/-- POSIX `pwrite` of all of `src`: a gap before `off` is filled, and writing
nothing leaves the file alone even beyond its end. -/
def pwrite (z : α) (off : Nat) (src xs : List α) : List α :=
  if src = [] then xs else copyAt off src (resize z (max xs.length (off + src.length)) xs)

def pread (off n : Nat) (xs : List α) : List α := (xs.drop off).take n

@[simp] theorem length_resize (z : α) (n : Nat) (xs : List α) : (resize z n xs).length = n := by
  simp only [resize, List.length_append, List.length_take, List.length_replicate]
  omega

theorem length_copyAt (off : Nat) (src xs : List α) (h : off + src.length ≤ xs.length) :
    (copyAt off src xs).length = xs.length := by
  simp only [copyAt, List.length_append, List.length_take, List.length_drop]
  omega

theorem length_pwrite (z : α) (off : Nat) (src xs : List α) (h : src ≠ []) :
    (pwrite z off src xs).length = max xs.length (off + src.length) := by
  rw [pwrite, if_neg h, length_copyAt _ _ _ (by simp), length_resize]

theorem resize_eq_append (z : α) (n : Nat) (xs : List α) (h : xs.length ≤ n) :
    resize z n xs = xs ++ List.replicate (n - xs.length) z := by
  rw [resize, List.take_of_length_le h]

theorem resize_eq_take (z : α) (n : Nat) (xs : List α) (h : n ≤ xs.length) :
    resize z n xs = xs.take n := by
  rw [resize, Nat.sub_eq_zero_of_le h, List.replicate_zero, List.append_nil]

theorem resize_length (z : α) (xs : List α) : resize z xs.length xs = xs := by
  simp [resize]

theorem getElem?_copyAt (off : Nat) (src xs : List α) (h : off + src.length ≤ xs.length) (i : Nat) :
    (copyAt off src xs)[i]? =
      if off ≤ i ∧ i < off + src.length then src[i - off]? else xs[i]? := by
  have hl : (xs.take off).length = off := by simp only [List.length_take]; omega
  unfold copyAt
  by_cases hlo : i < off
  · rw [if_neg (by omega), List.append_assoc, List.getElem?_append_left (by omega),
      List.getElem?_take_of_lt hlo]
  by_cases hhi : i < off + src.length
  · rw [if_pos (by omega), List.getElem?_append_left (by simp only [List.length_append]; omega),
      List.getElem?_append_right (by omega), hl]
  · rw [if_neg (by omega),
      List.getElem?_append_right (by simp only [List.length_append]; omega), List.getElem?_drop]
    congr 1
    simp only [List.length_append]
    omega

theorem pread_copyAt_self (off : Nat) (src xs : List α) (h : off + src.length ≤ xs.length) :
    pread off src.length (copyAt off src xs) = src := by
  have hl : (xs.take off).length = off := by simp only [List.length_take]; omega
  rw [pread, copyAt, List.append_assoc, ← hl, List.drop_append, List.take_append]
  simp

theorem pread_copyAt_disjoint (off : Nat) (src xs : List α) (h : off + src.length ≤ xs.length)
    (p n : Nat) (hd : p + n ≤ off ∨ off + src.length ≤ p) :
    pread p n (copyAt off src xs) = pread p n xs := by
  apply List.ext_getElem?
  intro i
  simp only [pread, List.getElem?_take, List.getElem?_drop]
  split
  · rw [getElem?_copyAt off src xs h, if_neg (by omega)]
  · rfl

theorem length_pread (off n : Nat) (xs : List α) :
    (pread off n xs).length = min n (xs.length - off) := by
  simp [pread]

/-- Two reads, the second where the first has ended, are one read. -/
theorem pread_add (off n m : Nat) (xs : List α) :
    pread off (n + m) xs = pread off n xs ++ pread (off + n) m xs := by
  rw [pread, pread, pread, List.take_add, List.drop_drop]

theorem pread_beyond (off n : Nat) (xs : List α) (h : xs.length ≤ off) : pread off n xs = [] := by
  rw [pread, List.drop_eq_nil_of_le h, List.take_nil]

theorem getElem?_pread (off n : Nat) (xs : List α) (i : Nat) :
    (pread off n xs)[i]? = if i < n then xs[off + i]? else none := by
  simp only [pread, List.getElem?_take, List.getElem?_drop]

theorem getElem?_pwrite (z : α) (off : Nat) (src xs : List α) (h : src ≠ []) (i : Nat) :
    (pwrite z off src xs)[i]? =
      if off ≤ i ∧ i < off + src.length then src[i - off]?
      else if xs.length ≤ i ∧ i < off then some z else xs[i]? := by
  have hpad : off + src.length ≤ (resize z (max xs.length (off + src.length)) xs).length := by
    rw [length_resize]
    omega
  rw [pwrite, if_neg h, getElem?_copyAt off src _ hpad, resize_eq_append z _ xs (by omega)]
  split
  · rfl
  · rename_i hout
    by_cases hlo : i < xs.length
    · rw [List.getElem?_append_left hlo, if_neg (by omega)]
    · rw [List.getElem?_append_right (by omega), List.getElem?_replicate]
      by_cases hgap : i < off
      · rw [if_pos (by omega), if_pos ⟨by omega, hgap⟩]
      · rw [if_neg (by omega), if_neg (by omega), List.getElem?_eq_none (by omega)]

/-- Two writes, the second where the first has ended, are one write. -/
theorem pwrite_pwrite (z : α) (off : Nat) (src rest xs : List α) :
    pwrite z (off + src.length) rest (pwrite z off src xs) = pwrite z off (src ++ rest) xs := by
  by_cases hsrc : src = []
  · subst hsrc
    rw [pwrite.eq_def z off [] xs, if_pos rfl, List.nil_append, List.length_nil, Nat.add_zero]
  by_cases hrest : rest = []
  · subst hrest
    rw [List.append_nil, pwrite, if_pos rfl]
  have hpos := List.length_pos_of_ne_nil hsrc
  apply List.ext_getElem?
  intro i
  rw [getElem?_pwrite z _ rest _ hrest, getElem?_pwrite z off src xs hsrc, length_pwrite z off src xs hsrc,
    getElem?_pwrite z off (src ++ rest) xs (List.append_ne_nil_of_left_ne_nil hsrc rest),
    List.length_append, List.getElem?_append, Nat.sub_sub]
  grind

section Writes

/-- Two writes, each a position and its elements, that do not overlap. -/
def Apart (w v : Nat × List α) : Prop :=
  w.1 + w.2.length ≤ v.1 ∨ v.1 + v.2.length ≤ w.1

theorem Apart.symm {w v : Nat × List α} (h : Apart w v) : Apart v w := Or.symm h

def copyAll (ws : List (Nat × List α)) (xs : List α) : List α :=
  ws.foldl (fun xs w => copyAt w.1 w.2 xs) xs

theorem length_copyAll (ws : List (Nat × List α)) (xs : List α)
    (hfit : ∀ w ∈ ws, w.1 + w.2.length ≤ xs.length) : (copyAll ws xs).length = xs.length := by
  induction ws generalizing xs with
  | nil => rfl
  | cons w ws ih =>
    have hlen := length_copyAt w.1 w.2 xs (hfit w List.mem_cons_self)
    rw [copyAll, List.foldl_cons]
    exact (ih _ fun v hv => by rw [hlen]; exact hfit v (List.mem_cons_of_mem w hv)).trans hlen

theorem pread_copyAll_apart (ws : List (Nat × List α)) (xs : List α)
    (hfit : ∀ w ∈ ws, w.1 + w.2.length ≤ xs.length) (v : Nat × List α) (hv : ∀ w ∈ ws, Apart w v) :
    pread v.1 v.2.length (copyAll ws xs) = pread v.1 v.2.length xs := by
  induction ws generalizing xs with
  | nil => rfl
  | cons w ws ih =>
    have hw := hfit w List.mem_cons_self
    have hlen := length_copyAt w.1 w.2 xs hw
    have hrest := ih (copyAt w.1 w.2 xs)
      (fun u hu => by rw [hlen]; exact hfit u (List.mem_cons_of_mem w hu))
      (fun u hu => hv u (List.mem_cons_of_mem w hu))
    rw [copyAll, List.foldl_cons]
    exact hrest.trans (pread_copyAt_disjoint _ _ _ hw _ _ (hv w List.mem_cons_self).symm)

/-- Writes that do not overlap can all be read back, whatever their order. -/
theorem pread_copyAll (ws vs : List (Nat × List α)) (hperm : vs.Perm ws) (xs : List α)
    (hfit : ∀ w ∈ ws, w.1 + w.2.length ≤ xs.length) (hapart : ws.Pairwise Apart)
    (w : Nat × List α) (hw : w ∈ ws) : pread w.1 w.2.length (copyAll vs xs) = w.2 := by
  have hapart' : vs.Pairwise Apart := (hperm.pairwise_iff fun h => Apart.symm h).mpr hapart
  have hfit' : ∀ v ∈ vs, v.1 + v.2.length ≤ xs.length := fun v hv => hfit v (hperm.mem_iff.mp hv)
  have hw' : w ∈ vs := hperm.mem_iff.mpr hw
  clear hperm hfit hapart hw
  induction vs generalizing xs with
  | nil => simp at hw'
  | cons v vs ih =>
    obtain ⟨hhead, htail⟩ := List.pairwise_cons.mp hapart'
    have hv := hfit' v List.mem_cons_self
    have hlen := length_copyAt v.1 v.2 xs hv
    have hrest : ∀ u ∈ vs, u.1 + u.2.length ≤ (copyAt v.1 v.2 xs).length := fun u hu => by
      rw [hlen]
      exact hfit' u (List.mem_cons_of_mem v hu)
    cases List.mem_cons.mp hw' with
    | inl he =>
      subst he
      exact (pread_copyAll_apart vs _ hrest w fun u hu => (hhead u hu).symm).trans
        (pread_copyAt_self _ _ _ hv)
    | inr hm => exact ih _ htail hrest hm

def pwriteAll (z : α) (ws : List (Nat × List α)) (xs : List α) : List α :=
  ws.foldl (fun xs w => pwrite z w.1 w.2 xs) xs

variable (z : α) {ws : List (Nat × List α)}

theorem le_length_pwriteAll (ws : List (Nat × List α)) (xs : List α) : xs.length ≤ (pwriteAll z ws xs).length := by
  induction ws generalizing xs with
  | nil => exact le_rfl
  | cons w ws ih =>
    refine le_trans ?_ (ih (pwrite z w.1 w.2 xs))
    by_cases hw : w.2 = []
    · rw [pwrite, if_pos hw]
    · rw [length_pwrite z _ _ _ hw]
      exact Nat.le_max_left _ _

/-- The file reaches to the end of the last write, or is as long as before. -/
theorem length_pwriteAll (hne : ∀ w ∈ ws, w.2 ≠ []) (xs : List α) :
    (∀ w ∈ ws, w.1 + w.2.length ≤ (pwriteAll z ws xs).length) ∧
      ((pwriteAll z ws xs).length = xs.length ∨ ∃ w ∈ ws, (pwriteAll z ws xs).length = w.1 + w.2.length) := by
  induction ws generalizing xs with
  | nil => exact ⟨fun w hw => absurd hw List.not_mem_nil, .inl rfl⟩
  | cons w ws ih =>
    have hw := hne w List.mem_cons_self
    have hlen := length_pwrite z w.1 w.2 xs hw
    obtain ⟨hle, heq⟩ := ih (fun v hv => hne v (List.mem_cons_of_mem w hv)) (pwrite z w.1 w.2 xs)
    have hkeep := le_length_pwriteAll z ws (pwrite z w.1 w.2 xs)
    rw [pwriteAll, List.foldl_cons]
    constructor
    · intro v hv
      cases List.mem_cons.mp hv with
      | inl he =>
        subst he
        exact le_trans (by rw [hlen]; exact Nat.le_max_right _ _) hkeep
      | inr hv => exact hle v hv
    · cases heq with
      | inl hsame =>
        rw [pwriteAll] at hsame
        rcases Nat.le_total xs.length (w.1 + w.2.length) with h | h
        · exact .inr ⟨w, List.mem_cons_self, by rw [hsame, hlen, Nat.max_eq_right h]⟩
        · exact .inl (by rw [hsame, hlen, Nat.max_eq_left h])
      | inr hlast =>
        obtain ⟨v, hv, hlast⟩ := hlast
        exact .inr ⟨v, List.mem_cons_of_mem w hv, hlast⟩

/-- A position that no write covers keeps its element, or is filled. -/
theorem getD_pwriteAll {x : Nat} (hx : ∀ w ∈ ws, ¬ (w.1 ≤ x ∧ x < w.1 + w.2.length)) (xs : List α) :
    (pwriteAll z ws xs)[x]?.getD z = xs[x]?.getD z := by
  induction ws generalizing xs with
  | nil => rfl
  | cons w ws ih =>
    rw [pwriteAll, List.foldl_cons]
    refine (ih (fun v hv => hx v (List.mem_cons_of_mem w hv)) _).trans ?_
    by_cases hw : w.2 = []
    · rw [pwrite, if_pos hw]
    · rw [getElem?_pwrite z _ _ _ hw, if_neg (hx w List.mem_cons_self)]
      split
      · rename_i hgap
        rw [List.getElem?_eq_none hgap.1]
        rfl
      · rfl

/-- Writes that do not overlap leave what they write, whatever their order. -/
theorem getElem?_pwriteAll (hapart : ws.Pairwise Apart) {w : Nat × List α} (hw : w ∈ ws) {j : Nat}
    (hj : j < w.2.length) (xs : List α) : (pwriteAll z ws xs)[w.1 + j]? = w.2[j]? := by
  have hsome : (pwriteAll z ws xs)[w.1 + j]?.getD z = w.2[j] := by
    induction ws generalizing xs with
    | nil => exact absurd hw List.not_mem_nil
    | cons v ws ih =>
      obtain ⟨hhead, htail⟩ := List.pairwise_cons.mp hapart
      rw [pwriteAll, List.foldl_cons]
      cases List.mem_cons.mp hw with
      | inl he =>
        subst he
        refine (getD_pwriteAll z (fun u hu => ?_) _).trans ?_
        · have := hhead u hu
          unfold Apart at this
          omega
        · rw [getElem?_pwrite z _ _ _ (List.ne_nil_of_length_pos (by omega)), if_pos (by omega),
            Nat.add_sub_cancel_left, List.getElem?_eq_getElem hj, Option.getD_some]
      | inr hmem => exact ih htail hmem _
  have hlen : w.1 + j < (pwriteAll z ws xs).length := by
    clear hapart hsome
    induction ws generalizing xs with
    | nil => exact absurd hw List.not_mem_nil
    | cons v ws ih =>
      rw [pwriteAll, List.foldl_cons]
      cases List.mem_cons.mp hw with
      | inl he =>
        subst he
        refine lt_of_lt_of_le ?_ (le_length_pwriteAll z ws _)
        rw [length_pwrite z _ _ _ (List.ne_nil_of_length_pos (by omega))]
        omega
      | inr hmem => exact ih hmem _
  rw [List.getElem?_eq_getElem hlen, Option.getD_some] at hsome
  rw [List.getElem?_eq_getElem hlen, hsome, List.getElem?_eq_getElem hj]

end Writes

variable (p : α → Bool)

theorem takeWhile_resize (z : α) (hz : p z = false) (n : Nat) (xs : List α)
    (hn : xs.length ≤ n) (hx : ∀ x ∈ xs, p x = true) : (resize z n xs).takeWhile p = xs := by
  rw [resize_eq_append z n xs hn, List.takeWhile_append_of_pos hx]
  cases n - xs.length with
  | zero => simp
  | succ k => simp [List.replicate_succ, hz]

theorem all_pwrite_iff (z : α) (hz : p z = false) (off : Nat) (src xs : List α)
    (hx : ∀ x ∈ xs, p x = true) (hne : src ≠ []) :
    (∀ x ∈ pwrite z off src xs, p x = true) ↔ (∀ x ∈ src, p x = true) ∧ off ≤ xs.length := by
  rw [pwrite, if_neg hne]
  constructor
  · intro h
    refine ⟨fun x hm => h x ?_, ?_⟩
    · exact List.mem_append.mpr (.inl (List.mem_append.mpr (.inr hm)))
    · by_contra hgap
      have hz' : p z = true := by
        apply h
        apply List.mem_append.mpr
        refine .inl (List.mem_append.mpr (.inl ?_))
        rw [resize_eq_append _ _ _ (by omega), List.take_append]
        apply List.mem_append.mpr
        refine .inr (List.mem_of_getElem? (i := 0) ?_)
        have hs := List.length_pos_of_ne_nil hne
        rw [List.getElem?_take_of_lt (by omega), List.getElem?_replicate, if_pos (by omega)]
      simp [hz] at hz'
  · rintro ⟨hs, hoff⟩ x hm
    rcases List.mem_append.mp hm with hm | hm
    · rcases List.mem_append.mp hm with hm | hm
      · have hm' : x ∈ xs := by
          rw [resize_eq_append _ _ _ (by omega), List.take_append_of_le_length hoff] at hm
          exact List.mem_of_mem_take hm
        exact hx x hm'
      · exact hs x hm
    · rw [resize_eq_append _ _ _ (by omega), List.drop_append] at hm
      rcases List.mem_append.mp hm with hm | hm
      · exact hx x (List.mem_of_mem_drop hm)
      · have hempty : max xs.length (off + src.length) - xs.length -
            (off + src.length - xs.length) = 0 := by omega
        simp [hempty] at hm

end GaoFS.Library.ByteFile
