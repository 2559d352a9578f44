import Mathlib.Data.List.Basic
import Mathlib.Data.List.DropRight
import Mathlib.Order.Bounds.Basic

namespace GaoFS.Library.Paths

section Ends

variable {α : Type*} {p : α → Bool}

theorem drop_length_takeWhile (p : α → Bool) (xs : List α) :
    xs.drop (xs.takeWhile p).length = xs.dropWhile p := by
  conv_lhs => arg 2; rw [← List.takeWhile_append_dropWhile (p := p) (l := xs)]
  exact List.drop_left

theorem rtakeWhile_append {xs ys : List α} (hxs : xs.rtakeWhile p = []) (hys : ∀ y ∈ ys, p y) :
    (xs ++ ys).rtakeWhile p = ys := by
  induction ys using List.reverseRecOn with
  | nil => rw [List.append_nil, hxs]
  | append_singleton ys y ih =>
    rw [← List.append_assoc, List.rtakeWhile_concat_pos p _ _ (hys y (by simp)),
      ih fun y' hy' => hys y' (List.mem_append_left _ hy')]

end Ends

section Joined

variable {α : Type*} (sep : α)

/-- Every word behind a separator of its own. -/
def joined (ws : List (List α)) : List α := ws.flatMap (sep :: ·)

def rooted (ws : List (List α)) : List α := if ws = [] then [sep] else joined sep ws

variable {sep}

theorem joined_append (vs ws : List (List α)) : joined sep (vs ++ ws) = joined sep vs ++ joined sep ws :=
  List.flatMap_append

theorem joined_concat (ws : List (List α)) (w : List α) :
    joined sep (ws ++ [w]) = joined sep ws ++ sep :: w := by
  rw [joined_append]
  simp [joined]

theorem joined_eq_nil_iff (ws : List (List α)) : joined sep ws = [] ↔ ws = [] := by
  cases ws with
  | nil => simp [joined]
  | cons w ws => simp [joined]

theorem rooted_ne_nil (ws : List (List α)) : rooted sep ws ≠ [] := by
  rw [rooted]
  split
  · exact List.cons_ne_nil _ _
  · rename_i hws
    exact fun hnil => hws ((joined_eq_nil_iff ws).mp hnil)

theorem length_le_joined (ws : List (List α)) : ws.length ≤ (joined sep ws).length := by
  induction ws with
  | nil => exact Nat.zero_le _
  | cons w ws ih =>
    change ws.length + 1 ≤ (w ++ joined sep ws).length + 1
    rw [List.length_append]
    omega

end Joined

section Words

variable {α : Type*} [DecidableEq α] (sep : α)

/-- The nonempty words between separators. -/
def words (xs : List α) : List (List α) := (xs.splitOn sep).filter (· ≠ [])

structure IsWord (w : List α) : Prop where
  ne_nil : w ≠ []
  no_sep : sep ∉ w

variable {sep}

theorem words_nil : words sep ([] : List α) = [] := rfl

theorem words_sep_cons (xs : List α) : words sep (sep :: xs) = words sep xs := by
  have hsplit : (sep :: xs).splitOn sep = [] :: xs.splitOn sep :=
    List.splitOn_append_cons_self_of_not_mem List.not_mem_nil xs
  rw [words, words, hsplit]
  rfl

theorem words_append_sep (xs ys : List α) :
    words sep (xs ++ sep :: ys) = words sep xs ++ words sep ys := by
  rw [words, List.splitOn_append_cons_self, List.filter_append]
  rfl

theorem words_word {w : List α} (h : IsWord sep w) : words sep w = [w] := by
  rw [words, List.splitOn_eq_singleton h.no_sep]
  simp [h.ne_nil]

theorem words_word_append {w : List α} (h : IsWord sep w) (xs : List α) :
    words sep (w ++ sep :: xs) = w :: words sep xs := by
  rw [words, List.splitOn_append_cons_self_of_not_mem h.no_sep, List.filter_cons_of_pos, words]
  simp [h.ne_nil]

theorem words_dropWhile (xs : List α) : words sep (xs.dropWhile (· == sep)) = words sep xs := by
  induction xs with
  | nil => rfl
  | cons x xs ih =>
    by_cases hx : x = sep
    · rw [hx, List.dropWhile_cons_of_pos (by simp), ih, words_sep_cons]
    · rw [List.dropWhile_cons_of_neg (by simpa using hx)]

/-- Where no separator stands, the text up to the next one is a word. -/
theorem words_cons {x : α} (hx : x ≠ sep) (xs : List α) :
    IsWord sep ((x :: xs).takeWhile (· != sep)) ∧
      words sep (x :: xs) =
        (x :: xs).takeWhile (· != sep) :: words sep ((x :: xs).dropWhile (· != sep)) := by
  have hword : IsWord sep ((x :: xs).takeWhile (· != sep)) := by
    constructor
    · rw [List.takeWhile_cons_of_pos (by simpa using hx)]
      exact List.cons_ne_nil _ _
    · intro hmem
      have hne := List.mem_takeWhile_imp hmem
      rw [bne_self_eq_false] at hne
      cases hne
  refine ⟨hword, ?_⟩
  have hsplit := List.takeWhile_append_dropWhile (p := (· != sep)) (l := x :: xs)
  cases hrest : (x :: xs).dropWhile (· != sep) with
  | nil =>
    rw [hrest, List.append_nil] at hsplit
    rw [words_nil, hsplit]
    exact words_word (hsplit ▸ hword)
  | cons y ys =>
    have hy : y = sep := by
      have hhead := List.head?_dropWhile_not (· != sep) (x :: xs)
      rw [hrest, List.head?_cons] at hhead
      simpa using hhead
    rw [hrest, hy] at hsplit
    rw [hy, words_sep_cons]
    conv_lhs => rw [← hsplit]
    exact words_word_append hword ys

theorem words_eq_nil_iff (xs : List α) : words sep xs = [] ↔ ∀ x ∈ xs, x = sep := by
  induction xs with
  | nil => simp [words_nil]
  | cons x xs ih =>
    by_cases hx : x = sep
    · rw [hx, words_sep_cons, ih]
      simp
    · rw [(words_cons hx xs).2]
      simp [hx]

/-- Induction over a list word by word. -/
theorem words_induction {motive : List α → List (List α) → Prop} (nil : motive [] [])
    (sep_cons : ∀ xs, motive xs (words sep xs) → motive (sep :: xs) (words sep xs))
    (word : ∀ w rest, IsWord sep w → motive rest (words sep rest) → motive (w ++ rest) (w :: words sep rest))
    (xs : List α) : motive xs (words sep xs) := by
  induction hlen : xs.length using Nat.strong_induction_on generalizing xs with
  | _ n ih =>
    cases xs with
    | nil =>
      rw [words_nil]
      exact nil
    | cons x xs =>
      rw [List.length_cons] at hlen
      by_cases hx : x = sep
      · rw [hx, words_sep_cons]
        exact sep_cons xs (ih xs.length (by omega) xs rfl)
      · obtain ⟨hword, hcons⟩ := words_cons hx xs
        have hsplit := List.takeWhile_append_dropWhile (p := (· != sep)) (l := x :: xs)
        have hlength := congrArg List.length hsplit
        have hpos := List.length_pos_iff.mpr hword.ne_nil
        rw [List.length_append, List.length_cons] at hlength
        have hmotive := word _ _ hword (ih _ (by omega) ((x :: xs).dropWhile (· != sep)) rfl)
        rwa [hsplit, ← hcons] at hmotive

theorem isWord_of_mem_words {xs : List α} : ∀ w ∈ words sep xs, IsWord sep w := by
  refine words_induction (motive := fun _ ws => ∀ w ∈ ws, IsWord sep w) ?_ (fun _ ih => ih) ?_ xs
  · exact fun w hw => absurd hw List.not_mem_nil
  · exact fun w rest hw ih => List.forall_mem_cons.mpr ⟨hw, ih⟩

/-- The words of a list consist of its elements. -/
theorem subset_of_mem_words {xs : List α} : ∀ w ∈ words sep xs, w ⊆ xs := by
  refine words_induction (motive := fun xs ws => ∀ w ∈ ws, w ⊆ xs) ?_ ?_ ?_ xs
  · exact fun w hw => absurd hw List.not_mem_nil
  · exact fun xs ih w hw => List.subset_cons_of_subset sep (ih w hw)
  · intro w rest _ ih
    refine List.forall_mem_cons.mpr ⟨List.subset_append_left w rest, fun v hv => ?_⟩
    exact List.Subset.trans (ih v hv) (List.subset_append_right w rest)

theorem length_words_le (sep : α) (xs : List α) : (words sep xs).length ≤ xs.length := by
  refine words_induction (motive := fun xs ws => ws.length ≤ xs.length) le_rfl ?_ ?_ xs
  · intro xs ih
    rw [List.length_cons]
    omega
  · intro w rest hw ih
    have hpos := List.length_pos_iff.mpr hw.ne_nil
    rw [List.length_cons, List.length_append]
    omega

theorem words_joined {ws : List (List α)} (h : ∀ w ∈ ws, IsWord sep w) :
    words sep (joined sep ws) = ws := by
  induction ws with
  | nil => rfl
  | cons w ws ih =>
    have hw := h w List.mem_cons_self
    have hrest := ih fun v hv => h v (List.mem_cons_of_mem w hv)
    change words sep (sep :: (w ++ joined sep ws)) = w :: ws
    rw [words_sep_cons]
    cases ws with
    | nil =>
      change words sep (w ++ []) = [w]
      rw [List.append_nil, words_word hw]
    | cons v vs =>
      change words sep (sep :: (v ++ joined sep vs)) = v :: vs at hrest
      rw [words_sep_cons] at hrest
      change words sep (w ++ sep :: (v ++ joined sep vs)) = w :: v :: vs
      rw [words_word_append hw, hrest]

theorem takeWhile_word {w : List α} (hw : sep ∉ w) (xs : List α) :
    (w ++ sep :: xs).takeWhile (· != sep) = w := by
  have hclean : ∀ b ∈ w, (b != sep) = true := by
    intro b hb
    rw [bne_iff_ne]
    rintro rfl
    exact hw hb
  rw [List.takeWhile_append_of_pos hclean, List.takeWhile_cons_of_neg (by simp), List.append_nil]

theorem takeWhile_joined {w : List α} (hw : IsWord sep w) (ws : List (List α)) :
    (w ++ joined sep ws).takeWhile (· != sep) = w := by
  cases ws with
  | nil =>
    have hclean : ∀ b ∈ w, (b != sep) = true := by
      intro b hb
      rw [bne_iff_ne]
      rintro rfl
      exact hw.no_sep hb
    rw [List.takeWhile_append_of_pos hclean]
    exact List.append_nil w
  | cons v vs => exact takeWhile_word hw.no_sep (v ++ joined sep vs)

theorem prefix_word_iff {v w : List α} (hv : sep ∉ v) (hw : sep ∉ w) (xs : List α) :
    v ++ [sep] <+: w ++ sep :: xs ↔ v = w := by
  constructor
  · rintro ⟨ys, h⟩
    have hfirst := congrArg (List.takeWhile (· != sep)) h
    rwa [List.append_assoc, List.singleton_append, takeWhile_word hv, takeWhile_word hw] at hfirst
  · rintro rfl
    exact ⟨xs, List.append_assoc v [sep] xs⟩

end Words

section Normalize

variable {β : Type*} [DecidableEq β] (dot dotdot : β)

/-- The stack of components: one dot stays, two dots go back, and any other component
goes down. -/
def push (st : List β) (w : β) : List β :=
  if w = dot then st else if w = dotdot then st.dropLast else st ++ [w]

def normalForm (ws : List β) : List β := ws.foldl (push dot dotdot) []

variable {dot dotdot}

theorem length_foldl_push_le (ws st : List β) :
    (ws.foldl (push dot dotdot) st).length ≤ st.length + ws.length := by
  induction ws generalizing st with
  | nil => exact le_rfl
  | cons w ws ih =>
    have hpush : (push dot dotdot st w).length ≤ st.length + 1 := by
      rw [push]
      split_ifs
      · exact Nat.le_succ _
      · rw [List.length_dropLast]
        omega
      · rw [List.length_append, List.length_singleton]
    have hrest := ih (push dot dotdot st w)
    rw [List.foldl_cons, List.length_cons]
    omega

theorem foldl_push_names {ws : List β} (h : ∀ w ∈ ws, w ≠ dot ∧ w ≠ dotdot) (st : List β) :
    ws.foldl (push dot dotdot) st = st ++ ws := by
  induction ws generalizing st with
  | nil => exact (List.append_nil st).symm
  | cons w ws ih =>
    obtain ⟨hdot, hdotdot⟩ := h w List.mem_cons_self
    rw [List.foldl_cons, push, if_neg hdot, if_neg hdotdot,
      ih (fun v hv => h v (List.mem_cons_of_mem w hv)), List.append_assoc]
    rfl

end Normalize

section Overlap

variable {β : Type*} [DecidableEq β]

/-- Length of the longest common prefix. -/
def overlap : List β → List β → Nat
  | x :: xs, y :: ys => if x = y then overlap xs ys + 1 else 0
  | _, _ => 0

theorem overlap_le_left (xs ys : List β) : overlap xs ys ≤ xs.length := by
  induction xs generalizing ys with
  | nil => simp [overlap]
  | cons x xs ih =>
    cases ys with
    | nil => simp [overlap]
    | cons y ys =>
      rw [overlap]
      split
      · have hle := ih ys
        rw [List.length_cons]
        omega
      · exact Nat.zero_le _

theorem overlap_comm (xs ys : List β) : overlap xs ys = overlap ys xs := by
  induction xs generalizing ys with
  | nil => cases ys <;> rfl
  | cons x xs ih =>
    cases ys with
    | nil => rfl
    | cons y ys => simp only [overlap, ih ys, eq_comm (a := x)]

theorem overlap_le_right (xs ys : List β) : overlap xs ys ≤ ys.length :=
  overlap_comm xs ys ▸ overlap_le_left ys xs

theorem overlap_eq_left_iff (xs ys : List β) : overlap xs ys = xs.length ↔ xs <+: ys := by
  induction xs generalizing ys with
  | nil => simp [overlap]
  | cons x xs ih =>
    cases ys with
    | nil => simp [overlap]
    | cons y ys =>
      rw [overlap, List.cons_prefix_cons]
      split
      · rename_i he
        rw [List.length_cons, Nat.add_right_cancel_iff, ih, and_iff_right he]
      · rename_i hne
        simp [hne]

theorem isGreatest_overlap (xs ys : List β) :
    IsGreatest {n | ∃ zs, zs <+: xs ∧ zs <+: ys ∧ zs.length = n} (overlap xs ys) := by
  constructor
  · induction xs generalizing ys with
    | nil => exact ⟨[], List.nil_prefix, List.nil_prefix, by simp [overlap]⟩
    | cons x xs ih =>
      cases ys with
      | nil => exact ⟨[], List.nil_prefix, List.nil_prefix, rfl⟩
      | cons y ys =>
        rw [overlap]
        split
        · rename_i he
          obtain ⟨zs, hx, hy, hlen⟩ := ih ys
          exact ⟨x :: zs, List.cons_prefix_cons.mpr ⟨rfl, hx⟩, List.cons_prefix_cons.mpr ⟨he, hy⟩,
            congrArg (· + 1) hlen⟩
        · exact ⟨[], List.nil_prefix, List.nil_prefix, rfl⟩
  · rintro n ⟨zs, hx, hy, rfl⟩
    induction zs generalizing xs ys with
    | nil => exact Nat.zero_le _
    | cons z zs ih =>
      obtain ⟨xs, rfl⟩ := hx
      obtain ⟨ys, rfl⟩ := hy
      rw [List.cons_append, List.cons_append, overlap, if_pos rfl, List.length_cons]
      exact Nat.succ_le_succ (ih _ _ (List.prefix_append _ _) (List.prefix_append _ _))

theorem overlap_lt_iff (xs ys : List β) : overlap xs ys < xs.length ↔ ¬ xs <+: ys := by
  rw [← overlap_eq_left_iff]
  exact (overlap_le_left xs ys).lt_iff_ne

theorem overlap_eq_right_iff (xs ys : List β) : overlap xs ys = ys.length ↔ ys <+: xs := by
  rw [overlap_comm, overlap_eq_left_iff]

theorem overlap_concat (xs ys : List β) (y : β) : overlap xs (ys ++ [y]) =
    if overlap xs ys = ys.length ∧ xs[ys.length]? = some y then ys.length + 1 else overlap xs ys := by
  induction xs generalizing ys with
  | nil => simp [overlap]
  | cons x xs ih =>
    cases ys with
    | nil => simp [overlap, eq_comm]
    | cons z ys =>
      rw [List.cons_append, overlap, overlap]
      split
      · rw [ih]
        simp only [List.length_cons, Nat.add_right_cancel_iff, List.getElem?_cons_succ]
        split <;> rfl
      · simp

theorem overlap_dropLast (xs ys : List β) : overlap xs ys.dropLast = min (overlap xs ys) (ys.length - 1) := by
  induction ys using List.reverseRecOn with
  | nil => simp [overlap]
  | append_singleton ys y ih =>
    have hle := overlap_le_right xs ys
    rw [List.dropLast_concat, overlap_concat, List.length_append, List.length_singleton,
      Nat.add_sub_cancel]
    split
    · rename_i h
      omega
    · omega

end Overlap

end GaoFS.Library.Paths
