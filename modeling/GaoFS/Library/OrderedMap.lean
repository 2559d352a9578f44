import Mathlib.Data.List.Lex
import Mathlib.Data.List.TakeWhile
import Mathlib.Order.Lattice

namespace GaoFS.Library.OrderedMap

/-- A finite map as its entries in increasing order of the keys, which is the
order in which an iterator visits them. -/
@[ext] structure SortedMap (K V : Type*) [LinearOrder K] where
  entries : List (K × V)
  sorted : entries.Pairwise fun a b => a.1 < b.1

/-- Bytes are ordered as numbers. -/
scoped instance linearOrderUInt8 : LinearOrder UInt8 where
  le_refl := UInt8.le_refl
  le_trans _ _ _ := UInt8.le_trans
  le_antisymm _ _ := UInt8.le_antisymm
  le_total := UInt8.le_total
  lt_iff_le_not_ge a b := by
    rw [UInt8.lt_iff_toNat_lt, UInt8.le_iff_toNat_le, UInt8.le_iff_toNat_le]
    omega
  toDecidableLE := inferInstance
  toDecidableEq := inferInstance
  toDecidableLT := inferInstance

scoped instance linearOrderInt32 : LinearOrder Int32 where
  le_refl _ := Int32.le_refl _
  le_trans _ _ _ := Int32.le_trans
  le_antisymm _ _ := Int32.le_antisymm
  le_total := Int32.le_total
  lt_iff_le_not_ge a b := by
    rw [Int32.lt_iff_toInt_lt, Int32.le_iff_toInt_le, Int32.le_iff_toInt_le]
    omega
  toDecidableLE := inferInstance
  toDecidableEq := inferInstance
  toDecidableLT := inferInstance

section Map

variable {K V : Type*} [LinearOrder K]

def SortedMap.empty : SortedMap K V := ⟨[], List.Pairwise.nil⟩

def SortedMap.find (m : SortedMap K V) (k : K) : Option V :=
  (m.entries.find? fun e => e.1 = k).map Prod.snd

def SortedMap.erase (m : SortedMap K V) (k : K) : SortedMap K V :=
  ⟨m.entries.filter fun e => e.1 ≠ k, m.sorted.filter _⟩

def insertEntries (k : K) (v : V) (es : List (K × V)) : List (K × V) :=
  es.filter (fun e => e.1 < k) ++ (k, v) :: es.filter fun e => k < e.1

theorem insertEntries_sorted (k : K) (v : V) {es : List (K × V)}
    (h : es.Pairwise fun a b => a.1 < b.1) :
    (insertEntries k v es).Pairwise fun a b => a.1 < b.1 := by
  apply List.pairwise_append.mpr
  refine ⟨h.filter _, List.pairwise_cons.mpr ⟨?_, h.filter _⟩, ?_⟩
  · intro e he
    exact of_decide_eq_true (List.mem_filter.mp he).2
  · intro a ha b hb
    have hak : a.1 < k := of_decide_eq_true (List.mem_filter.mp ha).2
    cases List.mem_cons.mp hb with
    | inl hnew => rw [hnew]; exact hak
    | inr hold => exact hak.trans (of_decide_eq_true (List.mem_filter.mp hold).2)

def SortedMap.insert (m : SortedMap K V) (k : K) (v : V) : SortedMap K V :=
  ⟨insertEntries k v m.entries, insertEntries_sorted k v m.sorted⟩

/-- Give a key a value, or take its value away. -/
def SortedMap.set (m : SortedMap K V) (k : K) : Option V → SortedMap K V
  | some v => m.insert k v
  | none => m.erase k

/-- An entry is determined by its key. -/
theorem SortedMap.mem_entries {m : SortedMap K V} {k : K} {v : V} :
    (k, v) ∈ m.entries ↔ m.find k = some v := by
  obtain ⟨es, hs⟩ := m
  change (k, v) ∈ es ↔ (es.find? fun e => e.1 = k).map Prod.snd = some v
  induction es with
  | nil => simp
  | cons e es ih =>
    obtain ⟨hlt, hs⟩ := List.pairwise_cons.mp hs
    by_cases hk : e.1 = k
    · have hnot : (k, v) ∉ es := fun hmem => (hk ▸ hlt _ hmem).false
      subst hk
      simp [hnot, Prod.ext_iff, eq_comm]
    · have hne : (k, v) ≠ e := fun he => hk (by rw [← he])
      simp [hk, hne, ih hs]

theorem SortedMap.nodup (m : SortedMap K V) : (m.entries.map Prod.fst).Nodup :=
  List.pairwise_map.mpr (m.sorted.imp fun h => h.ne)

theorem SortedMap.mem_set {m : SortedMap K V} {k k' : K} {o : Option V} {v : V} :
    (k', v) ∈ (m.set k o).entries ↔ if k' = k then o = some v else (k', v) ∈ m.entries := by
  cases o with
  | none =>
    change (k', v) ∈ m.entries.filter _ ↔ _
    by_cases hk : k' = k <;> simp [hk]
  | some w =>
    change (k', v) ∈ insertEntries k w m.entries ↔ _
    by_cases hk : k' = k
    · simp [insertEntries, hk, eq_comm]
    · have hor := lt_or_gt_of_ne hk
      simp [insertEntries, hk, ← and_or_left, hor]

theorem SortedMap.find_set (m : SortedMap K V) (k k' : K) (o : Option V) :
    (m.set k o).find k' = if k' = k then o else m.find k' := by
  apply Option.ext
  intro v
  rw [← mem_entries, mem_set]
  split
  · rfl
  · rw [mem_entries]

/-- Two maps with the same values have the same entries, in the same order. -/
theorem SortedMap.ext_find {m m' : SortedMap K V} (h : ∀ k, m.find k = m'.find k) : m = m' := by
  have hnodup : ∀ m : SortedMap K V, m.entries.Nodup := fun m =>
    m.sorted.imp fun hlt he => hlt.ne (congrArg Prod.fst he)
  have hperm : m.entries.Perm m'.entries := by
    refine (List.perm_ext_iff_of_nodup (hnodup m) (hnodup m')).mpr ?_
    rintro ⟨k, v⟩
    rw [mem_entries, mem_entries, h]
  apply SortedMap.ext
  refine hperm.eq_of_pairwise (fun a b _ _ hab hba => ?_) m.sorted m'.sorted
  exact absurd (hab.trans hba) (lt_irrefl _)

/-- The same keys, with other values. -/
def SortedMap.mapValues {W : Type*} (g : V → W) (m : SortedMap K V) : SortedMap K W :=
  ⟨m.entries.map fun e => (e.1, g e.2), List.pairwise_map.mpr m.sorted⟩

theorem SortedMap.find_mapValues {W : Type*} (g : V → W) (m : SortedMap K V) (k : K) :
    (m.mapValues g).find k = (m.find k).map g := by
  rw [SortedMap.find, SortedMap.find, SortedMap.mapValues, List.find?_map, Option.map_map, Option.map_map]
  rfl

end Map

section Scan

variable {α V : Type*} [LinearOrder α]

/-- Between a word and a longer one that begins with it stand only words that
begin with it. -/
theorem prefix_of_between {p k l : List α} (hpk : ¬ k < p) (hkl : k < l) (hpl : p <+: l) :
    p <+: k := by
  induction p generalizing k l with
  | nil => exact List.nil_prefix
  | cons a p ih =>
    cases l with
    | nil => simp at hpl
    | cons c l =>
      obtain ⟨rfl, htail⟩ := List.cons_prefix_cons.mp hpl
      cases k with
      | nil => exact absurd (List.nil_lt_cons _ _) hpk
      | cons b k =>
        rw [List.cons_lt_cons_iff] at hpk hkl
        rw [not_or, not_and] at hpk
        cases hkl with
        | inl hlt => exact absurd hlt hpk.1
        | inr heq =>
          obtain ⟨rfl, hkl⟩ := heq
          exact List.cons_prefix_cons.mpr ⟨rfl, ih (hpk.2 rfl) hkl htail⟩

theorem not_lt_of_prefix {p k : List α} (h : p <+: k) : ¬ k < p := by
  induction p generalizing k with
  | nil => exact List.not_lt_nil k
  | cons a p ih =>
    cases k with
    | nil => simp at h
    | cons b k =>
      obtain ⟨rfl, htail⟩ := List.cons_prefix_cons.mp h
      rw [List.cons_lt_cons_iff]
      rintro (hlt | ⟨-, hlt⟩)
      · exact lt_irrefl _ hlt
      · exact ih htail hlt

/-- The entries from the first key that is not below `p`. -/
def SortedMap.seek (m : SortedMap (List α) V) (p : List α) : List (List α × V) :=
  m.entries.dropWhile fun e => e.1 < p

theorem seek_not_below (p : List α) {es : List (List α × V)}
    (hs : es.Pairwise fun a b => a.1 < b.1) : ∀ e ∈ es.dropWhile (fun e => e.1 < p), ¬ e.1 < p := by
  induction es with
  | nil => simp
  | cons x es ih =>
    obtain ⟨hlt, hs⟩ := List.pairwise_cons.mp hs
    by_cases hx : x.1 < p
    · simpa [hx] using ih hs
    · intro e he
      rw [List.dropWhile_cons_of_neg (by simpa using hx)] at he
      cases List.mem_cons.mp he with
      | inl heq => rw [heq]; exact hx
      | inr hrest => exact fun hlow => hx ((hlt e hrest).trans hlow)

theorem takeWhile_prefix {p : List α} {es : List (List α × V)}
    (hs : es.Pairwise fun a b => a.1 < b.1) (hp : ∀ e ∈ es, ¬ e.1 < p) :
    es.takeWhile (fun e => p <+: e.1) = es.filter fun e => p <+: e.1 := by
  induction es with
  | nil => rfl
  | cons e es ih =>
    obtain ⟨hlt, hs⟩ := List.pairwise_cons.mp hs
    by_cases he : p <+: e.1
    · simp [he, ih hs fun x hx => hp x (List.mem_cons_of_mem e hx)]
    · have hnone : ∀ x ∈ es, ¬ p <+: x.1 := fun x hx hpx =>
        he (prefix_of_between (hp e List.mem_cons_self) (hlt x hx) hpx)
      simpa [he] using hnone

/-- A scan that seeks a prefix and stops at the first key without it visits
every key with the prefix. -/
theorem SortedMap.scan_eq (m : SortedMap (List α) V) (p : List α) :
    (m.seek p).takeWhile (fun e => p <+: e.1) = m.entries.filter fun e => p <+: e.1 := by
  have hsplit := List.takeWhile_append_dropWhile (p := fun e : List α × V => decide (e.1 < p))
    (l := m.entries)
  have hbelow : (m.entries.takeWhile fun e => decide (e.1 < p)).filter (fun e => p <+: e.1) = [] := by
    apply List.filter_eq_nil_iff.mpr
    intro e he hpe
    have hlow := List.mem_takeWhile_imp he
    exact not_lt_of_prefix (of_decide_eq_true hpe) (of_decide_eq_true hlow)
  have hsorted : (m.seek p).Pairwise fun a b => a.1 < b.1 :=
    m.sorted.sublist (List.dropWhile_sublist _)
  rw [ takeWhile_prefix hsorted (seek_not_below p m.sorted)]
  calc (m.seek p).filter (fun e => p <+: e.1)
      = (m.entries.takeWhile (fun e => e.1 < p) ++ m.seek p).filter (fun e => p <+: e.1) := by
        rw [List.filter_append, hbelow, List.nil_append]
    _ = m.entries.filter fun e => p <+: e.1 := congrArg _ hsplit

end Scan

end GaoFS.Library.OrderedMap
