import GaoFS.Resolve

namespace GaoFS.ResolveStack

open Chunks ChunkStorage Resolve Library.NumberText Library.Paths

section Matched

variable {mnt st : List Bytes}

/-- What the counter of matched components stands for: the components in common with the
mount directory, and inside of it all components. -/
def matchedCount (mnt st : List Bytes) : Nat := if mnt <+: st then st.length else overlap mnt st

theorem matchedCount_le (mnt st : List Bytes) : matchedCount mnt st ≤ st.length := by
  rw [matchedCount]
  split
  · exact le_rfl
  · exact overlap_le_right mnt st

theorem matchedCount_lt_iff : matchedCount mnt st < mnt.length ↔ ¬ mnt <+: st := by
  rw [matchedCount]
  split
  · rename_i h
    exact iff_of_false (Nat.not_lt.mpr h.length_le) fun hn => hn h
  · rename_i h
    exact iff_of_true ((overlap_lt_iff mnt st).mpr h) h

theorem matchedCount_outside (h : ¬ mnt <+: st) (c : Bytes) :
    matchedCount mnt (st ++ [c]) =
      if matchedCount mnt st = st.length ∧ mnt[matchedCount mnt st]? = some c
      then matchedCount mnt st + 1 else matchedCount mnt st := by
  have hst : matchedCount mnt st = overlap mnt st := if_neg h
  have hconcat := overlap_concat mnt st c
  have hsame : overlap mnt (st ++ [c]) =
      if overlap mnt st = st.length ∧ mnt[overlap mnt st]? = some c
      then overlap mnt st + 1 else overlap mnt st := by
    rw [hconcat]
    by_cases hlen : overlap mnt st = st.length
    · rw [hlen]
    · simp only [hlen, false_and, if_false]
  rw [hst, ← hsame, matchedCount]
  split
  · rename_i hin
    -- the component completes the mount directory
    have hmnt : mnt = st ++ [c] := by
      obtain hmnt | hmnt := List.prefix_concat_iff.mp hin
      · exact hmnt
      · exact absurd hmnt h
    exact ((overlap_eq_right_iff _ _).mpr (hmnt ▸ List.prefix_rfl)).symm
  · rfl

theorem matchedCount_inside (h : mnt <+: st) (c : Bytes) :
    matchedCount mnt (st ++ [c]) = matchedCount mnt st + 1 := by
  rw [matchedCount, matchedCount, if_pos h, if_pos (h.trans (List.prefix_append st [c])),
    List.length_append, List.length_singleton]

theorem matchedCount_back (mnt : List Bytes) (hne : st ≠ []) :
    matchedCount mnt st.dropLast =
      if matchedCount mnt st = st.length then matchedCount mnt st - 1 else matchedCount mnt st := by
  have hdrop := overlap_dropLast mnt st
  have hlen : st.dropLast.length = st.length - 1 := List.length_dropLast
  have hle := overlap_le_right mnt st
  have hpos := List.length_pos_iff.mpr hne
  by_cases hin : mnt <+: st
  · have hall : matchedCount mnt st = st.length := if_pos hin
    rw [if_pos hall, hall, matchedCount]
    split
    · exact hlen
    · rename_i hout
      have hmnt : mnt = st := by
        by_contra hother
        apply hout
        obtain ⟨t, ht⟩ := hin
        have ht' : t ≠ [] := by
          rintro rfl
          exact hother (by rw [← ht, List.append_nil])
        rw [← ht, List.dropLast_append_of_ne_nil ht']
        exact List.prefix_append _ _
      have hfull := (overlap_eq_left_iff mnt st).mpr hin
      rw [hdrop, hfull, hmnt]
      omega
  · have hall : matchedCount mnt st = overlap mnt st := if_neg hin
    have hout : ¬ mnt <+: st.dropLast := fun h => hin (h.trans (List.dropLast_prefix st))
    rw [hall, matchedCount, if_neg hout, hdrop]
    split <;> omega

end Matched

section Counters

theorem toNat_pred {x : UInt32} (h : 0 < x.toNat) : (x - 1).toNat = x.toNat - 1 := by
  have hlt := x.toNat_lt
  have hone : (1 : UInt32).toNat = 1 := rfl
  rw [UInt32.toNat_sub, hone]
  omega

theorem toNat_succ {x : UInt32} (h : x.toNat + 1 < 2 ^ 32) : (x + 1).toNat = x.toNat + 1 := by
  have hone : (1 : UInt32).toNat = 1 := rfl
  rw [UInt32.toNat_add, hone, Nat.mod_eq_of_lt h]

/-- The two counters of a stack of components, matched ones and all. -/
structure Counts (mnt st : List Bytes) (matched counted : UInt32) : Prop where
  counted : counted.toNat = st.length
  matched : matched.toNat = matchedCount mnt st

variable {mnt st : List Bytes} {matched counted : UInt32}

theorem Counts.eq_iff (h : Counts mnt st matched counted) :
    matched = counted ↔ matchedCount mnt st = st.length := by
  rw [← UInt32.toNat_inj, h.matched, h.counted]

theorem Counts.lt_iff (h : Counts mnt st matched counted) :
    matched.toNat < mnt.length ↔ ¬ mnt <+: st := by
  rw [h.matched, matchedCount_lt_iff]

theorem Counts.back {c : Bytes} (h : Counts mnt (st ++ [c]) matched counted) :
    0 < counted ∧ Counts mnt st (if matched = counted then matched - 1 else matched) (counted - 1) := by
  have hlen : (st ++ [c]).length = st.length + 1 := List.length_append
  have hback := matchedCount_back mnt (List.append_ne_nil_of_right_ne_nil st (List.cons_ne_nil c []))
  have hpos : 0 < counted.toNat := by
    rw [h.counted, hlen]
    exact Nat.succ_pos _
  rw [List.dropLast_concat] at hback
  refine ⟨UInt32.lt_iff_toNat_lt.mpr hpos, ?_, ?_⟩
  · rw [toNat_pred hpos, h.counted, hlen]
    rfl
  · rw [hback]
    by_cases hall : matchedCount mnt (st ++ [c]) = (st ++ [c]).length
    · rw [if_pos (h.eq_iff.mpr hall), if_pos hall,
        toNat_pred (by rw [h.matched, hall, hlen]; exact Nat.succ_pos _), h.matched]
    · rw [if_neg fun he => hall (h.eq_iff.mp he), if_neg hall, h.matched]

theorem Counts.inside {c : Bytes} (h : Counts mnt st matched counted) (hin : mnt <+: st)
    (hfit : (st ++ [c]).length < 2 ^ 32) : Counts mnt (st ++ [c]) (matched + 1) (counted + 1) := by
  have hlen : (st ++ [c]).length = st.length + 1 := List.length_append
  have hcount : matchedCount mnt st = st.length := if_pos hin
  constructor
  · rw [toNat_succ (by rw [h.counted]; omega), h.counted, hlen]
  · rw [toNat_succ (by rw [h.matched, hcount]; omega), h.matched, matchedCount_inside hin]

theorem Counts.outside {c : Bytes} (h : Counts mnt st matched counted) (hout : ¬ mnt <+: st)
    (hfit : (st ++ [c]).length < 2 ^ 32) :
    Counts mnt (st ++ [c])
      (if matched = counted ∧ mnt[matched.toNat]? = some c then matched + 1 else matched)
      (counted + 1) := by
  have hlen : (st ++ [c]).length = st.length + 1 := List.length_append
  have hle := matchedCount_le mnt st
  constructor
  · rw [toNat_succ (by rw [h.counted]; omega), h.counted, hlen]
  · rw [matchedCount_outside hout, h.matched]
    by_cases hall : matchedCount mnt st = st.length ∧ mnt[matchedCount mnt st]? = some c
    · rw [if_pos ⟨h.eq_iff.mpr hall.1, hall.2⟩, if_pos hall,
        toNat_succ (by rw [h.matched]; omega), h.matched]
    · rw [if_neg fun he => hall ⟨h.eq_iff.mp he.1, he.2⟩, if_neg hall, h.matched]

end Counters

section Invariant

/-- The scan holds the stack of components. -/
structure Inv (mnt : List Bytes) (s : Scan) (st : List Bytes) : Prop where
  resolved : s.resolved = joined separator st
  lastSlash : st ≠ [] → s.lastSlashPos = some (joined separator st.dropLast).length
  counted : s.resolvedComponents.toNat = st.length
  matched : s.matchedComponents.toNat = matchedCount mnt st
  isWord : ∀ c ∈ st, IsWord separator c

variable {os : Os} {mnt st : List Bytes} {path : Path} {resolveLastLink : Bool} {s : Scan}

theorem inv_start (mnt : List Bytes) : Inv mnt Scan.start [] where
  resolved := rfl
  lastSlash h := absurd rfl h
  counted := rfl
  matched := by
    have hle := matchedCount_le mnt []
    rw [List.length_nil] at hle
    exact (Nat.le_zero.mp hle).symm
  isWord := nofun

theorem Inv.congr {t : Scan} (h : Inv mnt s st) (hresolved : t.resolved = s.resolved)
    (hslash : t.lastSlashPos = s.lastSlashPos) (hcounted : t.resolvedComponents = s.resolvedComponents)
    (hmatched : t.matchedComponents = s.matchedComponents) : Inv mnt t st where
  resolved := hresolved.trans h.resolved
  lastSlash hne := hslash.trans (h.lastSlash hne)
  counted := hcounted ▸ h.counted
  matched := hmatched ▸ h.matched
  isWord := h.isWord

theorem Inv.counts (h : Inv mnt s st) : Counts mnt st s.matchedComponents s.resolvedComponents :=
  ⟨h.counted, h.matched⟩

theorem findLastOf_append (xs : Bytes) {c : Bytes} (hc : separator ∉ c) :
    findLastOf (xs ++ separator :: c) = some xs.length := by
  have hmem : separator ∈ xs ++ separator :: c := by simp
  have htail : (xs ++ separator :: c).reverse.takeWhile (· != separator) = c.reverse := by
    rw [List.reverse_append, List.reverse_cons, List.append_assoc, List.singleton_append]
    exact takeWhile_word (fun hrev => hc (List.mem_reverse.mp hrev)) xs.reverse
  rw [findLastOf, if_pos (List.contains_iff_mem.mpr hmem), htail]
  simp

theorem findLastOf_joined (ws : List Bytes) {c : Bytes} (hc : IsWord separator c) :
    findLastOf (joined separator (ws ++ [c])) = some (joined separator ws).length := by
  rw [joined_concat, findLastOf_append _ hc.no_sep]

theorem eraseLast_inv {c : Bytes} (h : Inv mnt s (st ++ [c])) :
    ∃ pos, eraseLast s = some { s with resolved := joined separator st, lastSlashPos := pos } ∧
      (st ≠ [] → pos = some (joined separator st.dropLast).length) := by
  have hne : st ++ [c] ≠ [] := by simp
  have hresolved : s.resolved ≠ [] := by
    rw [h.resolved]
    exact fun he => hne ((joined_eq_nil_iff _).mp he)
  have hslash := h.lastSlash hne
  rw [List.dropLast_concat] at hslash
  have htake : s.resolved.take (joined separator st).length = joined separator st := by
    rw [h.resolved, joined_concat, List.take_left]
  have hle : (joined separator st).length ≤ s.resolved.length := by
    rw [h.resolved, joined_concat, List.length_append]
    omega
  refine ⟨findLastOf (joined separator st), ?_, fun hst => ?_⟩
  · rw [eraseLast, if_neg hresolved, hslash, Option.bind_some, if_pos hle, htake]
  · have hsplit := List.dropLast_append_getLast hst
    have hlast := h.isWord (st.getLast hst) (List.mem_append_left _ (List.getLast_mem hst))
    conv_lhs => rw [← hsplit]
    exact findLastOf_joined st.dropLast hlast

/-- Two dots take the last component off, or nothing at the root. -/
theorem rollback_inv (h : Inv mnt s st) :
    ∃ t, rollback s = (t, none) ∧ Inv mnt t st.dropLast ∧ t.stop = s.stop ∧ t.queried = s.queried := by
  cases st using List.reverseRecOn with
  | nil =>
    have herase : eraseLast s = some s := if_pos h.resolved
    have hzero : ¬ 0 < s.resolvedComponents := by
      rw [UInt32.lt_iff_toNat_lt, h.counted]
      exact Nat.lt_irrefl 0
    exact ⟨s, by rw [rollback, herase]; exact if_neg hzero, h, rfl, rfl⟩
  | append_singleton st c _ =>
    obtain ⟨pos, herase, hpos⟩ := eraseLast_inv h
    obtain ⟨hcount, hback⟩ := h.counts.back
    rw [List.dropLast_concat, rollback, herase]
    dsimp only
    rw [if_pos hcount]
    exact ⟨_, rfl, ⟨rfl, hpos, hback.counted, hback.matched,
      fun d hd => h.isWord d (List.mem_append_left _ hd)⟩, rfl, rfl⟩

variable (os path resolveLastLink) in
theorem descend_inside {c : Bytes} (h : Inv mnt s st) (hin : mnt <+: st) (hc : IsWord separator c)
    (hfit : (st ++ [c]).length < 2 ^ 32) :
    ∃ t, descend os mnt path resolveLastLink s c = (t, none) ∧ Inv mnt t (st ++ [c]) ∧
      t.stop = s.stop ∧ t.queried = s.queried := by
  have hmatched : ¬ s.matchedComponents.toNat < mnt.length := fun hlt => h.counts.lt_iff.mp hlt hin
  have hcounts := h.counts.inside hin hfit
  rw [descend]
  dsimp only
  rw [if_neg hmatched]
  refine ⟨_, rfl, ⟨?_, ?_, hcounts.counted, hcounts.matched, ?_⟩, rfl, rfl⟩
  · rw [h.resolved, joined_concat]
  · intro _
    rw [h.resolved, List.dropLast_concat]
  · exact List.forall_mem_append.mpr ⟨h.isWord, List.forall_mem_singleton.mpr hc⟩

variable (os path resolveLastLink) in
/-- Outside the mount directory a component is appended and asked for. -/
theorem descend_outside {c : Bytes} (h : Inv mnt s st) (hout : ¬ mnt <+: st) (hc : IsWord separator c)
    (hfit : (st ++ [c]).length < 2 ^ 32) :
    ∃ t, descend os mnt path resolveLastLink s c = inspect os mnt path resolveLastLink t ∧
      t.resolved = joined separator (st ++ [c]) ∧
      Inv mnt { t with resolvedComponents := t.resolvedComponents + 1 } (st ++ [c]) ∧
      t.stop = s.stop ∧ t.queried = s.queried ++ [(joined separator (st ++ [c]), s.stop)] := by
  have hcounts := h.counts.outside hout hfit
  have hresolved : s.resolved ++ separator :: c = joined separator (st ++ [c]) := by
    rw [h.resolved, joined_concat]
  rw [descend]
  dsimp only
  rw [if_pos (h.counts.lt_iff.mpr hout)]
  refine ⟨_, rfl, hresolved, ⟨hresolved, ?_, hcounts.counted, hcounts.matched, ?_⟩, rfl, ?_⟩
  · intro _
    rw [h.resolved, List.dropLast_concat]
  · exact List.forall_mem_append.mpr ⟨h.isWord, List.forall_mem_singleton.mpr hc⟩
  · rw [← hresolved]

theorem takeComponent_name {c : Bytes} (hc : IsWord separator c) (hdot : c ≠ text ".")
    (hdotdot : c ≠ text "..") : takeComponent os mnt path resolveLastLink s c =
      descend os mnt path resolveLastLink s c := by
  rw [takeComponent, if_neg hc.ne_nil, if_neg hdot, if_neg hdotdot]

theorem push_name {c : Bytes} (hdot : c ≠ text ".") (hdotdot : c ≠ text "..") :
    push (text ".") (text "..") st c = st ++ [c] := by
  rw [push, if_neg hdot, if_neg hdotdot]

variable (mnt path resolveLastLink) in
/-- A component that is asked for leads on if it is a directory, or a file at the very
end, and else out of the loop. -/
theorem inspect_cases (hlink : ∀ p, os.lstat p ≠ .link) (t : Scan) :
    (os.lstat t.resolved = .directory ∨ os.lstat t.resolved = .other ∧ t.stop = path.length) ∧
      inspect os mnt path resolveLastLink t =
        ({ t with resolvedComponents := t.resolvedComponents + 1 }, none) ∨
    (os.lstat t.resolved = .failed ∨ os.lstat t.resolved = .other ∧ t.stop ≠ path.length) ∧
      inspect os mnt path resolveLastLink t =
        ({ t with resolved := t.resolved ++ path.drop t.stop }, some .returned) := by
  rw [inspect]
  cases hstat : os.lstat t.resolved with
  | failed => exact .inr ⟨.inl rfl, rfl⟩
  | link => exact absurd hstat (hlink t.resolved)
  | directory => exact .inl ⟨.inl rfl, rfl⟩
  | other =>
    by_cases hstop : t.stop = path.length
    · exact .inl ⟨.inr ⟨rfl, hstop⟩, if_neg fun hne => hne hstop⟩
    · exact .inr ⟨.inr ⟨rfl, hstop⟩, if_pos hstop⟩

end Invariant

end GaoFS.ResolveStack
