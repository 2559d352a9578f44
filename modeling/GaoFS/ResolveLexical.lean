import GaoFS.ResolveStack

namespace GaoFS.ResolveLexical

open Chunks ChunkStorage Resolve ResolveStack Library.NumberText Library.Paths

section Lexical

variable (os : Os) (mountdir path : Path) (resolveLastLink : Bool)

/-- The components of a path, without the single dots and with every double dot taken
off the component before it. -/
def lexical : List Bytes := normalForm (text ".") (text "..") (words separator path)

/-- What stands behind the last component. -/
def trailing : Path := path.rtakeWhile (· == separator)

/-- The calls of `lstat`, and where in the path each was made. -/
def queries : List (Path × Nat) :=
  ((scan os mountdir path resolveLastLink).map fun r => r.1.queried).getD []

/-- Nothing is a link, and what is asked for before the last component is a directory. -/
structure Reports : Prop where
  noLink : ∀ p, os.lstat p ≠ .link
  directory : ∀ q ∈ queries os mountdir path resolveLastLink,
    words separator (path.drop q.2) ≠ [] → os.lstat q.1 = .directory

/-- Lexical normalisation, relative to the mount directory if the path is in it. -/
def lexicalAnswer (mnt : List Bytes) : Bool × Path :=
  if mnt <+: lexical path then (true, rooted separator ((lexical path).drop mnt.length))
  else (false, rooted separator (lexical path))

/-- The last component is a name that is asked for, as the mount directory is not reached
before it, and it is missing or has slashes behind it without being a directory. -/
def Halts (mnt : List Bytes) (last : Option Bytes) (st : List Bytes) : Prop :=
  last ∉ [none, some (text "."), some (text "..")] ∧ ¬ mnt <+: st.dropLast ∧
    (os.lstat (joined separator st) = .failed ∨
      os.lstat (joined separator st) = .other ∧ trailing path ≠ [])

def Stopped (mnt : List Bytes) : Prop :=
  Halts os path mnt (words separator path).getLast? (lexical path)

instance decidableStopped (mnt : List Bytes) : Decidable (Stopped os path mnt) :=
  inferInstanceAs (Decidable (_ ∧ _))

/-- Never as many components at a time as the counters can hold. -/
def Shallow : Prop :=
  ∀ ws, ws <+: words separator path → (normalForm (text ".") (text "..") ws).length < 2 ^ 32

end Lexical

section Loop

variable {os : Os} {mnt st : List Bytes} {path : Path} {resolveLastLink : Bool} {s : Scan}

theorem trailing_eq {c : Bytes} {start next : Nat} (hc : IsWord separator c)
    (htake : path.take next = path.take start ++ c) (hws : words separator (path.drop next) = []) :
    path.drop next = trailing path := by
  have hlast : (path.take next).rtakeWhile (· == separator) = [] := by
    rw [List.rtakeWhile_eq_nil_iff, htake]
    intro hne hsep
    rw [List.getLast_append_of_ne_nil _ hc.ne_nil, beq_iff_eq] at hsep
    exact hc.no_sep (hsep ▸ List.getLast_mem hc.ne_nil)
  have hall : ∀ y ∈ path.drop next, (y == separator) = true := fun y hy =>
    beq_iff_eq.mpr ((words_eq_nil_iff _).mp hws y hy)
  have hrest := rtakeWhile_append hlast hall
  rw [List.take_append_drop] at hrest
  exact hrest.symm

variable (os mnt) in
/-- The next component, whether the last link is going to be resolved or not. -/
theorem loop_next {c : Bytes} {ws : List Bytes} (h : AtBoundary path s.stop)
    (hws : words separator (path.drop s.stop) = c :: ws) :
    ∃ next, s.stop < next ∧ next ≤ path.length ∧ IsWord separator c ∧ AtBoundary path next ∧
      words separator (path.drop next) = ws ∧ (ws = [] → path.drop next = trailing path) ∧
      ∀ resolveLastLink fuel, loop os mnt path resolveLastLink (fuel + 1) s =
        match takeComponent os mnt path resolveLastLink { s with stop := next } c with
        | (t, none) => loop os mnt path resolveLastLink fuel t
        | (t, some leave) => some (t, leave) := by
  obtain ⟨hlt, hnext, hle, hc, hcomponent, hrest, htake⟩ := nextWord h hws
  refine ⟨_, hnext, hle, hc, atBoundary_findSeparator path _, hrest,
    fun hnil => trailing_eq hc htake (hrest.trans hnil), fun resolveLastLink fuel => ?_⟩
  have hloop : loop os mnt path resolveLastLink (fuel + 1) s =
      match body os mnt path resolveLastLink { s with stop := s.stop + 1 } with
      | (t, none) => loop os mnt path resolveLastLink fuel t
      | (t, some leave) => some (t, leave) := if_pos hlt
  have hbody : body os mnt path resolveLastLink { s with stop := s.stop + 1 } =
      takeComponent os mnt path resolveLastLink
        { s with stop := findSeparator path (skipSeparators path (s.stop + 1)) } c := by
    rw [body]
    dsimp only
    rw [hcomponent]
  rw [hbody] at hloop
  exact hloop

variable (os mnt resolveLastLink) in
theorem loop_end (h : AtBoundary path s.stop) (hws : words separator (path.drop s.stop) = [])
    (fuel : Nat) : ∃ stop, loop os mnt path resolveLastLink (fuel + 1) s =
      some ({ s with stop := stop }, .finished) := by
  rw [loop]
  dsimp only
  split
  · have hrest : path.drop (skipSeparators path (s.stop + 1)) = [] := by
      rw [drop_skipSeparators, List.dropWhile_eq_nil_iff]
      intro x hx
      rw [← words_drop_succ h, words_eq_nil_iff] at hws
      exact beq_iff_eq.mpr (hws x hx)
    rw [body]
    dsimp only
    rw [hrest, List.take_nil, takeComponent, if_pos rfl]
    exact ⟨_, rfl⟩
  · exact ⟨_, rfl⟩

variable (os mnt path) in
/-- The two ways out of the loop, with the components that are left. -/
def Final (out : Option (Scan × Leave)) (st ws : List Bytes) : Prop :=
  let whole := ws.foldl (push (text ".") (text "..")) st
  (Halts os path mnt ws.getLast? whole ∧ ∃ t, out = some (t, .returned) ∧
      t.resolved = joined separator whole ++ trailing path) ∨
    (¬ Halts os path mnt ws.getLast? whole ∧ ∃ t, out = some (t, .finished) ∧ Inv mnt t whole)

theorem final_cons {out : Option (Scan × Leave)} {c : Bytes} {ws : List Bytes}
    (h : Final os mnt path out (push (text ".") (text "..") st c) ws)
    (hlast : ws = [] → ¬ Halts os path mnt (some c) (push (text ".") (text "..") st c)) :
    Final os mnt path out st (c :: ws) := by
  cases ws with
  | nil =>
    obtain ⟨hnone, -⟩ | ⟨-, hfinished⟩ := h
    · exact absurd List.mem_cons_self hnone.1
    · exact .inr ⟨hlast rfl, hfinished⟩
  | cons d ws => exact h

theorem not_halts_dots {c : Bytes} (h : c = text "." ∨ c = text "..") :
    ¬ Halts os path mnt (some c) st := by
  rintro ⟨hname, -⟩
  obtain rfl | rfl := h
  · exact hname (by simp)
  · exact hname (by simp)

/-- Over the components that are left. The invariant holds from each to the next, and
only the last of them can leave the loop early. -/
theorem loop_final (hlink : ∀ p, os.lstat p ≠ .link) (ws : List Bytes) {fuel : Nat}
    (hfuel : path.length - s.stop < fuel) (hboundary : AtBoundary path s.stop)
    (hws : words separator (path.drop s.stop) = ws) (h : Inv mnt s st)
    (hshallow : ∀ vs, vs <+: ws → (vs.foldl (push (text ".") (text "..")) st).length < 2 ^ 32)
    (hdirectory : ∀ t leave, loop os mnt path resolveLastLink fuel s = some (t, leave) →
      ∀ q ∈ t.queried, words separator (path.drop q.2) ≠ [] → os.lstat q.1 = .directory) :
    Final os mnt path (loop os mnt path resolveLastLink fuel s) st ws := by
  obtain ⟨fuel, rfl⟩ : ∃ n, fuel = n + 1 := ⟨fuel - 1, by omega⟩
  induction ws generalizing s st fuel with
  | nil =>
    obtain ⟨stop, hloop⟩ := loop_end os mnt resolveLastLink hboundary hws fuel
    exact .inr ⟨fun hhalts => hhalts.1 List.mem_cons_self, _, hloop, h.congr rfl rfl rfl rfl⟩
  | cons c ws ih =>
    obtain ⟨next, hlt, hle, hc, hnext, hrest, htrailing, hloop⟩ := loop_next os mnt hboundary hws
    specialize hloop resolveLastLink fuel
    have hscan : Inv mnt { s with stop := next } st := h.congr rfl rfl rfl rfl
    have hfit := hshallow [c] ⟨ws, rfl⟩
    -- the loop goes on with the next component
    have hstep : ∀ t : Scan, takeComponent os mnt path resolveLastLink { s with stop := next } c =
        (t, none) → t.stop = next → Inv mnt t (push (text ".") (text "..") st c) →
        (ws = [] → ¬ Halts os path mnt (some c) (push (text ".") (text "..") st c)) →
        Final os mnt path (loop os mnt path resolveLastLink (fuel + 1) s) st (c :: ws) := by
      intro t ht hstop hinv hlast
      obtain ⟨fuel, rfl⟩ : ∃ n, fuel = n + 1 := ⟨fuel - 1, by omega⟩
      have hon : loop os mnt path resolveLastLink (fuel + 1 + 1) s =
          loop os mnt path resolveLastLink (fuel + 1) t := by rw [hloop, ht]
      rw [hon] at hdirectory ⊢
      refine final_cons (ih (hstop ▸ hnext) (hstop ▸ hrest) hinv ?_ fuel (by omega) hdirectory) hlast
      exact fun vs hvs => hshallow (c :: vs) (List.cons_prefix_cons.mpr ⟨rfl, hvs⟩)
    by_cases hdot : c = text "."
    · refine hstep { s with stop := next } ?_ rfl ?_ fun _ => not_halts_dots (.inl hdot)
      · rw [takeComponent, if_neg hc.ne_nil, if_pos hdot]
      · rw [push, if_pos hdot]
        exact hscan
    by_cases hdotdot : c = text ".."
    · obtain ⟨t, ht, hinv, hstop, -⟩ := rollback_inv hscan
      refine hstep t ?_ hstop ?_ fun _ => not_halts_dots (.inr hdotdot)
      · rw [takeComponent, if_neg hc.ne_nil, if_neg hdot, if_pos hdotdot, ht]
      · rw [push, if_neg hdot, if_pos hdotdot]
        exact hinv
    rw [List.foldl_cons, List.foldl_nil, push_name hdot hdotdot] at hfit
    rw [takeComponent_name hc hdot hdotdot] at hloop hstep
    rw [push_name hdot hdotdot] at hstep
    by_cases hin : mnt <+: st
    · obtain ⟨t, ht, hinv, hstop, -⟩ := descend_inside os path resolveLastLink hscan hin hc hfit
      refine hstep t ht hstop hinv fun _ hhalts => hhalts.2.1 ?_
      rw [List.dropLast_concat]
      exact hin
    · obtain ⟨t, ht, hresolved, hinv, hstop, hqueried⟩ := descend_outside os path
        resolveLastLink hscan hin hc hfit
      change t.stop = next at hstop
      change t.queried = s.queried ++ [(joined separator (st ++ [c]), next)] at hqueried
      obtain ⟨hstat, hinspect⟩ | ⟨hstat, hinspect⟩ := inspect_cases mnt path
        resolveLastLink hlink t
      · refine hstep _ (ht.trans hinspect) hstop hinv fun hnil hhalts => ?_
        have htrail := htrailing hnil
        rw [hresolved, hstop] at hstat
        obtain hdir | ⟨hother, hend⟩ := hstat
        · obtain hfailed | ⟨hother, -⟩ := hhalts.2.2
          · exact absurd (hdir.symm.trans hfailed) (by decide)
          · exact absurd (hdir.symm.trans hother) (by decide)
        · obtain hfailed | ⟨-, htail⟩ := hhalts.2.2
          · exact absurd (hother.symm.trans hfailed) (by decide)
          · rw [← htrail, hend, List.drop_length] at htail
            exact htail rfl
      · rw [ht, hinspect] at hloop
        rw [hresolved, hstop] at hstat
        cases ws with
        | nil =>
          have htrail := htrailing rfl
          refine .inl ⟨⟨?_, ?_, ?_⟩, _, hloop, ?_⟩
          · simp [hdot, hdotdot]
          · rw [List.foldl_cons, List.foldl_nil, push_name hdot hdotdot, List.dropLast_concat]
            exact hin
          · rw [List.foldl_cons, List.foldl_nil, push_name hdot hdotdot]
            refine hstat.imp_right fun hother => ⟨hother.1, fun hnil => hother.2 ?_⟩
            rw [← htrail, List.drop_eq_nil_iff] at hnil
            omega
          · rw [List.foldl_cons, List.foldl_nil, push_name hdot hdotdot, ← htrail, ← hstop, ← hresolved]
        | cons d ws =>
          have hasked := hdirectory _ _ hloop (joined separator (st ++ [c]), next)
            (by rw [hqueried]; simp) (by rw [hrest]; exact List.cons_ne_nil d ws)
          obtain hfailed | ⟨hother, -⟩ := hstat
          · exact absurd (hasked.symm.trans hfailed) (by decide)
          · exact absurd (hasked.symm.trans hother) (by decide)

end Loop

section Result

variable {os : Os} {path : Path} {resolveLastLink : Bool}

/-- What is left behind the mount directory. -/
theorem erase_mountdir {ms : List Bytes} (hne : ms ≠ []) (rest : List Bytes) :
    (joined separator (ms ++ rest)).take 1 ++
        (joined separator (ms ++ rest)).drop (1 + (joined separator ms).length) =
      rooted separator rest := by
  obtain ⟨m, ms, rfl⟩ := List.exists_cons_of_ne_nil hne
  have htake : (joined separator (m :: ms ++ rest)).take 1 = [separator] := rfl
  rw [htake, joined_append, Nat.add_comm, ← List.drop_drop, List.drop_left]
  cases rest <;> rfl

/-- On every path that the counters can hold, `resolve` normalises lexically, but for a
last component outside the mount directory that is not there as it should be: then it
leaves the rest of the path as it is. -/
theorem resolve_lexical (os : Os) (mountdir : FilePath) (path : Path) (resolveLastLink : Bool)
    (habsolute : isAbsolute path = true) (hincluded : isExcluded path = false)
    (hshallow : Shallow path) (h : Reports os mountdir.path path resolveLastLink) :
    resolve os mountdir.path path resolveLastLink =
      some (if Stopped os path mountdir.components then
          (false, joined separator (lexical path) ++ trailing path)
        else lexicalAnswer path mountdir.components) := by
  have hboundary : AtBoundary path Scan.start.stop := by
    intro x hx
    rw [isAbsolute, Bool.and_eq_true, beq_iff_eq] at habsolute
    exact Option.some.inj (hx.symm.trans habsolute.2)
  have hscan : scan os mountdir.path path resolveLastLink =
      loop os mountdir.components path resolveLastLink (path.length + 1) Scan.start := by
    rw [scan, splitPath_path]
  have hdirectory : ∀ t leave, loop os mountdir.components path resolveLastLink (path.length + 1)
      Scan.start = some (t, leave) →
      ∀ q ∈ t.queried, words separator (path.drop q.2) ≠ [] → os.lstat q.1 = .directory := by
    intro t leave ht q hq
    refine h.directory q ?_
    rwa [queries, hscan, ht]
  have hfinal := loop_final h.noLink (words separator path) (Nat.lt_succ_of_le (Nat.sub_le _ _))
    hboundary rfl (inv_start _) hshallow hdirectory
  rw [resolve, if_pos habsolute, hincluded, if_neg Bool.false_ne_true, hscan, splitPath_path]
  obtain ⟨hhalts, t, ht, hresolved⟩ | ⟨hhalts, t, ht, hinv⟩ := hfinal
  · change Stopped os path mountdir.components at hhalts
    rw [ht, if_pos hhalts, Option.bind_some]
    dsimp only
    rw [hresolved]
    rfl
  · change ¬ Stopped os path mountdir.components at hhalts
    change Inv mountdir.components t (lexical path) at hinv
    rw [ht, if_neg hhalts, Option.bind_some, lexicalAnswer]
    dsimp only
    by_cases hin : mountdir.components <+: lexical path
    · obtain ⟨rest, hrest⟩ := hin
      have hle : mountdir.components.length ≤ t.matchedComponents.toNat := by
        rw [hinv.matched, ← Nat.not_lt, matchedCount_lt_iff]
        exact fun hout => hout ⟨rest, hrest⟩
      have hne : t.resolved ≠ [] := by
        rw [hinv.resolved, ← hrest]
        intro hnil
        exact mountdir.components_ne (List.append_eq_nil_iff.mp ((joined_eq_nil_iff _).mp hnil)).1
      rw [if_pos hle, if_neg hne, if_pos ⟨rest, hrest⟩, hinv.resolved, ← hrest, path_eq_joined,
        erase_mountdir mountdir.components_ne, List.drop_left]
    · have hlt : ¬ mountdir.components.length ≤ t.matchedComponents.toNat := by
        rw [hinv.matched, Nat.not_le, matchedCount_lt_iff]
        exact hin
      rw [if_neg hlt, if_neg hin, hinv.resolved, rooted]
      simp only [joined_eq_nil_iff]

end Result

section Inputs

/-- A path below 4 GiB does not fill the counters. -/
theorem shallow_of_length {path : Path} (h : path.length < 2 ^ 32) : Shallow path := by
  intro ws hws
  have hnormal : (ws.foldl (push (text ".") (text "..")) []).length ≤ 0 + ws.length :=
    length_foldl_push_le ws []
  have hpath : (words separator path).length ≤ path.length := length_words_le separator path
  have hle := hws.length_le
  rw [normalForm]
  omega

/-- Everything is a directory but for one path that is missing. -/
def missing (p : Path) : Os := ⟨fun q => if q = p then .failed else .directory, fun _ => none⟩

def directories : Os := ⟨fun _ => .directory, fun _ => none⟩

def shortMount : FilePath := ⟨⟨[text "m"], by decide⟩, by decide⟩

def deepPath (n : Nat) : Path := joined separator (List.replicate n (text "m"))

theorem missing_reports {p mountdir path : Path} {resolveLastLink : Bool}
    (h : ∀ q ∈ queries (missing p) mountdir path resolveLastLink,
      words separator (path.drop q.2) ≠ [] → (missing p).lstat q.1 = .directory) :
    Reports (missing p) mountdir path resolveLastLink where
  noLink q := by
    change (if q = p then Lstat.failed else .directory) ≠ .link
    split <;> decide
  directory := h

theorem resolve_lexical_missing :
    resolve (missing (text "/a")) shortMount.path (text "//m/.././a/") false = some (false, text "/a/") :=
  (resolve_lexical (missing (text "/a")) shortMount (text "//m/.././a/") false (by decide) (by decide)
    (shallow_of_length (by decide)) (missing_reports (by decide +kernel))).trans (by decide +kernel)

theorem directories_reports (mountdir path : Path) (resolveLastLink : Bool) :
    Reports directories mountdir path resolveLastLink := 
  ⟨fun _ => (by decide : Lstat.directory ≠ .link), fun _ _ _ => rfl⟩

theorem isWord_m : IsWord separator (text "m") := ⟨by decide, by decide⟩

theorem words_deepPath (n : Nat) : words separator (deepPath n) = List.replicate n (text "m") :=
  words_joined fun _ hw => List.eq_of_mem_replicate hw ▸ isWord_m

theorem lexical_deepPath (n : Nat) : lexical (deepPath n) = List.replicate n (text "m") := by
  rw [lexical, words_deepPath, normalForm, foldl_push_names, List.nil_append]
  intro w hw
  rw [List.eq_of_mem_replicate hw]
  decide

theorem mount_of_deep {j : Nat} (hj : 0 < j) : [text "m"] <+: List.replicate j (text "m") := by
  obtain ⟨i, rfl⟩ : ∃ i, j = i + 1 := ⟨j - 1, by omega⟩
  exact ⟨List.replicate i (text "m"), rfl⟩

/-- With the last component the counter of matched components is back at 0. -/
theorem loop_deepPath (path : Path) (resolveLastLink : Bool) (k : Nat) {j fuel : Nat} {s : Scan}
    (hjk : j + k + 1 = 2 ^ 32) (hj : 0 < j) (hfuel : path.length - s.stop < fuel)
    (hboundary : AtBoundary path s.stop)
    (hws : words separator (path.drop s.stop) = List.replicate (k + 1) (text "m"))
    (h : Inv [text "m"] s (List.replicate j (text "m"))) :
    ∃ t, loop directories [text "m"] path resolveLastLink fuel s = some (t, .finished) ∧
      t.matchedComponents = 0 := by
  induction k generalizing j fuel s with
  | zero =>
    obtain ⟨fuel, rfl⟩ : ∃ n, fuel = n + 1 := ⟨fuel - 1, by omega⟩
    obtain ⟨next, hlt, hle, hc, hnext, hrest, -, hloop⟩ :=
      loop_next directories [text "m"] hboundary hws
    specialize hloop resolveLastLink fuel
    obtain ⟨fuel, rfl⟩ : ∃ n, fuel = n + 1 := ⟨fuel - 1, by omega⟩
    have hcount : s.matchedComponents.toNat = j := by
      rw [h.matched, matchedCount, if_pos (mount_of_deep hj), List.length_replicate]
    have hmatched : ¬ s.matchedComponents.toNat < [text "m"].length := by
      rw [hcount, List.length_singleton]
      omega
    obtain ⟨t, ht, rfl, hone⟩ : ∃ t, descend directories [text "m"] path resolveLastLink
        { s with stop := next } (text "m") = (t, none) ∧ t.stop = next ∧
        t.matchedComponents = s.matchedComponents + 1 := by
      rw [descend]
      dsimp only
      rw [if_neg hmatched]
      exact ⟨_, rfl, rfl, rfl⟩
    obtain ⟨stop, hend⟩ := loop_end directories [text "m"] resolveLastLink hnext hrest fuel
    rw [takeComponent_name hc (by decide) (by decide), ht] at hloop
    refine ⟨_, hloop.trans hend, UInt32.toNat_inj.mp ?_⟩
    change t.matchedComponents.toNat = 0
    have hunit : (1 : UInt32).toNat = 1 := rfl
    rw [hone, UInt32.toNat_add, hcount, hunit, hjk, Nat.mod_self]
  | succ k ih =>
    obtain ⟨fuel, rfl⟩ : ∃ n, fuel = n + 1 := ⟨fuel - 1, by omega⟩
    obtain ⟨next, hlt, hle, hc, hnext, hrest, -, hloop⟩ :=
      loop_next directories [text "m"] hboundary hws
    specialize hloop resolveLastLink fuel
    have hscan : Inv [text "m"] { s with stop := next } (List.replicate j (text "m")) :=
      h.congr rfl rfl rfl rfl
    have hsucc : List.replicate j (text "m") ++ [text "m"] = List.replicate (j + 1) (text "m") :=
      List.replicate_succ'.symm
    obtain ⟨t, ht, hinv, hstop, -⟩ := descend_inside directories path resolveLastLink hscan
      (mount_of_deep hj) hc (by rw [hsucc, List.length_replicate]; omega)
    rw [takeComponent_name hc (by decide) (by decide), ht] at hloop
    change t.stop = next at hstop
    rw [hsucc] at hinv
    rw [hloop]
    exact ih (by omega) (Nat.succ_pos j) (by rw [hstop]; omega) (hstop ▸ hnext) (hstop ▸ hrest) hinv

theorem scan_deepPath (resolveLastLink : Bool) {n : Nat} (hn : n + 2 = 2 ^ 32) :
    ∃ t, scan directories shortMount.path (deepPath (n + 2)) resolveLastLink = some (t, .finished) ∧
      t.matchedComponents = 0 := by
  have hboundary : AtBoundary (deepPath (n + 2)) Scan.start.stop := fun x hx => (Option.some.inj hx).symm
  have hwords : words separator ((deepPath (n + 2)).drop Scan.start.stop) =
      text "m" :: List.replicate (n + 1) (text "m") := words_deepPath (n + 2)
  obtain ⟨next, hlt, hle, hc, hnext, hrest, -, hloop⟩ :=
    loop_next directories [text "m"] hboundary hwords
  specialize hloop resolveLastLink (deepPath (n + 2)).length
  have hscan : Inv [text "m"] { Scan.start with stop := next } [] :=
    (inv_start _).congr rfl rfl rfl rfl
  obtain ⟨t, ht, -, hinv, hstop, -⟩ := descend_outside directories (deepPath (n + 2))
    resolveLastLink hscan (by decide) hc (by decide)
  rw [takeComponent_name hc (by decide) (by decide), ht] at hloop
  change t.stop = next at hstop
  change Inv [text "m"] _ (List.replicate 1 (text "m")) at hinv
  rw [scan, splitPath_path]
  change ∃ t, loop directories [text "m"] _ _ _ _ = _ ∧ _
  rw [hloop]
  refine loop_deepPath _ _ n (by omega) Nat.one_pos ?_ ?_ ?_ hinv
  · change (deepPath (n + 2)).length - t.stop < (deepPath (n + 2)).length
    rw [hstop]
    change 0 < next at hlt
    omega
  · exact hstop ▸ hnext
  · exact hstop ▸ hrest

/-- A missing file keeps its trailing slash, and a path deeper than the counters can hold
is taken for one outside. -/
theorem not_lexical :
    (isAbsolute (text "/a/") = true ∧ isExcluded (text "/a/") = false ∧
      Reports (missing (text "/a")) shortMount.path (text "/a/") false ∧
      resolve (missing (text "/a")) shortMount.path (text "/a/") false ≠
        some (lexicalAnswer (text "/a/") shortMount.components)) ∧
    (isAbsolute (deepPath (2 ^ 32)) = true ∧ isExcluded (deepPath (2 ^ 32)) = false ∧
      Reports directories shortMount.path (deepPath (2 ^ 32)) false ∧
      resolve directories shortMount.path (deepPath (2 ^ 32)) false ≠
        some (lexicalAnswer (deepPath (2 ^ 32)) shortMount.components)) := by
  refine ⟨⟨by decide, by decide, missing_reports (by decide +kernel), by decide +kernel⟩, ?_⟩
  obtain ⟨n, hn⟩ : ∃ n, 2 ^ 32 = n + 2 := ⟨4294967294, by norm_num⟩
  rw [hn]
  refine ⟨rfl, rfl, directories_reports _ _ _, ?_⟩
  obtain ⟨t, ht, hzero⟩ := scan_deepPath false hn.symm
  have habsolute : isAbsolute (deepPath (n + 2)) = true := rfl
  have hincluded : isExcluded (deepPath (n + 2)) = false := rfl
  have hin : shortMount.components <+: lexical (deepPath (n + 2)) := by
    rw [lexical_deepPath]
    exact mount_of_deep (Nat.succ_pos _)
  rw [resolve, if_pos habsolute, hincluded, if_neg Bool.false_ne_true, ht, Option.bind_some,
    splitPath_path, lexicalAnswer, if_pos hin]
  dsimp only
  rw [hzero, if_neg (by decide)]
  intro h
  cases (Prod.mk.inj (Option.some.inj h)).1

end Inputs

end GaoFS.ResolveLexical
