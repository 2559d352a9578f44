import GaoFS.ResolveWalk

namespace GaoFS.ResolveLinks

open Chunks ChunkStorage Resolve ResolveStack ResolveLexical ResolveWalk
open Library.NumberText Library.Paths

section Target

variable {path : Path} {mnt : List Bytes}

/-- A component that is the name of something. -/
structure Name (c : Bytes) : Prop extends IsWord separator c where
  ne_dot : c ≠ text "."
  ne_dotdot : c ≠ text ".."

/-- From the root, without empty components and dots, and without a slash at the end. -/
def Canonical (path : Path) : Prop := ∃ ws, (∀ w ∈ ws, Name w) ∧ path = rooted separator ws

theorem ofNat_succ (n : Nat) : UInt32.ofNat n + 1 = UInt32.ofNat (n + 1) := by
  rw [UInt32.ofNat_add]
  rfl

theorem ofNat_inj {m n : Nat} (hm : m < 2 ^ 32) (hn : n < 2 ^ 32) :
    UInt32.ofNat m = UInt32.ofNat n ↔ m = n := by
  rw [← UInt32.toNat_inj, UInt32.toNat_ofNat_of_lt' hm, UInt32.toNat_ofNat_of_lt' hn]

/-- Strictly below the mount directory. -/
def Below (mnt ws : List Bytes) : Prop := mnt <+: ws ∧ mnt ≠ ws

instance decidableBelow (mnt ws : List Bytes) : Decidable (Below mnt ws) :=
  inferInstanceAs (Decidable (_ ∧ _))

theorem not_below_concat {done : List Bytes} (h : ¬ Below mnt done) (hne : mnt ≠ done) (c : Bytes) :
    ¬ Below mnt (done ++ [c]) := by
  rintro ⟨hin, hother⟩
  obtain hmnt | hin := List.prefix_concat_iff.mp hin
  · exact hother hmnt
  · exact h ⟨hin, hne⟩

variable (mnt) in
theorem matchFrom_cons {c : Bytes} {ws : List Bytes} {stop : Nat} (hc : IsWord separator c)
    (hdrop : path.drop stop = joined separator (c :: ws)) (fuel : Nat) (matched processed : UInt32) :
    path.drop (stop + 1 + c.length) = joined separator ws ∧
      matchFrom path mnt (fuel + 1) stop matched processed =
        if matched = processed then
          mnt[matched.toNat]?.bind fun component =>
            matchFrom path mnt fuel (stop + 1 + c.length)
              (if c = component then matched + 1 else matched) (processed + 1)
        else matchFrom path mnt fuel (stop + 1 + c.length) matched (processed + 1) := by
  change path.drop stop = separator :: (c ++ joined separator ws) at hdrop
  have hstart : path.drop (stop + 1) = c ++ joined separator ws := by
    rw [← List.drop_drop, hdrop]
    rfl
  have hlt : stop + 1 < path.length := by
    by_contra hge
    rw [List.drop_of_length_le (Nat.not_lt.mp hge)] at hstart
    exact hc.ne_nil (List.append_eq_nil_iff.mp hstart.symm).1
  have htake := takeWhile_joined hc ws
  rw [← hstart] at htake
  have hnext : findSeparator path (stop + 1) = stop + 1 + c.length := by rw [findSeparator, htake]
  constructor
  · rw [← List.drop_drop, hstart, List.drop_left]
  · rw [matchFrom, if_pos hlt]
    dsimp only
    rw [component_eq, htake, hnext]

/-- The counters are those of the components that are done, and a component below the mount
directory is one too many. -/
theorem matchFrom_joined (ws : List Bytes) {done : List Bytes} {fuel stop : Nat}
    (hws : ∀ w ∈ ws, IsWord separator w) (hdrop : path.drop stop = joined separator ws)
    (hfuel : ws.length < fuel) (hfit : (done ++ ws).length < 2 ^ 32) (hdone : ¬ Below mnt done) :
    matchFrom path mnt fuel stop (UInt32.ofNat (overlap mnt done)) (UInt32.ofNat done.length) =
      if Below mnt (done ++ ws) then none
      else some (UInt32.ofNat (overlap mnt (done ++ ws)), UInt32.ofNat (done ++ ws).length) := by
  obtain ⟨fuel, rfl⟩ : ∃ n, fuel = n + 1 := ⟨fuel - 1, by omega⟩
  induction ws generalizing done stop fuel with
  | nil =>
    have hend : ¬ stop + 1 < path.length := by
      have hlen := List.drop_eq_nil_iff.mp hdrop
      omega
    rw [List.append_nil, if_neg hdone, matchFrom, if_neg hend]
  | cons c ws ih =>
    have hlen : (done ++ c :: ws).length = done.length + ws.length + 1 := by
      rw [List.length_append, List.length_cons]
      omega
    have hsplit : done ++ c :: ws = done ++ [c] ++ ws := List.append_cons done c ws
    have hsucc : (done ++ [c]).length = done.length + 1 := List.length_append
    have hle := overlap_le_right mnt done
    have hsmall : done.length < 2 ^ 32 := by omega
    have hsame : UInt32.ofNat (overlap mnt done) = UInt32.ofNat done.length ↔
        overlap mnt done = done.length := ofNat_inj (hle.trans_lt hsmall) hsmall
    have hconcat := overlap_concat mnt done c
    rw [List.length_cons] at hfuel
    obtain ⟨fuel, rfl⟩ : ∃ n, fuel = n + 1 := ⟨fuel - 1, by omega⟩
    obtain ⟨hrest, hmatch⟩ := matchFrom_cons mnt (hws c List.mem_cons_self) hdrop (fuel + 1)
      (UInt32.ofNat (overlap mnt done)) (UInt32.ofNat done.length)
    rw [ofNat_succ done.length, ← hsucc] at hmatch
    rw [hmatch]
    -- the loop goes on unless the mount directory ends here
    have hgo := fun hne : mnt ≠ done => ih (fun w hw => hws w (List.mem_cons_of_mem c hw)) hrest
      (hsplit ▸ hfit) (not_below_concat hdone hne c) fuel (by omega)
    by_cases hall : overlap mnt done = done.length
    · have hindex : (UInt32.ofNat (overlap mnt done)).toNat = done.length :=
        (UInt32.toNat_ofNat_of_lt' (hle.trans_lt hsmall)).trans hall
      rw [if_pos (hsame.mpr hall), hindex]
      cases hnth : mnt[done.length]? with
      | none =>
        have hmnt : done = mnt := ((overlap_eq_right_iff mnt done).mp hall).eq_of_length_le
          (List.getElem?_eq_none_iff.mp hnth)
        have hbelow : Below mnt (done ++ c :: ws) :=
          ⟨hmnt ▸ List.prefix_append _ _, fun he => List.cons_ne_nil c ws
            (List.append_right_eq_self.mp (he.symm.trans hmnt.symm))⟩
        rw [if_pos hbelow]
        rfl
      | some m =>
        have hne : mnt ≠ done := by
          rintro rfl
          rw [List.getElem?_length] at hnth
          cases hnth
        have hcounter : (if c = m then UInt32.ofNat (overlap mnt done) + 1
            else UInt32.ofNat (overlap mnt done)) = UInt32.ofNat (overlap mnt (done ++ [c])) := by
          rw [hconcat, hnth]
          by_cases hm : c = m
          · rw [if_pos hm, if_pos ⟨hall, congrArg some hm.symm⟩, hall, ofNat_succ]
          · rw [if_neg hm, if_neg fun h => hm (Option.some.inj h.2).symm]
        rw [Option.bind_some, hcounter, hgo hne, ← hsplit]
    · have hne : mnt ≠ done := by
        rintro rfl
        exact hall ((overlap_eq_right_iff _ _).mpr List.prefix_rfl)
      rw [if_neg fun he => hall (hsame.mp he), hsplit, ← hgo hne, hconcat, if_neg fun h => hall h.1]

theorem matchComponents_rooted {ws : List Bytes} (hws : ∀ w ∈ ws, IsWord separator w) (hmnt : mnt ≠ [])
    (hfit : ws.length < 2 ^ 32) :
    matchComponents (rooted separator ws) mnt =
      if Below mnt ws then none
      else some (UInt32.ofNat (overlap mnt ws), UInt32.ofNat ws.length) := by
  have hstart : ¬ Below mnt [] := fun h => hmnt (List.prefix_nil.mp h.1)
  have hzero : overlap mnt [] = 0 := Nat.le_zero.mp (overlap_le_right mnt [])
  by_cases hroot : ws = []
  · rw [hroot, if_neg hstart, hzero]
    rfl
  · have hpath : rooted separator ws = joined separator ws := if_neg hroot
    have hfuel : ws.length < (joined separator ws).length + 1 :=
      Nat.lt_succ_of_le (length_le_joined ws)
    have hdrop : (joined separator ws).drop 0 = joined separator ws := rfl
    have hwhole : (([] : List Bytes) ++ ws).length < 2 ^ 32 := hfit
    have hmatch := matchFrom_joined ws hws hdrop hfuel hwhole hstart
    rw [hzero] at hmatch
    rw [hpath]
    exact hmatch

theorem words_rooted {ws : List Bytes} (h : ∀ w ∈ ws, IsWord separator w) :
    words separator (rooted separator ws) = ws := by
  rw [rooted]
  split
  · rename_i hroot
    rw [hroot]
    rfl
  · exact words_joined h

/-- What `match_components` is for: it comes back with the number of components that the
path has, and with the length of their longest common prefix with the list. -/
def Counted (path : Path) (components : List Bytes) : Prop :=
  ∃ matched processed, matchComponents path components = some (matched, processed) ∧
    processed.toNat = (words separator path).length ∧
    IsGreatest {n | ∃ ws, ws <+: components ∧ ws <+: words separator path ∧ ws.length = n} matched.toNat

/-- The components are counted exactly if the list is no proper prefix of them, and the
counters can hold their number. -/
theorem counted_iff {components : List Bytes} (hcanonical : Canonical path) (hne : components ≠ []) :
    Counted path components ↔
      ¬ Below components (words separator path) ∧ (words separator path).length < 2 ^ 32 := by
  obtain ⟨ws, hnames, rfl⟩ := hcanonical
  have hws : ∀ w ∈ ws, IsWord separator w := fun w hw => (hnames w hw).toIsWord
  rw [Counted, words_rooted hws]
  constructor
  · rintro ⟨matched, processed, hmatch, hcount, -⟩
    have hfit : ws.length < 2 ^ 32 := hcount ▸ processed.toNat_lt
    refine ⟨fun hbelow => ?_, hfit⟩
    rw [matchComponents_rooted hws hne hfit, if_pos hbelow] at hmatch
    cases hmatch
  · rintro ⟨hbelow, hfit⟩
    have hoverlap : overlap components ws < 2 ^ 32 := (overlap_le_right components ws).trans_lt hfit
    refine ⟨UInt32.ofNat (overlap components ws), UInt32.ofNat ws.length, ?_, ?_, ?_⟩
    · rw [matchComponents_rooted hws hne hfit, if_neg hbelow]
    · exact UInt32.toNat_ofNat_of_lt' hfit
    · rw [UInt32.toNat_ofNat_of_lt' hoverlap]
      exact isGreatest_overlap components ws

theorem counted_diverging : Counted (text "/a/b") [text "a", text "c"] := by
  have hcanonical : Canonical (text "/a/b") := by
    refine ⟨[text "a", text "b"], List.forall_mem_cons.mpr ⟨?_, List.forall_mem_singleton.mpr ?_⟩, rfl⟩
    · exact ⟨⟨by decide, by decide⟩, by decide, by decide⟩
    · exact ⟨⟨by decide, by decide⟩, by decide, by decide⟩
  exact (counted_iff hcanonical (List.cons_ne_nil _ _)).mpr ⟨by decide +kernel, by decide +kernel⟩

/-- A link into the mount directory throws the resolver out. -/
theorem not_counted_below : ¬ Counted (text "/m/a") [text "m"] := by
  have hmatch : matchComponents (text "/m/a") [text "m"] = none := by decide +kernel
  rintro ⟨matched, processed, hcounted, -⟩
  rw [hmatch] at hcounted
  cases hcounted

end Target

section Standing

/-- Where the resolver stands: its components, and whether they are behind the slash that a
link to the root has left. -/
structure Standing where
  behindRoot : Bool
  components : List Bytes
  deriving DecidableEq

def Standing.start : Standing := ⟨false, []⟩

def Standing.below (p : Standing) (c : Bytes) : Standing := { p with components := p.components ++ [c] }

def Standing.base (p : Standing) : Path := if p.behindRoot then [separator] else []

def Standing.path (p : Standing) : Path := p.base ++ joined separator p.components

variable (os : Os) (mnt : List Bytes) (resolveLastLink : Bool)

/-- A link to the root leaves its slash. A link to below the mount directory is an exception. -/
def follow (link : Path) : Option Standing :=
  let ws := words separator link
  if Below mnt ws then none else some ⟨ws.isEmpty, ws⟩

/-- `none` is given up or dies of an exception. -/
def Standing.advance (p : Standing) (atEnd : Bool) (c : Bytes) : Option Standing :=
  if c = text "." then some p
  else if c = text ".." then
    some (if p.components.isEmpty then Standing.start else { p with components := p.components.dropLast })
  else if mnt <+: p.components then some (p.below c)
  else
    match os.lstat (p.below c).path with
    | .failed => none
    | .directory => some (p.below c)
    | .other => if atEnd then some (p.below c) else none
    | .link =>
      if resolveLastLink = false ∧ atEnd = true then some (p.below c)
      else (os.realpath (p.below c).path).bind (follow mnt)

/-- The walk of the resolver over components, outside the mount directory through links. -/
def Standing.roam (slash : Bool) : List Bytes → Standing → Option Standing
  | [], p => some p
  | c :: ws, p => (p.advance os mnt resolveLastLink (ws.isEmpty && !slash) c).bind (Standing.roam slash ws)

/-- Never as many components at a time as the counters can hold. -/
def Standing.Fits (slash : Bool) : List Bytes → Standing → Prop
  | [], _ => True
  | c :: ws, p => ∀ q, p.advance os mnt resolveLastLink (ws.isEmpty && !slash) c = some q →
      q.components.length < 2 ^ 32 ∧ Standing.Fits slash ws q

end Standing

section Stands

/-- The scan is where the walk stands. -/
structure Stands (mnt : List Bytes) (s : Scan) (p : Standing) : Prop where
  resolved : s.resolved = p.path
  lastSlash : p.components ≠ [] →
    s.lastSlashPos = some (p.base ++ joined separator p.components.dropLast).length
  root : p.components = [] → p.behindRoot = true → s.lastSlashPos = some 0
  counts : Counts mnt p.components s.matchedComponents s.resolvedComponents
  name : ∀ c ∈ p.components, Name c

def PATH_MAX : Nat := 4096

/-- What `realpath` writes into its buffer. -/
def CanonicalTargets (os : Os) : Prop :=
  ∀ path target, os.realpath path = some target → Canonical target ∧ target.length < PATH_MAX

variable {os : Os} {mnt : List Bytes} {resolveLastLink atEnd : Bool} {s : Scan} {p : Standing}

/-- The names a target is made of, of which there are few. -/
theorem CanonicalTargets.names {path target : Path} (h : CanonicalTargets os)
    (hreal : os.realpath path = some target) :
    ∃ ws, (∀ w ∈ ws, Name w) ∧ target = rooted separator ws ∧ words separator target = ws ∧
      ws.length < 2 ^ 32 := by
  obtain ⟨⟨ws, hws, rfl⟩, hlen⟩ := h _ _ hreal
  have hwords : words separator (rooted separator ws) = ws := words_rooted fun w hw => (hws w hw).toIsWord
  have hle := length_words_le separator (rooted separator ws)
  rw [hwords] at hle
  rw [PATH_MAX] at hlen
  exact ⟨ws, hws, rfl, hwords, by omega⟩

theorem stands_start (mnt : List Bytes) : Stands mnt Scan.start Standing.start where
  resolved := rfl
  lastSlash h := absurd rfl h
  root _ h := absurd h Bool.false_ne_true
  counts := (inv_start mnt).counts
  name _ hc := absurd hc List.not_mem_nil

theorem Standing.path_below (p : Standing) (c : Bytes) : (p.below c).path = p.path ++ separator :: c := by
  change p.base ++ joined separator (p.components ++ [c]) = _
  rw [joined_concat, ← List.append_assoc]
  rfl

theorem Standing.path_concat (p : Standing) {st : List Bytes} {c : Bytes} (h : p.components = st ++ [c]) :
    p.path = p.base ++ joined separator st ++ separator :: c := by
  rw [Standing.path, h, joined_concat, List.append_assoc]

/-- Two dots behind the root. -/
theorem Stands.rollback_root {behindRoot : Bool} (h : Stands mnt s ⟨behindRoot, []⟩) :
    ∃ t, Resolve.rollback s = (t, none) ∧ Stands mnt t Standing.start := by
  have hzero : ¬ 0 < s.resolvedComponents := by
    rw [UInt32.lt_iff_toNat_lt, h.counts.counted]
    exact Nat.lt_irrefl 0
  have hstart : ∀ t : Scan, t.resolved = [] → t.matchedComponents = s.matchedComponents →
      t.resolvedComponents = s.resolvedComponents → Stands mnt t Standing.start := by
    intro t hresolved hmatched hcounted
    exact ⟨hresolved, fun hne => absurd rfl hne, fun _ hf => absurd hf Bool.false_ne_true,
      hmatched ▸ hcounted ▸ h.counts, h.name⟩
  cases behindRoot with
  | false =>
    have herase : eraseLast s = some s := if_pos h.resolved
    exact ⟨s, by rw [Resolve.rollback, herase]; exact if_neg hzero, hstart s h.resolved rfl rfl⟩
  | true =>
    have hresolved : s.resolved = [separator] := h.resolved
    have hslash : s.lastSlashPos = some 0 := h.root rfl rfl
    have herase : eraseLast s = some { s with resolved := [], lastSlashPos := findLastOf [] } := by
      rw [eraseLast, hresolved, if_neg (List.cons_ne_nil _ _), hslash]
      rfl
    refine ⟨_, ?_, hstart { s with resolved := [], lastSlashPos := findLastOf [] } rfl rfl rfl⟩
    rw [Resolve.rollback, herase]
    exact if_neg hzero

/-- Two dots behind a component. -/
theorem Stands.rollback_concat {behindRoot : Bool} {st : List Bytes} {c : Bytes}
    (h : Stands mnt s ⟨behindRoot, st ++ [c]⟩) :
    ∃ t, Resolve.rollback s = (t, none) ∧ Stands mnt t ⟨behindRoot, st⟩ := by
  obtain ⟨hcount, hback⟩ := h.counts.back
  have hresolved := h.resolved.trans (Standing.path_concat _ rfl)
  have hslash := h.lastSlash (by simp)
  dsimp only at hslash
  rw [List.dropLast_concat] at hslash
  have hbase : (Standing.mk behindRoot st).base = (Standing.mk behindRoot (st ++ [c])).base := rfl
  rw [← hbase] at hresolved hslash
  have hne : s.resolved ≠ [] := by
    rw [hresolved]
    simp
  have htake : s.resolved.take ((Standing.mk behindRoot st).base ++ joined separator st).length =
      (Standing.mk behindRoot st).path := by
    rw [hresolved, List.take_left]
    rfl
  have hle : ((Standing.mk behindRoot st).base ++ joined separator st).length ≤ s.resolved.length := by
    rw [hresolved]
    exact (List.prefix_append _ _).length_le
  have herase : eraseLast s = some { s with
      resolved := (Standing.mk behindRoot st).path
      lastSlashPos := findLastOf (Standing.mk behindRoot st).path } := by
    rw [eraseLast, if_neg hne, hslash, Option.bind_some, if_pos hle, htake]
  rw [Resolve.rollback, herase]
  dsimp only
  rw [if_pos hcount]
  refine ⟨_, rfl, rfl, ?_, ?_, hback, fun d hd => h.name d (List.mem_append_left _ hd)⟩
  · intro hst
    have hsplit := List.dropLast_append_getLast hst
    have hlast := h.name (st.getLast hst) (List.mem_append_left _ (List.getLast_mem hst))
    change findLastOf (Standing.mk behindRoot st).path = _
    rw [Standing.path_concat _ hsplit.symm, findLastOf_append _ hlast.no_sep]
  · intro hst hbehind
    dsimp only at hst hbehind
    rw [hst, hbehind]
    rfl

theorem Stands.rollback (h : Stands mnt s p) :
    ∃ t, Resolve.rollback s = (t, none) ∧
      Stands mnt t (if p.components.isEmpty then Standing.start
        else { p with components := p.components.dropLast }) := by
  obtain ⟨behindRoot, components⟩ := p
  cases components using List.reverseRecOn with
  | nil => exact h.rollback_root
  | append_singleton st c _ =>
    have hisEmpty : (st ++ [c]).isEmpty = false := by simp
    dsimp only
    rw [hisEmpty, if_neg Bool.false_ne_true, List.dropLast_concat]
    exact h.rollback_concat

theorem Stands.name_below {c : Bytes} (h : Stands mnt s p) (hc : Name c) :
    ∀ d ∈ (p.below c).components, Name d :=
  List.forall_mem_append.mpr ⟨h.name, List.forall_mem_singleton.mpr hc⟩

theorem Stands.below {t : Scan} {c : Bytes} (h : Stands mnt s p) (hc : Name c)
    (hresolved : t.resolved = s.resolved ++ separator :: c)
    (hslash : t.lastSlashPos = some s.resolved.length)
    (hcounts : Counts mnt (p.components ++ [c]) t.matchedComponents t.resolvedComponents) :
    Stands mnt t (p.below c) where
  resolved := by rw [hresolved, h.resolved, Standing.path_below]
  lastSlash _ := by
    rw [hslash, h.resolved]
    change some p.path.length = some (p.base ++ joined separator (p.components ++ [c]).dropLast).length
    rw [List.dropLast_concat]
    rfl
  root hnil := by simp [Standing.below] at hnil
  counts := hcounts
  name := h.name_below hc

/-- Where a link leads to. -/
theorem stands_target (s : Scan) {ws : List Bytes} (hws : ∀ w ∈ ws, Name w) (hfit : ws.length < 2 ^ 32)
    (hout : ¬ Below mnt ws) :
    Stands mnt { s with
      resolved := rooted separator ws
      matchedComponents := UInt32.ofNat (overlap mnt ws)
      resolvedComponents := UInt32.ofNat ws.length
      lastSlashPos := findLastOf (rooted separator ws) } ⟨ws.isEmpty, ws⟩ where
  resolved := by cases ws <;> rfl
  lastSlash hne := by
    have hroot : ws ≠ [] := hne
    have hsplit := List.dropLast_append_getLast hroot
    have hlast := hws _ (List.getLast_mem hroot)
    have hbase : (Standing.mk ws.isEmpty ws).base = [] := if_neg (mt List.isEmpty_iff.mp hroot)
    change findLastOf (rooted separator ws) = _
    rw [hbase, rooted, if_neg hroot]
    conv_lhs => rw [← hsplit]
    exact findLastOf_joined _ hlast.toIsWord
  root hroot _ := by
    change ws = [] at hroot
    rw [hroot]
    rfl
  counts := by
    have hle := overlap_le_right mnt ws
    refine ⟨UInt32.toNat_ofNat_of_lt' hfit, (UInt32.toNat_ofNat_of_lt' (hle.trans_lt hfit)).trans ?_⟩
    rw [matchedCount]
    split
    · rename_i hin
      have hmnt : mnt = ws := by
        by_contra hne
        exact hout ⟨hin, hne⟩
      exact (overlap_eq_right_iff mnt _).mpr (hmnt ▸ List.prefix_rfl)
    · rfl
  name := hws

/-- What is left of the scan at the end of the path. -/
structure Ends (mnt : List Bytes) (s : Scan) (p : Standing) : Prop where
  resolved : s.resolved = p.path
  matched : s.matchedComponents.toNat = matchedCount mnt p.components
  name : ∀ c ∈ p.components, Name c

theorem Stands.ends (h : Stands mnt s p) : Ends mnt s p := ⟨h.resolved, h.counts.matched, h.name⟩

/-- A step of the resolver and a step of the walk: both go on, or both are at an end. -/
def Agrees (mnt : List Bytes) (atEnd : Bool) (out : Scan × Option Leave) : Option Standing → Prop
  | some q => ∃ t, out = (t, none) ∧ Ends mnt t q ∧ (atEnd = false → Stands mnt t q)
  | none => ∃ t leave, out = (t, some leave) ∧ leave ≠ .finished

theorem Stands.agrees {t : Scan} {q : Standing} (h : Stands mnt t q) :
    Agrees mnt atEnd (t, none) (some q) := ⟨t, rfl, h.ends, fun _ => h⟩

theorem agrees_outcome {out : Scan × Option Leave} {q : Option Standing} (h : Agrees mnt atEnd out q) :
    Agrees mnt atEnd (outcome out) q := by
  cases q with
  | none =>
    obtain ⟨t, leave, rfl, hleave⟩ := h
    cases leave with
    | finished => exact absurd rfl hleave
    | returned => exact ⟨_, _, rfl, hleave⟩
    | thrown => exact ⟨_, _, rfl, hleave⟩
  | some q =>
    obtain ⟨t, rfl, hends, hstands⟩ := h
    refine ⟨place t, rfl, ⟨hends.resolved, hends.matched, hends.name⟩, fun hend => ?_⟩
    have hs := hstands hend
    exact ⟨hs.resolved, hs.lastSlash, hs.root, hs.counts, hs.name⟩

theorem Standing.advance_name {c : Bytes} (hc : Name c) (hout : ¬ mnt <+: p.components) :
    p.advance os mnt resolveLastLink atEnd c =
      match os.lstat (p.below c).path with
      | .failed => none
      | .directory => some (p.below c)
      | .other => if atEnd then some (p.below c) else none
      | .link =>
        if resolveLastLink = false ∧ atEnd = true then some (p.below c)
        else (os.realpath (p.below c).path).bind (follow mnt) := by
  rw [Standing.advance, if_neg hc.ne_dot, if_neg hc.ne_dotdot, if_neg hout]

/-- The resolver takes the target for all that it has come through. -/
theorem agrees_follow (htargets : CanonicalTargets os) (hmnt : mnt ≠ []) (t : Scan)
    {path target : Path} (hreal : os.realpath path = some target) :
    Agrees mnt atEnd
      (match matchComponents target mnt with
      | none => ({ t with resolved := target }, some .thrown)
      | some (matched, processed) =>
        ({ t with
          resolved := target
          matchedComponents := matched
          resolvedComponents := processed
          lastSlashPos := findLastOf target }, none))
      (follow mnt target) := by
  obtain ⟨ws, hws, rfl, hwords, hsmall⟩ := htargets.names hreal
  rw [follow, hwords, matchComponents_rooted (fun w hw => (hws w hw).toIsWord) hmnt hsmall]
  by_cases hbelow : Below mnt ws
  · rw [if_pos hbelow, if_pos hbelow]
    exact ⟨_, _, rfl, by decide⟩
  · rw [if_neg hbelow, if_neg hbelow]
    exact (stands_target t hws hsmall hbelow).agrees

variable (resolveLastLink) in
theorem agrees_inspect (htargets : CanonicalTargets os) (hmnt : mnt ≠ []) {path : Path} {c : Bytes} {t : Scan}
    (hend : t.stop = path.length ↔ atEnd = true) (h : Stands mnt s p) (hc : Name c)
    (hout : ¬ mnt <+: p.components)
    (hresolved : t.resolved = s.resolved ++ separator :: c)
    (hslash : t.lastSlashPos = some s.resolved.length)
    (hcounts : (p.components ++ [c]).length < 2 ^ 32 →
      Counts mnt (p.components ++ [c]) t.matchedComponents (t.resolvedComponents + 1))
    (hfit : ∀ q, p.advance os mnt resolveLastLink atEnd c = some q → q.components.length < 2 ^ 32) :
    Agrees mnt atEnd (inspect os mnt path resolveLastLink t)
      (p.advance os mnt resolveLastLink atEnd c) := by
  have hpath : t.resolved = (p.below c).path := by rw [hresolved, h.resolved, Standing.path_below]
  have hgo : (p.below c).components.length < 2 ^ 32 → Stands mnt
      { t with resolved := (p.below c).path, resolvedComponents := t.resolvedComponents + 1 }
      (p.below c) :=
    fun hlen => h.below hc (hpath.symm.trans hresolved) hslash (hcounts hlen)
  rw [Standing.advance_name hc hout] at hfit ⊢
  rw [inspect, hpath]
  cases hstat : os.lstat (p.below c).path with
  | failed => exact ⟨_, _, rfl, by decide⟩
  | directory =>
    rw [hstat] at hfit
    exact (hgo (hfit _ rfl)).agrees
  | other =>
    rw [hstat] at hfit
    cases atEnd with
    | false =>
      have hstop : t.stop ≠ path.length := fun he => Bool.false_ne_true (hend.mp he)
      dsimp only
      rw [if_pos hstop, if_neg Bool.false_ne_true]
      exact ⟨_, _, rfl, by decide⟩
    | true =>
      have hstop : t.stop = path.length := hend.mpr rfl
      dsimp only
      rw [if_neg fun hne => hne hstop, if_pos rfl]
      exact (hgo (hfit _ rfl)).agrees
  | link =>
    rw [hstat] at hfit
    dsimp only at hfit ⊢
    by_cases hstay : resolveLastLink = false ∧ atEnd = true
    · have hstay' : resolveLastLink = false ∧ t.stop = path.length := ⟨hstay.1, hend.mpr hstay.2⟩
      rw [if_pos hstay] at hfit ⊢
      rw [if_pos hstay']
      -- the component is appended and matched, though it is not counted
      have hmatched := (hcounts (hfit _ rfl)).matched
      exact ⟨t, rfl, ⟨hpath, hmatched, h.name_below hc⟩,
        fun hf => absurd (hf.symm.trans hstay.2) Bool.false_ne_true⟩
    · have hstay' : ¬ (resolveLastLink = false ∧ t.stop = path.length) :=
        fun hs => hstay ⟨hs.1, hend.mp hs.2⟩
      rw [if_neg hstay] at hfit ⊢
      rw [if_neg hstay']
      cases hreal : os.realpath (p.below c).path with
      | none => exact ⟨_, _, rfl, by decide⟩
      | some target => exact agrees_follow htargets hmnt t hreal

variable (resolveLastLink) in
theorem agrees_descend (htargets : CanonicalTargets os) (hmnt : mnt ≠ []) {path : Path} {c : Bytes}
    (hend : s.stop = path.length ↔ atEnd = true) (h : Stands mnt s p) (hc : Name c)
    (hfit : ∀ q, p.advance os mnt resolveLastLink atEnd c = some q → q.components.length < 2 ^ 32) :
    Agrees mnt atEnd (descend os mnt path resolveLastLink s c)
      (p.advance os mnt resolveLastLink atEnd c) := by
  rw [descend]
  dsimp only
  by_cases hin : mnt <+: p.components
  · have hadvance : p.advance os mnt resolveLastLink atEnd c = some (p.below c) := by
      rw [Standing.advance, if_neg hc.ne_dot, if_neg hc.ne_dotdot, if_pos hin]
    have hlen : (p.components ++ [c]).length < 2 ^ 32 := hfit _ hadvance
    rw [hadvance, if_neg fun hlt => h.counts.lt_iff.mp hlt hin]
    exact (h.below hc rfl rfl (h.counts.inside hin hlen)).agrees
  · rw [if_pos (h.counts.lt_iff.mpr hin)]
    exact agrees_inspect resolveLastLink htargets hmnt hend h hc hin rfl rfl (h.counts.outside hin) hfit

variable (resolveLastLink) in
/-- One step of the resolver is one step of the walk. -/
theorem agrees_step (htargets : CanonicalTargets os) (hmnt : mnt ≠ []) {c : Bytes}
    (h : Stands mnt s p) (hc : IsWord separator c)
    (hfit : ∀ q, p.advance os mnt resolveLastLink atEnd c = some q → q.components.length < 2 ^ 32) :
    Agrees mnt atEnd (step os mnt resolveLastLink atEnd s c)
      (p.advance os mnt resolveLastLink atEnd c) := by
  have hplace : Stands mnt (place s) p := ⟨h.resolved, h.lastSlash, h.root, h.counts, h.name⟩
  apply agrees_outcome
  rw [takeComponent, if_neg hc.ne_nil]
  by_cases hdot : c = text "."
  · rw [if_pos hdot, Standing.advance, if_pos hdot]
    exact hplace.agrees
  by_cases hdotdot : c = text ".."
  · obtain ⟨t, hrollback, ht⟩ := hplace.rollback
    rw [if_neg hdot, if_pos hdotdot, Standing.advance, if_neg hdot, if_pos hdotdot, hrollback]
    exact ht.agrees
  · rw [if_neg hdot, if_neg hdotdot]
    exact agrees_descend resolveLastLink htargets hmnt (stop_behind s atEnd) hplace ⟨hc, hdot, hdotdot⟩ hfit

/-- The resolver ends where the walk does, or neither gets there. -/
def Follows (mnt : List Bytes) (out : Scan × Option Leave) : Option Standing → Prop
  | some q => ∃ t, out = (t, some .finished) ∧ Ends mnt t q
  | none => ∃ t leave, out = (t, some leave) ∧ leave ≠ .finished

variable (resolveLastLink) in
theorem walk_follows (htargets : CanonicalTargets os) (hmnt : mnt ≠ []) (slash : Bool) {ws : List Bytes}
    (h : Stands mnt s p) (hws : ∀ w ∈ ws, IsWord separator w)
    (hfits : p.Fits os mnt resolveLastLink slash ws) :
    Follows mnt (walk os mnt resolveLastLink slash ws s) (p.roam os mnt resolveLastLink slash ws) := by
  induction ws generalizing s p with
  | nil => exact ⟨s, rfl, h.ends⟩
  | cons c ws ih =>
    have hstep := agrees_step resolveLastLink htargets hmnt h (hws c List.mem_cons_self)
      fun q hq => (hfits q hq).1
    rw [walk, Standing.roam]
    cases hadvance : p.advance os mnt resolveLastLink (ws.isEmpty && !slash) c with
    | none =>
      rw [hadvance] at hstep
      obtain ⟨t, leave, hout, hleave⟩ := hstep
      rw [hout]
      exact ⟨t, leave, rfl, hleave⟩
    | some q =>
      rw [hadvance] at hstep
      obtain ⟨t, hout, hends, hstands⟩ := hstep
      rw [hout, Option.bind_some]
      cases ws with
      | nil => exact ⟨t, rfl, hends⟩
      | cons d ws =>
        exact ih (hstands rfl) (fun w hw => hws w (List.mem_cons_of_mem c hw)) (hfits q hadvance).2

end Stands

section Result

variable {os : Os} {mountdir : FilePath} {path : Path} {resolveLastLink : Bool}

/-- Where the walk over a path ends. -/
def destination (os : Os) (mnt : List Bytes) (path : Path) (resolveLastLink : Bool) : Option Standing :=
  Standing.start.roam os mnt resolveLastLink (!(trailing path).isEmpty) (words separator path)

/-- Never as many components at a time as the counters can hold. -/
def Fits (os : Os) (mnt : List Bytes) (path : Path) (resolveLastLink : Bool) : Prop :=
  Standing.start.Fits os mnt resolveLastLink (!(trailing path).isEmpty) (words separator path)

theorem follows_destination (htargets : CanonicalTargets os)
    (hfits : Fits os mountdir.components path resolveLastLink) :
    Follows mountdir.components (walkOf os path resolveLastLink mountdir.components)
      (destination os mountdir.components path resolveLastLink) :=
  walk_follows resolveLastLink htargets mountdir.components_ne _ (stands_start _) isWord_of_mem_words hfits

theorem destination_names (htargets : CanonicalTargets os)
    (hfits : Fits os mountdir.components path resolveLastLink) {q : Standing}
    (hq : destination os mountdir.components path resolveLastLink = some q) :
    ∀ c ∈ q.components, Name c := by
  have hfollows := follows_destination htargets hfits
  rw [hq] at hfollows
  obtain ⟨t, -, hends⟩ := hfollows
  exact hends.name

theorem resolve_true_iff (habsolute : isAbsolute path = true) (hincluded : isExcluded path = false)
    (htargets : CanonicalTargets os) (hfits : Fits os mountdir.components path resolveLastLink) (p : Path) :
    resolve os mountdir.path path resolveLastLink = some (true, p) ↔
      ∃ q, destination os mountdir.components path resolveLastLink = some q ∧
        mountdir.components <+: q.components ∧
        p = q.path.take 1 ++ q.path.drop (1 + mountdir.path.length) := by
  have hfollows := follows_destination htargets hfits
  have hverdict := verdict_resolve os mountdir.path resolveLastLink habsolute hincluded
  have htrue : resolve os mountdir.path path resolveLastLink = some (true, p) ↔
      verdict (resolve os mountdir.path path resolveLastLink) = some (some p) := by
    generalize resolve os mountdir.path path resolveLastLink = r
    obtain _ | ⟨_ | _, x⟩ := r <;> simp [verdict]
  rw [htrue, hverdict, splitPath_path]
  cases hdestination : destination os mountdir.components path resolveLastLink with
  | none =>
    rw [hdestination] at hfollows
    obtain ⟨t, leave, hwalk, hleave⟩ := hfollows
    rw [hwalk]
    cases leave with
    | finished => exact absurd rfl hleave
    | returned => simp [arrival]
    | thrown => simp [arrival]
  | some q =>
    rw [hdestination] at hfollows
    obtain ⟨t, hwalk, hends⟩ := hfollows
    have hin : mountdir.components.length ≤ t.matchedComponents.toNat ↔
        mountdir.components <+: q.components := by
      rw [hends.matched, ← Nat.not_lt, matchedCount_lt_iff, not_not]
    rw [hwalk, arrival, splitPath_path, hends.resolved]
    simp only [hin, Option.some.injEq, exists_eq_left']
    by_cases hbelow : mountdir.components <+: q.components
    · have hne : q.path ≠ [] := by
        rw [Standing.path]
        intro hnil
        have hcs := (joined_eq_nil_iff _).mp (List.append_eq_nil_iff.mp hnil).2
        rw [hcs, List.prefix_nil] at hbelow
        exact mountdir.components_ne hbelow
      rw [if_pos hbelow, if_neg hne, and_iff_right hbelow]
      simp [eq_comm]
    · simp [hbelow]

theorem head_of_name {c : Bytes} (h : Name c) : ∃ b bs, c = b :: bs ∧ b ≠ separator := by
  obtain ⟨b, bs, rfl⟩ := List.exists_cons_of_ne_nil h.ne_nil
  refine ⟨b, bs, rfl, ?_⟩
  rintro rfl
  exact h.no_sep List.mem_cons_self

theorem not_canonical_doubled (rest : Path) : ¬ Canonical (separator :: separator :: rest) := by
  rintro ⟨ws, hws, hpath⟩
  cases ws with
  | nil => cases (List.cons.inj hpath).2
  | cons w ws =>
    obtain ⟨b, bs, rfl, hb⟩ := head_of_name (hws w List.mem_cons_self)
    change separator :: separator :: rest = separator :: b :: (bs ++ joined separator ws) at hpath
    exact hb (List.cons.inj (List.cons.inj hpath).2).1.symm

/-- What is behind the mount directory, and below it a second slash if the walk has come
through a link to the root. -/
theorem canonical_erased (q : Standing) (hnames : ∀ c ∈ q.components, Name c)
    (hin : mountdir.components <+: q.components) :
    Canonical (q.path.take 1 ++ q.path.drop (1 + mountdir.path.length)) ↔
      ¬ (q.behindRoot = true ∧ Below mountdir.components q.components) := by
  obtain ⟨behindRoot, components⟩ := q
  obtain ⟨rest, rfl⟩ := hin
  have hrest : ∀ c ∈ rest, Name c := fun c hc => hnames c (List.mem_append_right _ hc)
  have hbelow : Below mountdir.components (mountdir.components ++ rest) ↔ rest ≠ [] := by
    rw [Below, and_iff_right (List.prefix_append _ _), ne_eq, List.self_eq_append_right]
  rw [path_eq_joined]
  cases behindRoot with
  | false =>
    refine iff_of_true ⟨rest, hrest, ?_⟩ fun h => Bool.false_ne_true h.1
    exact erase_mountdir mountdir.components_ne rest
  | true =>
    have hpath : (Standing.mk true (mountdir.components ++ rest)).path =
        separator :: (joined separator mountdir.components ++ joined separator rest) := by
      rw [Standing.path, joined_append]
      rfl
    rw [hpath, Nat.add_comm, List.drop_succ_cons, List.drop_left, and_iff_right rfl, hbelow, not_not]
    constructor
    · intro hcanonical
      cases rest with
      | nil => rfl
      | cons c cs => exact absurd hcanonical (not_canonical_doubled _)
    · rintro rfl
      exact ⟨[], hrest, rfl⟩

/-- The paths in GaoFS are canonical, but for those that are found strictly below the mount
directory behind the slash of a link to the root. -/
theorem canonical_iff (os : Os) (mountdir : FilePath) (path : Path) (resolveLastLink : Bool)
    (habsolute : isAbsolute path = true) (htargets : CanonicalTargets os)
    (hfits : Fits os mountdir.components path resolveLastLink) :
    (∀ p, resolve os mountdir.path path resolveLastLink = some (true, p) → Canonical p) ↔
      (isExcluded path = true ∨
        ∀ q, destination os mountdir.components path resolveLastLink = some q →
          ¬ (q.behindRoot = true ∧ Below mountdir.components q.components)) := by
  cases hincluded : isExcluded path with
  | true =>
    refine iff_of_true (fun p hp => ?_) (.inl rfl)
    rw [resolve, if_pos habsolute, hincluded, if_pos rfl] at hp
    cases hp
  | false =>
    have hresolve := resolve_true_iff habsolute hincluded htargets hfits
    constructor
    · intro hcanonical
      refine .inr fun q hq hbad => ?_
      have hp := hcanonical _ ((hresolve _).mpr ⟨q, hq, hbad.2.1, rfl⟩)
      exact (canonical_erased q (destination_names htargets hfits hq) hbad.2.1).mp hp hbad
    · rintro (hf | hgood) p hp
      · cases hf
      · obtain ⟨q, hq, hin, rfl⟩ := (hresolve p).mp hp
        exact (canonical_erased q (destination_names htargets hfits hq) hin).mpr (hgood q hq)

end Result

section Inputs

variable {os : Os} {mnt : List Bytes} {resolveLastLink atEnd : Bool} {p q : Standing}

theorem follow_length {path target : Path} (htargets : CanonicalTargets os)
    (hlink : os.realpath path = some target) (hq : follow mnt target = some q) :
    q.components.length ≤ PATH_MAX := by
  have hle := length_words_le separator target
  have hlen := (htargets _ _ hlink).2
  rw [follow] at hq
  split at hq
  · cases hq
  · rw [← Option.some.inj hq]
    exact hle.trans hlen.le

theorem advance_length {c : Bytes} (htargets : CanonicalTargets os)
    (hq : p.advance os mnt resolveLastLink atEnd c = some q) :
    q.components.length ≤ max p.components.length PATH_MAX + 1 := by
  have hbelow : (p.below c).components.length = p.components.length + 1 := List.length_append
  have hmax := le_max_left p.components.length PATH_MAX
  have hgo : some (p.below c) = some q → q.components.length ≤ max p.components.length PATH_MAX + 1 := by
    intro h
    rw [← Option.some.inj h, hbelow]
    omega
  rw [Standing.advance] at hq
  by_cases hdot : c = text "."
  · rw [if_pos hdot] at hq
    rw [← Option.some.inj hq]
    omega
  by_cases hdotdot : c = text ".."
  · rw [if_neg hdot, if_pos hdotdot] at hq
    rw [← Option.some.inj hq]
    split
    · exact Nat.zero_le _
    · rw [List.length_dropLast]
      omega
  rw [if_neg hdot, if_neg hdotdot] at hq
  by_cases hin : mnt <+: p.components
  · rw [if_pos hin] at hq
    exact hgo hq
  · rw [if_neg hin] at hq
    cases hstat : os.lstat (p.below c).path with
    | failed =>
      rw [hstat] at hq
      cases hq
    | directory =>
      rw [hstat] at hq
      exact hgo hq
    | other =>
      rw [hstat] at hq
      dsimp only at hq
      split at hq
      · exact hgo hq
      · cases hq
    | link =>
      rw [hstat] at hq
      dsimp only at hq
      split at hq
      · exact hgo hq
      · obtain ⟨target, hlink, hfollow⟩ := Option.bind_eq_some_iff.mp hq
        have hle := follow_length htargets hlink hfollow
        have hright := le_max_right p.components.length PATH_MAX
        omega

theorem roam_fits (htargets : CanonicalTargets os) (slash : Bool) {ws : List Bytes}
    (h : max p.components.length PATH_MAX + ws.length < 2 ^ 32) :
    p.Fits os mnt resolveLastLink slash ws := by
  induction ws generalizing p with
  | nil => trivial
  | cons c ws ih =>
    intro q hq
    have hle := advance_length htargets hq
    have hmax : max q.components.length PATH_MAX ≤ max p.components.length PATH_MAX + 1 :=
      max_le hle ((le_max_right _ _).trans (Nat.le_succ _))
    rw [List.length_cons] at h
    exact ⟨by omega, ih (by omega)⟩

/-- A path below 4 GiB does not fill the counters, wherever its links lead to. -/
theorem fits_of_length {path : Path} (htargets : CanonicalTargets os)
    (h : path.length + PATH_MAX < 2 ^ 32) : Fits os mnt path resolveLastLink := by
  have hle := length_words_le separator path
  have hzero : max Standing.start.components.length PATH_MAX = PATH_MAX := Nat.zero_max _
  apply roam_fits htargets
  rw [hzero]
  omega

/-- Directories everywhere, and one link. -/
def oneLink (link target : Path) : Os :=
  ⟨fun p => if p = link then .link else .directory, fun p => if p = link then some target else none⟩

theorem oneLink_targets {link target : Path} (hcanonical : Canonical target)
    (hlen : target.length < PATH_MAX) : CanonicalTargets (oneLink link target) := by
  intro p t h
  change (if p = link then some target else none) = some t at h
  split at h
  · rw [← Option.some.inj h]
    exact ⟨hcanonical, hlen⟩
  · cases h

theorem canonical_behind_link : Canonical (text "/a") := by
  have htargets : CanonicalTargets (oneLink (text "/l") (text "/d")) := by
    refine oneLink_targets ⟨[text "d"], ?_, by decide⟩ (by decide)
    intro w hw
    rw [List.mem_singleton.mp hw]
    exact ⟨⟨by decide, by decide⟩, by decide, by decide⟩
  have hgood : ∀ q, destination (oneLink (text "/l") (text "/d")) shortMount.components
      (text "/l/../m/a") true = some q →
      ¬ (q.behindRoot = true ∧ Below shortMount.components q.components) := by
    intro q hq hbad
    have hdestination : destination (oneLink (text "/l") (text "/d")) shortMount.components
        (text "/l/../m/a") true = some ⟨false, [text "m", text "a"]⟩ := by decide +kernel
    rw [hdestination] at hq
    rw [← Option.some.inj hq] at hbad
    exact Bool.false_ne_true hbad.1
  exact (canonical_iff _ shortMount (text "/l/../m/a") true (by decide) htargets
    (fits_of_length htargets (by decide))).mpr (.inr hgood) (text "/a") (by decide +kernel)

/-- Two paths to one file, of which one goes through a link to the root. -/
theorem link_to_root_doubles :
    CanonicalTargets (oneLink (text "/l") (text "/")) ∧ isAbsolute (text "/l/m/a") = true ∧
      resolve (oneLink (text "/l") (text "/")) shortMount.path (text "/l/m/a") true =
        some (true, text "//a") ∧
      resolve (oneLink (text "/l") (text "/")) shortMount.path (text "/m/a") true =
        some (true, text "/a") ∧ ¬ Canonical (text "//a") :=
  ⟨oneLink_targets ⟨[], fun _ hw => absurd hw List.not_mem_nil, rfl⟩ (by decide), by decide,
    by decide +kernel, by decide +kernel, not_canonical_doubled (text "a")⟩

end Inputs

end GaoFS.ResolveLinks
