import GaoFS.WorkingDirectory

namespace GaoFS.Naming

open Chunks ChunkStorage Resolve ResolveStack ResolveLexical ResolveWalk ResolveLinks Relativize
open WorkingDirectory Library.NumberText Library.Paths

/-- The links outside of GaoFS lead to text paths, neither to the root nor to below the mount directory. -/
structure Plain (os : Os) (mnt : List Bytes) : Prop where
  targets : CanonicalTargets os
  clean : ∀ path target, os.realpath path = some target → 0 ∉ target
  not_root : ∀ path, os.realpath path ≠ some [separator]
  not_below : ∀ path target, os.realpath path = some target → ¬ Below mnt (words separator target)

section Place

variable (os : Os) (mountdir : FilePath) (path : Path) (resolveLastLink : Bool)

/-- The place in GaoFS that has these components below the mount directory. -/
def canonicalOf (ws : List Bytes) : Option CanonicalPath :=
  if h : ∀ c ∈ ws, Component c then some ⟨ws, h⟩ else none

/-- What an absolute path stands for in GaoFS, if it leads there: the walk over the directories and
links outside ends at the mount directory or below it. -/
def located : Option CanonicalPath :=
  if isExcluded path then none
  else (destination os mountdir.components path resolveLastLink).bind fun q =>
    if mountdir.components <+: q.components then canonicalOf (q.components.drop mountdir.components.length)
    else none

end Place

section Walk

variable {os : Os} {mnt : List Bytes} {resolveLastLink atEnd : Bool} {p q : Standing} {s : Scan}

theorem advance_cases {c : Bytes} (h : p.advance os mnt resolveLastLink atEnd c = some q) :
    q = p ∨ q = Standing.start ∨ q = { p with components := p.components.dropLast } ∨ q = p.below c ∨
      ∃ path target, os.realpath path = some target ∧
        q = ⟨(words separator target).isEmpty, words separator target⟩ := by
  rw [Standing.advance] at h
  split at h
  · exact .inl (Option.some.inj h).symm
  split at h
  · have hq := (Option.some.inj h).symm
    split at hq
    · exact .inr (.inl hq)
    · exact .inr (.inr (.inl hq))
  have hbelow : ∀ {x : Standing}, some (p.below c) = some x → q = x → q = p.below c := fun hx hq =>
    hq.trans (Option.some.inj hx).symm
  split at h
  · exact .inr (.inr (.inr (.inl (Option.some.inj h).symm)))
  · split at h
    · cases h
    · exact .inr (.inr (.inr (.inl (Option.some.inj h).symm)))
    · split at h
      · exact .inr (.inr (.inr (.inl (Option.some.inj h).symm)))
      · cases h
    · split at h
      · exact .inr (.inr (.inr (.inl (Option.some.inj h).symm)))
      · obtain ⟨target, hreal, hfollow⟩ := Option.bind_eq_some_iff.mp h
        rw [follow] at hfollow
        split at hfollow
        · cases hfollow
        · exact .inr (.inr (.inr (.inr ⟨_, target, hreal, (Option.some.inj hfollow).symm⟩)))

/-- What each step of the walk keeps, the walk keeps. -/
theorem roam_keeps {I : Standing → Prop} {slash : Bool} {ws : List Bytes}
    (hstep : ∀ c ∈ ws, ∀ p q atEnd, I p → p.advance os mnt resolveLastLink atEnd c = some q → I q)
    (hp : I p) (h : p.roam os mnt resolveLastLink slash ws = some q) : I q := by
  induction ws generalizing p with
  | nil => exact Option.some.inj h ▸ hp
  | cons c ws ih =>
    obtain ⟨p', hadvance, hrest⟩ := Option.bind_eq_some_iff.mp h
    exact ih (fun d hd => hstep d (List.mem_cons_of_mem c hd)) (hstep c List.mem_cons_self p p' _ hp hadvance) hrest

/-- Neither the slash of a link to the root nor a zero byte is on the way. -/
theorem destination_plain (h : Plain os mnt) {path : Path} (hclean : 0 ∉ path)
    (hq : destination os mnt path resolveLastLink = some q) :
    q.behindRoot = false ∧ ∀ c ∈ q.components, 0 ∉ c := by
  refine roam_keeps (I := fun q => q.behindRoot = false ∧ ∀ c ∈ q.components, 0 ∉ c) ?_
    ⟨rfl, fun _ hc => absurd hc List.not_mem_nil⟩ hq
  rintro c hc p q atEnd ⟨hroot, hnames⟩ hadvance
  have hc' : 0 ∉ c := fun hb => hclean (subset_of_mem_words c hc hb)
  obtain rfl | rfl | rfl | rfl | ⟨link, target, hreal, rfl⟩ := advance_cases hadvance
  · exact ⟨hroot, hnames⟩
  · exact ⟨rfl, fun _ hd => absurd hd List.not_mem_nil⟩
  · exact ⟨hroot, fun d hd => hnames d (List.dropLast_subset _ hd)⟩
  · refine ⟨hroot, fun d hd => ?_⟩
    obtain hd | hd := List.mem_append.mp hd
    · exact hnames d hd
    · exact List.mem_singleton.mp hd ▸ hc'
  · refine ⟨?_, fun d hd hb => h.clean _ _ hreal (subset_of_mem_words d hd hb)⟩
    obtain ⟨ws, -, rfl, hwords, -⟩ := h.targets.names hreal
    rw [hwords]
    cases ws with
    | nil => exact absurd hreal (h.not_root link)
    | cons w ws => rfl

end Walk

section Exceptions

variable {os : Os} {mnt : List Bytes} {resolveLastLink : Bool} {s : Scan} {p : Standing}

theorem inspect_not_thrown (h : Plain os mnt) (hmnt : mnt ≠ []) (path : Path) :
    (inspect os mnt path resolveLastLink s).2 ≠ some .thrown := by
  rw [inspect]
  cases os.lstat s.resolved with
  | failed => simp
  | directory => simp
  | other =>
    dsimp only
    split <;> simp
  | link =>
    dsimp only
    split
    · simp
    · cases hreal : os.realpath s.resolved with
      | none => simp
      | some link =>
        have hnot := h.not_below _ _ hreal
        obtain ⟨ws, hws, rfl, hwords, hfit⟩ := h.targets.names hreal
        rw [hwords] at hnot
        simp [matchComponents_rooted (fun w hw => (hws w hw).toIsWord) hmnt hfit, hnot]

theorem takeComponent_not_thrown (h : Plain os mnt) (hmnt : mnt ≠ []) (hs : Spelled s p) (path : Path) (c : Bytes) :
    (takeComponent os mnt path resolveLastLink s c).2 ≠ some .thrown := by
  rw [takeComponent]
  split
  · simp
  split
  · simp
  split
  · obtain ⟨t, q, hrollback, -⟩ := hs.rollback
    rw [hrollback]
    simp
  · rw [descend]
    dsimp only
    split
    · exact inspect_not_thrown h hmnt path
    · simp

/-- The walk dies of no exception. -/
theorem walk_not_thrown (h : Plain os mnt) (hmnt : mnt ≠ []) (slash : Bool) {ws : List Bytes}
    (hws : ∀ w ∈ ws, IsWord separator w) (hs : Spelled s p) :
    (walk os mnt resolveLastLink slash ws s).2 ≠ some .thrown := by
  induction ws generalizing s p with
  | nil => simp [walk]
  | cons c ws ih =>
    have hplace : ∀ {s p}, Spelled s p → Spelled (place s) p := fun hs => ⟨hs.resolved, hs.lastSlash, hs.isWord⟩
    generalize hpath : behind (ws.isEmpty && !slash) = path
    have hnot : (takeComponent os mnt path resolveLastLink (place s) c).2 ≠ some .thrown :=
      takeComponent_not_thrown h hmnt (hplace hs) path c
    have hspelled : StepSpelled path (place s).stop (takeComponent os mnt path resolveLastLink (place s) c) :=
      stepSpelled_takeComponent h.targets (hplace hs) (hws c List.mem_cons_self)
    rw [walk, step, hpath]
    generalize takeComponent os mnt path resolveLastLink (place s) c = out at hnot hspelled
    obtain ⟨t, leave⟩ := out
    cases leave with
    | none =>
      obtain ⟨q, hq⟩ := hspelled
      exact ih (fun w hw => hws w (List.mem_cons_of_mem c hw)) (hplace hq)
    | some leave =>
      cases leave with
      | finished => simp [outcome]
      | returned => simp [outcome]
      | thrown => exact absurd rfl hnot

end Exceptions

section Result

variable {os : Os} {mountdir : FilePath} {path : Path} {resolveLastLink : Bool}

theorem canonicalOf_eq {ws : List Bytes} (h : ∀ c ∈ ws, Component c) : canonicalOf ws = some ⟨ws, h⟩ := dif_pos h

/-- The resolver finds what the path stands for, and takes every other path for one of the kernel. -/
theorem verdict_located (h : Plain os mountdir.components) (habsolute : isAbsolute path = true) (hclean : 0 ∉ path)
    (hfits : ResolveLinks.Fits os mountdir.components path resolveLastLink) :
    verdict (resolve os mountdir.path path resolveLastLink) =
      some ((located os mountdir path resolveLastLink).map CanonicalPath.path) := by
  cases hincluded : isExcluded path with
  | true =>
    rw [resolve, if_pos habsolute, hincluded, if_pos rfl, located, if_pos hincluded]
    rfl
  | false =>
    have hfollows := follows_destination h.targets hfits
    have hnot : (walkOf os path resolveLastLink mountdir.components).2 ≠ some .thrown :=
      walk_not_thrown h mountdir.components_ne _ isWord_of_mem_words spelled_start
    rw [verdict_resolve os mountdir.path resolveLastLink habsolute hincluded, splitPath_path, located, hincluded,
      if_neg Bool.false_ne_true]
    cases hdestination : destination os mountdir.components path resolveLastLink with
    | none =>
      rw [hdestination] at hfollows
      obtain ⟨t, leave, hwalk, hleave⟩ := hfollows
      rw [hwalk] at hnot ⊢
      cases leave with
      | finished => exact absurd rfl hleave
      | returned => rfl
      | thrown => exact absurd rfl hnot
    | some q =>
      have hnames := destination_names h.targets hfits hdestination
      obtain ⟨hroot, hzero⟩ := destination_plain h hclean hdestination
      rw [hdestination] at hfollows
      obtain ⟨t, hwalk, hends⟩ := hfollows
      rw [hwalk, arrival, splitPath_path, hends.resolved, Option.bind_some]
      have hin : mountdir.components.length ≤ t.matchedComponents.toNat ↔
          mountdir.components <+: q.components := by
        rw [hends.matched, ← Nat.not_lt, matchedCount_lt_iff, not_not]
      by_cases hbelow : mountdir.components <+: q.components
      · obtain ⟨behindRoot, components⟩ := q
        obtain ⟨rest, rfl⟩ := hbelow
        obtain rfl : behindRoot = false := hroot
        have hrest : ∀ c ∈ rest, Component c := fun c hc =>
          have hmem := List.mem_append_right mountdir.components hc
          have hname := hnames c hmem
          ⟨hname.ne_nil, hname.no_sep, hzero c hmem, hname.ne_dot, hname.ne_dotdot⟩
        have hpath : (Standing.mk false (mountdir.components ++ rest)).path =
            joined separator (mountdir.components ++ rest) := rfl
        have hne : joined separator (mountdir.components ++ rest) ≠ [] := fun hnil =>
          mountdir.components_ne (List.append_eq_nil_iff.mp ((joined_eq_nil_iff _).mp hnil)).1
        rw [if_pos (hin.mpr (List.prefix_append _ _)), if_pos (List.prefix_append _ _), List.drop_left,
          canonicalOf_eq hrest, hpath, if_neg hne, path_eq_joined, erase_mountdir mountdir.components_ne]
        rfl
      · rw [if_neg fun hle => hbelow (hin.mp hle), if_neg hbelow]
        rfl

/-- What a name stands for: something in GaoFS, something of the kernel, or nothing, as it is relative to
a file that is no directory. -/
inductive Meaning where
  | gaofs (p : CanonicalPath)
  | kernel
  | notDir

def meaningOf : Option CanonicalPath → Meaning
  | some p => .gaofs p
  | none => .kernel

/-- The client takes a name for what it means. -/
inductive Means : Option (RelativizeStatus × Path) → Meaning → Prop
  | gaofs (p : CanonicalPath) : Means (some (.internal, p.path)) (.gaofs p)
  | external (path : Path) : Means (some (.external, path)) .kernel
  | unknown (path : Path) : Means (some (.fdUnknown, path)) .kernel
  | notDir (path : Path) : Means (some (.fdNotADir, path)) .notDir

theorem means_resolve (h : Plain os mountdir.components) (habsolute : isAbsolute path = true) (hclean : 0 ∉ path)
    (hshort : path.length + PATH_MAX < 2 ^ 32) :
    Means (statusOf (resolve os mountdir.path path resolveLastLink))
      (meaningOf (located os mountdir path resolveLastLink)) := by
  have hfits : ResolveLinks.Fits os mountdir.components path resolveLastLink := fits_of_length h.targets hshort
  have hverdict := verdict_located h habsolute hclean hfits
  generalize resolve os mountdir.path path resolveLastLink = r at hverdict ⊢
  obtain _ | ⟨_ | _, relative⟩ := r
  · cases hverdict
  · cases hlocated : located os mountdir path resolveLastLink with
    | none => exact .external relative
    | some p =>
      rw [hlocated] at hverdict
      cases hverdict
  · cases hlocated : located os mountdir path resolveLastLink with
    | none =>
      rw [hlocated] at hverdict
      cases hverdict
    | some p =>
      rw [hlocated] at hverdict
      obtain rfl : relative = p.path := Option.some.inj (Option.some.inj hverdict)
      exact .gaofs p

/-- Outside of GaoFS the resolver finds the path of the place itself. -/
theorem resolve_outside (h : Plain os mountdir.components) (habsolute : isAbsolute path = true) (hclean : 0 ∉ path)
    (hshort : path.length + PATH_MAX < 2 ^ 32) (hincluded : isExcluded path = false)
    (hlocated : located os mountdir path resolveLastLink = none) {q : Standing}
    (hq : destination os mountdir.components path resolveLastLink = some q) (hne : q.components ≠ []) :
    resolve os mountdir.path path resolveLastLink = some (false, joined separator q.components) ∧
      ∀ c ∈ q.components, Component c := by
  have hfits : Fits os mountdir.components path resolveLastLink := fits_of_length h.targets hshort
  have hnames := destination_names h.targets hfits hq
  obtain ⟨hroot, hzero⟩ := destination_plain h hclean hq
  have hvalid : ∀ c ∈ q.components, Component c := fun c hc =>
    ⟨(hnames c hc).ne_nil, (hnames c hc).no_sep, hzero c hc, (hnames c hc).ne_dot, (hnames c hc).ne_dotdot⟩
  refine ⟨?_, hvalid⟩
  have hnot : ¬ mountdir.components <+: q.components := fun hbelow => by
    have hdrop : ∀ c ∈ q.components.drop mountdir.components.length, Component c := fun c hc =>
      hvalid c (List.mem_of_mem_drop hc)
    rw [located, hincluded, if_neg Bool.false_ne_true, hq, Option.bind_some, if_pos hbelow,
      canonicalOf_eq hdrop] at hlocated
    cases hlocated
  obtain ⟨s, leave, hscan, hwalk⟩ := scan_walk os mountdir.path resolveLastLink habsolute
  have hfollows := follows_destination h.targets hfits
  rw [hq, ← splitPath_path, ← hwalk] at hfollows
  obtain ⟨t, hout, hends⟩ := hfollows
  rw [resolve, if_pos habsolute, hincluded, if_neg Bool.false_ne_true, hscan, Option.bind_some]
  cases leave with
  | thrown => cases hout
  | returned => cases hout
  | finished =>
    obtain rfl : place s = t := (Prod.mk.inj hout).1
    have hresolved : s.resolved = joined separator q.components := by
      obtain ⟨behindRoot, components⟩ := q
      obtain rfl : behindRoot = false := hroot
      exact hends.resolved
    have hout' : ¬ (splitPath mountdir.path).length ≤ s.matchedComponents.toNat := fun hle => by
      have hcount : matchedCount mountdir.components q.components < mountdir.components.length :=
        matchedCount_lt_iff.mpr hnot
      have hmatched : s.matchedComponents.toNat = matchedCount mountdir.components q.components := by
        rw [← splitPath_path]
        exact hends.matched
      rw [splitPath_path] at hle
      omega
    dsimp only
    rw [if_neg hout', if_neg (hresolved ▸ fun hnil => hne ((joined_eq_nil_iff _).mp hnil)), hresolved]

end Result

end GaoFS.Naming
