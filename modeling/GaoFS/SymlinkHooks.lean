import GaoFS.Relativize
import GaoFS.ResolveLinks

namespace GaoFS.SymlinkHooks

open Chunks ChunkStorage Resolve ResolveStack ResolveLexical ResolveWalk ResolveLinks Relativize
open FileMap GaofsFunctions Library.NumberText Library.Paths

def AT_REMOVEDIR : Int32 := 0x200

section Hooks

/-- System calls of the kernel, with the paths that they are given. -/
inductive Syscall where
  | lstat (path : Path)
  | unlinkat (dirfd : Int32) (path : Path) (flags : Int32)
  | readlinkat (dirfd : Int32) (path : Path) (bufsiz : Int32)
  | symlinkat (oldname : Path) (newdfd : Int32) (newname : Path)
  | renameat2 (olddfd : Int32) (oldpath : Path) (newdfd : Int32) (newpath : Path) (flags : UInt32)

/-- What a hook does: a system call, an error, or a call of the client. -/
inductive Handled where
  | forward (call : Syscall)
  | error (errno : Int32)
  | gaofsStat (path : Path)
  | gaofsRmdir (path : Path)
  | gaofsRemove (path : Path)

/-- The path that goes on to the kernel, where GaoFS does not support the operation. -/
def pathPass (rawPath : Path) : RelativizeStatus × Path → Except Int32 Path
  | (.fdUnknown, _) => .ok rawPath
  | (.external, resolved) => .ok resolved
  | (.fdNotADir, _) => .error ENOTDIR
  | (.internal, _) => .error ENOTSUP

def forwardPass (call : Path → Syscall) : Except Int32 Path → Handled
  | .ok path => .forward (call path)
  | .error errno => .error errno

variable (os : Os) (ctx : PreloadContext)

/-- `none` is an exception here and below. The last link is resolved by default. -/
def hookLstat (path : Path) : Option Handled :=
  (relativizePath os ctx path true).map fun r =>
    if r.1 then .gaofsStat r.2 else .forward (.lstat r.2)

/-- The `false` of the call becomes the flags, and the last link is resolved by default. -/
def hookUnlinkat (dirfd : Int32) (cpath : Path) (flags : Int32) : Option Handled :=
  if flags &&& ~~~AT_REMOVEDIR ≠ 0 then some (.error EINVAL)
  else (relativizeFdPath os ctx dirfd cpath 0 true).map fun
    | (.fdUnknown, _) => .forward (.unlinkat dirfd cpath flags)
    | (.external, resolved) => .forward (.unlinkat dirfd resolved flags)
    | (.fdNotADir, _) => .error ENOTDIR
    | (.internal, resolved) =>
      if flags &&& AT_REMOVEDIR ≠ 0 then .gaofsRmdir resolved else .gaofsRemove resolved

/-- The `false` of the call becomes the flags here too. -/
def hookReadlinkat (dirfd : Int32) (cpath : Path) (bufsiz : Int32) : Option Handled :=
  (relativizeFdPath os ctx dirfd cpath 0 true).map fun r =>
    forwardPass (fun path => .readlinkat dirfd path bufsiz) (pathPass cpath r)

/-- The `false` of the call becomes the flags here too. -/
def hookSymlinkat (oldname : Path) (newdfd : Int32) (newname : Path) : Option Handled :=
  (relativizePath os ctx oldname true).bind fun old =>
    if old.1 then some (.error ENOTSUP)
    else (relativizeFdPath os ctx newdfd newname 0 true).map fun r =>
      forwardPass (fun path => .symlinkat oldname newdfd path) (pathPass newname r)

def hookRenameat (olddfd : Int32) (oldname : Path) (newdfd : Int32) (newname : Path) (flags : UInt32) :
    Option Handled :=
  (relativizeFdPath os ctx olddfd oldname 0 true).bind fun old =>
    match pathPass oldname old with
    | .error errno => some (.error errno)
    | .ok oldpath => (relativizeFdPath os ctx newdfd newname 0 true).map fun r =>
      forwardPass (fun newpath => .renameat2 olddfd oldpath newdfd newpath flags) (pathPass newname r)

end Hooks

section Names

/-- A call on a name, with its other arguments. -/
inductive Call where
  | lstat
  | unlinkat (dirfd flags : Int32)
  | readlinkat (dirfd bufsiz : Int32)
  | symlinkat (oldname : Path) (newdfd : Int32)
  | renameOld (olddfd newdfd : Int32) (newname : Path) (flags : UInt32)
  | renameNew (olddfd : Int32) (oldname : Path) (newdfd : Int32) (flags : UInt32)

def Call.handle (os : Os) (ctx : PreloadContext) (name : Path) : Call → Option Handled
  | .lstat => hookLstat os ctx name
  | .unlinkat dirfd flags => hookUnlinkat os ctx dirfd name flags
  | .readlinkat dirfd bufsiz => hookReadlinkat os ctx dirfd name bufsiz
  | .symlinkat oldname newdfd => hookSymlinkat os ctx oldname newdfd name
  | .renameOld olddfd newdfd newname flags => hookRenameat os ctx olddfd name newdfd newname flags
  | .renameNew olddfd oldname newdfd flags => hookRenameat os ctx olddfd oldname newdfd name flags

/-- The path that the kernel is given for the name. -/
def Call.kernelPath : Call → Handled → Option Path
  | .lstat, .forward (.lstat path) => some path
  | .unlinkat _ _, .forward (.unlinkat _ path _) => some path
  | .readlinkat _ _, .forward (.readlinkat _ path _) => some path
  | .symlinkat _ _, .forward (.symlinkat _ _ newname) => some newname
  | .renameOld _ _ _ _, .forward (.renameat2 _ oldpath _ _ _) => some oldpath
  | .renameNew _ _ _ _, .forward (.renameat2 _ _ _ newpath _) => some newpath
  | _, _ => none

def Call.forwarded (os : Os) (ctx : PreloadContext) (name : Path) (call : Call) : Option Path :=
  (call.handle os ctx name).bind call.kernelPath

/-- The directory that a relative name is relative to. -/
def Call.dirfd : Call → Int32
  | .lstat => AT_FDCWD
  | .unlinkat dirfd _ => dirfd
  | .readlinkat dirfd _ => dirfd
  | .symlinkat _ newdfd => newdfd
  | .renameOld olddfd _ _ _ => olddfd
  | .renameNew _ _ newdfd _ => newdfd

/-- The full path of a name that is absolute or relative to the working directory. -/
def fullPath (ctx : PreloadContext) (dirfd : Int32) (name : Path) : Option Path :=
  if name.head? ≠ some separator then
    if dirfd = AT_FDCWD then prependPath ctx.cwd name else none
  else some name

variable {os : Os} {ctx : PreloadContext} {dirfd : Int32} {name path p : Path}

theorem relativizePath_full (h : fullPath ctx dirfd name = some path) (resolveLastLink : Bool) :
    relativizePath os ctx name resolveLastLink = resolve os ctx.mountdir.path path resolveLastLink := by
  rw [fullPath] at h
  rw [relativizePath]
  by_cases hrelative : name.head? ≠ some separator
  · rw [if_pos hrelative] at h ⊢
    split at h
    · rw [h, Option.bind_some]
    · cases h
  · rw [if_neg hrelative] at h ⊢
    rw [h, Option.bind_some]

theorem relativizeFdPath_full (h : fullPath ctx dirfd name = some path) (flags : Int32)
    (resolveLastLink : Bool) :
    relativizeFdPath os ctx dirfd name flags resolveLastLink = resolveStatus os ctx path resolveLastLink := by
  rw [fullPath] at h
  rw [relativizeFdPath]
  by_cases hrelative : name.head? ≠ some separator
  · rw [if_pos hrelative] at h ⊢
    split at h
    · rename_i hcwd
      rw [if_pos hcwd, h, Option.bind_some]
    · cases h
  · rw [if_neg hrelative] at h ⊢
    rw [Option.some.inj h]

theorem status_full (os : Os) (h : fullPath ctx dirfd name = some path) :
    relativizeFdPath os ctx dirfd name 0 true = statusOf (resolve os ctx.mountdir.path path true) :=
  relativizeFdPath_full h 0 true

/-- An external name goes on as it has been resolved. -/
theorem forwardPass_cases {call : Path → Syscall} {r : Option (Bool × Path)} {handled : Handled}
    (hr : relativizeFdPath os ctx dirfd name 0 true = statusOf r)
    (h : (relativizeFdPath os ctx dirfd name 0 true).map
      (fun s => forwardPass call (pathPass name s)) = some handled) :
    (∃ q, r = some (false, q) ∧ handled = .forward (call q)) ∨ ∃ errno, handled = .error errno := by
  rw [hr] at h
  obtain _ | ⟨_ | _, q⟩ := r
  · cases h
  · exact .inl ⟨q, rfl, (Option.some.inj h).symm⟩
  · exact .inr ⟨ENOTSUP, (Option.some.inj h).symm⟩

theorem kernelPath_error (call : Call) (errno : Int32) : call.kernelPath (.error errno) = none := by
  cases call <;> rfl

/-- What the kernel is given as the name is what the name resolves to. -/
theorem resolve_of_forwardPass {call : Call} {syscall : Path → Syscall} {r : Option (Bool × Path)}
    {handled : Handled} (hr : relativizeFdPath os ctx dirfd name 0 true = statusOf r)
    (h : (relativizeFdPath os ctx dirfd name 0 true).map
      (fun s => forwardPass syscall (pathPass name s)) = some handled)
    (hname : ∀ q, call.kernelPath (.forward (syscall q)) = some q)
    (hpath : call.kernelPath handled = some p) : r = some (false, p) := by
  obtain ⟨q, hq, rfl⟩ | ⟨errno, rfl⟩ := forwardPass_cases hr h
  · rw [hq, Option.some.inj ((hname q).symm.trans hpath)]
  · rw [kernelPath_error] at hpath
    cases hpath

theorem hookUnlinkat_cases {flags : Int32} {r : Option (Bool × Path)} {handled : Handled}
    (hr : relativizeFdPath os ctx dirfd name 0 true = statusOf r)
    (h : hookUnlinkat os ctx dirfd name flags = some handled) :
    (∃ q, r = some (false, q) ∧ handled = .forward (.unlinkat dirfd q flags)) ∨
      ∀ call, handled ≠ .forward call := by
  rw [hookUnlinkat, hr] at h
  split at h
  · rw [← Option.some.inj h]
    exact .inr fun call hf => by cases hf
  · obtain _ | ⟨_ | _, q⟩ := r
    · cases h
    · exact .inl ⟨q, rfl, (Option.some.inj h).symm⟩
    · rw [← Option.some.inj h]
      refine .inr fun call hf => ?_
      change (if flags &&& AT_REMOVEDIR ≠ 0 then Handled.gaofsRmdir q else .gaofsRemove q) = _ at hf
      split at hf
      · cases hf
      · cases hf

/-- What goes on to the kernel is what the path resolves to, its last link included. -/
theorem forwarded_resolve {call : Call} (h : fullPath ctx call.dirfd name = some path)
    (hf : call.forwarded os ctx name = some p) :
    resolve os ctx.mountdir.path path true = some (false, p) := by
  obtain ⟨handled, hhandle, hpath⟩ := Option.bind_eq_some_iff.mp hf
  have hstatus := status_full os h
  cases call with
  | lstat =>
    rw [Call.handle, hookLstat, relativizePath_full h] at hhandle
    obtain ⟨⟨internal, q⟩, hr, hhandled⟩ := Option.map_eq_some_iff.mp hhandle
    rw [← hhandled] at hpath
    cases internal with
    | false =>
      cases hpath
      exact hr
    | true => cases hpath
  | unlinkat dirfd flags =>
    obtain ⟨q, hr, rfl⟩ | hno := hookUnlinkat_cases hstatus hhandle
    · cases hpath
      exact hr
    · cases handled with
      | forward c => exact absurd rfl (hno c)
      | error _ | gaofsStat _ | gaofsRmdir _ | gaofsRemove _ => cases hpath
  | readlinkat dirfd bufsiz => exact resolve_of_forwardPass hstatus hhandle (fun _ => rfl) hpath
  | symlinkat oldname newdfd =>
    obtain ⟨old, -, hhandle⟩ := Option.bind_eq_some_iff.mp hhandle
    split at hhandle
    · cases hhandle
      cases hpath
    · exact resolve_of_forwardPass hstatus hhandle (fun _ => rfl) hpath
  | renameOld olddfd newdfd newname flags =>
    obtain ⟨old, hold, hhandle⟩ := Option.bind_eq_some_iff.mp hhandle
    obtain ⟨⟨internal, q⟩, hr, rfl⟩ := Option.map_eq_some_iff.mp (hstatus.symm.trans hold)
    cases internal with
    | true =>
      cases hhandle
      cases hpath
    | false =>
      obtain ⟨new, -, hhandled⟩ := Option.map_eq_some_iff.mp hhandle
      rw [← hhandled] at hpath
      cases hpass : pathPass newname new with
      | error errno =>
        rw [hpass] at hpath
        cases hpath
      | ok newpath =>
        rw [hpass] at hpath
        cases hpath
        exact hr
  | renameNew olddfd oldname newdfd flags =>
    obtain ⟨old, -, hhandle⟩ := Option.bind_eq_some_iff.mp hhandle
    split at hhandle
    · cases hhandle
      cases hpath
    · exact resolve_of_forwardPass hstatus hhandle (fun _ => rfl) hpath

end Names

section Links

variable {os : Os} {mountdir : FilePath} {dir name link target : Path}

/-- What the operating system says of links: `realpath` comes to no link. -/
structure Documented (os : Os) : Prop where
  targets : CanonicalTargets os
  noLink : ∀ path target, os.realpath path = some target → os.lstat target ≠ .link

/-- An external path whose last component, with the directory before it resolved, is a link to
an existing target that is external too. -/
structure NamesLink (os : Os) (mountdir : FilePath) (dir name link target : Path) : Prop where
  absolute : isAbsolute (dir ++ separator :: name) = true
  component : Name name
  resolved : resolve os mountdir.path (dir ++ separator :: name) false = some (false, link)
  isLink : os.lstat link = .link
  realpath : os.realpath link = some target
  external : ¬ mountdir.components <+: words separator target

/-- The resolver gets as far as the last component, outside the mount directory. -/
def Reaches (os : Os) (mountdir : Path) (dir name : Path) : Prop :=
  isExcluded (dir ++ separator :: name) = false ∧
    ∃ s, scan os mountdir (dir ++ [separator]) true = some (s, .finished) ∧
      s.matchedComponents.toNat < (splitPath mountdir).length

theorem trailing_name (dir : Path) (h : Name name) : trailing (dir ++ separator :: name) = [] := by
  have hlast : hasTrailingSlash (joined separator [name]) = false :=
    hasTrailingSlash_joined fun w hw => List.mem_singleton.mp hw ▸ h.toIsWord
  have hjoined : joined separator [name] = separator :: name := List.append_nil _
  rw [hjoined] at hlast
  rw [← List.isEmpty_iff, isEmpty_trailing, hasTrailingSlash_append, hlast]
  rfl

theorem words_name (dir : Path) (h : Name name) :
    words separator (dir ++ separator :: name) = words separator dir ++ [name] := by
  rw [words_append_sep, words_word h.toIsWord]

theorem isAbsolute_dir (h : isAbsolute (dir ++ separator :: name) = true) (rest : Path) :
    isAbsolute (dir ++ separator :: rest) = true := by
  cases dir with
  | nil => rfl
  | cons b bs => exact h

/-- The scan of the directory walks over its components. -/
theorem scan_dir (os : Os) (mountdir : FilePath) (h : isAbsolute (dir ++ separator :: name) = true) :
    ∃ s leave, scan os mountdir.path (dir ++ [separator]) true = some (s, leave) ∧
      outcome (s, some leave) =
        walk os mountdir.components true true (words separator dir) Scan.start := by
  obtain ⟨s, leave, hscan, hwalk⟩ := scan_walk os mountdir.path true (isAbsolute_dir h [])
  have hslash : (!(trailing (dir ++ [separator])).isEmpty) = true := by
    rw [isEmpty_trailing, hasTrailingSlash_append]
    rfl
  have hwords : words separator (dir ++ [separator]) = words separator dir := by
    rw [words_append_sep, words_nil, List.append_nil]
  rw [walkOf, hslash, hwords, splitPath_path] at hwalk
  exact ⟨s, leave, hscan, hwalk⟩

variable {resolveLastLink : Bool} {path p : Path} {s t : Scan}

theorem resolve_congr (h : scan os mountdir.path path true = scan os mountdir.path path false) :
    resolve os mountdir.path path true = resolve os mountdir.path path false := by
  rw [resolve, resolve, h]

theorem resolve_finished (habsolute : isAbsolute path = true) (hincluded : isExcluded path = false)
    (hscan : scan os mountdir.path path resolveLastLink = some (s, .finished))
    (hout : s.matchedComponents.toNat < mountdir.components.length) (hne : s.resolved ≠ []) :
    resolve os mountdir.path path resolveLastLink = some (false, s.resolved) := by
  rw [resolve, if_pos habsolute, hincluded, if_neg Bool.false_ne_true, hscan, Option.bind_some,
    splitPath_path]
  dsimp only
  rw [if_neg (Nat.not_le.mpr hout), if_neg hne]

theorem resolve_finished_false (habsolute : isAbsolute path = true) (hincluded : isExcluded path = false)
    (hscan : scan os mountdir.path path resolveLastLink = some (s, .finished)) (hne : s.resolved ≠ [])
    (hresolve : resolve os mountdir.path path resolveLastLink = some (false, p)) :
    s.matchedComponents.toNat < mountdir.components.length ∧ s.resolved = p := by
  rw [resolve, if_pos habsolute, hincluded, if_neg Bool.false_ne_true, hscan, Option.bind_some,
    splitPath_path] at hresolve
  dsimp only at hresolve
  by_cases hin : mountdir.components.length ≤ s.matchedComponents.toNat
  · rw [if_pos hin, if_neg hne] at hresolve
    cases (Prod.mk.inj (Option.some.inj hresolve)).1
  · rw [if_neg hin, if_neg hne] at hresolve
    exact ⟨Nat.not_le.mp hin, (Prod.mk.inj (Option.some.inj hresolve)).2⟩

theorem resolve_returned (habsolute : isAbsolute path = true) (hincluded : isExcluded path = false)
    (hscan : scan os mountdir.path path resolveLastLink = some (s, .returned)) :
    resolve os mountdir.path path resolveLastLink = some (false, s.resolved) := by
  rw [resolve, if_pos habsolute, hincluded, if_neg Bool.false_ne_true, hscan]
  rfl

variable (os) (mnt : List Bytes) in
/-- The last component, when the path ends with it. Outside the mount directory it is asked
for, and inside it makes no difference whether links are resolved. -/
theorem loop_name {fuel : Nat} (hfuel : path.length - t.stop < fuel) (hboundary : AtBoundary path t.stop)
    (hname : Name name) (hws : words separator (path.drop t.stop) = [name]) (htrailing : trailing path = []) :
    ∃ u, u.stop = path.length ∧ u.resolved = t.resolved ++ separator :: name ∧
      (t.matchedComponents.toNat < mnt.length → ∀ r,
        (∀ v leave, inspect os mnt path r u = (v, some leave) → loop os mnt path r fuel t = some (v, leave)) ∧
        ∀ v, inspect os mnt path r u = (v, none) →
          loop os mnt path r fuel t = some ({ v with stop := v.stop + 1 }, .finished)) ∧
      (¬ t.matchedComponents.toNat < mnt.length →
        loop os mnt path true fuel t = loop os mnt path false fuel t) := by
  obtain ⟨fuel, rfl⟩ : ∃ n, fuel = n + 1 := ⟨fuel - 1, by omega⟩
  obtain ⟨next, hlt, hle, hc, hnext, hrest, htail, hloop⟩ := loop_next os mnt hboundary hws
  have hdrop : path.drop next = [] := (htail rfl).trans htrailing
  have hend : next = path.length := le_antisymm hle (List.drop_eq_nil_iff.mp hdrop)
  obtain ⟨fuel, rfl⟩ : ∃ n, fuel = n + 1 := ⟨fuel - 1, by omega⟩
  have htake : ∀ r, takeComponent os mnt path r { t with stop := next } name =
      descend os mnt path r { t with stop := next } name := fun r =>
    takeComponent_name hname.toIsWord hname.ne_dot hname.ne_dotdot
  have hlast : ∀ r (v : Scan), v.stop = next → loop os mnt path r (fuel + 1) v =
      some ({ v with stop := v.stop + 1 }, .finished) := by
    intro r v hv
    have hbeyond : ¬ v.stop + 1 < path.length := by omega
    exact if_neg hbeyond
  obtain ⟨u, hstop, hresolved, hdescend⟩ : ∃ u : Scan, u.stop = next ∧
      u.resolved = t.resolved ++ separator :: name ∧
      (t.matchedComponents.toNat < mnt.length → ∀ r,
        descend os mnt path r { t with stop := next } name = inspect os mnt path r u) :=
    ⟨_, rfl, rfl, fun hout r => if_pos hout⟩
  refine ⟨u, hstop.trans hend, hresolved, fun hout r => ⟨fun v leave hv => ?_, fun v hv => ?_⟩, fun hin => ?_⟩
  · rw [hloop, htake, hdescend hout, hv]
  · have hinspect := inspect_stop os mnt path r u
    rw [hv] at hinspect
    rw [hloop, htake, hdescend hout, hv]
    exact hlast r v (hinspect.trans hstop)
  · obtain ⟨v, hv, hthere⟩ : ∃ v : Scan,
        (∀ r, descend os mnt path r { t with stop := next } name = (v, none)) ∧ v.stop = next :=
      ⟨_, fun r => if_neg hin, rfl⟩
    rw [hloop, hloop, htake, htake, hv, hv]
    exact (hlast true v hthere).trans (hlast false v hthere).symm

/-- The last component is the link: the resolver that stays at it has said so. -/
theorem link_of_last {u : Scan} (h : NamesLink os mountdir dir name link target)
    (hincluded : isExcluded (dir ++ separator :: name) = false)
    (hstop : u.stop = (dir ++ separator :: name).length) (hne : u.resolved ≠ [])
    (hleaves : ∀ v leave, inspect os mountdir.components (dir ++ separator :: name) false u = (v, some leave) →
      scan os mountdir.path (dir ++ separator :: name) false = some (v, leave))
    (hends : ∀ v, inspect os mountdir.components (dir ++ separator :: name) false u = (v, none) →
      scan os mountdir.path (dir ++ separator :: name) false = some ({ v with stop := v.stop + 1 }, .finished)) :
    u.resolved = link := by
  have hrest : (dir ++ separator :: name).drop u.stop = [] := by rw [hstop, List.drop_length]
  have hends' : ∀ v : Scan, v.resolved = u.resolved →
      inspect os mountdir.components (dir ++ separator :: name) false u = (v, none) → u.resolved = link := by
    intro v hv hinspect
    have hout := resolve_finished_false h.absolute hincluded (hends v hinspect)
      (by change v.resolved ≠ []; rw [hv]; exact hne) h.resolved
    exact hv.symm.trans hout.2
  cases hstat : os.lstat u.resolved with
  | failed =>
    have hinspect : inspect os mountdir.components (dir ++ separator :: name) false u =
        ({ u with resolved := u.resolved ++ (dir ++ separator :: name).drop u.stop }, some .returned) := by
      rw [inspect, hstat]
    have hresolve := resolve_returned h.absolute hincluded (hleaves _ _ hinspect)
    dsimp only at hresolve
    rw [h.resolved, hrest, List.append_nil] at hresolve
    exact (Prod.mk.inj (Option.some.inj hresolve)).2.symm
  | directory =>
    exact hends' { u with resolvedComponents := u.resolvedComponents + 1 } rfl (by rw [inspect, hstat])
  | other =>
    exact hends' { u with resolvedComponents := u.resolvedComponents + 1 } rfl
      (by rw [inspect, hstat]; exact if_neg fun hneq => hneq hstop)
  | link => exact hends' u rfl (by rw [inspect, hstat]; exact if_pos ⟨rfl, hstop⟩)

/-- The resolver that is to follow the last link goes on to its target. -/
theorem follow_last {u : Scan} (hos : Documented os) (h : NamesLink os mountdir dir name link target)
    (hincluded : isExcluded (dir ++ separator :: name) = false) (hlink : u.resolved = link)
    (hends : ∀ v, inspect os mountdir.components (dir ++ separator :: name) true u = (v, none) →
      scan os mountdir.path (dir ++ separator :: name) true = some ({ v with stop := v.stop + 1 }, .finished)) :
    resolve os mountdir.path (dir ++ separator :: name) true = some (false, target) := by
  obtain ⟨ws, hws, htarget, hwords, hsmall⟩ := hos.targets.names h.realpath
  have hexternal := h.external
  rw [hwords] at hexternal
  have hmatch : matchComponents target mountdir.components =
      some (UInt32.ofNat (overlap mountdir.components ws), UInt32.ofNat ws.length) := by
    rw [htarget, matchComponents_rooted (fun w hw => (hws w hw).toIsWord) mountdir.components_ne hsmall,
      if_neg fun hbelow => hexternal hbelow.1]
  have hmatched : (UInt32.ofNat (overlap mountdir.components ws)).toNat < mountdir.components.length := by
    rw [UInt32.toNat_ofNat_of_lt' ((overlap_le_right mountdir.components ws).trans_lt hsmall)]
    exact (overlap_lt_iff mountdir.components ws).mpr hexternal
  have hfollow : ¬ (true = false ∧ u.stop = (dir ++ separator :: name).length) := fun hf => by cases hf.1
  have hne : target ≠ [] := htarget ▸ rooted_ne_nil ws
  have hinspect : inspect os mountdir.components (dir ++ separator :: name) true u =
      ({ u with
        resolved := target
        matchedComponents := UInt32.ofNat (overlap mountdir.components ws)
        resolvedComponents := UInt32.ofNat ws.length
        lastSlashPos := findLastOf target }, none) := by
    rw [inspect, hlink, h.isLink]
    dsimp only
    rw [if_neg hfollow, h.realpath]
    dsimp only
    rw [hmatch]
  exact resolve_finished h.absolute hincluded (hends _ hinspect) hmatched hne

/-- Where the resolver gets to the link it follows it, and elsewhere it leaves it as it is. -/
theorem resolve_true (hos : Documented os) (h : NamesLink os mountdir dir name link target) :
    Reaches os mountdir.path dir name ∧
        resolve os mountdir.path (dir ++ separator :: name) true = some (false, target) ∨
      ¬ Reaches os mountdir.path dir name ∧
        resolve os mountdir.path (dir ++ separator :: name) true = some (false, link) := by
  have hname := h.component
  cases hincluded : isExcluded (dir ++ separator :: name) with
  | true =>
    refine .inr ⟨fun hreaches => ?_, ?_⟩
    · rw [hreaches.1] at hincluded
      cases hincluded
    · rw [← h.resolved, resolve, resolve, hincluded, if_pos rfl, if_pos rfl]
  | false =>
    obtain ⟨s, leave, hdir, hwalk⟩ := scan_dir os mountdir h.absolute
    have hboundary : AtBoundary (dir ++ separator :: name) Scan.start.stop := by
      intro x hx
      have habsolute := h.absolute
      rw [isAbsolute, Bool.and_eq_true, beq_iff_eq] at habsolute
      exact Option.some.inj (hx.symm.trans habsolute.2)
    have hscan : ∀ r, scan os mountdir.path (dir ++ separator :: name) r =
        loop os mountdir.components (dir ++ separator :: name) r
          ((dir ++ separator :: name).length + 1) Scan.start := by
      intro r
      rw [scan, splitPath_path]
    obtain ⟨t, fuel, ht, hfuel, hbefore, hws, hloop⟩ | ⟨hleft, hsame⟩ :=
      loop_last os mountdir.components (words separator dir)
        (Nat.lt_succ_of_le (Nat.sub_le _ _)) hboundary (words_name dir hname)
    · have hfinished : leave = .finished ∧ s.matchedComponents = t.matchedComponents := by
        have hplace := hwalk.trans ht
        cases leave with
        | finished => exact ⟨rfl, (congrArg Scan.matchedComponents (Prod.mk.inj hplace).1 :)⟩
        | returned => cases (Prod.mk.inj hplace).2
        | thrown => cases (Prod.mk.inj hplace).2
      obtain ⟨rfl, hmatched⟩ := hfinished
      obtain ⟨u, hstop, hresolved, houtside, hinside⟩ := loop_name os mountdir.components hfuel hbefore
        hname hws (trailing_name dir hname)
      by_cases hout : t.matchedComponents.toNat < mountdir.components.length
      · refine .inl ⟨⟨hincluded, s, hdir, by rw [hmatched, splitPath_path]; exact hout⟩, ?_⟩
        have hends : ∀ r v, inspect os mountdir.components (dir ++ separator :: name) r u = (v, none) →
            scan os mountdir.path (dir ++ separator :: name) r =
              some ({ v with stop := v.stop + 1 }, .finished) :=
          fun r v hv => (hscan r).trans ((hloop r).trans ((houtside hout r).2 v hv))
        have hlink := link_of_last h hincluded hstop (hresolved ▸ by simp) (fun v leave hv =>
          (hscan false).trans ((hloop false).trans ((houtside hout false).1 v leave hv))) (hends false)
        exact follow_last hos h hincluded hlink (hends true)
      · refine .inr ⟨?_, ?_⟩
        · rintro ⟨-, s', hs', hlt⟩
          rw [hdir] at hs'
          cases hs'
          rw [hmatched, splitPath_path] at hlt
          exact hout hlt
        · rw [← h.resolved]
          exact resolve_congr ((hscan true).trans (((hloop true).trans
            ((hinside hout).trans (hloop false).symm)).trans (hscan false).symm))
    · refine .inr ⟨?_, ?_⟩
      · rintro ⟨-, s', hs', -⟩
        rw [hdir] at hs'
        cases hs'
        exact hleft (hwalk ▸ rfl)
      · rw [← h.resolved]
        exact resolve_congr ((hscan true).trans (hsame.trans (hscan false).symm))

/-- The calls on a link: where the resolver gets to it, the kernel is given the target. -/
theorem forwarded_iff {ctx : PreloadContext} {call : Call} {rawPath p : Path} (hos : Documented os)
    (hfull : fullPath ctx call.dirfd rawPath = some (dir ++ separator :: name))
    (h : NamesLink os ctx.mountdir dir name link target)
    (hforwarded : call.forwarded os ctx rawPath = some p) :
    p = link ↔ ¬ Reaches os ctx.mountdir.path dir name := by
  have hresolve := forwarded_resolve hfull hforwarded
  obtain ⟨hreaches, htarget⟩ | ⟨hreaches, hlink⟩ := resolve_true hos h
  · have hp : p = target := (Prod.mk.inj (Option.some.inj (hresolve.symm.trans htarget))).2
    refine iff_of_false (fun he => ?_) fun hn => hn hreaches
    exact hos.noLink _ _ h.realpath (hp ▸ he ▸ h.isLink)
  · exact iff_of_true (Prod.mk.inj (Option.some.inj (hresolve.symm.trans hlink))).2 hreaches

end Links

section Inputs

theorem documented_oneLink : Documented (oneLink (text "/l") (text "/t")) where
  targets := oneLink_targets
    ⟨[text "t"], fun w hw => List.mem_singleton.mp hw ▸
      ⟨⟨by decide, by decide⟩, by decide, by decide⟩, by decide⟩ (by decide)
  noLink := by
    intro path target h
    change (if path = text "/l" then some (text "/t") else none) = some target at h
    split at h
    · rw [← Option.some.inj h]
      decide
    · cases h

theorem namesLink_oneLink :
    NamesLink (oneLink (text "/l") (text "/t")) shortMount [] (text "l") (text "/l") (text "/t") where
  absolute := rfl
  component := ⟨⟨by decide, by decide⟩, by decide, by decide⟩
  resolved := by decide +kernel
  isLink := by decide
  realpath := by decide
  external := by decide +kernel

theorem reaches_oneLink : Reaches (oneLink (text "/l") (text "/t")) shortMount.path [] (text "l") := by
  by_contra hno
  have hforwarded : Call.lstat.forwarded (oneLink (text "/l") (text "/t")) openedDir (text "/l") =
      some (text "/t") := by decide +kernel
  have hlink := (forwarded_iff documented_oneLink rfl namesLink_oneLink hforwarded).mpr hno
  exact absurd hlink (by decide)

/-- Every call on the link `/l` goes to its target `/t`. -/
theorem calls_on_target :
    Documented (oneLink (text "/l") (text "/t")) ∧
      NamesLink (oneLink (text "/l") (text "/t")) openedDir.mountdir [] (text "l") (text "/l") (text "/t") ∧
      [Call.lstat, .unlinkat AT_FDCWD 0, .readlinkat AT_FDCWD 4096, .symlinkat (text "/o") AT_FDCWD,
        .renameOld AT_FDCWD AT_FDCWD (text "/o") 0, .renameNew AT_FDCWD (text "/o") AT_FDCWD 0].map
          (Call.forwarded (oneLink (text "/l") (text "/t")) openedDir (text "/l")) =
        List.replicate 6 (some (text "/t")) ∧ text "/t" ≠ text "/l" :=
  ⟨documented_oneLink, namesLink_oneLink, by decide +kernel, by decide⟩

end Inputs

end GaoFS.SymlinkHooks
