import GaoFS.ResolveWalk
import GaoFS.FileMap
import GaoFS.GaofsFunctions

namespace GaoFS.Relativize

open Chunks ChunkStorage Resolve ResolveLexical ResolveWalk FileMap GaofsFunctions MetadataRecord
open MetadataDB MetadataKey Dirents DataOps Library.NumberText Library.Paths

def AT_FDCWD : Int32 := -100

def AT_EMPTY_PATH : Int32 := 0x1000

section Context

/-- What the hooks on paths read of the client. The environment keeps the working directory
for a later program, if it is inside of the mount directory. -/
structure PreloadContext where
  mountdir : FilePath
  cwd : Path
  envCwd : Option Path
  fileMap : OpenFileMap Opened

inductive RelativizeStatus where
  | internal
  | external
  | fdUnknown
  | fdNotADir
  deriving DecidableEq

def hasTrailingSlash (path : Path) : Bool := path.getLast? == some separator

/-- `none` is a failed assertion. -/
def prependPath (prefixPath rawPath : Path) : Option Path :=
  if hasTrailingSlash prefixPath then none else some (prefixPath ++ separator :: rawPath)

end Context

section Opened

def path : Opened → Path
  | .file path _ => path
  | .dir path _ => path

def getDir (m : OpenFileMap Opened) (dirfd : Int32) : Option Opened :=
  (m.get dirfd).filter fun
    | .file _ _ => false
    | .dir _ _ => true

end Opened

section Relativize

variable (os : Os) (ctx : PreloadContext)

/-- A relative path goes behind the working directory. -/
def relativizePath (rawPath : Path) (resolveLastLink : Bool) : Option (Bool × Path) :=
  (if rawPath.head? ≠ some separator then prependPath ctx.cwd rawPath else some rawPath).bind fun path =>
    resolve os ctx.mountdir.path path resolveLastLink

def statusOf : Option (Bool × Path) → Option (RelativizeStatus × Path) :=
  Option.map fun r => (if r.1 then .internal else .external, r.2)

def resolveStatus (path : Path) (resolveLastLink : Bool) : Option (RelativizeStatus × Path) :=
  statusOf (resolve os ctx.mountdir.path path resolveLastLink)

/-- The relative path is left as it was, here empty, where the descriptor is of no use. -/
def relativizeFdPath (dirfd : Int32) (rawPath : Path) (flags : Int32) (resolveLastLink : Bool) :
    Option (RelativizeStatus × Path) :=
  if rawPath.head? ≠ some separator then
    if dirfd = AT_FDCWD then
      (prependPath ctx.cwd rawPath).bind fun path => resolveStatus os ctx path resolveLastLink
    else
      match ctx.fileMap.get dirfd with
      | none => some (.fdUnknown, [])
      | some f =>
        if flags &&& AT_EMPTY_PATH ≠ 0 then some (.internal, path f)
        else
          match getDir ctx.fileMap dirfd with
          | none => some (.fdNotADir, [])
          | some dir =>
            resolveStatus os ctx (ctx.mountdir.path ++ path dir ++ separator :: rawPath) resolveLastLink
  else resolveStatus os ctx rawPath resolveLastLink

end Relativize

section Chdir

/-- What the system calls and the C library say: an error, or 0. `getcwd` has nothing to say
where the working directory cannot be reached. -/
structure Sys where
  chdir : Path → Int32
  fchdir : Int32 → Int32
  getcwd : Option Path
  setenv : Path → Int32
  unsetenv : Int32

variable (os : Os) (d : SimpleHashDistributor) (cl : Cluster) (sys : Sys) (ctx : PreloadContext)

/-- The result is the error of the exception, or 0. -/
def setCwd (path : Path) (internal : Bool) : Int32 × PreloadContext :=
  let chdir := sys.chdir (if internal then ctx.mountdir.path else path)
  if chdir ≠ 0 then (chdir, ctx)
  else
    let env := if internal then sys.setenv path else sys.unsetenv
    if env ≠ 0 then (env, ctx)
    else (0, { ctx with cwd := path, envCwd := if internal then some path else none })

/-- A path of GaoFS with the mount directory before it again. -/
def insertMountdir (relPath : Path) : Path :=
  let path := ctx.mountdir.path ++ relPath
  if hasTrailingSlash path then path.dropLast else path

def changeCwd (path : Path) (internal : Bool) : Option Int32 × PreloadContext :=
  let out := setCwd sys ctx path internal
  (some (-out.1), out.2)

/-- A hook without a result ends with an exception or an assertion. -/
def hookChdir (path : Path) : Option Int32 × PreloadContext :=
  match relativizePath os ctx path true with
  | none => (none, ctx)
  | some (false, relPath) => changeCwd sys ctx relPath false
  | some (true, relPath) =>
    match utilsGetMetadata d relPath cl with
    | none => (none, ctx)
    | some (.error errno) => (some (-errno), ctx)
    | some (.ok md) =>
      if S_ISDIR md.mode = false then (some (-ENOTDIR), ctx)
      else changeCwd sys ctx (insertMountdir ctx relPath) true

def hookFchdir (fd : UInt32) : Option Int32 × PreloadContext :=
  if ctx.fileMap.exist fd.toInt32 then
    match getDir ctx.fileMap fd.toInt32 with
    | none => (some (-EBADF), ctx)
    | some openDir => changeCwd sys ctx (insertMountdir ctx (path openDir)) true
  else if sys.fchdir fd.toInt32 ≠ 0 then (none, ctx)
  else if sys.unsetenv ≠ 0 then (none, ctx)
  else
    match sys.getcwd with
    | none => (none, { ctx with envCwd := none })
    | some cwd => (some 0, { ctx with cwd := cwd, envCwd := none })

end Chdir

section Spelling

variable {c : Bytes} {cs : List Bytes}

theorem isExcluded_below (hc : IsWord separator c) (rest : Path) :
    isExcluded (joined separator (c :: cs) ++ separator :: rest) =
      [text "sys", text "proc"].contains c := by
  obtain ⟨tail, htail⟩ : ∃ tail, joined separator cs ++ separator :: rest = separator :: tail := by
    cases cs with
    | nil => exact ⟨rest, rfl⟩
    | cons d ds => exact ⟨_, rfl⟩
  have hdrop : (joined separator (c :: cs) ++ separator :: rest).drop 1 = c ++ separator :: tail := by
    rw [← htail, ← List.append_assoc]
    rfl
  have hname : ∀ name : Bytes, separator ∉ name →
      ((c ++ separator :: tail).take (name ++ [separator]).length == name ++ [separator]) = (c == name) := by
    intro name hsep
    rw [Bool.eq_iff_iff, beq_iff_eq, beq_iff_eq, eq_comm, ← List.prefix_iff_eq_take,
      prefix_word_iff hsep hc.no_sep, eq_comm]
  have hsys := hname (text "sys") (by decide)
  have hproc := hname (text "proc") (by decide)
  change (([text "sys" ++ [separator], text "proc" ++ [separator]] : List Bytes).any _) = _
  rw [hdrop, List.any_cons, List.any_cons, List.any_nil, hsys, hproc]
  rfl

theorem isEmpty_trailing (path : Path) : (trailing path).isEmpty = !hasTrailingSlash path := by
  rw [Bool.eq_iff_iff, List.isEmpty_iff, trailing, List.rtakeWhile_eq_nil_iff, Bool.not_eq_true',
    hasTrailingSlash]
  cases path using List.reverseRecOn with
  | nil => exact iff_of_true (fun h => absurd rfl h) rfl
  | append_singleton xs x _ => simp

theorem hasTrailingSlash_append (xs : Path) (x : UInt8) (ys : Path) :
    hasTrailingSlash (xs ++ x :: ys) = hasTrailingSlash (x :: ys) := by
  rw [hasTrailingSlash, hasTrailingSlash, List.getLast?_append_cons]

theorem hasTrailingSlash_joined {ws : List Bytes} (h : ∀ w ∈ ws, IsWord separator w) :
    hasTrailingSlash (joined separator ws) = false := by
  cases ws using List.reverseRecOn with
  | nil => rfl
  | append_singleton ws w _ =>
    have hw := h w (List.mem_append_right ws (List.mem_singleton_self w))
    cases w using List.reverseRecOn with
    | nil => exact absurd rfl hw.ne_nil
    | append_singleton w b _ =>
      have hb : b ≠ separator := by
        rintro rfl
        exact hw.no_sep (List.mem_append_right w (List.mem_singleton_self _))
      rw [joined_concat, hasTrailingSlash_append, ← List.cons_append, hasTrailingSlash,
        List.getLast?_concat]
      simpa using hb

end Spelling

section Directory

variable {os : Os} {d : SimpleHashDistributor} {cl : Cluster} {sys : Sys}
variable {ctx ctx' : PreloadContext} {dir : CanonicalPath}

theorem isWord_components (dir : CanonicalPath) : ∀ w ∈ dir.components, IsWord separator w :=
  fun w hw => isWord_component (dir.valid w hw)

theorem isWord_below (ctx : PreloadContext) (dir : CanonicalPath) :
    ∀ w ∈ ctx.mountdir.components ++ dir.components, IsWord separator w := by
  intro w hw
  obtain hw | hw := List.mem_append.mp hw
  · exact isWord_components ctx.mountdir.toCanonicalPath w hw
  · exact isWord_components dir w hw

/-- The directory below the mount directory, without the slash of the root. -/
theorem insertMountdir_path (ctx : PreloadContext) (dir : CanonicalPath) :
    insertMountdir ctx dir.path = joined separator (ctx.mountdir.components ++ dir.components) := by
  rw [insertMountdir, path_eq_joined, CanonicalPath.path]
  by_cases hroot : dir.components = []
  · rw [if_pos hroot, hasTrailingSlash_append, hroot, List.append_nil]
    exact List.dropLast_concat
  · have hpath : dir.components.flatMap (separator :: ·) = joined separator dir.components := rfl
    rw [if_neg hroot, hpath, ← joined_append, hasTrailingSlash_joined (isWord_below ctx dir)]
    rfl

variable (os d cl sys dir) in
/-- A call that has gone into the directory. -/
inductive Entered (ctx ctx' : PreloadContext) : Prop
  | chdir (path : Path) (h : relativizePath os ctx path true = some (true, dir.path))
      (hret : hookChdir os d cl sys ctx path = (some 0, ctx'))
  | fchdir (fd : UInt32) (entries : List (Bytes × FileType))
      (h : ctx.fileMap.get fd.toInt32 = some (.dir dir.path entries))
      (hret : hookFchdir sys ctx fd = (some 0, ctx'))

theorem setCwd_zero {path : Path} {internal : Bool} (h : (setCwd sys ctx path internal).1 = 0) :
    ∃ env, (setCwd sys ctx path internal).2 = { ctx with cwd := path, envCwd := env } := by
  rw [setCwd] at h ⊢
  generalize sys.chdir (if internal then ctx.mountdir.path else path) = chdir at h ⊢
  generalize (if internal then sys.setenv path else sys.unsetenv) = env at h ⊢
  dsimp only at h ⊢
  by_cases hchdir : chdir ≠ 0
  · rw [if_pos hchdir] at h
    exact absurd h hchdir
  · rw [if_neg hchdir] at h ⊢
    by_cases henv : env ≠ 0
    · rw [if_pos henv] at h
      exact absurd h henv
    · rw [if_neg henv]
      exact ⟨_, rfl⟩

theorem neg_eq_zero_iff {x : Int32} : -x = 0 ↔ x = 0 := by
  constructor
  · intro h
    rw [← Int32.neg_neg (a := x), h]
    rfl
  · rintro rfl
    rfl

theorem changeCwd_cwd {path : Path} {internal : Bool}
    (h : changeCwd sys ctx path internal = (some 0, ctx')) :
    ctx'.mountdir = ctx.mountdir ∧ ctx'.cwd = path := by
  have hzero : (setCwd sys ctx path internal).1 = 0 :=
    neg_eq_zero_iff.mp (Option.some.inj (Prod.mk.inj h).1)
  have hctx : (setCwd sys ctx path internal).2 = ctx' := (Prod.mk.inj h).2
  obtain ⟨env, henv⟩ := setCwd_zero hzero
  rw [← hctx, henv]
  exact ⟨rfl, rfl⟩

theorem utilsGetMetadata_error {path : Path} {errno : Int32}
    (h : utilsGetMetadata d path cl = some (.error errno)) : errno ≠ 0 := by
  rw [utilsGetMetadata, forwardStat] at h
  cases hstat : rpcSrvStat ((cl (metadataHost d path)).store path) with
  | none =>
    rw [hstat] at h
    cases h
    decide
  | some out =>
    rw [hstat] at h
    dsimp only at h
    by_cases hne : out.err ≠ 0
    · rw [if_pos hne] at h
      cases h
      exact hne
    · rw [if_neg hne] at h
      dsimp only at h
      cases hdecode : Metadata.decode config (out.dbVal.getD []) with
      | ok md =>
        rw [hdecode] at h
        cases h
      | error e =>
        rw [hdecode] at h
        cases h

theorem entered_cwd (h : Entered os d cl sys dir ctx ctx') :
    ctx'.mountdir = ctx.mountdir ∧ ctx'.cwd = insertMountdir ctx dir.path := by
  cases h with
  | chdir path h hret =>
    rw [hookChdir, h] at hret
    dsimp only at hret
    cases hmd : utilsGetMetadata d dir.path cl with
    | none =>
      rw [hmd] at hret
      cases (Prod.mk.inj hret).1
    | some found =>
      rw [hmd] at hret
      cases found with
      | error errno =>
        have hneg := Option.some.inj (Prod.mk.inj hret).1
        exact absurd (neg_eq_zero_iff.mp hneg) (utilsGetMetadata_error hmd)
      | ok md =>
        dsimp only at hret
        split at hret
        · cases (Prod.mk.inj hret).1
        · exact changeCwd_cwd hret
  | fchdir fd entries h hret =>
    have hexist : ctx.fileMap.exist fd.toInt32 = true := by
      rw [OpenFileMap.exist, h]
      rfl
    have hdir : getDir ctx.fileMap fd.toInt32 = some (.dir dir.path entries) := by
      rw [getDir, h]
      rfl
    rw [hookFchdir, if_pos hexist, hdir] at hret
    exact changeCwd_cwd hret

end Directory

section Agree

variable {os : Os} {d : SimpleHashDistributor} {cl : Cluster} {sys : Sys}
variable {ctx ctx' : PreloadContext} {dir : CanonicalPath}

/-- The status, with the relative path of what is in GaoFS. -/
def told : Option (RelativizeStatus × Path) → Option (RelativizeStatus × Option Path) :=
  Option.map fun r => (r.1, if r.1 = .internal then some r.2 else none)

theorem told_congr {r r' : Option (Bool × Path)} (h : verdict r = verdict r') :
    told (statusOf r) = told (statusOf r') := by
  cases r with
  | none =>
    cases r' with
    | none => rfl
    | some found =>
      obtain ⟨internal, relative⟩ := found
      cases internal <;> cases h
  | some found =>
    obtain ⟨internal, relative⟩ := found
    cases r' with
    | none => cases internal <;> cases h
    | some found' =>
      obtain ⟨internal', relative'⟩ := found'
      cases internal with
      | false =>
        cases internal' with
        | false => rfl
        | true => cases h
      | true =>
        cases internal' with
        | false => cases h
        | true =>
          have hrelative := Option.some.inj (Option.some.inj h)
          rw [hrelative]

/-- The root of GaoFS has a slash more in the path given in full than below the working
directory. -/
theorem verdict_below (os : Os) (mountdir : FilePath) (dir : CanonicalPath) (rawPath : Path)
    (resolveLastLink : Bool) :
    verdict (resolve os mountdir.path
      (joined separator (mountdir.components ++ dir.components) ++ separator :: rawPath) resolveLastLink) =
    verdict (resolve os mountdir.path (mountdir.path ++ dir.path ++ separator :: rawPath) resolveLastLink) := by
  by_cases hroot : dir.components = []
  · obtain ⟨c, cs, hcs⟩ := List.exists_cons_of_ne_nil mountdir.components_ne
    have hc : IsWord separator c :=
      isWord_components mountdir.toCanonicalPath c (hcs ▸ List.mem_cons_self)
    have hpath : mountdir.path ++ dir.path ++ separator :: rawPath =
        joined separator (c :: cs) ++ separator :: (separator :: rawPath) := by
      rw [CanonicalPath.path.eq_1 dir, if_pos hroot, path_eq_joined, hcs, List.append_assoc]
      rfl
    have habsolute : ∀ rest : Path, isAbsolute (joined separator (c :: cs) ++ rest) = true :=
      fun rest => rfl
    rw [hpath, hroot, List.append_nil, hcs]
    apply verdict_congr os mountdir.path resolveLastLink (habsolute _) (habsolute _)
    · rw [isExcluded_below hc, isExcluded_below hc]
    · rw [words_append_sep, words_append_sep, words_sep_cons]
    · have hlast : hasTrailingSlash (separator :: separator :: rawPath) =
          hasTrailingSlash (separator :: rawPath) := hasTrailingSlash_append [separator] separator rawPath
      rw [isEmpty_trailing, isEmpty_trailing, hasTrailingSlash_append, hasTrailingSlash_append, hlast]
  · have hpath : dir.path = joined separator dir.components := if_neg hroot
    rw [hpath, path_eq_joined, joined_append]

/-- A relative path is looked up alike below an open directory, below the working directory
that a client has changed to, and below the full path of the directory. -/
theorem lookups_agree {fd : Int32} {entries : List (Bytes × FileType)} {rawPath : Path}
    {flags : Int32} (hfd : fd ≠ AT_FDCWD) (hopen : ctx.fileMap.get fd = some (.dir dir.path entries))
    (hentered : Entered os d cl sys dir ctx ctx') (hrelative : rawPath.head? ≠ some separator)
    (hflags : flags &&& AT_EMPTY_PATH = 0) (cwdFlags : Int32) (resolveLastLink : Bool) :
    let whole := ctx.mountdir.path ++ dir.path ++ separator :: rawPath
    let answer := told (statusOf (relativizePath os ctx whole resolveLastLink))
    told (relativizeFdPath os ctx fd rawPath flags resolveLastLink) = answer ∧
      told (relativizeFdPath os ctx' AT_FDCWD rawPath cwdFlags resolveLastLink) = answer ∧
      told (statusOf (relativizePath os ctx' rawPath resolveLastLink)) = answer := by
  intro whole answer
  obtain ⟨hmountdir, hcwd⟩ := entered_cwd hentered
  have hlookup : ∀ c : PreloadContext, statusOf (relativizePath os c rawPath resolveLastLink) =
      (prependPath c.cwd rawPath).bind fun path => resolveStatus os c path resolveLastLink := by
    intro c
    rw [relativizePath, if_pos hrelative]
    cases prependPath c.cwd rawPath <;> rfl
  have habsolute : whole.head? = some separator := by
    obtain ⟨c, cs, hcs⟩ := List.exists_cons_of_ne_nil ctx.mountdir.components_ne
    change (ctx.mountdir.path ++ dir.path ++ separator :: rawPath).head? = some separator
    rw [path_eq_joined, hcs]
    rfl
  have hanswer : answer = told (statusOf (resolve os ctx.mountdir.path whole resolveLastLink)) := by
    change told (statusOf (relativizePath os ctx whole resolveLastLink)) = _
    rw [relativizePath, if_neg fun hne => hne habsolute]
    rfl
  -- the working directory has no slash at its end, and the path goes behind it
  have hprepend : prependPath ctx'.cwd rawPath = some
      (joined separator (ctx.mountdir.components ++ dir.components) ++ separator :: rawPath) := by
    rw [prependPath, hcwd, insertMountdir_path, hasTrailingSlash_joined (isWord_below ctx dir),
      if_neg Bool.false_ne_true]
  have hbelow : told (statusOf (relativizePath os ctx' rawPath resolveLastLink)) = answer := by
    rw [hlookup, hprepend, Option.bind_some, hanswer]
    change told (statusOf (resolve os ctx'.mountdir.path _ resolveLastLink)) = _
    rw [hmountdir]
    exact told_congr (verdict_below os ctx.mountdir dir rawPath resolveLastLink)
  refine ⟨?_, ?_, hbelow⟩
  · have hdir : getDir ctx.fileMap fd = some (.dir dir.path entries) := by
      rw [getDir, hopen]
      rfl
    rw [relativizeFdPath, if_pos hrelative, if_neg hfd, hopen, hdir, hanswer]
    dsimp only
    rw [hflags, if_neg fun hne => hne rfl]
    rfl
  · rw [relativizeFdPath, if_pos hrelative, if_pos rfl, ← hlookup, hbelow]

def openedDir : PreloadContext where
  mountdir := shortMount
  cwd := text "/tmp"
  envCwd := none
  fileMap := (OpenFileMap.start.add (.dir (text "/d") [])).2

def obliging : Sys := ⟨fun _ => 0, fun _ => 0, none, fun _ => 0, 0⟩

theorem lookups_agree_dotdot :
    told (relativizeFdPath directories openedDir 10000 (text "../../m/./d/a") 0 true) =
        some (.internal, some (text "/d/a")) ∧
      told (relativizeFdPath directories (hookFchdir obliging openedDir 10000).2 AT_FDCWD
        (text "../../m/./d/a") 0 true) = some (.internal, some (text "/d/a")) := by
  have hopen : openedDir.fileMap.get 10000 = some (.dir (CanonicalPath.mk [text "d"] (by decide)).path []) := rfl
  have hentered : Entered directories ⟨fun _ => 0, 1, by decide⟩
      (fun _ => startedHost (text "/r")) obliging ⟨[text "d"], by decide⟩ openedDir
      (hookFchdir obliging openedDir 10000).2 := .fchdir 10000 [] hopen rfl
  have hrelative : (text "../../m/./d/a").head? ≠ some separator := by decide
  have hflags : (0 : Int32) &&& AT_EMPTY_PATH = 0 := by decide
  obtain ⟨hfd, hcwd, -⟩ := lookups_agree (by decide) hopen hentered hrelative hflags 0 true
  have hwhole : told (statusOf (relativizePath directories openedDir
      (text "/m/d/../../m/./d/a") true)) = some (.internal, some (text "/d/a")) := by decide +kernel
  exact ⟨hfd.trans hwhole, hcwd.trans hwhole⟩

end Agree

end GaoFS.Relativize
