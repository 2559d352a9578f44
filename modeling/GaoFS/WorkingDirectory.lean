import GaoFS.SymlinkHooks

namespace GaoFS.WorkingDirectory

open Chunks ChunkStorage Resolve ResolveStack ResolveLexical ResolveWalk ResolveLinks Relativize
open SymlinkHooks FileMap GaofsFunctions MetadataDB DataOps Library.NumberText Library.Paths Library.Runs

section Model

/-- A machine whose kernel and C library do what they document. -/
structure Machine where
  os : Os
  sys : Sys
  targets : CanonicalTargets os
  getcwd : ∀ cwd, sys.getcwd = some cwd → Canonical cwd

/-- What the resolver takes for a path in GaoFS. Only the root ends in a slash. -/
structure InGaoFS (path : Path) : Prop where
  absolute : isAbsolute path = true
  root : hasTrailingSlash path = true → path = [separator]

/-- `init_cwd`. Without a result the process dies of an exception. -/
def initCwd (sys : Sys) (ctx : PreloadContext) : Option PreloadContext :=
  match ctx.envCwd with
  | some envCwd => some { ctx with cwd := envCwd }
  | none => sys.getcwd.map fun cwd => { ctx with cwd := cwd }

/-- A process starts with no file open. The environment is all that it has from the program
before it. -/
def startProcess (sys : Sys) (mountdir : FilePath) (envCwd : Option Path) : Option PreloadContext :=
  initCwd sys ⟨mountdir, [], envCwd, OpenFileMap.start⟩

/-- The calls on the working directory, and what the open files change by meanwhile. -/
inductive Action where
  | exec (machine : Machine)
  | files (op : Op Opened) (h : ∀ path entries, op = .add (.dir path entries) → InGaoFS path)
  | chdir (machine : Machine) (d : SimpleHashDistributor) (cl : Cluster) (path : Path)
  | fchdir (machine : Machine) (fd : UInt32)

/-- A hook without a result ends the process. -/
def afterHook (out : Option Int32 × PreloadContext) : Option PreloadContext := out.1.map fun _ => out.2

def act (ctx : PreloadContext) : Action → Option PreloadContext
  | .exec machine => startProcess machine.sys ctx.mountdir ctx.envCwd
  | .files op _ => some { ctx with fileMap := FileMap.step ctx.fileMap op }
  | .chdir machine d cl path => afterHook (hookChdir machine.os d cl machine.sys ctx path)
  | .fchdir machine fd => afterHook (hookFchdir machine.sys ctx fd)

def next (s : Option PreloadContext) (a : Action) : Option PreloadContext := s.bind fun ctx => act ctx a

/-- The first process of a run has its working directory from the kernel. -/
def run (machine : Machine) (mountdir : FilePath) (as : List Action) : Option PreloadContext :=
  as.foldl next (startProcess machine.sys mountdir none)

/-- Good for a prefix: relative paths go behind it, with a component of its own before them. -/
structure Usable (cwd : Path) : Prop where
  absolute : isAbsolute cwd = true
  noSlash : hasTrailingSlash cwd = false
  prepends : ∀ rawPath, rawPath.head? ≠ some separator → ∃ path before last,
    prependPath cwd rawPath = some path ∧
      path.splitOn separator = before ++ last :: rawPath.splitOn separator ∧ last ≠ []

end Model

section Usable

variable {cwd : Path}

theorem isAbsolute_iff (path : Path) : isAbsolute path = true ↔ ∃ rest, path = separator :: rest := by
  cases path with
  | nil => exact iff_of_false Bool.false_ne_true fun ⟨_, h⟩ => by cases h
  | cons x xs => simp [isAbsolute]

/-- The last component of a path without a slash at its end. -/
theorem exists_last (h : isAbsolute cwd = true) (hslash : hasTrailingSlash cwd = false) :
    ∃ before last, cwd = before ++ separator :: last ∧ IsWord separator last := by
  obtain ⟨rest, rfl⟩ := (isAbsolute_iff cwd).mp h
  obtain ⟨last, before, hrev, hlast⟩ :=
    List.eq_append_cons_of_mem (List.mem_reverse.mpr (List.mem_cons_self (a := separator) (l := rest)))
  have hcwd : separator :: rest = before.reverse ++ separator :: last.reverse := by
    rw [← List.reverse_reverse (separator :: rest), hrev]
    simp
  rw [hcwd] at hslash ⊢
  refine ⟨_, _, rfl, ?_, fun hmem => hlast (List.mem_reverse.mp hmem)⟩
  intro hnil
  rw [hnil, hasTrailingSlash, List.getLast?_concat] at hslash
  cases hslash

theorem usable_iff : Usable cwd ↔ isAbsolute cwd = true ∧ hasTrailingSlash cwd = false := by
  constructor
  · exact fun h => ⟨h.absolute, h.noSlash⟩
  · rintro ⟨habsolute, hslash⟩
    refine ⟨habsolute, hslash, fun rawPath _ => ?_⟩
    obtain ⟨before, last, rfl, hlast⟩ := exists_last habsolute hslash
    have hjoint : before ++ separator :: last ++ separator :: rawPath =
        before ++ separator :: (last ++ separator :: rawPath) := by simp
    refine ⟨_, before.splitOn separator, last, if_neg (by rw [hslash]; exact Bool.false_ne_true), ?_,
      hlast.ne_nil⟩
    rw [hjoint, List.splitOn_append_cons_self, List.splitOn_append_cons_self_of_not_mem hlast.no_sep]

end Usable

section Spelling

variable {os : Os} {mnt : List Bytes} {path : Path} {resolveLastLink : Bool} {s t : Scan} {p : Standing}

/-- The path that the scan holds is spelled with single slashes, but for one behind a link to
the root. -/
structure Spelled (s : Scan) (p : Standing) : Prop where
  resolved : s.resolved = p.path
  lastSlash : s.resolved ≠ [] → s.lastSlashPos = findLastOf s.resolved
  isWord : ∀ c ∈ p.components, IsWord separator c

theorem spelled_start : Spelled Scan.start Standing.start where
  resolved := rfl
  lastSlash h := absurd rfl h
  isWord _ hc := absurd hc List.not_mem_nil

theorem absolute_path (h : p.path ≠ []) : isAbsolute p.path = true := by
  obtain ⟨behindRoot, components⟩ := p
  rw [isAbsolute_iff]
  cases behindRoot with
  | true => exact ⟨_, rfl⟩
  | false =>
    cases components with
    | nil => exact absurd rfl h
    | cons c cs => exact ⟨_, rfl⟩

theorem noSlash_path (hwords : ∀ c ∈ p.components, IsWord separator c) (hne : p.components ≠ []) :
    hasTrailingSlash p.path = false := by
  have hjoined := hasTrailingSlash_joined hwords
  obtain ⟨c, cs, hcs⟩ := List.exists_cons_of_ne_nil hne
  rw [hcs] at hjoined
  rw [Standing.path, hcs]
  exact (hasTrailingSlash_append p.base separator _).trans hjoined

theorem slash_path_iff (hwords : ∀ c ∈ p.components, IsWord separator c) :
    hasTrailingSlash p.path = true ↔ p.path = [separator] := by
  constructor
  · intro h
    obtain ⟨behindRoot, components⟩ := p
    cases components with
    | nil =>
      cases behindRoot with
      | false => cases h
      | true => rfl
    | cons c cs =>
      rw [noSlash_path hwords (List.cons_ne_nil c cs)] at h
      cases h
  · intro h
    rw [h]
    rfl

/-- Cutting the path at its last slash takes the last component off, or the root. -/
theorem take_path (hwords : ∀ c ∈ p.components, IsWord separator c) (hne : p.path ≠ []) :
    ∃ (pos : Nat) (q : Standing), findLastOf p.path = some pos ∧ pos ≤ p.path.length ∧
      p.path.take pos = q.path ∧ ∀ c ∈ q.components, IsWord separator c := by
  obtain ⟨behindRoot, components⟩ := p
  cases components using List.reverseRecOn with
  | nil =>
    cases behindRoot with
    | false => exact absurd rfl hne
    | true => exact ⟨0, Standing.start, rfl, Nat.zero_le _, rfl, spelled_start.isWord⟩
  | append_singleton st c _ =>
    have hc := hwords c (List.mem_append_right _ (List.mem_singleton_self c))
    have hpath := Standing.path_concat ⟨behindRoot, st ++ [c]⟩ rfl
    have hbefore : (Standing.mk behindRoot st).path =
      (Standing.mk behindRoot (st ++ [c])).base ++ joined separator st := rfl
    refine ⟨(Standing.mk behindRoot st).path.length, ⟨behindRoot, st⟩, ?_, ?_, ?_,
      fun d hd => hwords d (List.mem_append_left _ hd)⟩
    · rw [hpath, ← hbefore, findLastOf_append _ hc.no_sep]
    · rw [hpath, ← hbefore, List.length_append]
      exact Nat.le_add_right _ _
    · rw [hpath, ← hbefore, List.take_left]

theorem Spelled.rollback (h : Spelled s p) : ∃ t q, Resolve.rollback s = (t, none) ∧ Spelled t q := by
  obtain ⟨t, q, herase, ht⟩ : ∃ t q, eraseLast s = some t ∧ Spelled t q := by
    by_cases hnil : s.resolved = []
    · exact ⟨s, p, if_pos hnil, h⟩
    · obtain ⟨pos, q, hfind, hle, htake, hwords⟩ := take_path h.isWord (h.resolved ▸ hnil)
      rw [← h.resolved] at hfind hle htake
      refine ⟨{ s with resolved := q.path, lastSlashPos := findLastOf q.path }, q, ?_,
        rfl, fun _ => rfl, hwords⟩
      rw [eraseLast, if_neg hnil, h.lastSlash hnil, hfind, Option.bind_some, if_pos hle, htake]
  rw [Resolve.rollback, herase]
  dsimp only
  split
  · exact ⟨_, q, rfl, ht.resolved, ht.lastSlash, ht.isWord⟩
  · exact ⟨t, q, rfl, ht⟩

/-- After a step the path is spelled so, or it goes on as it was written behind a component. -/
def StepSpelled (path : Path) (stop : Nat) : Scan × Option Leave → Prop
  | (t, none) => ∃ q, Spelled t q
  | (t, some .returned) => ∃ q : Standing, q.components ≠ [] ∧
      (∀ c ∈ q.components, IsWord separator c) ∧ t.resolved = q.path ++ path.drop stop
  | (_, some _) => True

theorem stepSpelled_inspect (htargets : CanonicalTargets os) (h : Spelled s p) (hne : p.components ≠ []) :
    StepSpelled path s.stop (inspect os mnt path resolveLastLink s) := by
  have hreturned : StepSpelled path s.stop
      ({ s with resolved := s.resolved ++ path.drop s.stop }, some .returned) :=
    ⟨p, hne, h.isWord, congrArg (· ++ path.drop s.stop) h.resolved⟩
  rw [inspect]
  cases os.lstat s.resolved with
  | failed => exact hreturned
  | directory => exact ⟨p, h.resolved, h.lastSlash, h.isWord⟩
  | other =>
    dsimp only
    split
    · exact hreturned
    · exact ⟨p, h.resolved, h.lastSlash, h.isWord⟩
  | link =>
    dsimp only
    split
    · exact ⟨p, h⟩
    · cases hreal : os.realpath s.resolved with
      | none => exact hreturned
      | some link =>
        obtain ⟨ws, hws, rfl, -, -⟩ := htargets.names hreal
        cases hmatch : matchComponents (rooted separator ws) mnt with
        | none => simp [hmatch, StepSpelled]
        | some counts =>
          simp only [hmatch]
          refine ⟨⟨ws.isEmpty, ws⟩, ?_, fun _ => rfl, fun w hw => (hws w hw).toIsWord⟩
          cases ws <;> rfl

theorem stepSpelled_takeComponent (htargets : CanonicalTargets os) (h : Spelled s p) {c : Bytes}
    (hc : IsWord separator c) :
    StepSpelled path s.stop (takeComponent os mnt path resolveLastLink s c) := by
  have hbelow : ∀ t : Scan, t.resolved = s.resolved ++ separator :: c →
      t.lastSlashPos = some s.resolved.length → Spelled t (p.below c) := by
    intro t hresolved hslash
    refine ⟨?_, fun _ => ?_, ?_⟩
    · rw [hresolved, h.resolved, Standing.path_below]
    · rw [hresolved, hslash, findLastOf_append _ hc.no_sep]
    · exact List.forall_mem_append.mpr ⟨h.isWord, List.forall_mem_singleton.mpr hc⟩
  have hne : (p.below c).components ≠ [] := List.append_ne_nil_of_right_ne_nil _ (List.cons_ne_nil c [])
  rw [takeComponent, if_neg hc.ne_nil]
  by_cases hdot : c = text "."
  · rw [if_pos hdot]
    exact ⟨p, h⟩
  by_cases hdotdot : c = text ".."
  · obtain ⟨t, q, hrollback, ht⟩ := h.rollback
    rw [if_neg hdot, if_pos hdotdot, hrollback]
    exact ⟨q, ht⟩
  · rw [if_neg hdot, if_neg hdotdot, descend]
    dsimp only
    split
    · exact stepSpelled_inspect htargets (hbelow _ rfl rfl) hne
    · exact ⟨p.below c, hbelow _ rfl rfl⟩

/-- How the loop leaves the path. -/
def Left (path : Path) (t : Scan) : Leave → Prop
  | .finished => ∃ q, Spelled t q
  | .returned => isAbsolute t.resolved = true ∧ hasTrailingSlash t.resolved = hasTrailingSlash path
  | .thrown => True

/-- Behind a component the path goes on with a slash, or it has ended without one. -/
theorem slash_rest {q : Standing} {n : Nat} (hwords : ∀ c ∈ q.components, IsWord separator c)
    (hne : q.components ≠ []) (hend : path.drop n = [] → hasTrailingSlash path = false) :
    isAbsolute (q.path ++ path.drop n) = true ∧
      hasTrailingSlash (q.path ++ path.drop n) = hasTrailingSlash path := by
  have hpath : q.path ≠ [] := by
    intro hnil
    exact hne ((joined_eq_nil_iff _).mp (List.append_eq_nil_iff.mp hnil).2)
  constructor
  · obtain ⟨rest, hrest⟩ := (isAbsolute_iff _).mp (absolute_path hpath)
    exact (isAbsolute_iff _).mpr ⟨rest ++ path.drop n, by rw [hrest, List.cons_append]⟩
  · cases hdrop : path.drop n with
    | nil => rw [List.append_nil, noSlash_path hwords hne, hend hdrop]
    | cons x xs =>
      have hsplit := List.take_append_drop n path
      rw [hdrop] at hsplit
      rw [hasTrailingSlash_append, ← hsplit, hasTrailingSlash_append]

theorem loop_left (htargets : CanonicalTargets os) (ws : List Bytes) {fuel : Nat}
    (hfuel : path.length - s.stop < fuel) (hboundary : AtBoundary path s.stop)
    (hws : words separator (path.drop s.stop) = ws) (h : Spelled s p) {leave : Leave}
    (hloop : loop os mnt path resolveLastLink fuel s = some (t, leave)) : Left path t leave := by
  obtain ⟨fuel, rfl⟩ : ∃ n, fuel = n + 1 := ⟨fuel - 1, by omega⟩
  induction ws generalizing s p fuel with
  | nil =>
    obtain ⟨stop, hend⟩ := loop_end os mnt resolveLastLink hboundary hws fuel
    obtain ⟨rfl, rfl⟩ := Prod.mk.inj (Option.some.inj (hloop.symm.trans hend))
    exact ⟨p, h.resolved, h.lastSlash, h.isWord⟩
  | cons c ws ih =>
    obtain ⟨stop, hlt, hle, hc, hnext, hrest, htrailing, hstep⟩ := loop_next os mnt hboundary hws
    specialize hstep resolveLastLink fuel
    have hmoved : Spelled { s with stop := stop } p := ⟨h.resolved, h.lastSlash, h.isWord⟩
    have hspelled : StepSpelled path stop (takeComponent os mnt path resolveLastLink { s with stop := stop } c) :=
      stepSpelled_takeComponent htargets hmoved hc
    have hleave : (takeComponent os mnt path resolveLastLink { s with stop := stop } c).2 ≠ some .finished :=
      takeComponent_leave hc.ne_nil _
    have hthere := takeComponent_stop os mnt path resolveLastLink { s with stop := stop } c
    rw [hstep] at hloop
    cases htake : takeComponent os mnt path resolveLastLink { s with stop := stop } c with
    | mk u left =>
      rw [htake] at hloop hspelled hleave hthere
      cases left with
      | none =>
        obtain ⟨q, hq⟩ := hspelled
        change u.stop = stop at hthere
        obtain ⟨fuel, rfl⟩ : ∃ n, fuel = n + 1 := ⟨fuel - 1, by omega⟩
        exact ih (hthere ▸ hnext) (hthere ▸ hrest) hq fuel (by omega) hloop
      | some left =>
        obtain ⟨rfl, rfl⟩ := Prod.mk.inj (Option.some.inj hloop)
        cases left with
        | finished => exact absurd rfl hleave
        | thrown => trivial
        | returned =>
          obtain ⟨q, hne, hwords, hresolved⟩ := hspelled
          have hend : path.drop stop = [] → hasTrailingSlash path = false := by
            intro hnil
            rw [hnil, words_nil] at hrest
            have hempty := List.isEmpty_iff.mpr ((htrailing hrest.symm).symm.trans hnil)
            rw [isEmpty_trailing, Bool.not_eq_true'] at hempty
            exact hempty
          rw [Left, hresolved]
          exact slash_rest hwords hne hend

end Spelling

section Resolver

variable {os : Os} {mountdir : FilePath} {path p : Path}

/-- The scan of the path ends early: a component is missing, is no directory, or is a link that
leads nowhere. -/
def GivesUp (os : Os) (mountdir : FilePath) (path : Path) : Prop :=
  (walkOf os path true mountdir.components).2 = some .returned

/-- The components of the path lead to the root directory. -/
def AtRoot (os : Os) (mountdir : FilePath) (path : Path) : Prop :=
  ∃ s, walkOf os path true mountdir.components = (s, some .finished) ∧
    (s.resolved = [] ∨ s.resolved = [separator])

/-- A path outside of GaoFS that has a slash at its end when the resolver is done. -/
def EndsInSlash (os : Os) (mountdir : FilePath) (path : Path) : Prop :=
  hasTrailingSlash path = true ∧ (isExcluded path = true ∨ GivesUp os mountdir path) ∨
    isExcluded path = false ∧ AtRoot os mountdir path

/-- Without the mount directory before it only the root is left with a slash at its end. -/
theorem inGaoFS_erased {q : Standing} (hwords : ∀ c ∈ q.components, IsWord separator c)
    (hne : q.path ≠ []) (n : Nat) : InGaoFS (q.path.take 1 ++ q.path.drop (1 + n)) := by
  have hslash := slash_path_iff hwords
  obtain ⟨rest, hrest⟩ := (isAbsolute_iff _).mp (absolute_path hne)
  rw [hrest] at hslash ⊢
  rw [Nat.add_comm, List.drop_succ_cons]
  refine ⟨rfl, fun h => ?_⟩
  cases hdrop : rest.drop n with
  | nil => rfl
  | cons x xs =>
    have hsplit := List.take_append_drop n rest
    rw [hdrop] at h hsplit
    have hlast : hasTrailingSlash (separator :: rest) = true := by
      rw [← hsplit, ← List.cons_append, hasTrailingSlash_append]
      exact (hasTrailingSlash_append [separator] x xs).symm.trans h
    rw [(List.cons.inj (hslash.mp hlast)).2, List.drop_nil] at hdrop
    cases hdrop

/-- The resolver's answers: in GaoFS only the root ends in a slash, and outside of it a path
that is not resolved to its end keeps the one it has. -/
theorem resolve_spelled (htargets : CanonicalTargets os) (habsolute : isAbsolute path = true)
    {internal : Bool} (h : resolve os mountdir.path path true = some (internal, p)) :
    (internal = true → InGaoFS p) ∧
      (internal = false → isAbsolute p = true ∧
        (hasTrailingSlash p = true ↔ EndsInSlash os mountdir path)) := by
  obtain ⟨t, leave, hscan, hwalk⟩ := scan_walk os mountdir.path true habsolute
  rw [splitPath_path] at hwalk
  have hleft : Left path t leave := by
    refine loop_left htargets (words separator path) (Nat.lt_succ_of_le (Nat.sub_le _ _)) ?_ rfl
      spelled_start hscan
    intro x hx
    rw [isAbsolute, Bool.and_eq_true, beq_iff_eq] at habsolute
    exact Option.some.inj (hx.symm.trans habsolute.2)
  rw [resolve, if_pos habsolute] at h
  cases hexcluded : isExcluded path with
  | true =>
    rw [hexcluded, if_pos rfl] at h
    obtain ⟨rfl, rfl⟩ := Prod.mk.inj (Option.some.inj h)
    simp [EndsInSlash, hexcluded, habsolute]
  | false =>
    rw [hexcluded, if_neg Bool.false_ne_true, hscan, Option.bind_some] at h
    cases leave with
    | thrown => cases h
    | returned =>
      obtain ⟨rfl, rfl⟩ := Prod.mk.inj (Option.some.inj h)
      have hgivesUp : GivesUp os mountdir path := by
        rw [GivesUp, ← hwalk]
        rfl
      have hroot : ¬ AtRoot os mountdir path := by
        rintro ⟨s, hs, -⟩
        rw [← hwalk] at hs
        cases hs
      obtain ⟨habs, hslash⟩ := hleft
      simp [EndsInSlash, hexcluded, hgivesUp, hroot, habs, hslash]
    | finished =>
      obtain ⟨q, hq⟩ := hleft
      have hgivesUp : ¬ GivesUp os mountdir path := by
        rw [GivesUp, ← hwalk]
        exact fun hg => by cases hg
      have hroot : AtRoot os mountdir path ↔ t.resolved = [] ∨ t.resolved = [separator] := by
        constructor
        · rintro ⟨s, hs, hres⟩
          rw [← hwalk] at hs
          obtain ⟨rfl, -⟩ := Prod.mk.inj hs
          exact hres
        · exact fun hres => ⟨place t, hwalk.symm, hres⟩
      rw [splitPath_path] at h
      dsimp only at h
      by_cases hin : mountdir.components.length ≤ t.matchedComponents.toNat
      · rw [if_pos hin] at h
        by_cases hnil : t.resolved = []
        · rw [if_pos hnil] at h
          cases h
        · rw [if_neg hnil] at h
          obtain ⟨rfl, rfl⟩ := Prod.mk.inj (Option.some.inj h)
          rw [hq.resolved] at hnil ⊢
          exact ⟨fun _ => inGaoFS_erased hq.isWord hnil _, fun hf => by cases hf⟩
      · rw [if_neg hin] at h
        obtain ⟨rfl, rfl⟩ := Prod.mk.inj (Option.some.inj h)
        refine ⟨fun hf => absurd hf Bool.false_ne_true, fun _ => ?_⟩
        by_cases hnil : t.resolved = []
        · simp [EndsInSlash, hexcluded, hgivesUp, hroot, hnil]
          decide
        · have hslash := slash_path_iff hq.isWord
          have habs := absolute_path (hq.resolved ▸ hnil)
          rw [← hq.resolved] at hslash habs
          simp [EndsInSlash, hexcluded, hgivesUp, hroot, hnil, habs, hslash]

/-- What leads to the root directory, where the counters of the resolver are large enough. -/
theorem atRoot_iff (htargets : CanonicalTargets os) (hfits : Fits os mountdir.components path true) :
    AtRoot os mountdir path ↔
      ∃ behindRoot, destination os mountdir.components path true = some ⟨behindRoot, []⟩ := by
  have hfollows := follows_destination htargets hfits
  rw [AtRoot]
  cases hq : destination os mountdir.components path true with
  | none =>
    rw [hq] at hfollows
    obtain ⟨t, leave, hwalk, hleave⟩ := hfollows
    rw [hwalk]
    refine iff_of_false ?_ fun ⟨_, h⟩ => by cases h
    rintro ⟨s, hs, -⟩
    exact hleave (Option.some.inj (Prod.mk.inj hs).2)
  | some q =>
    rw [hq] at hfollows
    obtain ⟨t, hwalk, hends⟩ := hfollows
    obtain ⟨behindRoot, components⟩ := q
    rw [hwalk]
    constructor
    · rintro ⟨s, hs, hroot⟩
      obtain ⟨rfl, -⟩ := Prod.mk.inj hs
      rw [hends.resolved] at hroot
      cases components with
      | nil => exact ⟨behindRoot, rfl⟩
      | cons c cs =>
        have hslash := noSlash_path (p := ⟨behindRoot, c :: cs⟩)
          (fun d hd => (hends.name d hd).toIsWord) (List.cons_ne_nil c cs)
        obtain hroot | hroot := hroot
        · have hnil := (joined_eq_nil_iff _).mp (List.append_eq_nil_iff.mp hroot).2
          cases hnil
        · rw [hroot] at hslash
          cases hslash
    · rintro ⟨b, hb⟩
      obtain ⟨rfl, rfl⟩ := Standing.mk.inj (Option.some.inj hb)
      refine ⟨t, rfl, ?_⟩
      rw [hends.resolved]
      cases behindRoot with
      | false => exact .inl rfl
      | true => exact .inr rfl

end Resolver

section Steps

variable {sys : Sys} {ctx ctx' : PreloadContext} {path : Path}

theorem usable_joined {ws : List Bytes} (h : ∀ w ∈ ws, IsWord separator w) (hne : ws ≠ []) :
    Usable (joined separator ws) := by
  have hslash := hasTrailingSlash_joined h
  obtain ⟨c, cs, rfl⟩ := List.exists_cons_of_ne_nil hne
  exact usable_iff.mpr ⟨rfl, hslash⟩

theorem usable_canonical {cwd : Path} (h : Canonical cwd) : Usable cwd ↔ cwd ≠ [separator] := by
  obtain ⟨ws, hws, rfl⟩ := h
  by_cases hnil : ws = []
  · rw [hnil]
    exact iff_of_false (fun h => by cases h.noSlash) fun h => h rfl
  · have husable := usable_joined (fun w hw => (hws w hw).toIsWord) hnil
    have hrooted : rooted separator ws = joined separator ws := if_neg hnil
    rw [hrooted]
    refine iff_of_true husable fun hroot => ?_
    rw [hroot] at husable
    cases husable.noSlash

/-- The path of a directory in GaoFS behind the mount directory. -/
theorem usable_insertMountdir (ctx : PreloadContext) (h : InGaoFS path) :
    Usable (insertMountdir ctx path) := by
  have hmount : Usable ctx.mountdir.path := by
    rw [path_eq_joined]
    exact usable_joined (isWord_components ctx.mountdir.toCanonicalPath) ctx.mountdir.components_ne
  obtain ⟨rest, rfl⟩ := (isAbsolute_iff path).mp h.absolute
  rw [insertMountdir]
  split
  · rename_i hslash
    rw [hasTrailingSlash_append] at hslash
    rw [h.root hslash, List.dropLast_concat]
    exact hmount
  · rename_i hslash
    obtain ⟨tail, htail⟩ := (isAbsolute_iff _).mp hmount.absolute
    refine usable_iff.mpr ⟨?_, Bool.not_eq_true _ ▸ hslash⟩
    rw [htail]
    rfl

/-- Every directory in the file map has been resolved into GaoFS, and the environment holds
nothing but working directories that are inside. -/
structure Kept (ctx : PreloadContext) : Prop where
  envCwd : ∀ cwd, ctx.envCwd = some cwd → Usable cwd
  dirs : ∀ fd path entries, ctx.fileMap.get fd = some (.dir path entries) → InGaoFS path

/-- The system calls of a change, into GaoFS to the mount directory. -/
def Changes (sys : Sys) (ctx : PreloadContext) (path : Path) (internal : Bool) : Prop :=
  sys.chdir (if internal then ctx.mountdir.path else path) = 0 ∧
    (if internal then sys.setenv path else sys.unsetenv) = 0

theorem changeCwd_cases (sys : Sys) (ctx : PreloadContext) (path : Path) (internal : Bool) :
    (¬ Changes sys ctx path internal ∧ (changeCwd sys ctx path internal).2 = ctx) ∨
      (Changes sys ctx path internal ∧ (changeCwd sys ctx path internal).2 =
        { ctx with cwd := path, envCwd := if internal then some path else none }) := by
  have hchange : (changeCwd sys ctx path internal).2 = (setCwd sys ctx path internal).2 := rfl
  rw [hchange, Changes, setCwd]
  generalize sys.chdir (if internal then ctx.mountdir.path else path) = chdir
  generalize (if internal then sys.setenv path else sys.unsetenv) = env
  dsimp only
  by_cases hchdir : chdir = 0
  · rw [if_neg fun hne => hne hchdir]
    by_cases henv : env = 0
    · rw [if_neg fun hne => hne henv]
      exact .inr ⟨⟨hchdir, henv⟩, rfl⟩
    · rw [if_pos henv]
      exact .inl ⟨fun h => henv h.2, rfl⟩
  · rw [if_pos hchdir]
    exact .inl ⟨fun h => hchdir h.1, rfl⟩

theorem kept_changeCwd (hkept : Kept ctx) {internal : Bool} (hpath : internal = true → Usable path) :
    Kept (changeCwd sys ctx path internal).2 := by
  obtain ⟨-, heq⟩ | ⟨-, heq⟩ := changeCwd_cases sys ctx path internal
  · rw [heq]
    exact hkept
  · rw [heq]
    refine ⟨fun cwd hcwd => ?_, hkept.dirs⟩
    cases internal with
    | false => cases hcwd
    | true => exact Option.some.inj hcwd ▸ hpath rfl

theorem usable_changeCwd (hcwd : Usable ctx.cwd) (internal : Bool) :
    Usable (changeCwd sys ctx path internal).2.cwd ↔ (Changes sys ctx path internal → Usable path) := by
  obtain ⟨hnot, heq⟩ | ⟨hchanges, heq⟩ := changeCwd_cases sys ctx path internal
  · rw [heq]
    exact iff_of_true hcwd fun h => absurd h hnot
  · rw [heq]
    exact ⟨fun h _ => h, fun h => h hchanges⟩

theorem initCwd_iff (machine : Machine) (hkept : Kept ctx) :
    (∀ ctx', initCwd machine.sys ctx = some ctx' → Usable ctx'.cwd) ↔
      (ctx.envCwd = none → machine.sys.getcwd ≠ some [separator]) := by
  rw [initCwd]
  cases henv : ctx.envCwd with
  | some cwd =>
    refine iff_of_true (fun ctx' h => ?_) fun h => by cases h
    obtain rfl := Option.some.inj h
    exact hkept.envCwd cwd henv
  | none =>
    cases hget : machine.sys.getcwd with
    | none => exact iff_of_true (fun ctx' h => by cases h) fun _ h => by cases h
    | some cwd =>
      have hcanonical := usable_canonical (machine.getcwd cwd hget)
      constructor
      · intro h _ hroot
        exact hcanonical.mp (h _ rfl) (Option.some.inj hroot)
      · intro h ctx' hctx
        obtain rfl := Option.some.inj hctx
        exact hcanonical.mpr fun hroot => h rfl (congrArg some hroot)

theorem kept_initCwd (hkept : Kept ctx) (h : initCwd sys ctx = some ctx') : Kept ctx' := by
  rw [initCwd] at h
  cases henv : ctx.envCwd with
  | some cwd =>
    rw [henv] at h
    obtain rfl := Option.some.inj h
    exact ⟨fun _ h => hkept.envCwd _ (henv.trans h), hkept.dirs⟩
  | none =>
    rw [henv] at h
    obtain ⟨cwd, -, rfl⟩ := Option.map_eq_some_iff.mp h
    exact ⟨fun _ h => hkept.envCwd _ (henv.trans h), hkept.dirs⟩

end Steps

section Runs

variable {ctx : PreloadContext}

/-- What a call must not do to the working directory. The system calls that it makes succeed. -/
def Keeps (ctx : PreloadContext) : Action → Prop
  | .exec machine => ctx.envCwd = none → machine.sys.getcwd ≠ some [separator]
  | .files _ _ => True
  | .chdir machine _ _ path => ∀ whole p, fullPath ctx AT_FDCWD path = some whole →
      resolve machine.os ctx.mountdir.path whole true = some (false, p) →
      Changes machine.sys ctx p false → ¬ EndsInSlash machine.os ctx.mountdir whole
  | .fchdir machine fd => ctx.fileMap.exist fd.toInt32 = false →
      machine.sys.fchdir fd.toInt32 = 0 → machine.sys.unsetenv = 0 → machine.sys.getcwd ≠ some [separator]

/-- What the step from a good state comes to: the rest of the state stays good, and the working
directory does on the condition. -/
def StepGood (next : Option PreloadContext) (condition : Prop) : Prop :=
  (∀ ctx', next = some ctx' → Kept ctx') ∧ ((∀ ctx', next = some ctx' → Usable ctx'.cwd) ↔ condition)

theorem stepGood_none {condition : Prop} (h : condition) : StepGood none condition := by
  constructor
  · intro ctx' hnone
    cases hnone
  · refine iff_of_true (fun ctx' hnone => ?_) h
    cases hnone

theorem stepGood_some {ctx' : PreloadContext} {condition : Prop} (hkept : Kept ctx')
    (h : Usable ctx'.cwd ↔ condition) : StepGood (some ctx') condition := by
  refine ⟨fun _ heq => Option.some.inj heq ▸ hkept, ?_⟩
  exact ⟨fun hall => h.mp (hall _ rfl), fun hc _ heq => Option.some.inj heq ▸ h.mpr hc⟩

theorem fullPath_usable (hcwd : Usable ctx.cwd) (path : Path) :
    ∃ whole, fullPath ctx AT_FDCWD path = some whole ∧ isAbsolute whole = true := by
  rw [fullPath]
  by_cases hrelative : path.head? ≠ some separator
  · obtain ⟨rest, hrest⟩ := (isAbsolute_iff _).mp hcwd.absolute
    rw [if_pos hrelative, if_pos rfl, prependPath, hcwd.noSlash, if_neg Bool.false_ne_true, hrest]
    exact ⟨_, rfl, rfl⟩
  · rw [if_neg hrelative]
    refine ⟨path, rfl, ?_⟩
    obtain ⟨rest, hrest⟩ := List.head?_eq_some_iff.mp (not_not.mp hrelative)
    exact (isAbsolute_iff _).mpr ⟨rest, hrest⟩

theorem stepGood_same {condition : Prop} (hkept : Kept ctx) (hcwd : Usable ctx.cwd) (h : condition) :
    StepGood (some ctx) condition := stepGood_some hkept (iff_of_true hcwd h)

theorem stepGood_internal (sys : Sys) {path : Path} {condition : Prop} (hkept : Kept ctx)
    (hcwd : Usable ctx.cwd) (hpath : InGaoFS path) (h : condition) :
    StepGood (afterHook (changeCwd sys ctx (insertMountdir ctx path) true)) condition := by
  have husable := usable_insertMountdir ctx hpath
  exact stepGood_some (kept_changeCwd hkept fun _ => husable)
    (iff_of_true ((usable_changeCwd hcwd true).mpr fun _ => husable) h)

theorem stepGood_chdir (machine : Machine) (d : SimpleHashDistributor) (cl : Cluster) (path : Path)
    (hkept : Kept ctx) (hcwd : Usable ctx.cwd) :
    StepGood (act ctx (.chdir machine d cl path)) (Keeps ctx (.chdir machine d cl path)) := by
  obtain ⟨whole, hwhole, habsolute⟩ := fullPath_usable hcwd path
  have hkeeps : Keeps ctx (.chdir machine d cl path) ↔
      ∀ p, resolve machine.os ctx.mountdir.path whole true = some (false, p) →
        Changes machine.sys ctx p false → ¬ EndsInSlash machine.os ctx.mountdir whole := by
    constructor
    · exact fun h p => h whole p hwhole
    · intro h whole' p hwhole'
      obtain rfl := Option.some.inj (hwhole.symm.trans hwhole')
      exact h p
  change StepGood (afterHook (hookChdir machine.os d cl machine.sys ctx path)) _
  rw [hkeeps, hookChdir, relativizePath_full hwhole]
  cases hresolve : resolve machine.os ctx.mountdir.path whole true with
  | none =>
    apply stepGood_none
    intro p hp
    cases hp
  | some found =>
    obtain ⟨internal, p⟩ := found
    obtain ⟨hin, hout⟩ := resolve_spelled machine.targets habsolute hresolve
    cases internal with
    | false =>
      obtain ⟨habs, hslash⟩ := hout rfl
      refine stepGood_some (kept_changeCwd hkept fun hf => absurd hf Bool.false_ne_true) ?_
      rw [usable_changeCwd hcwd, usable_iff, and_iff_right habs, ← Bool.not_eq_true, hslash]
      constructor
      · intro h p' hp'
        obtain rfl := (Prod.mk.inj (Option.some.inj hp')).2
        exact h
      · exact fun h => h p rfl
    | true =>
      have hcondition : ∀ p', some (true, p) = some (false, p') →
          Changes machine.sys ctx p' false → ¬ EndsInSlash machine.os ctx.mountdir whole := by
        intro p' hp'
        cases hp'
      dsimp only
      cases utilsGetMetadata d p cl with
      | none => exact stepGood_none hcondition
      | some found =>
        cases found with
        | error errno => exact stepGood_same hkept hcwd hcondition
        | ok md =>
          dsimp only
          split
          · exact stepGood_same hkept hcwd hcondition
          · exact stepGood_internal machine.sys hkept hcwd (hin rfl) hcondition

theorem stepGood_fchdir (machine : Machine) (fd : UInt32) (hkept : Kept ctx) (hcwd : Usable ctx.cwd) :
    StepGood (act ctx (.fchdir machine fd)) (Keeps ctx (.fchdir machine fd)) := by
  change StepGood (afterHook (hookFchdir machine.sys ctx fd)) _
  rw [Keeps, hookFchdir]
  cases hexist : ctx.fileMap.exist fd.toInt32 with
  | true =>
    have hcondition : true = false → machine.sys.fchdir fd.toInt32 = 0 → machine.sys.unsetenv = 0 →
        machine.sys.getcwd ≠ some [separator] := fun h => absurd h.symm Bool.false_ne_true
    rw [if_pos rfl]
    cases hdir : getDir ctx.fileMap fd.toInt32 with
    | none => exact stepGood_same hkept hcwd hcondition
    | some openDir =>
      obtain ⟨hget, hisDir⟩ := Option.filter_eq_some_iff.mp hdir
      cases openDir with
      | file path flags => cases hisDir
      | dir path entries =>
        exact stepGood_internal machine.sys hkept hcwd (hkept.dirs _ path entries hget) hcondition
  | false =>
    rw [if_neg Bool.false_ne_true]
    by_cases hfchdir : machine.sys.fchdir fd.toInt32 = 0
    · rw [if_neg fun hne => hne hfchdir]
      by_cases hunset : machine.sys.unsetenv = 0
      · rw [if_neg fun hne => hne hunset]
        cases hcwd' : machine.sys.getcwd with
        | none =>
          apply stepGood_none
          intro _ _ _ hroot
          cases hroot
        | some cwd =>
          have henv : ∀ cwd : Path, none = some cwd → Usable cwd := by
            intro _ henv
            cases henv
          refine stepGood_some ⟨henv, hkept.dirs⟩ ?_
          have hcanonical := usable_canonical (machine.getcwd cwd hcwd')
          simp [hcanonical, hfchdir, hunset]
      · rw [if_pos hunset]
        exact stepGood_none fun _ _ h => absurd h hunset
    · rw [if_pos hfchdir]
      exact stepGood_none fun _ h => absurd h hfchdir

theorem kept_fresh (mountdir : FilePath) (envCwd : Option Path)
    (henv : ∀ cwd, envCwd = some cwd → Usable cwd) : Kept ⟨mountdir, [], envCwd, OpenFileMap.start⟩ where
  envCwd := henv
  dirs _ _ _ h := by cases h

theorem stepGood_startProcess (machine : Machine) (mountdir : FilePath) {envCwd : Option Path}
    (henv : ∀ cwd, envCwd = some cwd → Usable cwd) :
    StepGood (startProcess machine.sys mountdir envCwd)
      (envCwd = none → machine.sys.getcwd ≠ some [separator]) :=
  ⟨fun _ h => kept_initCwd (kept_fresh mountdir envCwd henv) h,
    initCwd_iff machine (kept_fresh mountdir envCwd henv)⟩

theorem stepGood_files {op : Op Opened}
    (h : ∀ path entries, op = .add (.dir path entries) → InGaoFS path) (hkept : Kept ctx)
    (hcwd : Usable ctx.cwd) : StepGood (act ctx (.files op h)) True := by
  refine stepGood_some ⟨hkept.envCwd, fun fd path entries hget => ?_⟩ (iff_of_true hcwd trivial)
  obtain hadd | ⟨fd', hbefore⟩ := get_step hget
  · exact h path entries hadd
  · exact hkept.dirs fd' path entries hbefore

theorem stepGood_act (hkept : Kept ctx) (hcwd : Usable ctx.cwd) (a : Action) :
    StepGood (act ctx a) (Keeps ctx a) := by
  cases a with
  | exec machine => exact stepGood_startProcess machine ctx.mountdir hkept.envCwd
  | files op h => exact stepGood_files h hkept hcwd
  | chdir machine d cl path => exact stepGood_chdir machine d cl path hkept hcwd
  | fchdir machine fd => exact stepGood_fchdir machine fd hkept hcwd

/-- The working directory is good for a prefix all along a run, unless the process is in the
root directory, or has gone outside of GaoFS along a path that ends in a slash. -/
theorem cwd_usable_iff (machine : Machine) (mountdir : FilePath) (as : List Action) :
    (∀ p, p <+: as → ∀ ctx, run machine mountdir p = some ctx → Usable ctx.cwd) ↔
      machine.sys.getcwd ≠ some [separator] ∧
        AllSteps next (fun s a => ∀ ctx, s = some ctx → Keeps ctx a)
          (startProcess machine.sys mountdir none) as := by
  have henv : ∀ cwd : Path, none = some cwd → Usable cwd := by
    intro _ h
    cases h
  obtain ⟨hkept, hstart⟩ := stepGood_startProcess machine mountdir henv
  have hruns : (∀ ctx, startProcess machine.sys mountdir none = some ctx → Usable ctx.cwd) →
      ((∀ p, p <+: as → ∀ ctx, run machine mountdir p = some ctx → Usable ctx.cwd) ↔
        AllSteps next (fun s a => ∀ ctx, s = some ctx → Keeps ctx a)
          (startProcess machine.sys mountdir none) as) := by
    intro husable
    apply forall_prefix_iff_of (I := fun s => ∀ ctx, s = some ctx → Kept ctx ∧ Usable ctx.cwd)
      (K := fun s => ∀ ctx, s = some ctx → Usable ctx.cwd)
    · intro s a hs
      cases s with
      | none => exact iff_of_true (fun _ h => by cases h) fun _ h => by cases h
      | some ctx =>
        obtain ⟨hk, hu⟩ := hs ctx rfl
        exact (stepGood_act hk hu a).2.trans ⟨fun h _ heq => Option.some.inj heq ▸ h, fun h => h ctx rfl⟩
    · intro s a hs hnext ctx' hctx'
      refine ⟨?_, hnext ctx' hctx'⟩
      cases s with
      | none => cases hctx'
      | some ctx =>
        obtain ⟨hk, hu⟩ := hs ctx rfl
        exact (stepGood_act hk hu a).1 ctx' hctx'
    · exact fun s hs ctx hctx => (hs ctx hctx).2
    · exact fun ctx hctx => ⟨hkept ctx hctx, husable ctx hctx⟩
  constructor
  · intro h
    have husable := h [] List.nil_prefix
    exact ⟨hstart.mp husable rfl, (hruns husable).mp h⟩
  · rintro ⟨hroot, hsteps⟩
    exact (hruns (hstart.mpr fun _ => hroot)).mpr hsteps

/-- Directories everywhere, and calls that succeed. -/
def standingIn (cwd : Path) (h : Canonical cwd) : Machine where
  os := directories
  sys := ⟨fun _ => 0, fun _ => 0, some cwd, fun _ => 0, 0⟩
  targets _ _ hreal := by cases hreal
  getcwd _ hcwd := Option.some.inj hcwd ▸ h

theorem canonical_root : Canonical (text "/") := by
  refine ⟨[], fun w hw => ?_, by decide⟩
  cases hw

theorem canonical_tmp : Canonical (text "/tmp") := by
  refine ⟨[text "tmp"], fun w hw => ?_, by decide⟩
  obtain rfl := List.mem_singleton.mp hw
  exact ⟨⟨by decide, by decide⟩, by decide, by decide⟩

theorem relative_path_fails :
    let inRoot := standingIn (text "/") canonical_root
    let inTmp := standingIn (text "/tmp") canonical_tmp
    let toProc := Action.chdir inTmp ⟨fun _ => 0, 1, by decide⟩ (fun _ => startedHost (text "/r"))
      (text "/proc/self/")
    ((run inRoot shortMount []).map fun ctx =>
        (ctx.cwd, relativizePath inRoot.os ctx (text "a") true)) = some (text "/", none) ∧
      ((run inTmp shortMount [toProc]).map fun ctx =>
        (ctx.cwd, relativizePath inTmp.os ctx (text "a") true)) = some (text "/proc/self/", none) := by
  decide +kernel

end Runs

end GaoFS.WorkingDirectory
