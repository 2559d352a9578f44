import GaoFS.ChunkStorage
import GaoFS.Library.Paths

namespace GaoFS.Resolve

open Chunks ChunkStorage Library.NumberText Library.Paths

inductive Lstat where
  | failed
  | link
  | directory
  | other
  deriving DecidableEq

/-- What the operating system says of a path. -/
structure Os where
  lstat : Path → Lstat
  realpath : Path → Option Path

section Split

variable (path : Path)

def skipSeparators (start : Nat) : Nat := start + ((path.drop start).takeWhile (· == separator)).length

/-- `find`, with the end of the path for a separator that is not there. -/
def findSeparator (start : Nat) : Nat := start + ((path.drop start).takeWhile (· != separator)).length

def splitFrom : Nat → Nat → List Bytes
  | 0, _ => []
  | fuel + 1, stop =>
    if stop < path.length then
      let start := stop
      let stop := findSeparator path start
      (path.drop start).take (stop - start) :: (if stop < path.length then splitFrom fuel (stop + 1) else [])
    else []

/-- The loop passes the path once. -/
def splitPath : List Bytes := splitFrom path path.length (if path.head? = some separator then 1 else 0)

def findLastOf (s : Bytes) : Option Nat :=
  if s.contains separator then some (s.length - 1 - (s.reverse.takeWhile (· != separator)).length) else none

end Split

/-- `none` is the exception of `vector::at`. -/
def matchFrom (path : Path) (components : List Bytes) :
    Nat → Nat → UInt32 → UInt32 → Option (UInt32 × UInt32)
  | 0, _, _, _ => none
  | fuel + 1, stop, matched, processed =>
    if stop + 1 < path.length then
      let start := stop + 1
      let stop := findSeparator path start
      if matched = processed then
        components[matched.toNat]?.bind fun component =>
          matchFrom path components fuel stop
            (if (path.drop start).take (stop - start) = component then matched + 1 else matched)
            (processed + 1)
      else matchFrom path components fuel stop matched (processed + 1)
    else some (matched, processed)

def matchComponents (path : Path) (components : List Bytes) : Option (UInt32 × UInt32) :=
  matchFrom path components (path.length + 1) 0 0 0

/-- The variables of `resolve`, of which `end` is called `stop` here, with the calls of
`lstat` so far and where in the path each was made. A slash position of `none` is `npos`. -/
structure Scan where
  resolved : Path
  lastSlashPos : Option Nat
  matchedComponents : UInt32
  resolvedComponents : UInt32
  stop : Nat
  queried : List (Path × Nat)

def Scan.start : Scan := ⟨[], some 0, 0, 0, 0, []⟩

/-- How the loop is left: at its end or by `break`, by `return false`, or by an exception. -/
inductive Leave where
  | finished
  | returned
  | thrown
  deriving DecidableEq

section Components

variable (os : Os) (mntComponents : List Bytes) (path : Path) (resolveLastLink : Bool) (s : Scan)

def eraseLast : Option Scan :=
  if s.resolved = [] then some s
  else s.lastSlashPos.bind fun pos =>
    if pos ≤ s.resolved.length then
      some { s with resolved := s.resolved.take pos, lastSlashPos := findLastOf (s.resolved.take pos) }
    else none

def rollback : Scan × Option Leave :=
  match eraseLast s with
  | none => (s, some .thrown)
  | some s =>
    if 0 < s.resolvedComponents then
      ({ s with
        matchedComponents :=
          if s.matchedComponents = s.resolvedComponents then s.matchedComponents - 1
          else s.matchedComponents
        resolvedComponents := s.resolvedComponents - 1 }, none)
    else (s, none)

/-- The component has been appended outside the mount directory. -/
def inspect (s : Scan) : Scan × Option Leave :=
  match os.lstat s.resolved with
  | .failed => ({ s with resolved := s.resolved ++ path.drop s.stop }, some .returned)
  | .link =>
    if resolveLastLink = false ∧ s.stop = path.length then (s, none)
    else
      match os.realpath s.resolved with
      | none => ({ s with resolved := s.resolved ++ path.drop s.stop }, some .returned)
      | some link =>
        match matchComponents link mntComponents with
        | none => ({ s with resolved := link }, some .thrown)
        | some (matched, processed) =>
          ({ s with
            resolved := link
            matchedComponents := matched
            resolvedComponents := processed
            lastSlashPos := findLastOf link }, none)
  | .directory => ({ s with resolvedComponents := s.resolvedComponents + 1 }, none)
  | .other =>
    if s.stop ≠ path.length then
      ({ s with resolved := s.resolved ++ path.drop s.stop }, some .returned)
    else ({ s with resolvedComponents := s.resolvedComponents + 1 }, none)

def descend (component : Bytes) : Scan × Option Leave :=
  let resolved := s.resolved ++ separator :: component
  let appended := { s with resolved := resolved, lastSlashPos := some s.resolved.length }
  if s.matchedComponents.toNat < mntComponents.length then
    inspect os mntComponents path resolveLastLink { appended with
      matchedComponents :=
        if s.matchedComponents = s.resolvedComponents ∧
            mntComponents[s.matchedComponents.toNat]? = some component
        then s.matchedComponents + 1 else s.matchedComponents
      queried := s.queried ++ [(resolved, s.stop)] }
  else
    ({ appended with
      matchedComponents := s.matchedComponents + 1
      resolvedComponents := s.resolvedComponents + 1 }, none)

def takeComponent (component : Bytes) : Scan × Option Leave :=
  if component = [] then (s, some .finished)
  else if component = text "." then (s, none)
  else if component = text ".." then rollback s
  else descend os mntComponents path resolveLastLink s component

def body : Scan × Option Leave :=
  let start := skipSeparators path s.stop
  let stop := findSeparator path start
  takeComponent os mntComponents path resolveLastLink { s with stop := stop }
    ((path.drop start).take (stop - start))

def loop : Nat → Scan → Option (Scan × Leave)
  | 0, _ => none
  | fuel + 1, s =>
    let s := { s with stop := s.stop + 1 }
    if s.stop < path.length then
      match body os mntComponents path resolveLastLink s with
      | (s, none) => loop fuel s
      | (s, some leave) => some (s, leave)
    else some (s, .finished)

end Components

def excludedPaths : List Bytes := [text "sys/", text "proc/"]

def isExcluded (path : Path) : Bool :=
  excludedPaths.any fun excluded => (path.drop 1).take excluded.length == excluded

section Resolve

variable (os : Os) (mountdir path : Path) (resolveLastLink : Bool)

def scan : Option (Scan × Leave) :=
  loop os (splitPath mountdir) path resolveLastLink (path.length + 1) Scan.start

/-- Whether the path is in GaoFS, and the path that it resolves to. `none` is a failed
assertion or an exception. -/
def resolve : Option (Bool × Path) :=
  if isAbsolute path then
    if isExcluded path then some (false, path)
    else (scan os mountdir path resolveLastLink).bind fun
      | (_, .thrown) => none
      | (s, .returned) => some (false, s.resolved)
      | (s, .finished) =>
        if (splitPath mountdir).length ≤ s.matchedComponents.toNat then
          if s.resolved = [] then none
          else some (true, s.resolved.take 1 ++ s.resolved.drop (1 + mountdir.length))
        else some (false, if s.resolved = [] then [separator] else s.resolved)
  else none

end Resolve

section Positions

variable {path : Path} {stop : Nat} {c : Bytes} {ws : List Bytes}

theorem drop_skipSeparators (path : Path) (start : Nat) :
    path.drop (skipSeparators path start) = (path.drop start).dropWhile (· == separator) := by
  rw [skipSeparators, ← List.drop_drop, drop_length_takeWhile]

theorem drop_findSeparator (path : Path) (start : Nat) :
    path.drop (findSeparator path start) = (path.drop start).dropWhile (· != separator) := by
  rw [findSeparator, ← List.drop_drop, drop_length_takeWhile]

theorem component_eq (path : Path) (start : Nat) :
    (path.drop start).take (findSeparator path start - start) =
      (path.drop start).takeWhile (· != separator) := by
  rw [findSeparator, Nat.add_sub_cancel_left]
  exact (List.prefix_iff_eq_take.mp (List.takeWhile_prefix _)).symm

/-- The scan stands on a separator or at the end. -/
def AtBoundary (path : Path) (stop : Nat) : Prop :=
  ∀ x, (path.drop stop).head? = some x → x = separator

theorem words_drop_succ (h : AtBoundary path stop) :
    words separator (path.drop (stop + 1)) = words separator (path.drop stop) := by
  rw [← List.tail_drop]
  cases hdrop : path.drop stop with
  | nil => rfl
  | cons x xs =>
    have hx : x = separator := h x (by rw [hdrop, List.head?_cons])
    rw [hx, words_sep_cons, List.tail_cons]

theorem atBoundary_findSeparator (path : Path) (start : Nat) :
    AtBoundary path (findSeparator path start) := by
  intro x hx
  rw [drop_findSeparator] at hx
  have hhead := List.head?_dropWhile_not (· != separator) (path.drop start)
  rw [hx] at hhead
  simpa using hhead

/-- The next word as the loop cuts it out. -/
theorem nextWord (h : AtBoundary path stop) (hws : words separator (path.drop stop) = c :: ws) :
    let start := skipSeparators path (stop + 1)
    let next := findSeparator path start
    stop + 1 < path.length ∧ stop < next ∧ next ≤ path.length ∧ IsWord separator c ∧
      (path.drop start).take (next - start) = c ∧ words separator (path.drop next) = ws ∧
      path.take next = path.take start ++ c := by
  intro start next
  rw [← words_drop_succ h, ← words_dropWhile, ← drop_skipSeparators] at hws
  cases hrest : path.drop start with
  | nil =>
    rw [hrest, words_nil] at hws
    cases hws
  | cons x xs =>
    have hx : x ≠ separator := by
      have hhead := List.head?_dropWhile_not (· == separator) (path.drop (stop + 1))
      rw [← drop_skipSeparators, hrest] at hhead
      simpa using hhead
    obtain ⟨hword, hcons⟩ := words_cons hx xs
    rw [hrest, hcons] at hws
    obtain ⟨hc, hrest'⟩ := List.cons.inj hws
    have hlt : start < path.length := by
      by_contra hge
      rw [List.drop_of_length_le (Nat.not_lt.mp hge)] at hrest
      cases hrest
    have hstart : stop + 1 ≤ start := Nat.le_add_right _ _
    have hcomponent : (path.drop start).take (next - start) = c := by
      rw [component_eq, hrest, hc]
    have hnext : next = start + c.length := by
      rw [← hc, ← hrest]
      rfl
    have htake : path.take next = path.take start ++ c := by
      rw [hnext, List.take_add]
      rw [hnext, Nat.add_sub_cancel_left] at hcomponent
      rw [hcomponent]
    refine ⟨by omega, by omega, ?_, hc ▸ hword, hrest ▸ hcomponent, ?_, htake⟩
    · have hlen := congrArg List.length htake
      rw [List.length_take, List.length_append, List.length_take] at hlen
      omega
    · rw [drop_findSeparator, hrest, hrest']

end Positions

section Mountdir

variable {path : Path}

theorem splitFrom_cons {c : Bytes} {ws : List Bytes} {stop : Nat} (hc : IsWord separator c)
    (hdrop : path.drop stop = c ++ joined separator ws) (fuel : Nat) :
    path.drop (stop + c.length) = joined separator ws ∧ splitFrom path (fuel + 1) stop =
      c :: if stop + c.length < path.length then splitFrom path fuel (stop + c.length + 1) else [] := by
  have hlt : stop < path.length := by
    by_contra hge
    rw [List.drop_of_length_le (Nat.not_lt.mp hge)] at hdrop
    exact hc.ne_nil (List.append_eq_nil_iff.mp hdrop.symm).1
  have htake := takeWhile_joined hc ws
  rw [← hdrop] at htake
  have hnext : findSeparator path stop = stop + c.length := by rw [findSeparator, htake]
  constructor
  · rw [← List.drop_drop, hdrop, List.drop_left]
  · rw [splitFrom, if_pos hlt]
    dsimp only
    rw [component_eq, htake, hnext]

theorem splitFrom_joined (ws : List Bytes) {c : Bytes} (hws : ∀ w ∈ c :: ws, IsWord separator w)
    {fuel stop : Nat} (hfuel : ws.length < fuel) (hdrop : path.drop stop = c ++ joined separator ws) :
    splitFrom path fuel stop = c :: ws := by
  obtain ⟨fuel, rfl⟩ : ∃ n, fuel = n + 1 := ⟨fuel - 1, by omega⟩
  induction ws generalizing c stop fuel with
  | nil =>
    obtain ⟨hrest, hsplit⟩ := splitFrom_cons (hws c List.mem_cons_self) hdrop fuel
    rw [hsplit, if_neg]
    exact Nat.not_lt.mpr (List.drop_eq_nil_iff.mp hrest)
  | cons d ws ih =>
    obtain ⟨hrest, hsplit⟩ := splitFrom_cons (hws c List.mem_cons_self) hdrop fuel
    change path.drop (stop + c.length) = separator :: (d ++ joined separator ws) at hrest
    have hlt : stop + c.length < path.length := by
      by_contra hge
      rw [List.drop_of_length_le (Nat.not_lt.mp hge)] at hrest
      cases hrest
    rw [List.length_cons] at hfuel
    obtain ⟨fuel, rfl⟩ : ∃ n, fuel = n + 1 := ⟨fuel - 1, by omega⟩
    rw [hsplit, if_pos hlt, ih (fun w hw => hws w (List.mem_cons_of_mem c hw))]
    · rw [← List.drop_drop, hrest]
      rfl
    · omega

theorem isWord_component {c : Bytes} (h : Component c) : IsWord separator c := ⟨h.ne_nil, h.no_separator⟩

theorem path_eq_joined (f : FilePath) : f.path = joined separator f.components :=
  if_neg f.components_ne

/-- The components of a canonical mount directory. -/
theorem splitPath_path (f : FilePath) : splitPath f.path = f.components := by
  obtain ⟨c, ws, hcs⟩ := List.exists_cons_of_ne_nil f.components_ne
  have hlen : f.components.length ≤ (joined separator f.components).length := length_le_joined _
  rw [splitPath, path_eq_joined]
  rw [hcs] at hlen ⊢
  refine splitFrom_joined ws (fun w hw => isWord_component (f.valid w (hcs ▸ hw))) ?_ rfl
  rw [List.length_cons] at hlen
  omega

end Mountdir

end GaoFS.Resolve
