import GaoFS.ResolveLexical

namespace GaoFS.ResolveWalk

open Chunks ChunkStorage Resolve ResolveStack ResolveLexical Library.NumberText Library.Paths

section Steps

/-- The scan without its position in the path and without the calls it has made. -/
def place (s : Scan) : Scan := { s with stop := 0, queried := [] }

/-- What a step comes to, whatever the path around the component is. Where the step
returns, the rest of the path has been appended, and nothing is kept. -/
def outcome : Scan × Option Leave → Scan × Option Leave
  | (_, some .returned) => (Scan.start, some .returned)
  | (s, leave) => (place s, leave)

/-- A path that the scan at position 0 is at the end of, or is not. -/
def behind (atEnd : Bool) : Path := if atEnd then [] else [separator]

variable (os : Os) (mnt : List Bytes) (resolveLastLink : Bool)

def step (atEnd : Bool) (s : Scan) (component : Bytes) : Scan × Option Leave :=
  outcome (takeComponent os mnt (behind atEnd) resolveLastLink (place s) component)

/-- The steps over the components of a path, which has slashes behind the last one or not. -/
def walk (slash : Bool) : List Bytes → Scan → Scan × Option Leave
  | [], s => (s, some .finished)
  | c :: ws, s =>
    match step os mnt resolveLastLink (ws.isEmpty && !slash) s c with
    | (t, none) => walk slash ws t
    | out => out

end Steps

section Forget

variable {os : Os} {mnt : List Bytes} {path : Path} {resolveLastLink atEnd : Bool} {s t : Scan}

theorem eraseLast_place (s : Scan) : eraseLast (place s) = (eraseLast s).map place := by
  by_cases hnil : s.resolved = []
  · rw [eraseLast, eraseLast, if_pos hnil]
    exact if_pos hnil
  · rw [eraseLast, eraseLast, if_neg hnil]
    refine (if_neg hnil).trans ?_
    cases hslash : s.lastSlashPos with
    | none => simp [place, hslash]
    | some pos =>
      by_cases hle : pos ≤ s.resolved.length
      · simp [place, hslash, hle]
      · simp [place, hslash, hle]

theorem outcome_rollback (s : Scan) : outcome (rollback (place s)) = outcome (rollback s) := by
  rw [rollback, rollback, eraseLast_place]
  cases eraseLast s with
  | none => rfl
  | some t =>
    by_cases hpos : 0 < t.resolvedComponents
    · simp [outcome, place, hpos]
    · simp [outcome, place, hpos]

theorem stop_behind (s : Scan) (atEnd : Bool) :
    (place s).stop = (behind atEnd).length ↔ atEnd = true := by
  cases atEnd with
  | false => exact iff_of_false Nat.zero_ne_one Bool.false_ne_true
  | true => exact iff_of_true rfl rfl

theorem outcome_inspect (hplace : place s = place t) (hend : s.stop = path.length ↔ atEnd = true)
    (hend' : t.stop = (behind atEnd).length ↔ atEnd = true) :
    outcome (inspect os mnt path resolveLastLink s) =
      outcome (inspect os mnt (behind atEnd) resolveLastLink t) := by
  have hresolved : s.resolved = t.resolved := (congrArg Scan.resolved hplace :)
  have hslash : s.lastSlashPos = t.lastSlashPos := (congrArg Scan.lastSlashPos hplace :)
  have hmatched : s.matchedComponents = t.matchedComponents := (congrArg Scan.matchedComponents hplace :)
  have hcount : s.resolvedComponents = t.resolvedComponents := (congrArg Scan.resolvedComponents hplace :)
  rw [inspect, inspect, hresolved]
  cases os.lstat t.resolved with
  | failed => rfl
  | directory => simp [outcome, place, hslash, hmatched, hcount]
  | other =>
    by_cases h : atEnd = true
    · simp [hend.mpr h, hend'.mpr h, outcome, place, hslash, hmatched, hcount]
    · simp [mt hend.mp h, mt hend'.mp h, outcome]
  | link =>
    by_cases h : resolveLastLink = false ∧ atEnd = true
    · simp [h.1, hend.mpr h.2, hend'.mpr h.2, outcome, hplace]
    · have hs : ¬ (resolveLastLink = false ∧ s.stop = path.length) := fun hs => h ⟨hs.1, hend.mp hs.2⟩
      have ht : ¬ (resolveLastLink = false ∧ t.stop = (behind atEnd).length) :=
        fun ht => h ⟨ht.1, hend'.mp ht.2⟩
      dsimp only
      rw [if_neg hs, if_neg ht]
      cases os.realpath t.resolved with
      | none => rfl
      | some link =>
        cases hmatch : matchComponents link mnt with
        | none => simp [outcome, place, hmatch, hslash, hmatched, hcount]
        | some counts => simp [outcome, place, hmatch]

theorem outcome_descend (hend : s.stop = path.length ↔ atEnd = true) (c : Bytes) :
    outcome (descend os mnt path resolveLastLink s c) =
      outcome (descend os mnt (behind atEnd) resolveLastLink (place s) c) := by
  rw [descend, descend]
  by_cases hout : s.matchedComponents.toNat < mnt.length
  · dsimp only
    rw [if_pos hout]
    refine Eq.trans ?_ (congrArg outcome (if_pos hout).symm)
    exact outcome_inspect rfl hend (stop_behind s atEnd)
  · dsimp only
    rw [if_neg hout]
    refine Eq.trans ?_ (congrArg outcome (if_neg hout).symm)
    rfl

/-- Of the path a step needs to know only whether it ends behind the component. -/
theorem outcome_takeComponent (hend : s.stop = path.length ↔ atEnd = true) (c : Bytes) :
    outcome (takeComponent os mnt path resolveLastLink s c) =
      step os mnt resolveLastLink atEnd (place s) c := by
  rw [step, takeComponent, takeComponent]
  by_cases hnil : c = []
  · rw [if_pos hnil, if_pos hnil]
    rfl
  by_cases hdot : c = text "."
  · rw [if_neg hnil, if_neg hnil, if_pos hdot, if_pos hdot]
    rfl
  by_cases hdotdot : c = text ".."
  · rw [if_neg hnil, if_neg hnil, if_neg hdot, if_neg hdot, if_pos hdotdot, if_pos hdotdot]
    exact (outcome_rollback s).symm
  · rw [if_neg hnil, if_neg hnil, if_neg hdot, if_neg hdot, if_neg hdotdot, if_neg hdotdot]
    exact outcome_descend hend c

end Forget

section Stop

variable (os : Os) (mnt : List Bytes) (path : Path) (resolveLastLink : Bool)

theorem rollback_stop (s : Scan) : (rollback s).1.stop = s.stop := by
  rw [rollback]
  cases herase : eraseLast s with
  | none => rfl
  | some t =>
    have hstop : t.stop = s.stop := by
      rw [eraseLast] at herase
      split at herase
      · rw [← Option.some.inj herase]
      · obtain ⟨pos, -, htake⟩ := Option.bind_eq_some_iff.mp herase
        split at htake
        · rw [← Option.some.inj htake]
        · cases htake
    dsimp only
    split
    · exact hstop
    · exact hstop

theorem inspect_stop (s : Scan) : (inspect os mnt path resolveLastLink s).1.stop = s.stop := by
  rw [inspect]
  cases os.lstat s.resolved with
  | failed => rfl
  | directory => rfl
  | other =>
    dsimp only
    split
    · rfl
    · rfl
  | link =>
    dsimp only
    split
    · rfl
    · cases os.realpath s.resolved with
      | none => rfl
      | some link => cases hmatch : matchComponents link mnt <;> simp [hmatch]

theorem descend_stop (s : Scan) (c : Bytes) :
    (descend os mnt path resolveLastLink s c).1.stop = s.stop := by
  rw [descend]
  dsimp only
  split
  · exact inspect_stop os mnt path resolveLastLink _
  · rfl

theorem takeComponent_stop (s : Scan) (c : Bytes) :
    (takeComponent os mnt path resolveLastLink s c).1.stop = s.stop := by
  rw [takeComponent]
  split_ifs
  · rfl
  · rfl
  · exact rollback_stop s
  · exact descend_stop os mnt path resolveLastLink s c

end Stop

section Loop

variable {os : Os} {mnt : List Bytes} {path : Path} {resolveLastLink : Bool} {s : Scan}

/-- The loop walks over the components that are left. -/
theorem loop_walk (ws : List Bytes) {fuel : Nat} (hfuel : path.length - s.stop < fuel)
    (hboundary : AtBoundary path s.stop) (hws : words separator (path.drop s.stop) = ws) :
    ∃ t leave, loop os mnt path resolveLastLink fuel s = some (t, leave) ∧
      outcome (t, some leave) =
        walk os mnt resolveLastLink (!(trailing path).isEmpty) ws (place s) := by
  obtain ⟨fuel, rfl⟩ : ∃ n, fuel = n + 1 := ⟨fuel - 1, by omega⟩
  induction ws generalizing s fuel with
  | nil =>
    obtain ⟨stop, hloop⟩ := loop_end os mnt resolveLastLink hboundary hws fuel
    exact ⟨_, _, hloop, rfl⟩
  | cons c ws ih =>
    obtain ⟨next, hlt, hle, -, hnext, hrest, htrailing, hloop⟩ := loop_next os mnt hboundary hws
    specialize hloop resolveLastLink fuel
    have hend : next = path.length ↔ (ws.isEmpty && !!(trailing path).isEmpty) = true := by
      rw [Bool.not_not, Bool.and_eq_true, List.isEmpty_iff, List.isEmpty_iff]
      constructor
      · intro heq
        have hnil : path.drop next = [] := List.drop_eq_nil_iff.mpr heq.ge
        rw [hnil, words_nil] at hrest
        exact ⟨hrest.symm, (htrailing hrest.symm).symm.trans hnil⟩
      · rintro ⟨hnil, htail⟩
        have hge := List.drop_eq_nil_iff.mp ((htrailing hnil).trans htail)
        omega
    have hstep : outcome (takeComponent os mnt path resolveLastLink { s with stop := next } c) =
        step os mnt resolveLastLink (ws.isEmpty && !!(trailing path).isEmpty) (place s) c :=
      outcome_takeComponent hend c
    have hwalk : walk os mnt resolveLastLink (!(trailing path).isEmpty) (c :: ws) (place s) =
        match outcome (takeComponent os mnt path resolveLastLink { s with stop := next } c) with
        | (t, none) => walk os mnt resolveLastLink (!(trailing path).isEmpty) ws t
        | out => out := by
      rw [hstep]
      rfl
    have hstop := takeComponent_stop os mnt path resolveLastLink { s with stop := next } c
    rw [hwalk]
    cases htake : takeComponent os mnt path resolveLastLink { s with stop := next } c with
    | mk t left =>
      rw [htake] at hloop hstop
      cases left with
      | some leave => exact ⟨t, leave, hloop, by cases leave <;> rfl⟩
      | none =>
        change t.stop = next at hstop
        obtain ⟨fuel, rfl⟩ : ∃ n, fuel = n + 1 := ⟨fuel - 1, by omega⟩
        obtain ⟨u, leave, hrun, hout⟩ := ih (hstop ▸ hnext) (hstop ▸ hrest) fuel (by omega)
        exact ⟨u, leave, hloop.trans hrun, hout⟩

/-- Before the end of the path a link is resolved in any case. -/
theorem inspect_before (hstop : s.stop ≠ path.length) :
    inspect os mnt path true s = inspect os mnt path false s := by
  rw [inspect, inspect]
  cases os.lstat s.resolved with
  | failed => rfl
  | directory => rfl
  | other => rfl
  | link =>
    have htrue : ¬ (true = false ∧ s.stop = path.length) := fun h => hstop h.2
    have hfalse : ¬ (false = false ∧ s.stop = path.length) := fun h => hstop h.2
    dsimp only
    rw [if_neg htrue, if_neg hfalse]

theorem takeComponent_before (hstop : s.stop ≠ path.length) (c : Bytes) :
    takeComponent os mnt path true s c = takeComponent os mnt path false s c := by
  have hdescend : descend os mnt path true s c = descend os mnt path false s c := by
    rw [descend, descend]
    dsimp only
    split
    · exact inspect_before hstop
    · rfl
  rw [takeComponent, takeComponent, hdescend]

theorem rollback_leave (s : Scan) : (rollback s).2 ≠ some .finished := by
  rw [rollback]
  cases eraseLast s with
  | none => exact fun h => by cases h
  | some t =>
    dsimp only
    split
    · exact fun h => by cases h
    · exact fun h => by cases h

theorem inspect_leave (s : Scan) : (inspect os mnt path resolveLastLink s).2 ≠ some .finished := by
  rw [inspect]
  cases os.lstat s.resolved with
  | failed => exact fun h => by cases h
  | directory => exact fun h => by cases h
  | other =>
    dsimp only
    split
    · exact fun h => by cases h
    · exact fun h => by cases h
  | link =>
    dsimp only
    split
    · exact fun h => by cases h
    · cases os.realpath s.resolved with
      | none => exact fun h => by cases h
      | some link => cases hmatch : matchComponents link mnt <;> simp [hmatch]

/-- Only an empty component ends the loop before the path does. -/
theorem takeComponent_leave {c : Bytes} (hc : c ≠ []) (s : Scan) :
    (takeComponent os mnt path resolveLastLink s c).2 ≠ some .finished := by
  rw [takeComponent, descend, if_neg hc]
  by_cases hdot : c = text "."
  · rw [if_pos hdot]
    exact fun h => by cases h
  by_cases hdotdot : c = text ".."
  · rw [if_neg hdot, if_pos hdotdot]
    exact rollback_leave s
  · rw [if_neg hdot, if_neg hdotdot]
    dsimp only
    split
    · exact inspect_leave _
    · exact fun h => by cases h

/-- The last component is the same scan's, whether its link is going to be resolved or not,
unless the resolver has left before. -/
theorem loop_last (os : Os) (mnt ws : List Bytes) {last : Bytes} {fuel : Nat}
    (hfuel : path.length - s.stop < fuel)
    (hboundary : AtBoundary path s.stop) (hws : words separator (path.drop s.stop) = ws ++ [last]) :
    (∃ t fuel', walk os mnt true true ws (place s) = (place t, some .finished) ∧
        path.length - t.stop < fuel' ∧ AtBoundary path t.stop ∧
        words separator (path.drop t.stop) = [last] ∧
        ∀ r, loop os mnt path r fuel s = loop os mnt path r fuel' t) ∨
      ((walk os mnt true true ws (place s)).2 ≠ some .finished ∧
        loop os mnt path true fuel s = loop os mnt path false fuel s) := by
  induction ws generalizing s fuel with
  | nil => exact .inl ⟨s, fuel, rfl, hfuel, hboundary, hws, fun _ => rfl⟩
  | cons c ws ih =>
    obtain ⟨fuel, rfl⟩ : ∃ n, fuel = n + 1 := ⟨fuel - 1, by omega⟩
    obtain ⟨next, hlt, hle, hc, hnext, hrest, -, hloop⟩ := loop_next os mnt hboundary hws
    have hstop : next ≠ path.length := by
      rintro rfl
      rw [List.drop_length, words_nil] at hrest
      exact List.append_ne_nil_of_right_ne_nil ws (List.cons_ne_nil last []) hrest.symm
    have hstep : outcome (takeComponent os mnt path true { s with stop := next } c) =
        step os mnt true false (place s) c :=
      outcome_takeComponent (iff_of_false hstop Bool.false_ne_true) c
    have hboth : ∀ r, takeComponent os mnt path r { s with stop := next } c =
        takeComponent os mnt path true { s with stop := next } c := by
      intro r
      cases r with
      | true => rfl
      | false => exact (takeComponent_before hstop c).symm
    have hwalk : walk os mnt true true (c :: ws) (place s) =
        match outcome (takeComponent os mnt path true { s with stop := next } c) with
        | (t, none) => walk os mnt true true ws t
        | out => out := by
      rw [hstep, walk, Bool.not_true, Bool.and_false]
    have hthere := takeComponent_stop os mnt path true { s with stop := next } c
    have hleave : (takeComponent os mnt path true { s with stop := next } c).2 ≠ some .finished :=
      takeComponent_leave hc.ne_nil _
    rw [hwalk]
    cases htake : takeComponent os mnt path true { s with stop := next } c with
    | mk t left =>
      rw [htake] at hthere hleave
      cases left with
      | some leave =>
        refine .inr ⟨?_, ?_⟩
        · cases leave with
          | finished => exact absurd rfl hleave
          | returned => exact fun h => by cases h
          | thrown => exact fun h => by cases h
        · rw [hloop, hloop, hboth false, htake]
      | none =>
        change t.stop = next at hthere
        have hon : ∀ r, loop os mnt path r (fuel + 1) s = loop os mnt path r fuel t := by
          intro r
          rw [hloop, hboth r, htake]
        rw [hon, hon]
        obtain ⟨u, fuel', hu, hfuel', hb, hw, hrun⟩ | ⟨hleft, heq⟩ :=
          ih (by omega : path.length - t.stop < fuel) (hthere ▸ hnext) (hthere ▸ hrest)
        · exact .inl ⟨u, fuel', hu, hfuel', hb, hw, fun r => (hon r).trans (hrun r)⟩
        · exact .inr ⟨hleft, heq⟩

end Loop

section Verdict

variable (os : Os) (mountdir path : Path) (resolveLastLink : Bool)

def walkOf (mnt : List Bytes) : Scan × Option Leave :=
  walk os mnt resolveLastLink (!(trailing path).isEmpty) (words separator path) Scan.start

/-- Whether a path is in GaoFS, and if so, the path in it. -/
def verdict : Option (Bool × Path) → Option (Option Path)
  | none => none
  | some (true, relative) => some (some relative)
  | some (false, _) => some none

/-- What the end of the walk says of the path. -/
def arrival (mountdir : Path) : Scan × Option Leave → Option (Option Path)
  | (s, some .finished) =>
    if (splitPath mountdir).length ≤ s.matchedComponents.toNat then
      if s.resolved = [] then none
      else some (some (s.resolved.take 1 ++ s.resolved.drop (1 + mountdir.length)))
    else some none
  | (_, some .returned) => some none
  | (_, _) => none

variable {path}

theorem scan_walk (h : isAbsolute path = true) :
    ∃ t leave, scan os mountdir path resolveLastLink = some (t, leave) ∧
      outcome (t, some leave) = walkOf os path resolveLastLink (splitPath mountdir) := by
  refine loop_walk (words separator path) (Nat.lt_succ_of_le (Nat.sub_le _ _)) ?_ rfl
  intro x hx
  rw [isAbsolute, Bool.and_eq_true, beq_iff_eq] at h
  exact Option.some.inj (hx.symm.trans h.2)

theorem verdict_resolve (h : isAbsolute path = true) (hincluded : isExcluded path = false) :
    verdict (resolve os mountdir path resolveLastLink) =
      arrival mountdir (walkOf os path resolveLastLink (splitPath mountdir)) := by
  obtain ⟨t, leave, hscan, hwalk⟩ := scan_walk os mountdir resolveLastLink h
  rw [resolve, if_pos h, hincluded, if_neg Bool.false_ne_true, hscan, ← hwalk, Option.bind_some]
  cases leave with
  | thrown => rfl
  | returned => rfl
  | finished =>
    change _ = if (splitPath mountdir).length ≤ t.matchedComponents.toNat then
      if t.resolved = [] then none
      else some (some (t.resolved.take 1 ++ t.resolved.drop (1 + mountdir.length)))
      else some none
    dsimp only
    by_cases hin : (splitPath mountdir).length ≤ t.matchedComponents.toNat
    · rw [if_pos hin, if_pos hin]
      split
      · rfl
      · rfl
    · rw [if_neg hin, if_neg hin]
      rfl

/-- Paths of the same components, with slashes behind them or not, are the same file. -/
theorem verdict_congr {path' : Path} (h : isAbsolute path = true) (h' : isAbsolute path' = true)
    (hexcluded : isExcluded path = isExcluded path')
    (hwords : words separator path = words separator path')
    (htrailing : (trailing path).isEmpty = (trailing path').isEmpty) :
    verdict (resolve os mountdir path resolveLastLink) =
      verdict (resolve os mountdir path' resolveLastLink) := by
  cases hincluded : isExcluded path with
  | true =>
    rw [resolve, resolve, if_pos h, if_pos h', ← hexcluded, hincluded, if_pos rfl, if_pos rfl]
    rfl
  | false =>
    rw [verdict_resolve os mountdir resolveLastLink h hincluded,
      verdict_resolve os mountdir resolveLastLink h' (hexcluded ▸ hincluded), walkOf, walkOf, hwords,
      htrailing]

end Verdict

end GaoFS.ResolveWalk
