import GaoFS.FileMap

namespace GaoFS.Descriptors

open FileMap Library.OrderedMap Library.Runs

variable {ρ κ : Type*}

def ENOTDIR : Int32 := 20

def EMFILE : Int32 := 24

/-- The open files of the process in the kernel, and the limit on their numbers. An
`unsigned int` above the largest `int` is negative here, and open to nobody. -/
structure Kernel (κ : Type*) where
  table : SortedMap Int32 κ
  limit : Int32
  nonneg : ∀ fd file, table.find fd = some file → 0 ≤ fd

namespace Kernel

def start (limit : Int32) : Kernel κ := ⟨SortedMap.empty, limit, fun _ _ h => by cases h⟩

def get (k : Kernel κ) (fd : Int32) : Option κ := k.table.find fd

def install (k : Kernel κ) (fd : Int32) (h : 0 ≤ fd) (file : κ) : Kernel κ :=
  { k with
    table := k.table.set fd (some file)
    nonneg := by
      intro fd' file' hfind
      rw [SortedMap.find_set] at hfind
      split at hfind
      · rename_i he
        exact he ▸ h
      · exact k.nonneg fd' file' hfind }

def lowestFree (k : Kernel κ) : Option Int32 :=
  ((List.range k.limit.toInt.toNat).map Int32.ofNat).find?
    (fun fd => decide (0 ≤ fd) && (k.get fd).isNone)

theorem lowestFree_spec {k : Kernel κ} {fd : Int32} (h : k.lowestFree = some fd) :
    0 ≤ fd ∧ k.get fd = none := by
  have hfree := List.find?_some h
  rw [Bool.and_eq_true, decide_eq_true_iff, Option.isNone_iff_eq_none] at hfree
  exact hfree

def allocate (k : Kernel κ) (file : κ) : Except Int32 Int32 × Kernel κ :=
  match h : k.lowestFree with
  | none => (.error EMFILE, k)
  | some fd => (.ok fd, k.install fd (lowestFree_spec h).1 file)

/-- `openat`, which finds a file or fails. -/
def openat (k : Kernel κ) : Except Int32 κ → Except Int32 Int32 × Kernel κ
  | .error e => (.error e, k)
  | .ok file => k.allocate file

def dup (k : Kernel κ) (oldfd : Int32) : Except Int32 Int32 × Kernel κ :=
  match k.get oldfd with
  | none => (.error EBADF, k)
  | some file => k.allocate file

def dup2 (k : Kernel κ) (oldfd newfd : Int32) : Except Int32 Int32 × Kernel κ :=
  match k.get oldfd with
  | none => (.error EBADF, k)
  | some file =>
    if oldfd = newfd then (.ok newfd, k)
    else if h : 0 ≤ newfd ∧ newfd < k.limit then (.ok newfd, k.install newfd h.1 file)
    else (.error EBADF, k)

def close (k : Kernel κ) (fd : Int32) : Except Int32 Int32 × Kernel κ :=
  match k.get fd with
  | none => (.error EBADF, k)
  | some _ => (.ok 0, { k with
      table := k.table.set fd none
      nonneg := by
        intro fd' file hfind
        rw [SortedMap.find_set] at hfind
        split at hfind
        · cases hfind
        · exact k.nonneg fd' file hfind })

end Kernel

/-- The descriptors that the client keeps to itself, the highest below `MAX_OPEN_FDS`.
A bit is set where the descriptor is not taken. -/
structure InternalFds where
  maxOpenFds : Int32
  bits : List Bool

/-- `none` is the exception of `bitset::test` behind the last bit. -/
def InternalFds.isInternalFd (i : InternalFds) (fd : Int32) : Option Bool :=
  let minInternalFd := i.maxOpenFds - Int32.ofNat i.bits.length
  if fd < minInternalFd then some false
  else i.bits[(fd.toInt - minInternalFd.toInt).toNat]?.map (!·)

structure Process (ρ κ : Type*) where
  fileMap : OpenFileMap ρ
  kernel : Kernel κ
  internalFds : InternalFds
  errno : Int32

/-- The file of the client if there is one, and else that of the kernel. -/
def Process.denotes (s : Process ρ κ) (fd : Int32) : Option (ρ ⊕ κ) :=
  match s.fileMap.get fd with
  | some f => some (.inl f)
  | none => (s.kernel.get fd).map .inr

section Hooks

def withErrno (errno ret : Int32) : Int32 := if ret < 0 then -errno else ret

/-- `syscall_no_intercept`, with an error below zero. -/
def noIntercept (s : Process ρ κ) (out : Except Int32 Int32 × Kernel κ) : Int32 × Process ρ κ :=
  (match out.1 with
    | .ok ret => ret
    | .error e => -e,
   { s with kernel := out.2 })

/-- Where a path leads to, and what there is to open. `gaofs_open` leaves an `errno`. -/
inductive Relativized (ρ κ : Type*) where
  | fdUnknown (opened : Except Int32 κ)
  | external (opened : Except Int32 κ)
  | fdNotADir
  | internal (opened : Option ρ) (errno : Int32)

/-- A hook that does not come back has no result. -/
def hookOpenat (s : Process ρ κ) : Relativized ρ κ → Option Int32 × Process ρ κ
  | .fdUnknown opened | .external opened =>
    let out := noIntercept s (s.kernel.openat opened)
    (some out.1, out.2)
  | .fdNotADir => (some (-ENOTDIR), s)
  | .internal none errno => (some (withErrno errno (-1)), { s with errno := errno })
  | .internal (some f) errno =>
    let out := s.fileMap.add f
    (out.1.map (withErrno errno), { s with fileMap := out.2, errno := errno })

def hookClose (s : Process ρ κ) (fd : Int32) : Option Int32 × Process ρ κ :=
  if s.fileMap.exist fd then (some 0, { s with fileMap := (s.fileMap.remove fd).2 })
  else
    match s.internalFds.isInternalFd fd with
    | none => (none, s)
    | some true => (some 0, s)
    | some false =>
      let out := noIntercept s (s.kernel.close fd)
      (some out.1, out.2)

/-- What `gaofs_dup` and `gaofs_dup2` make of a call of the map. -/
def gaofsResult (s : Process ρ κ) : Except Int32 Int32 × OpenFileMap ρ → Int32 × Process ρ κ
  | (.ok fd, m) => (withErrno s.errno fd, { s with fileMap := m })
  | (.error e, m) => (withErrno e (-1), { s with fileMap := m, errno := e })

def hookDup (s : Process ρ κ) (fd : UInt32) : Option Int32 × Process ρ κ :=
  let fd := fd.toInt32
  if s.fileMap.exist fd then
    match s.fileMap.dup fd with
    | (none, m) => (none, { s with fileMap := m })
    | (some r, m) =>
      let out := gaofsResult s (r, m)
      (some out.1, out.2)
  else
    let out := noIntercept s (s.kernel.dup fd)
    (some out.1, out.2)

def hookDup2 (s : Process ρ κ) (oldfd newfd : UInt32) : Int32 × Process ρ κ :=
  let oldfd := oldfd.toInt32
  let newfd := newfd.toInt32
  if s.fileMap.exist oldfd then gaofsResult s (s.fileMap.dup2 oldfd newfd)
  else noIntercept s (s.kernel.dup2 oldfd newfd)

end Hooks

inductive Call (ρ κ : Type*) where
  | openat (found : Relativized ρ κ)
  | dup (fd : UInt32)
  | dup2 (oldfd newfd : UInt32)
  | close (fd : Int32)

def step (s : Process ρ κ) : Call ρ κ → Process ρ κ
  | .openat found => (hookOpenat s found).2
  | .dup fd => (hookDup s fd).2
  | .dup2 oldfd newfd => (hookDup2 s oldfd newfd).2
  | .close fd => (hookClose s fd).2

/-- The call comes back with the descriptor. -/
def Assigns (s : Process ρ κ) (fd : Int32) : Call ρ κ → Prop
  | .openat found => (hookOpenat s found).1 = some fd
  | .dup oldfd => (hookDup s oldfd).1 = some fd
  | .dup2 oldfd newfd => 0 ≤ (hookDup2 s oldfd newfd).1 ∧ newfd.toInt32 = fd
  | .close _ => False

/-- The law of descriptors in a run: after a `dup2` that succeeds the new descriptor
denotes what the old one did and the others what they did, and after a `close` that
comes back the descriptor denotes nothing as long as no call assigns it. -/
structure Lawful (s : Process ρ κ) (calls : List (Call ρ κ)) : Prop where
  dup2 : ∀ p oldfd newfd q, calls = p ++ .dup2 oldfd newfd :: q →
    let t := p.foldl step s
    0 ≤ (hookDup2 t oldfd newfd).1 →
      (hookDup2 t oldfd newfd).2.denotes newfd.toInt32 = t.denotes oldfd.toInt32 ∧
      ∀ fd, fd ≠ newfd.toInt32 → (hookDup2 t oldfd newfd).2.denotes fd = t.denotes fd
  close : ∀ p fd q r, calls = p ++ .close fd :: (q ++ r) → 0 ≤ fd →
    let t := p.foldl step s
    (hookClose t fd).1.isSome →
      AllSteps step (fun s call => ¬ Assigns s fd call) (hookClose t fd).2 q →
      (q.foldl step (hookClose t fd).2).denotes fd = none

/-- A call that looks at one of two entries: a `dup2` in the kernel onto a descriptor of
the client, and a `close` where the kernel has a file behind that of the client, or one
that is the client's own. -/
def Shadowed (s : Process ρ κ) : Call ρ κ → Prop
  | .dup2 oldfd newfd =>
    s.fileMap.get oldfd.toInt32 = none ∧ (s.kernel.get oldfd.toInt32).isSome ∧
      0 ≤ newfd.toInt32 ∧ newfd.toInt32 < s.kernel.limit ∧ (s.fileMap.get newfd.toInt32).isSome
  | .close fd =>
    (s.kernel.get fd).isSome ∧
      ((s.fileMap.get fd).isSome ∨ s.internalFds.isInternalFd fd = some true)
  | _ => False

section Tables

variable {k : Kernel κ} {fd : Int32}

theorem Kernel.get_install (h : 0 ≤ fd) (file : κ) (fd' : Int32) :
    (k.install fd h file).get fd' = if fd' = fd then some file else k.get fd' :=
  SortedMap.find_set _ _ _ _

theorem Kernel.get_allocate_of_ne (file : κ) (h : (k.allocate file).1 ≠ .ok fd) :
    (k.allocate file).2.get fd = k.get fd := by
  unfold allocate at h ⊢
  split at h
  · rfl
  · rename_i fd' hfree
    have hne : fd ≠ fd' := fun he => h (congrArg Except.ok he.symm)
    exact (get_install (lowestFree_spec hfree).1 file fd).trans (if_neg hne)

theorem Kernel.get_dup_of_ne {oldfd : Int32} (h : (k.dup oldfd).1 ≠ .ok fd) :
    (k.dup oldfd).2.get fd = k.get fd := by
  cases hold : k.get oldfd with
  | none => rw [dup, hold]
  | some file =>
    rw [dup, hold] at h ⊢
    exact get_allocate_of_ne file h

theorem Kernel.get_close (fd' : Int32) :
    (k.close fd).2.get fd' = if fd' = fd then none else k.get fd' := by
  cases hget : k.get fd with
  | none =>
    have hclose : (k.close fd).2 = k := by rw [close, hget]
    rw [hclose]
    split
    · rename_i he
      rw [he, hget]
    · rfl
  | some file =>
    have hclose : (k.close fd).2.table = k.table.set fd none := by rw [close, hget]
    rw [get, hclose]
    exact SortedMap.find_set _ _ _ _

/-- A `dup2` of the kernel succeeds, or it leaves the table as it is. -/
theorem Kernel.dup2_cases (k : Kernel κ) (oldfd newfd : Int32) :
    (k.dup2 oldfd newfd = (.error EBADF, k) ∧
      ¬ ((k.get oldfd).isSome ∧ oldfd ≠ newfd ∧ 0 ≤ newfd ∧ newfd < k.limit)) ∨
    ((k.dup2 oldfd newfd).1 = .ok newfd ∧
      (k.get oldfd).isSome ∧ (oldfd = newfd ∨ 0 ≤ newfd ∧ newfd < k.limit) ∧
      ∀ fd, (k.dup2 oldfd newfd).2.get fd = if fd = newfd then k.get oldfd else k.get fd) := by
  cases hold : k.get oldfd with
  | none =>
    left
    rw [dup2, hold]
    exact ⟨rfl, fun h => by cases h.1⟩
  | some file =>
    rw [dup2, hold]
    dsimp only
    by_cases hsame : oldfd = newfd
    · right
      rw [if_pos hsame]
      refine ⟨rfl, rfl, .inl hsame, fun fd => ?_⟩
      split
      · rename_i he
        rw [he, ← hsame, hold]
      · rfl
    · rw [if_neg hsame]
      by_cases hrange : 0 ≤ newfd ∧ newfd < k.limit
      · right
        rw [dif_pos hrange]
        exact ⟨rfl, rfl, .inr hrange, fun fd => get_install hrange.1 file fd⟩
      · left
        rw [dif_neg hrange]
        exact ⟨rfl, fun h => hrange h.2.2⟩

end Tables

section Denotes

variable {s t : Process ρ κ} {fd : Int32}

theorem denotes_client {f : ρ} (h : s.fileMap.get fd = some f) : s.denotes fd = some (.inl f) := by
  rw [Process.denotes, h]

theorem denotes_kernel (h : s.fileMap.get fd = none) :
    s.denotes fd = (s.kernel.get fd).map .inr := by
  rw [Process.denotes, h]

theorem denotes_congr (hmap : t.fileMap.get fd = s.fileMap.get fd)
    (hkernel : t.kernel.get fd = s.kernel.get fd) : t.denotes fd = s.denotes fd := by
  rw [Process.denotes, Process.denotes, hmap, hkernel]

theorem denotes_eq_none :
    s.denotes fd = none ↔ s.fileMap.get fd = none ∧ s.kernel.get fd = none := by
  cases h : s.fileMap.get fd with
  | none => rw [denotes_kernel h, Option.map_eq_none_iff, and_iff_right rfl]
  | some f =>
    rw [denotes_client h]
    exact ⟨nofun, nofun⟩

end Denotes

section Steps

variable {s : Process ρ κ}

theorem withErrno_of_nonneg {errno fd : Int32} (h : 0 ≤ fd) : withErrno errno fd = fd :=
  if_neg (Int32.not_lt.mpr h)

theorem gaofsResult_tables (r : Except Int32 Int32) (m : OpenFileMap ρ) :
    (gaofsResult s (r, m)).2.fileMap = m ∧ (gaofsResult s (r, m)).2.kernel = s.kernel := by
  cases r <;> exact ⟨rfl, rfl⟩

/-- The client's `dup2` is right whatever the kernel has. -/
theorem hookDup2_client {oldfd newfd : UInt32} {f : ρ}
    (hold : s.fileMap.get oldfd.toInt32 = some f) :
    (hookDup2 s oldfd newfd).2.denotes newfd.toInt32 = s.denotes oldfd.toInt32 ∧
      ∀ fd, fd ≠ newfd.toInt32 → (hookDup2 s oldfd newfd).2.denotes fd = s.denotes fd := by
  have hexist : s.fileMap.exist oldfd.toInt32 = true := exist_iff.mpr ⟨f, hold⟩
  rw [hookDup2]
  simp only [if_pos hexist]
  obtain ⟨hmap, hkernel⟩ := gaofsResult_tables (s := s)
    (s.fileMap.dup2 oldfd.toInt32 newfd.toInt32).1 (s.fileMap.dup2 oldfd.toInt32 newfd.toInt32).2
  by_cases hsame : oldfd.toInt32 = newfd.toInt32
  · have hdup : s.fileMap.dup2 oldfd.toInt32 newfd.toInt32 = (.ok newfd.toInt32, s.fileMap) := by
      rw [OpenFileMap.dup2, hold]
      exact if_pos hsame
    rw [hdup, hsame]
    exact ⟨rfl, fun fd _ => rfl⟩
  · have hget := fun fd => get_dup2 hold hsame fd
    constructor
    · rw [denotes_client hold]
      apply denotes_client
      rw [hmap, hget, if_pos rfl]
    · intro fd hfd
      apply denotes_congr
      · rw [hmap, hget, if_neg hfd]
      · rw [hkernel]

theorem hookDup2_client_result {oldfd newfd : UInt32} {f : ρ}
    (hold : s.fileMap.get oldfd.toInt32 = some f) (hnew : 0 ≤ newfd.toInt32) :
    (hookDup2 s oldfd newfd).1 = newfd.toInt32 := by
  have hexist : s.fileMap.exist oldfd.toInt32 = true := exist_iff.mpr ⟨f, hold⟩
  have hdup : (s.fileMap.dup2 oldfd.toInt32 newfd.toInt32).1 = .ok newfd.toInt32 := by
    rw [OpenFileMap.dup2, hold]
    dsimp only
    split <;> rfl
  rw [hookDup2]
  simp only [if_pos hexist]
  rw [← Prod.eta (s.fileMap.dup2 oldfd.toInt32 newfd.toInt32), hdup]
  exact withErrno_of_nonneg hnew

theorem hookDup2_kernel {oldfd newfd : UInt32} (hold : s.fileMap.get oldfd.toInt32 = none) :
    hookDup2 s oldfd newfd = noIntercept s (s.kernel.dup2 oldfd.toInt32 newfd.toInt32) := by
  have hexist : ¬ s.fileMap.exist oldfd.toInt32 = true := by
    rw [OpenFileMap.exist, hold]
    exact Bool.false_ne_true
  exact if_neg hexist

theorem dup2_lawful_iff (oldfd newfd : UInt32) :
    (0 ≤ (hookDup2 s oldfd newfd).1 →
      (hookDup2 s oldfd newfd).2.denotes newfd.toInt32 = s.denotes oldfd.toInt32 ∧
      ∀ fd, fd ≠ newfd.toInt32 → (hookDup2 s oldfd newfd).2.denotes fd = s.denotes fd) ↔
    ¬ Shadowed s (.dup2 oldfd newfd) := by
  cases hold : s.fileMap.get oldfd.toInt32 with
  | some f =>
    have hclear : ¬ Shadowed s (.dup2 oldfd newfd) := fun h => by
      rw [Shadowed, hold] at h
      cases h.1
    exact ⟨fun _ => hclear, fun _ _ => hookDup2_client hold⟩
  | none =>
    rw [hookDup2_kernel hold]
    obtain ⟨hdup, hfails⟩ | ⟨hret, hopen, hrange, hget⟩ :=
      s.kernel.dup2_cases oldfd.toInt32 newfd.toInt32
    · -- the kernel refuses, and so nothing is promised
      constructor
      · rintro - ⟨-, hopen, hnonneg, hlimit, hused⟩
        refine hfails ⟨hopen, ?_, hnonneg, hlimit⟩
        intro hsame
        rw [← hsame, hold] at hused
        cases hused
      · intro _ hpos
        have herror : (noIntercept s (s.kernel.dup2 oldfd.toInt32 newfd.toInt32)).1 = -EBADF := by
          rw [hdup]
          rfl
        rw [herror] at hpos
        exact absurd hpos (by decide)
    · have hresult : (noIntercept s (s.kernel.dup2 oldfd.toInt32 newfd.toInt32)).1 = newfd.toInt32 := by
        rw [noIntercept, hret]
      rw [hresult]
      constructor
      · rintro h ⟨-, -, hnonneg, -, hused⟩
        -- the file of the client hides that of the kernel
        obtain ⟨g, hg⟩ := Option.isSome_iff_exists.mp hused
        obtain ⟨file, hfile⟩ := Option.isSome_iff_exists.mp hopen
        have hshown : (noIntercept s (s.kernel.dup2 oldfd.toInt32 newfd.toInt32)).2.denotes
            newfd.toInt32 = some (.inl g) := denotes_client hg
        have hhidden := hshown.symm.trans (h hnonneg).1
        rw [denotes_kernel hold, hfile] at hhidden
        cases hhidden
      · intro hclear hnonneg
        have hnew : s.fileMap.get newfd.toInt32 = none := by
          by_contra hused
          obtain hsame | ⟨-, hlimit⟩ := hrange
          · exact hused (hsame ▸ hold)
          · exact hclear ⟨hold, hopen, hnonneg, hlimit, Option.isSome_iff_ne_none.mpr hused⟩
        constructor
        · rw [denotes_kernel hold]
          have hshown : (noIntercept s (s.kernel.dup2 oldfd.toInt32 newfd.toInt32)).2.denotes
              newfd.toInt32 = _ := denotes_kernel hnew
          rw [hshown]
          exact congrArg _ ((hget _).trans (if_pos rfl))
        · exact fun fd hfd => denotes_congr rfl ((hget fd).trans (if_neg hfd))

theorem hookClose_client {fd : Int32} (h : s.fileMap.exist fd = true) :
    hookClose s fd = (some 0, { s with fileMap := (s.fileMap.remove fd).2 }) := if_pos h

/-- A `close` that does not get to the kernel is right if the kernel has nothing there. -/
theorem kept_kernel_iff {t : Process ρ κ} {fd : Int32} (hmap : t.fileMap.get fd = none)
    (hkernel : t.kernel.get fd = s.kernel.get fd)
    (hkept : (s.fileMap.get fd).isSome ∨ s.internalFds.isInternalFd fd = some true) :
    t.denotes fd = none ↔ ¬ Shadowed s (.close fd) := by
  rw [denotes_eq_none, hkernel, and_iff_right hmap]
  constructor
  · rintro hnone ⟨hopen, -⟩
    rw [hnone] at hopen
    cases hopen
  · intro hclear
    by_contra hopen
    exact hclear ⟨Option.isSome_iff_ne_none.mpr hopen, hkept⟩

theorem not_shadowed_close {fd : Int32} (hmap : s.fileMap.get fd = none)
    (hinternal : s.internalFds.isInternalFd fd ≠ some true) : ¬ Shadowed s (.close fd) := by
  rintro ⟨-, hused | htrue⟩
  · rw [hmap] at hused
    cases hused
  · exact hinternal htrue

theorem close_lawful_iff (fd : Int32) :
    ((hookClose s fd).1.isSome → (hookClose s fd).2.denotes fd = none) ↔
      ¬ Shadowed s (.close fd) := by
  cases hmap : s.fileMap.get fd with
  | some f =>
    have hused : (s.fileMap.get fd).isSome = true := by rw [hmap, Option.isSome_some]
    have hremoved : (s.fileMap.remove fd).2.get fd = none := (get_remove fd).trans (if_pos rfl)
    rw [hookClose_client (exist_iff.mpr ⟨f, hmap⟩), Option.isSome_some, forall_prop_of_true rfl]
    exact kept_kernel_iff hremoved rfl (.inl hused)
  | none =>
    have hexist : ¬ s.fileMap.exist fd = true := by
      rw [OpenFileMap.exist, hmap]
      exact Bool.false_ne_true
    rw [hookClose, if_neg hexist]
    cases hinternal : s.internalFds.isInternalFd fd with
    | none =>
      have hclear : ¬ Shadowed s (.close fd) := not_shadowed_close hmap (by rw [hinternal]; decide)
      exact ⟨fun _ => hclear, fun _ h => by cases h⟩
    | some isInternal =>
      cases isInternal with
      | true =>
        dsimp only
        rw [Option.isSome_some, forall_prop_of_true rfl]
        exact kept_kernel_iff hmap rfl (.inr hinternal)
      | false =>
        have hclear : ¬ Shadowed s (.close fd) := not_shadowed_close hmap (by rw [hinternal]; decide)
        refine ⟨fun _ => hclear, fun _ _ => ?_⟩
        exact denotes_eq_none.mpr ⟨hmap, (Kernel.get_close fd).trans (if_pos rfl)⟩

/-- The kernel gives out a descriptor, or its table is as it was. -/
theorem denotes_noIntercept {fd : Int32} (h : s.denotes fd = none)
    {out : Except Int32 Int32 × Kernel κ} (hout : out.1 ≠ .ok fd → out.2.get fd = s.kernel.get fd)
    (hret : (noIntercept s out).1 ≠ fd) : (noIntercept s out).2.denotes fd = none := by
  have hne : out.1 ≠ .ok fd := by
    intro he
    apply hret
    rw [noIntercept, he]
  obtain ⟨hmap, hkernel⟩ := denotes_eq_none.mp h
  exact denotes_eq_none.mpr ⟨hmap, (hout hne).trans hkernel⟩

theorem denotes_openat {fd : Int32} (h : s.denotes fd = none) (hfd : 0 ≤ fd)
    (found : Relativized ρ κ) (hret : (hookOpenat s found).1 ≠ some fd) :
    (hookOpenat s found).2.denotes fd = none := by
  have hkernel : ∀ opened : Except Int32 κ,
      (noIntercept s (s.kernel.openat opened)).1 ≠ fd →
      (noIntercept s (s.kernel.openat opened)).2.denotes fd = none := by
    intro opened
    cases opened with
    | error e => exact fun _ => h
    | ok file => exact denotes_noIntercept h (Kernel.get_allocate_of_ne file)
  match found, hret with
  | .fdUnknown opened, hret => exact hkernel opened fun he => hret (congrArg some he)
  | .external opened, hret => exact hkernel opened fun he => hret (congrArg some he)
  | .fdNotADir, _ => exact h
  | .internal none errno, _ => exact h
  | .internal (some f) errno, hret =>
    have hne : (s.fileMap.add f).1 ≠ some fd := by
      intro he
      apply hret
      change (s.fileMap.add f).1.map (withErrno errno) = some fd
      rw [he, Option.map_some, withErrno_of_nonneg hfd]
    obtain ⟨hmap, hkernel⟩ := denotes_eq_none.mp h
    exact denotes_eq_none.mpr ⟨(get_add_of_ne f hne).trans hmap, hkernel⟩

theorem denotes_dup {fd : Int32} (h : s.denotes fd = none) (hfd : 0 ≤ fd) (oldfd : UInt32)
    (hret : (hookDup s oldfd).1 ≠ some fd) : (hookDup s oldfd).2.denotes fd = none := by
  obtain ⟨hmap, hkernel⟩ := denotes_eq_none.mp h
  rw [hookDup] at hret ⊢
  dsimp only at hret ⊢
  split
  · rename_i hexist
    rw [if_pos hexist] at hret
    have hget := get_dup_of_ne (m := s.fileMap) oldfd.toInt32 (k := fd)
    split
    · rename_i m hdup
      rw [hdup] at hget
      exact denotes_eq_none.mpr ⟨(hget nofun).trans hmap, hkernel⟩
    · rename_i r m hdup
      rw [hdup] at hget hret
      have hne : some r ≠ some (.ok fd) := by
        intro he
        obtain rfl := Option.some.inj he
        exact hret (congrArg some (withErrno_of_nonneg hfd))
      obtain ⟨hm, hk⟩ := gaofsResult_tables (s := s) r m
      exact denotes_eq_none.mpr ⟨by rw [hm, hget hne, hmap], by rw [hk, hkernel]⟩
  · rename_i hexist
    rw [if_neg hexist] at hret
    exact denotes_noIntercept h Kernel.get_dup_of_ne fun he => hret (congrArg some he)

theorem denotes_dup2 {fd : Int32} (h : s.denotes fd = none) (hfd : 0 ≤ fd) (oldfd newfd : UInt32)
    (hret : 0 ≤ (hookDup2 s oldfd newfd).1 → newfd.toInt32 ≠ fd) :
    (hookDup2 s oldfd newfd).2.denotes fd = none := by
  cases hold : s.fileMap.get oldfd.toInt32 with
  | some f =>
    rw [(hookDup2_client hold).2, h]
    rintro rfl
    refine hret ?_ rfl
    rwa [hookDup2_client_result hold hfd]
  | none =>
    rw [hookDup2_kernel hold] at hret ⊢
    obtain ⟨hmap, hkernel⟩ := denotes_eq_none.mp h
    obtain ⟨hdup, -⟩ | ⟨hout, -, -, hget⟩ := s.kernel.dup2_cases oldfd.toInt32 newfd.toInt32
    · rw [hdup]
      exact h
    · have hne : fd ≠ newfd.toInt32 := by
        rintro rfl
        refine hret ?_ rfl
        rwa [noIntercept, hout]
      exact denotes_eq_none.mpr ⟨hmap, ((hget fd).trans (if_neg hne)).trans hkernel⟩

theorem denotes_close {fd : Int32} (h : s.denotes fd = none) (fd' : Int32) :
    (hookClose s fd').2.denotes fd = none := by
  obtain ⟨hmap, hkernel⟩ := denotes_eq_none.mp h
  rw [hookClose]
  split
  · refine denotes_eq_none.mpr ⟨?_, hkernel⟩
    rw [get_remove]
    split
    · rfl
    · exact hmap
  · split
    · exact h
    · exact h
    · refine denotes_eq_none.mpr ⟨hmap, ?_⟩
      change (s.kernel.close fd').2.get fd = none
      rw [Kernel.get_close]
      split
      · rfl
      · exact hkernel

/-- A descriptor that denotes nothing keeps to it until a call comes back with it. -/
theorem denotes_step {fd : Int32} (h : s.denotes fd = none) (hfd : 0 ≤ fd) {call : Call ρ κ}
    (hcall : ¬ Assigns s fd call) : (step s call).denotes fd = none := by
  cases call with
  | openat found => exact denotes_openat h hfd found hcall
  | dup oldfd => exact denotes_dup h hfd oldfd hcall
  | dup2 oldfd newfd => exact denotes_dup2 h hfd oldfd newfd fun hpos he => hcall ⟨hpos, he⟩
  | close fd' => exact denotes_close h fd'

end Steps

section Run

variable {s : Process ρ κ}

theorem shadowed_close_nonneg {fd : Int32} (h : Shadowed s (.close fd)) : 0 ≤ fd := by
  obtain ⟨file, hfile⟩ := Option.isSome_iff_exists.mp h.1
  exact s.kernel.nonneg fd file hfile

/-- The descriptors of a run keep their law exactly if no call of it looks at one of
two entries. -/
theorem lawful_iff (s : Process ρ κ) (calls : List (Call ρ κ)) :
    Lawful s calls ↔ AllSteps step (fun s call => ¬ Shadowed s call) s calls := by
  rw [allSteps_iff_split]
  constructor
  · intro h p call q hcalls
    cases call with
    | openat found => exact fun hshadow => hshadow
    | dup oldfd => exact fun hshadow => hshadow
    | dup2 oldfd newfd => exact (dup2_lawful_iff oldfd newfd).mp (h.dup2 p oldfd newfd q hcalls)
    | close fd =>
      intro hshadow
      refine (close_lawful_iff fd).mp (fun hret => ?_) hshadow
      exact h.close p fd [] q hcalls (shadowed_close_nonneg hshadow) hret trivial
  · intro h
    constructor
    · intro p oldfd newfd q hcalls
      exact (dup2_lawful_iff oldfd newfd).mpr (h p _ q hcalls)
    · intro p fd q r hcalls hfd t hret hq
      have hclosed := (close_lawful_iff fd).mpr (h p _ (q ++ r) hcalls) hret
      exact AllSteps.invariant (I := fun s => s.denotes fd = none)
        (fun _ _ hnone hcall => denotes_step hnone hfd hcall) hclosed hq

end Run

/-- The standard output of a process goes to a file of the client, and is not brought
back from the descriptor that it was saved to. -/
theorem restored_output_hidden :
    let kernel : Kernel Nat := (((Kernel.start 1024).install 0 (by decide) 0).install 1 (by decide) 1).install
      2 (by decide) 2
    let s : Process Bool Nat := ⟨OpenFileMap.start, kernel, ⟨1024, List.replicate 256 true⟩, 0⟩
    let calls : List (Call Bool Nat) :=
      [.openat (.internal (some true) 0), .dup 1, .dup2 10000 1, .dup2 3 1]
    ¬ Lawful s calls := by
  intro kernel s calls h
  have hrestored := (h.dup2 (calls.take 3) 3 1 [] rfl (by decide +kernel)).1
  revert hrestored
  decide +kernel

end GaoFS.Descriptors
