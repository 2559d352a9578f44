import GaoFS.Descriptors
import GaoFS.Library.Runs
import Mathlib.Data.Finset.Erase
import Mathlib.Data.Finset.Insert

namespace GaoFS.InternalDescriptors

open FileMap Descriptors Library.Runs

variable {ρ κ : Type*}

def Errno : Type := { e : Int32 // 0 < e }

section Context

variable (i : InternalFds)

def minInternalFd : Int32 := i.maxOpenFds - Int32.ofNat i.bits.length

/-- `bitset::set` and `bitset::reset` throw outside of the set. -/
def setBit (fd : Int32) (b : Bool) : Option InternalFds :=
  let pos := fd.toInt - (minInternalFd i).toInt
  if 0 ≤ pos ∧ pos < i.bits.length then some { i with bits := i.bits.set pos.toNat b } else none

/-- A build without assertions. `dup3` may fail, and then its error is the result. -/
def registerInternalFd (mustRelocate : Bool) (fd : Int32) (dup3 : Option Errno) :
    Option (Int32 × InternalFds) :=
  if mustRelocate then
    (i.bits.findIdx? id).map fun pos =>
      (match dup3 with
        | none => Int32.ofNat pos + minInternalFd i
        | some e => -e.1, { i with bits := i.bits.set pos false })
  else (setBit i fd false).map fun i => (fd, i)

def unregisterInternalFd (fd : Int32) : Option InternalFds := setBit i fd true

end Context

section Steps

/-- What is registered by the calls up to here is no part of the program. -/
structure State (ρ κ : Type*) where
  process : Process ρ κ
  mustRelocate : Bool
  registered : Finset Int32

/-- Calls of the client's own code that leave a descriptor to register, or close one, and calls of
the application. The kernel is any afterwards. -/
inductive Op (ρ κ : Type*) where
  | register (fd : Int32) (dup3 : Option Errno) (kernel : Kernel κ)
  | internalClose (fd : Int32) (failed : Option Errno) (kernel : Kernel κ)
  | hookClose (fd : Int32)
  | protectUserFds (kernel : Kernel κ)
  | unprotectUserFds (kernel : Kernel κ)
  | other (fileMap : OpenFileMap ρ) (kernel : Kernel κ)

variable (s : State ρ κ)

def State.withFds (i : InternalFds) (kernel : Kernel κ) (registered : Finset Int32) : State ρ κ :=
  { s with process := { s.process with internalFds := i, kernel := kernel }, registered := registered }

/-- After an exception the state is as it was. -/
def step : Op ρ κ → State ρ κ
  | .register fd dup3 kernel =>
    match registerInternalFd s.process.internalFds s.mustRelocate fd dup3 with
    | none => s
    | some (ifd, i) => s.withFds i kernel (insert ifd s.registered)
  | .internalClose fd failed kernel =>
    match failed with
    | some _ => s.withFds s.process.internalFds kernel s.registered
    | none =>
      match unregisterInternalFd s.process.internalFds fd with
      | none => s
      | some i => s.withFds i kernel (s.registered.erase fd)
  | .hookClose fd => { s with process := (hookClose s.process fd).2 }
  | .protectUserFds kernel =>
    { s.withFds s.process.internalFds kernel s.registered with mustRelocate := false }
  | .unprotectUserFds kernel =>
    { s.withFds s.process.internalFds kernel s.registered with mustRelocate := true }
  | .other fileMap kernel => { s with process := { s.process with fileMap := fileMap, kernel := kernel } }

end Steps

section Properties

/-- `MAX_OPEN_FDS` and `MAX_INTERNAL_FDS`. -/
structure Limits where
  maxOpenFds : Int32
  maxInternalFds : Nat
  le : maxInternalFds ≤ maxOpenFds.toInt

def Limits.Internal (l : Limits) (fd : Int32) : Prop :=
  l.maxOpenFds.toInt - l.maxInternalFds ≤ fd.toInt ∧ fd.toInt < l.maxOpenFds.toInt

def start (l : Limits) (p : Process ρ κ) : State ρ κ where
  process := { p with internalFds := ⟨l.maxOpenFds, List.replicate l.maxInternalFds true⟩ }
  mustRelocate := true
  registered := ∅

/-- The set of the registered descriptors and its answers. -/
structure Exact (l : Limits) (i : InternalFds) (registered : Finset Int32) : Prop where
  maxOpenFds : i.maxOpenFds = l.maxOpenFds
  length : i.bits.length = l.maxInternalFds
  answers : ∀ fd, fd < l.maxOpenFds → i.isInternalFd fd = some (decide (fd ∈ registered))
  internal : ∀ fd ∈ registered, l.Internal fd

variable (l : Limits) (s : State ρ κ)

/-- No exception, and the answers are exact afterwards. A relocated descriptor is a new one, and
closing what was not registered changes nothing. -/
def Right : Op ρ κ → Prop
  | .register fd dup3 _ =>
    ∃ r, registerInternalFd s.process.internalFds s.mustRelocate fd dup3 = some r ∧
      Exact l r.2 (insert r.1 s.registered) ∧ (s.mustRelocate = true → r.1 ∉ s.registered)
  | .internalClose fd failed _ => failed = none →
    ∃ i, unregisterInternalFd s.process.internalFds fd = some i ∧
      Exact l i (s.registered.erase fd) ∧ (fd ∉ s.registered → i = s.process.internalFds)
  | .hookClose fd => s.process.fileMap.exist fd = false →
    s.process.internalFds.isInternalFd fd = some (decide (fd ∈ s.registered))
  | _ => True

/-- There is a descriptor to move to and `dup3` succeeds, or the descriptor lies in the range as it
is. The client closes descriptors of the range, the application those of GaoFS or below the limit. -/
def Meets : Op ρ κ → Prop
  | .register fd dup3 _ =>
    if s.mustRelocate then (∃ ifd, l.Internal ifd ∧ ifd ∉ s.registered) ∧ dup3 = none else l.Internal fd
  | .internalClose fd failed _ => failed = none → l.Internal fd
  | .hookClose fd => s.process.fileMap.exist fd = false → fd < l.maxOpenFds
  | _ => True

end Properties

section Bits

variable {i j : InternalFds} {fd : Int32} {b : Bool}

/-- The set fits below the limit. -/
def Sized (i : InternalFds) : Prop := i.bits.length ≤ i.maxOpenFds.toInt

theorem toInt_minInternalFd (h : Sized i) :
    (minInternalFd i).toInt = i.maxOpenFds.toInt - i.bits.length := by
  have hlt := i.maxOpenFds.toInt_lt
  rw [Sized] at h
  rw [minInternalFd, Int32.toInt_sub, Int32.toInt_ofNat_of_lt (by omega),
    Int.bmod_eq_of_le (by omega) (by omega)]

theorem isInternalFd_eq (i : InternalFds) (fd : Int32) : i.isInternalFd fd =
    if fd.toInt < (minInternalFd i).toInt then some false
    else i.bits[(fd.toInt - (minInternalFd i).toInt).toNat]?.map (!·) := by
  by_cases hlow : fd.toInt < (minInternalFd i).toInt
  · rw [if_pos hlow]
    exact if_pos (Int32.lt_iff_toInt_lt.mpr hlow)
  · rw [if_neg hlow]
    exact if_neg (mt Int32.lt_iff_toInt_lt.mp hlow)

theorem isInternalFd_isSome_iff (h : Sized i) : (i.isInternalFd fd).isSome ↔ fd < i.maxOpenFds := by
  have hmin := toInt_minInternalFd h
  rw [Sized] at h
  rw [isInternalFd_eq, Int32.lt_iff_toInt_lt]
  split_ifs with hlow
  · exact iff_of_true rfl (by omega)
  · rw [Option.isSome_map, isSome_getElem?]
    omega

theorem setBit_isSome_iff (h : Sized i) :
    (setBit i fd b).isSome ↔ i.maxOpenFds.toInt - i.bits.length ≤ fd.toInt ∧ fd.toInt < i.maxOpenFds.toInt := by
  rw [setBit, toInt_minInternalFd h]
  split_ifs with hin
  · exact iff_of_true rfl (by omega)
  · exact iff_of_false Bool.false_ne_true (by omega)

theorem setBit_eq_some (h : setBit i fd b = some j) :
    j.maxOpenFds = i.maxOpenFds ∧ j.bits.length = i.bits.length ∧
      j.bits = i.bits.set (fd.toInt - (minInternalFd i).toInt).toNat b ∧
      0 ≤ fd.toInt - (minInternalFd i).toInt ∧ fd.toInt - (minInternalFd i).toInt < i.bits.length := by
  rw [setBit] at h
  split_ifs at h with hin
  obtain rfl := Option.some.inj h
  exact ⟨rfl, List.length_set, rfl, hin⟩

/-- A changed bit changes the answer for its descriptor only. -/
theorem isInternalFd_setBit (h : setBit i fd b = some j) (fd' : Int32) :
    j.isInternalFd fd' = if fd' = fd then some (!b) else i.isInternalFd fd' := by
  obtain ⟨hmax, hlength, hbits, hlow, hhigh⟩ := setBit_eq_some h
  have hmin : minInternalFd j = minInternalFd i := by rw [minInternalFd, hmax, hlength, minInternalFd]
  rw [isInternalFd_eq, isInternalFd_eq, hmin, hbits]
  by_cases hfd : fd' = fd
  · subst hfd
    rw [if_neg (by omega), if_pos rfl, List.getElem?_set_self (by omega), Option.map_some]
  · rw [if_neg hfd]
    by_cases hbelow : fd'.toInt < (minInternalFd i).toInt
    · rw [if_pos hbelow, if_pos hbelow]
    · have hne : fd'.toInt ≠ fd.toInt := fun heq => hfd (Int32.toInt_inj.mp heq)
      rw [if_neg hbelow, if_neg hbelow, List.getElem?_set_ne (by omega)]

/-- The first bit that is set is the bit of a descriptor that is not taken. -/
theorem setBit_first (hi : Sized i) {pos : Nat} (hpos : i.bits.findIdx? id = some pos) :
    let ifd := Int32.ofNat pos + minInternalFd i
    setBit i ifd false = some { i with bits := i.bits.set pos false } ∧ i.isInternalFd ifd = some false := by
  intro ifd
  obtain ⟨hlt, hset, -⟩ := List.findIdx?_eq_some_iff_getElem.mp hpos
  have hmin := toInt_minInternalFd hi
  have hmax := i.maxOpenFds.toInt_lt
  have hifd : ifd.toInt - (minInternalFd i).toInt = pos := by
    rw [Sized] at hi
    change (Int32.ofNat pos + minInternalFd i).toInt - _ = _
    rw [Int32.toInt_add, Int32.toInt_ofNat_of_lt (by omega), hmin, Int.bmod_eq_of_le (by omega) (by omega)]
    omega
  constructor
  · rw [setBit, hifd, Int.toNat_natCast]
    exact if_pos ⟨by omega, by omega⟩
  · rw [isInternalFd_eq, if_neg (by omega), hifd, Int.toNat_natCast, List.getElem?_eq_getElem hlt]
    exact congrArg some (congrArg not hset)

theorem setBit_same (h : setBit i fd true = some j) (hfree : i.isInternalFd fd = some false) : j = i := by
  obtain ⟨hmax, -, hbits, hlow, hhigh⟩ := setBit_eq_some h
  rw [isInternalFd_eq, if_neg (by omega), List.getElem?_eq_getElem (by omega), Option.map_some] at hfree
  have hset : i.bits[(fd.toInt - (minInternalFd i).toInt).toNat] = true := by
    simpa using Option.some.inj hfree
  obtain ⟨maxOpenFds, bits⟩ := j
  obtain rfl := hmax
  obtain rfl := hbits
  conv_lhs => rw [← hset, List.set_getElem_self]

end Bits

section Runs

variable {l : Limits} {i j : InternalFds} {registered : Finset Int32} {fd : Int32} {b : Bool}

theorem Exact.sized (h : Exact l i registered) : Sized i := by
  rw [Sized, h.length, h.maxOpenFds]
  exact l.le

theorem Exact.setBit_iff (h : Exact l i registered) : (setBit i fd b).isSome ↔ l.Internal fd := by
  rw [setBit_isSome_iff h.sized, h.length, h.maxOpenFds, Limits.Internal]

theorem Limits.Internal.lt (h : l.Internal fd) : fd < l.maxOpenFds := Int32.lt_iff_toInt_lt.mpr h.2

/-- A bit and the set change together. -/
theorem Exact.setBit (h : Exact l i registered) (hset : setBit i fd b = some j) {registered' : Finset Int32}
    (hmem : ∀ fd', fd' ∈ registered' ↔ if fd' = fd then b = false else fd' ∈ registered) :
    Exact l j registered' := by
  obtain ⟨hmax, hlength, -⟩ := setBit_eq_some hset
  refine ⟨hmax.trans h.maxOpenFds, hlength.trans h.length, fun fd' hlt => ?_, fun fd' hfd' => ?_⟩
  · rw [isInternalFd_setBit hset, h.answers fd' hlt]
    by_cases heq : fd' = fd
    · simp only [hmem, heq, if_true]
      cases b <;> rfl
    · simp only [hmem, heq, if_false]
  · rw [hmem] at hfd'
    by_cases heq : fd' = fd
    · exact heq ▸ h.setBit_iff.mp (Option.isSome_of_eq_some hset)
    · rw [if_neg heq] at hfd'
      exact h.internal fd' hfd'

theorem Exact.insert (h : Exact l i registered) (hset : InternalDescriptors.setBit i fd false = some j) :
    Exact l j (insert fd registered) := by
  apply h.setBit hset
  intro fd'
  by_cases heq : fd' = fd
  · simp [heq]
  · simp [heq]

theorem Exact.erase (h : Exact l i registered) (hset : InternalDescriptors.setBit i fd true = some j) :
    Exact l j (registered.erase fd) := by
  apply h.setBit hset
  intro fd'
  by_cases heq : fd' = fd
  · simp [heq]
  · simp [heq]

theorem Exact.not_registered (h : Exact l i registered) (hlt : fd < l.maxOpenFds) :
    i.isInternalFd fd = some false ↔ fd ∉ registered := by
  rw [h.answers fd hlt, Option.some_inj, decide_eq_false_iff_not]

theorem Exact.first_isSome_iff (h : Exact l i registered) :
    (i.bits.findIdx? id).isSome ↔ ∃ ifd, l.Internal ifd ∧ ifd ∉ registered := by
  constructor
  · intro hsome
    obtain ⟨pos, hpos⟩ := Option.isSome_iff_exists.mp hsome
    obtain ⟨hset, hfree⟩ := setBit_first h.sized hpos
    have hifd := h.setBit_iff.mp (Option.isSome_of_eq_some hset)
    exact ⟨_, hifd, (h.not_registered hifd.lt).mp hfree⟩
  · rintro ⟨ifd, hifd, hfree⟩
    rw [← h.not_registered hifd.lt, isInternalFd_eq] at hfree
    have hmin := toInt_minInternalFd h.sized
    have hlow := hifd.1
    rw [h.length, h.maxOpenFds] at hmin
    rw [if_neg (by omega)] at hfree
    obtain ⟨bit, hbit, hnot⟩ := Option.map_eq_some_iff.mp hfree
    rw [List.findIdx?_isSome, List.any_eq_true]
    refine ⟨bit, List.mem_of_getElem? hbit, ?_⟩
    simpa using hnot

variable {s : State ρ κ}

theorem register_right_iff (h : Exact l s.process.internalFds s.registered) (fd : Int32)
    (dup3 : Option Errno) (kernel : Kernel κ) :
    Right l s (.register fd dup3 kernel) ↔ Meets l s (.register fd dup3 kernel) := by
  rw [Right, Meets, registerInternalFd]
  cases s.mustRelocate with
  | false =>
    rw [if_neg Bool.false_ne_true, if_neg Bool.false_ne_true, ← h.setBit_iff (b := false)]
    constructor
    · rintro ⟨r, hr, -⟩
      obtain ⟨i, hi, -⟩ := Option.map_eq_some_iff.mp hr
      exact Option.isSome_of_eq_some hi
    · intro hsome
      obtain ⟨i, hi⟩ := Option.isSome_iff_exists.mp hsome
      exact ⟨(fd, i), by rw [hi]; rfl, h.insert hi, fun hfalse => absurd hfalse Bool.false_ne_true⟩
  | true =>
    rw [if_pos rfl, if_pos rfl, ← h.first_isSome_iff]
    constructor
    · rintro ⟨r, hr, hexact, -⟩
      obtain ⟨pos, hpos, rfl⟩ := Option.map_eq_some_iff.mp hr
      refine ⟨Option.isSome_of_eq_some hpos, ?_⟩
      cases dup3 with
      | none => rfl
      | some e =>
        have hlow := (hexact.internal _ (Finset.mem_insert_self _ _)).1
        have hpos : 0 < e.1.toInt := Int32.lt_iff_toInt_lt.mp e.2
        have hlt := e.1.toInt_lt
        have hle := l.le
        dsimp only at hlow
        rw [Int32.toInt_neg, Int.bmod_eq_of_le (by omega) (by omega)] at hlow
        omega
    · rintro ⟨hsome, rfl⟩
      obtain ⟨pos, hpos⟩ := Option.isSome_iff_exists.mp hsome
      obtain ⟨hset, hfree⟩ := setBit_first h.sized hpos
      have hifd := h.setBit_iff.mp (Option.isSome_of_eq_some hset)
      rw [hpos]
      exact ⟨_, rfl, h.insert hset, fun _ => (h.not_registered hifd.lt).mp hfree⟩

theorem internalClose_right_iff (h : Exact l s.process.internalFds s.registered) (fd : Int32)
    (failed : Option Errno) (kernel : Kernel κ) :
    Right l s (.internalClose fd failed kernel) ↔ Meets l s (.internalClose fd failed kernel) := by
  rw [Right, Meets, unregisterInternalFd, ← h.setBit_iff (b := true)]
  apply imp_congr_right
  intro _
  constructor
  · rintro ⟨i, hi, -⟩
    exact Option.isSome_of_eq_some hi
  · intro hsome
    obtain ⟨i, hi⟩ := Option.isSome_iff_exists.mp hsome
    have hfd : l.Internal fd := h.setBit_iff.mp hsome
    exact ⟨i, hi, h.erase hi, fun hfree => setBit_same hi ((h.not_registered hfd.lt).mpr hfree)⟩

theorem hookClose_right_iff (h : Exact l s.process.internalFds s.registered) (fd : Int32) :
    Right l s (.hookClose fd) ↔ Meets l s (.hookClose fd) := by
  apply imp_congr_right
  intro _
  constructor
  · intro hanswer
    have hsome := Option.isSome_of_eq_some hanswer
    rwa [isInternalFd_isSome_iff h.sized, h.maxOpenFds] at hsome
  · exact h.answers fd

theorem right_iff_meets (h : Exact l s.process.internalFds s.registered) (op : Op ρ κ) :
    Right l s op ↔ Meets l s op := by
  cases op with
  | register fd dup3 kernel => exact register_right_iff h fd dup3 kernel
  | internalClose fd failed kernel => exact internalClose_right_iff h fd failed kernel
  | hookClose fd => exact hookClose_right_iff h fd
  | _ => exact Iff.rfl

theorem internalFds_hookClose (p : Process ρ κ) (fd : Int32) :
    (hookClose p fd).2.internalFds = p.internalFds := by
  rw [hookClose]
  split_ifs
  · rfl
  · cases p.internalFds.isInternalFd fd with
    | none => rfl
    | some answer => cases answer <;> rfl

theorem exact_step (h : Exact l s.process.internalFds s.registered) {op : Op ρ κ} (hop : Right l s op) :
    Exact l (step s op).process.internalFds (step s op).registered := by
  cases op with
  | register fd dup3 kernel =>
    obtain ⟨r, hr, hexact, -⟩ := hop
    rw [step, hr]
    exact hexact
  | internalClose fd failed kernel =>
    cases failed with
    | none =>
      obtain ⟨i, hi, hexact, -⟩ := hop rfl
      simp only [step, hi]
      exact hexact
    | some e => exact h
  | hookClose fd =>
    change Exact l (Descriptors.hookClose s.process fd).2.internalFds s.registered
    rw [internalFds_hookClose]
    exact h
  | _ => exact h

theorem exact_start (l : Limits) (p : Process ρ κ) :
    Exact l (start l p).process.internalFds (start l p).registered := by
  have hlength : (start l p).process.internalFds.bits.length = l.maxInternalFds := List.length_replicate
  have hsized : Sized (start l p).process.internalFds := by
    rw [Sized, hlength]
    exact l.le
  refine ⟨rfl, hlength, fun fd hlt => ?_, fun fd hfd => absurd hfd (Finset.notMem_empty fd)⟩
  have hsome : ((start l p).process.internalFds.isInternalFd fd).isSome :=
    (isInternalFd_isSome_iff hsized).mpr hlt
  have hfree : decide (fd ∈ (start l p).registered) = false := decide_eq_false (Finset.notMem_empty fd)
  rw [hfree]
  rw [isInternalFd_eq] at hsome ⊢
  split_ifs at hsome ⊢ with hlow
  · rfl
  · obtain ⟨answer, hanswer⟩ := Option.isSome_iff_exists.mp hsome
    obtain ⟨bit, hbit, rfl⟩ := Option.map_eq_some_iff.mp hanswer
    rw [hanswer, List.eq_of_mem_replicate (List.mem_of_getElem? hbit)]
    rfl

/-- In a run from the start all calls are answered right exactly if all meet their condition. Then
the set is exact, and no answer is to be had above the limit. -/
theorem bookkeeping_iff (l : Limits) (p : Process ρ κ) (ops : List (Op ρ κ)) :
    (AllSteps step (Right l) (start l p) ops ↔ AllSteps step (Meets l) (start l p) ops) ∧
    (AllSteps step (Meets l) (start l p) ops →
      let s := ops.foldl step (start l p)
      Exact l s.process.internalFds s.registered ∧
        ∀ fd, s.process.internalFds.isInternalFd fd = none ↔ l.maxOpenFds ≤ fd) := by
  have hstep : ∀ (s : State ρ κ) (op : Op ρ κ), Exact l s.process.internalFds s.registered →
      Meets l s op → Exact l (step s op).process.internalFds (step s op).registered := by
    intro s op h hop
    exact exact_step h ((right_iff_meets h op).mpr hop)
  constructor
  · have hcongr := allSteps_congr hstep (fun s op h => (right_iff_meets h op).symm) (exact_start l p) ops
    exact hcongr.symm
  · intro hops s
    have hexact : Exact l s.process.internalFds s.registered := AllSteps.invariant hstep (exact_start l p) hops
    refine ⟨hexact, fun fd => ?_⟩
    have hsome : (s.process.internalFds.isInternalFd fd).isSome ↔ fd < l.maxOpenFds := by
      rw [isInternalFd_isSome_iff hexact.sized, hexact.maxOpenFds]
    rw [← Option.not_isSome_iff_eq_none, hsome, Int32.not_lt]

/-- The limits of the build. -/
def defaultLimits : Limits := ⟨1024, 256, by decide⟩

/-- Closing a descriptor of GaoFS a second time throws, in every state of every such run. -/
theorem closed_again_undefined :
    let s : State Unit Unit := start defaultLimits ⟨OpenFileMap.start, Kernel.start 1024, ⟨0, []⟩, 0⟩
    ¬ Right defaultLimits s (.hookClose 10000) ∧ (hookClose s.process 10000).1 = none := by
  intro s
  have hexact := exact_start defaultLimits s.process
  have hnone : s.process.internalFds.isInternalFd 10000 = none := by
    rw [← Option.not_isSome_iff_eq_none]
    exact mt (isInternalFd_isSome_iff hexact.sized).mp (by decide)
  refine ⟨fun h => ?_, ?_⟩
  · rw [Right, hnone] at h
    exact absurd (h rfl) (Option.some_ne_none _).symm
  · rw [hookClose, hnone]
    rfl

end Runs

end GaoFS.InternalDescriptors
