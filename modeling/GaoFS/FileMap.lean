import Mathlib.Algebra.Group.Nat.Defs
import GaoFS.Library.OrderedMap
import GaoFS.Library.Runs

namespace GaoFS.FileMap

open Library.OrderedMap Library.Runs

def EBADF : Int32 := 9

/-- Open files by descriptor, the next descriptor to give out, and whether it has
to be looked up before. The next descriptor starts at 10000 and never falls below. -/
structure OpenFileMap (ρ : Type*) where
  files : SortedMap Int32 ρ
  fdIdx : Int32
  fdValidationNeeded : Bool
  low : 10000 ≤ fdIdx.toInt

variable {ρ : Type*}

def OpenFileMap.start : OpenFileMap ρ := ⟨SortedMap.empty, 10000, false, by decide⟩

namespace OpenFileMap

def get (m : OpenFileMap ρ) (fd : Int32) : Option ρ := m.files.find fd

def exist (m : OpenFileMap ρ) (fd : Int32) : Bool := (m.get fd).isSome

/-- At the largest `int` the index goes back to 100000. -/
def generateFdIdx (m : OpenFileMap ρ) : Int32 × OpenFileMap ρ :=
  if h : m.fdIdx = Int32.maxValue then
    (100000, { m with fdIdx := 100000 + 1, fdValidationNeeded := true, low := by decide })
  else
    (m.fdIdx, { m with
      fdIdx := m.fdIdx + 1
      low := by
        have hlow := m.low
        have hne : m.fdIdx.toInt ≠ Int32.maxValue.toInt := fun he => h (Int32.toInt_inj.mp he)
        have hmax : Int32.maxValue.toInt = 2 ^ 31 - 1 := by decide
        have hlt := m.fdIdx.toInt_lt
        have hone : (1 : Int32).toInt = 1 := rfl
        rw [Int32.toInt_add, hone, Int.bmod_eq_of_le (by omega) (by omega)]
        omega })

/-- The loop that passes over descriptors in use. `none` has not come to an end
after `fuel` descriptors. -/
def skipUsed : Nat → Int32 × OpenFileMap ρ → Option (Int32 × OpenFileMap ρ)
  | 0, _ => none
  | fuel + 1, (fd, m) => if m.exist fd then skipUsed fuel m.generateFdIdx else some (fd, m)

/-- With all descriptors in use the loop does not end, which shows after one round. -/
def safeGenerateFdIdx (m : OpenFileMap ρ) : Option (Int32 × OpenFileMap ρ) :=
  if m.generateFdIdx.2.fdValidationNeeded then skipUsed (2 ^ 32) m.generateFdIdx else some m.generateFdIdx

/-- `std::map::insert`, which leaves a key that is there as it is. -/
def insert (m : OpenFileMap ρ) (fd : Int32) (f : ρ) : OpenFileMap ρ :=
  if m.exist fd then m else { m with files := m.files.set fd (some f) }

def add (m : OpenFileMap ρ) (f : ρ) : Option Int32 × OpenFileMap ρ :=
  match m.safeGenerateFdIdx with
  | none => (none, m)
  | some (fd, m) => (some fd, m.insert fd f)

def remove (m : OpenFileMap ρ) (fd : Int32) : Bool × OpenFileMap ρ :=
  if m.exist fd then
    let files := m.files.set fd none
    (true, { m with
      files := files
      fdValidationNeeded := m.fdValidationNeeded && !files.entries.isEmpty })
  else (false, m)

def dup (m : OpenFileMap ρ) (oldfd : Int32) : Option (Except Int32 Int32) × OpenFileMap ρ :=
  match m.get oldfd with
  | none => (some (.error EBADF), m)
  | some f =>
    match m.safeGenerateFdIdx with
    | none => (none, m)
    | some (newfd, m) => (some (.ok newfd), m.insert newfd f)

/-- The check of `dup2` on the index. -/
def checkFdIdx (m : OpenFileMap ρ) (newfd : Int32) : OpenFileMap ρ :=
  { m with
    fdValidationNeeded := m.fdValidationNeeded ||
      (decide (m.fdIdx < newfd) && newfd != 0 && newfd != 1 && newfd != 2) }

def dup2 (m : OpenFileMap ρ) (oldfd newfd : Int32) : Except Int32 Int32 × OpenFileMap ρ :=
  match m.get oldfd with
  | none => (.error EBADF, m)
  | some f =>
    if oldfd = newfd then (.ok newfd, m)
    else
      let m := if m.exist newfd then (m.remove newfd).2 else m
      (.ok newfd, (m.checkFdIdx newfd).insert newfd f)

/-- The same descriptors, with what their entries stand for. -/
def map {σ : Type*} (g : ρ → σ) (m : OpenFileMap ρ) : OpenFileMap σ :=
  ⟨m.files.mapValues g, m.fdIdx, m.fdValidationNeeded, m.low⟩

end OpenFileMap

open OpenFileMap

/-- Calls of the map, `dup2` onto no negative descriptor. -/
inductive Op (ρ : Type*) where
  | add (f : ρ)
  | dup (oldfd : Int32)
  | dup2 (oldfd newfd : Int32) (nonneg : 0 ≤ newfd)
  | remove (fd : Int32)

def step (m : OpenFileMap ρ) : Op ρ → OpenFileMap ρ
  | .add f => (m.add f).2
  | .dup oldfd => (m.dup oldfd).2
  | .dup2 oldfd newfd _ => (m.dup2 oldfd newfd).2
  | .remove fd => (m.remove fd).2

/-- The descriptor was free, denotes the file now, and no other has changed. -/
structure Allocated (m m' : OpenFileMap ρ) (fd : Int32) (f : Option ρ) : Prop where
  fresh : m.get fd = none
  denotes : m'.get fd = f
  others : ∀ k, k ≠ fd → m'.get k = m.get k

/-- What a call promises about the descriptor that it returns. -/
def Correct (m : OpenFileMap ρ) : Op ρ → Prop
  | .add f => ∀ fd, (m.add f).1 = some fd → 0 ≤ fd → Allocated m (m.add f).2 fd (some f)
  | .dup oldfd => ∀ fd, (m.dup oldfd).1 = some (.ok fd) → 0 ≤ fd →
      Allocated m (m.dup oldfd).2 fd (m.get oldfd)
  | .dup2 oldfd newfd _ => ∀ fd, (m.dup2 oldfd newfd).1 = .ok fd →
      (m.dup2 oldfd newfd).2.get newfd = (m.dup2 oldfd newfd).2.get oldfd
  | .remove _ => True

/-- The next descriptor is in use, and nobody is going to look. -/
def Taken (m : OpenFileMap ρ) : Prop :=
  m.fdValidationNeeded = false ∧ m.fdIdx ≠ Int32.maxValue ∧ (m.get m.fdIdx).isSome

/-- The call asks for the next descriptor. -/
def Allocates (m : OpenFileMap ρ) : Op ρ → Prop
  | .add _ => True
  | .dup oldfd => (m.get oldfd).isSome
  | _ => False

/-- A `dup2` onto the very descriptor that is the next one, while nobody looks. -/
def LandsOnNext (m : OpenFileMap ρ) : Op ρ → Prop
  | .dup2 oldfd newfd _ => (m.get oldfd).isSome ∧ oldfd ≠ newfd ∧ newfd = m.fdIdx ∧
      m.fdValidationNeeded = false ∧ newfd ≠ Int32.maxValue
  | _ => False

section Entries

variable {m : OpenFileMap ρ} {fd : Int32}

theorem get_map {σ : Type*} (g : ρ → σ) (m : OpenFileMap ρ) (fd : Int32) :
    (m.map g).get fd = (m.get fd).map g := SortedMap.find_mapValues g m.files fd

theorem exist_iff : m.exist fd = true ↔ ∃ f, m.get fd = some f := by
  rw [exist, Option.isSome_iff_exists]

theorem get_insert (h : m.get fd = none) (f : ρ) (k : Int32) :
    (m.insert fd f).get k = if k = fd then some f else m.get k := by
  have hfree : ¬ m.exist fd = true := by
    rw [exist, h]
    exact Bool.false_ne_true
  rw [OpenFileMap.insert, if_neg hfree]
  exact SortedMap.find_set _ _ _ _

theorem insert_used (h : m.exist fd = true) (f : ρ) : m.insert fd f = m := if_pos h

theorem get_insert_of_ne {k : Int32} (h : k ≠ fd) (f : ρ) : (m.insert fd f).get k = m.get k := by
  by_cases hused : m.exist fd = true
  · rw [insert_used hused]
  · rw [get_insert (Option.not_isSome_iff_eq_none.mp hused), if_neg h]

theorem fdIdx_insert (f : ρ) : (m.insert fd f).fdIdx = m.fdIdx ∧
    (m.insert fd f).fdValidationNeeded = m.fdValidationNeeded := by
  rw [OpenFileMap.insert]
  split <;> exact ⟨rfl, rfl⟩

theorem get_remove (k : Int32) : (m.remove fd).2.get k = if k = fd then none else m.get k := by
  rw [remove]
  split
  · exact SortedMap.find_set _ _ _ _
  · rename_i hfree
    have hnone : m.get fd = none := Option.not_isSome_iff_eq_none.mp hfree
    split
    · rename_i hk
      rw [hk, hnone]
    · rfl

theorem fdIdx_remove : (m.remove fd).2.fdIdx = m.fdIdx := by
  rw [remove]
  split <;> rfl

/-- The flag is only taken back when nothing is left. -/
theorem validation_remove {k : Int32} {f : ρ} (h : (m.remove fd).2.get k = some f) :
    (m.remove fd).2.fdValidationNeeded = m.fdValidationNeeded := by
  rw [remove] at h ⊢
  split at h
  · rename_i hused
    rw [if_pos hused]
    have hmem := SortedMap.mem_entries.mpr h
    have hne : (m.files.set fd none).entries ≠ [] := List.ne_nil_of_mem hmem
    simp [hne]
  · rename_i hfree
    rw [if_neg hfree]

end Entries

section Generate

variable {m m' : OpenFileMap ρ} {fd : Int32}

theorem files_generateFdIdx (m : OpenFileMap ρ) : m.generateFdIdx.2.files = m.files := by
  rw [generateFdIdx]
  split <;> rfl

theorem generateFdIdx_of_ne (h : m.fdIdx ≠ Int32.maxValue) :
    m.generateFdIdx.1 = m.fdIdx ∧ m.generateFdIdx.2.fdIdx = m.fdIdx + 1 ∧
      m.generateFdIdx.2.fdValidationNeeded = m.fdValidationNeeded := by
  rw [generateFdIdx, dif_neg h]
  exact ⟨rfl, rfl, rfl⟩

theorem validation_generateFdIdx (h : m.fdValidationNeeded = true) :
    m.generateFdIdx.2.fdValidationNeeded = true := by
  rw [generateFdIdx]
  split
  · rfl
  · exact h

/-- The loop stops at a free descriptor, with the map as it was. -/
theorem skipUsed_spec {fuel : Nat} {p : Int32 × OpenFileMap ρ} (h : skipUsed fuel p = some (fd, m'))
    (hflag : p.2.fdValidationNeeded = true) :
    m'.files = p.2.files ∧ m'.get fd = none ∧ m'.fdValidationNeeded = true := by
  induction fuel generalizing p with
  | zero => cases h
  | succ fuel ih =>
    obtain ⟨fd₀, m₀⟩ := p
    rw [skipUsed] at h
    split at h
    · obtain ⟨hfiles, hfree, hflag'⟩ := ih h (validation_generateFdIdx hflag)
      exact ⟨hfiles.trans (files_generateFdIdx m₀), hfree, hflag'⟩
    · rename_i hfree
      obtain ⟨rfl, rfl⟩ := Prod.mk.inj (Option.some.inj h)
      exact ⟨rfl, Option.not_isSome_iff_eq_none.mp hfree, hflag⟩

theorem generateFdIdx_low (m : OpenFileMap ρ) : 10000 ≤ m.generateFdIdx.1.toInt := by
  have hlow : (10000 : Int) ≤ (100000 : Int32).toInt := by decide
  rw [generateFdIdx]
  split
  · exact hlow
  · exact m.low

/-- Descriptors are given out above those of the kernel. -/
theorem safeGenerateFdIdx_low (h : m.safeGenerateFdIdx = some (fd, m')) : 10000 ≤ fd.toInt := by
  have hskip : ∀ (fuel : Nat) (p : Int32 × OpenFileMap ρ), 10000 ≤ p.1.toInt →
      skipUsed fuel p = some (fd, m') → 10000 ≤ fd.toInt := by
    intro fuel
    induction fuel with
    | zero =>
      intro p _ hp
      cases hp
    | succ fuel ih =>
      rintro ⟨fd₀, m₀⟩ hlow hp
      rw [skipUsed] at hp
      split at hp
      · exact ih _ (generateFdIdx_low m₀) hp
      · obtain ⟨rfl, -⟩ := Prod.mk.inj (Option.some.inj hp)
        exact hlow
  rw [safeGenerateFdIdx] at h
  split at h
  · exact hskip _ _ (generateFdIdx_low m) h
  · have hfd : m.generateFdIdx.1 = fd := congrArg Prod.fst (Option.some.inj h)
    rw [← hfd]
    exact generateFdIdx_low m

/-- A descriptor comes from the loop, or it is the next one. -/
theorem safeGenerateFdIdx_cases (h : m.safeGenerateFdIdx = some (fd, m')) :
    m'.files = m.files ∧ ((m'.get fd = none ∧ m'.fdValidationNeeded = true) ∨
      (m.fdValidationNeeded = false ∧ m'.fdValidationNeeded = false ∧ m.fdIdx ≠ Int32.maxValue ∧
        fd = m.fdIdx ∧ m'.fdIdx = m.fdIdx + 1)) := by
  rw [safeGenerateFdIdx] at h
  split at h
  · rename_i hflag
    obtain ⟨hfiles, hfree, hflag'⟩ := skipUsed_spec h hflag
    exact ⟨hfiles.trans (files_generateFdIdx m), .inl ⟨hfree, hflag'⟩⟩
  · rename_i hflag
    obtain ⟨rfl, rfl⟩ := Prod.mk.inj (Option.some.inj h)
    have hne : m.fdIdx ≠ Int32.maxValue := by
      intro hmax
      rw [generateFdIdx, dif_pos hmax] at hflag
      exact hflag rfl
    obtain ⟨hfd, hnext, hsame⟩ := generateFdIdx_of_ne hne
    rw [Bool.not_eq_true] at hflag
    exact ⟨files_generateFdIdx m, .inr ⟨by rw [← hsame]; exact hflag, hflag, hne, hfd, hnext⟩⟩

theorem safeGenerateFdIdx_taken (h : Taken m) :
    m.safeGenerateFdIdx = some (m.fdIdx, m.generateFdIdx.2) := by
  obtain ⟨hflag, hne, -⟩ := h
  obtain ⟨hfd, -, hsame⟩ := generateFdIdx_of_ne hne
  rw [safeGenerateFdIdx, if_neg (by rw [hsame, hflag]; exact Bool.false_ne_true), ← hfd]

theorem get_eq_of_files (h : m'.files = m.files) (k : Int32) : m'.get k = m.get k :=
  congrArg (fun files => files.find k) h

theorem safeGenerateFdIdx_fresh (hm : ¬ Taken m) (h : m.safeGenerateFdIdx = some (fd, m')) :
    m'.get fd = none := by
  obtain ⟨hfiles, ⟨hfree, -⟩ | ⟨hflag, -, hne, rfl, -⟩⟩ := safeGenerateFdIdx_cases h
  · exact hfree
  · rw [get_eq_of_files hfiles]
    exact Option.not_isSome_iff_eq_none.mp fun hused => hm ⟨hflag, hne, hused⟩

end Generate

section Calls

variable {m : OpenFileMap ρ}

/-- Adding a file behind a free descriptor. -/
theorem allocated_insert {m' : OpenFileMap ρ} {fd : Int32} (hfiles : m'.files = m.files)
    (hfree : m'.get fd = none) (f : ρ) : Allocated m (m'.insert fd f) fd (some f) where
  fresh := (get_eq_of_files hfiles fd).symm.trans hfree
  denotes := by rw [get_insert hfree, if_pos rfl]
  others k hk := by rw [get_insert hfree, if_neg hk, get_eq_of_files hfiles]

/-- A descriptor in use is given out again. -/
theorem not_allocated_taken (h : Taken m) {m' : OpenFileMap ρ} {f : Option ρ} :
    ¬ Allocated m m' m.fdIdx f := by
  intro halloc
  have hused := h.2.2
  rw [halloc.fresh] at hused
  cases hused

theorem fdIdx_nonneg (m : OpenFileMap ρ) : 0 ≤ m.fdIdx := by
  have hlow := m.low
  rw [Int32.le_iff_toInt_le, Int32.toInt_zero]
  omega

theorem add_correct_iff (f : ρ) : Correct m (.add f) ↔ ¬ Taken m := by
  constructor
  · intro h htaken
    refine not_allocated_taken htaken (h m.fdIdx ?_ (fdIdx_nonneg m))
    rw [add, safeGenerateFdIdx_taken htaken]
  · intro h fd hfd _
    cases hgen : m.safeGenerateFdIdx with
    | none =>
      rw [add, hgen] at hfd
      cases hfd
    | some p =>
      obtain ⟨fd', m'⟩ := p
      rw [add, hgen] at hfd ⊢
      obtain rfl := Option.some.inj hfd
      exact allocated_insert (safeGenerateFdIdx_cases hgen).1 (safeGenerateFdIdx_fresh h hgen) f

theorem dup_correct_iff (oldfd : Int32) :
    Correct m (.dup oldfd) ↔ ((m.get oldfd).isSome → ¬ Taken m) := by
  cases hold : m.get oldfd with
  | none =>
    constructor
    · intro _ hsome
      cases hsome
    · intro _ fd hfd
      rw [dup, hold] at hfd
      cases hfd
  | some f =>
    constructor
    · intro h _ htaken
      refine not_allocated_taken htaken (h m.fdIdx ?_ (fdIdx_nonneg m))
      rw [dup, hold, safeGenerateFdIdx_taken htaken]
    · intro h fd hfd _
      cases hgen : m.safeGenerateFdIdx with
      | none =>
        rw [dup, hold, hgen] at hfd
        cases hfd
      | some p =>
        obtain ⟨fd', m'⟩ := p
        rw [hold]
        rw [dup, hold, hgen] at hfd ⊢
        obtain rfl := Except.ok.inj (Option.some.inj hfd)
        exact allocated_insert (safeGenerateFdIdx_cases hgen).1 (safeGenerateFdIdx_fresh (h rfl) hgen) f

/-- A duplicate is added as an open file is. -/
theorem dup_eq_add {oldfd : Int32} {f : ρ} (hold : m.get oldfd = some f) :
    m.dup oldfd = ((m.add f).1.map .ok, (m.add f).2) := by
  rw [dup, add, hold]
  cases m.safeGenerateFdIdx <;> rfl

theorem get_add_of_ne (f : ρ) {k : Int32} (h : (m.add f).1 ≠ some k) :
    (m.add f).2.get k = m.get k := by
  cases hgen : m.safeGenerateFdIdx with
  | none => rw [add, hgen]
  | some p =>
    obtain ⟨fd, m'⟩ := p
    rw [add, hgen] at h ⊢
    have hne : k ≠ fd := fun he => h (congrArg some he.symm)
    exact (get_insert_of_ne hne f).trans (get_eq_of_files (safeGenerateFdIdx_cases hgen).1 k)

theorem get_dup_of_ne (oldfd : Int32) {k : Int32} (h : (m.dup oldfd).1 ≠ some (.ok k)) :
    (m.dup oldfd).2.get k = m.get k := by
  cases hold : m.get oldfd with
  | none => rw [dup, hold]
  | some f =>
    cases hgen : m.safeGenerateFdIdx with
    | none => rw [dup, hold, hgen]
    | some p =>
      obtain ⟨fd, m'⟩ := p
      rw [dup, hold, hgen] at h ⊢
      have hne : k ≠ fd := fun he => h (congrArg (some ∘ Except.ok) he.symm)
      exact (get_insert_of_ne hne f).trans (get_eq_of_files (safeGenerateFdIdx_cases hgen).1 k)

/-- What a successful `dup2` makes of the map. -/
theorem get_dup2 {oldfd newfd : Int32} {f : ρ} (hold : m.get oldfd = some f) (hne : oldfd ≠ newfd)
    (k : Int32) : (m.dup2 oldfd newfd).2.get k = if k = newfd then some f else m.get k := by
  rw [dup2, hold]
  simp only [if_neg hne]
  split
  · have hfree : ((m.remove newfd).2.checkFdIdx newfd).get newfd = none :=
      (get_remove newfd).trans (if_pos rfl)
    rw [get_insert hfree]
    split
    · rfl
    · rename_i hk
      exact (get_remove k).trans (if_neg hk)
  · rename_i hused
    have hfree : (m.checkFdIdx newfd).get newfd = none := Option.not_isSome_iff_eq_none.mp hused
    rw [get_insert hfree]
    rfl

theorem get_insert_cases {fd k : Int32} {f g : ρ} (h : (m.insert fd f).get k = some g) :
    g = f ∨ m.get k = some g := by
  by_cases hused : m.exist fd = true
  · rw [insert_used hused] at h
    exact .inr h
  · rw [get_insert (Option.not_isSome_iff_eq_none.mp hused)] at h
    split at h
    · exact .inl (Option.some.inj h).symm
    · exact .inr h

/-- What a descriptor denotes after a call has been in the map before, or the call adds it. -/
theorem get_step {op : Op ρ} {k : Int32} {f : ρ} (h : (step m op).get k = some f) :
    op = .add f ∨ ∃ k', m.get k' = some f := by
  have hgenerate : ∀ {fd : Int32} {m' : OpenFileMap ρ} {g : ρ}, m.safeGenerateFdIdx = some (fd, m') →
      (m'.insert fd g).get k = some f → f = g ∨ m.get k = some f := by
    intro fd m' g hgen hget
    refine (get_insert_cases hget).imp id fun hget => ?_
    rw [← get_eq_of_files (safeGenerateFdIdx_cases hgen).1, hget]
  cases op with
  | add g =>
    change (m.add g).2.get k = some f at h
    cases hgen : m.safeGenerateFdIdx with
    | none =>
      rw [add, hgen] at h
      exact .inr ⟨k, h⟩
    | some p =>
      rw [add, hgen] at h
      exact (hgenerate hgen h).imp (congrArg Op.add ·.symm) fun hget => ⟨k, hget⟩
  | dup oldfd =>
    right
    change (m.dup oldfd).2.get k = some f at h
    cases hold : m.get oldfd with
    | none =>
      rw [dup, hold] at h
      exact ⟨k, h⟩
    | some g =>
      cases hgen : m.safeGenerateFdIdx with
      | none =>
        rw [dup, hold, hgen] at h
        exact ⟨k, h⟩
      | some p =>
        rw [dup, hold, hgen] at h
        obtain rfl | hget := hgenerate hgen h
        · exact ⟨oldfd, hold⟩
        · exact ⟨k, hget⟩
  | dup2 oldfd newfd nonneg =>
    right
    change (m.dup2 oldfd newfd).2.get k = some f at h
    cases hold : m.get oldfd with
    | none =>
      rw [dup2, hold] at h
      exact ⟨k, h⟩
    | some g =>
      by_cases hne : oldfd = newfd
      · rw [dup2, hold] at h
        dsimp only at h
        rw [if_pos hne] at h
        exact ⟨k, h⟩
      · rw [get_dup2 hold hne] at h
        split at h
        · exact ⟨oldfd, hold.trans h⟩
        · exact ⟨k, h⟩
  | remove fd =>
    right
    change (m.remove fd).2.get k = some f at h
    rw [get_remove] at h
    split at h
    · cases h
    · exact ⟨k, h⟩

theorem dup2_correct (oldfd newfd : Int32) (nonneg : 0 ≤ newfd) : Correct m (.dup2 oldfd newfd nonneg) := by
  intro fd hfd
  cases hold : m.get oldfd with
  | none =>
    rw [dup2, hold] at hfd
    cases hfd
  | some f =>
    by_cases hne : oldfd = newfd
    · rw [hne]
    · rw [get_dup2 hold hne, get_dup2 hold hne, if_pos rfl, if_neg hne, hold]

theorem correct_iff (op : Op ρ) : Correct m op ↔ (Allocates m op → ¬ Taken m) := by
  cases op with
  | add f => exact (add_correct_iff f).trans ⟨fun h _ => h, fun h => h trivial⟩
  | dup oldfd => exact dup_correct_iff oldfd
  | dup2 oldfd newfd nonneg => exact ⟨fun _ h => h.elim, fun _ => dup2_correct oldfd newfd nonneg⟩
  | remove fd => exact ⟨fun _ h => h.elim, fun _ => trivial⟩

end Calls

section Run

variable {m m' : OpenFileMap ρ}

/-- While nobody looks, the descriptors in use lie below the next one. The largest
`int` is never given out. -/
def Below (m : OpenFileMap ρ) : Prop :=
  m.fdValidationNeeded = false → ∀ k f, m.get k = some f →
    k.toInt < m.fdIdx.toInt ∨ k = Int32.maxValue

theorem Below.not_taken (h : Below m) : ¬ Taken m := by
  rintro ⟨hflag, hne, hused⟩
  obtain ⟨f, hf⟩ := Option.isSome_iff_exists.mp hused
  cases h hflag _ f hf with
  | inl hlt => exact Int.lt_irrefl _ hlt
  | inr hmax => exact hne hmax

theorem Below.insert (h : Below m) {fd : Int32} {f : ρ}
    (hfd : m.fdValidationNeeded = false → fd.toInt < m.fdIdx.toInt ∨ fd = Int32.maxValue) :
    Below (m.insert fd f) := by
  by_cases hused : m.exist fd = true
  · rw [insert_used hused]
    exact h
  · intro hflag k g hk
    rw [(fdIdx_insert f).2] at hflag
    rw [get_insert (Option.not_isSome_iff_eq_none.mp hused)] at hk
    rw [(fdIdx_insert f).1]
    split at hk
    · rename_i he
      rw [he]
      exact hfd hflag
    · exact h hflag k g hk

theorem Below.safeGenerateFdIdx (h : Below m) {fd : Int32} {f : ρ}
    (hgen : m.safeGenerateFdIdx = some (fd, m')) : Below (m'.insert fd f) := by
  obtain ⟨hfiles, ⟨-, hflag⟩ | ⟨hflag, -, hne, rfl, hnext⟩⟩ := safeGenerateFdIdx_cases hgen
  · have hbelow : Below m' := fun hflag' => by
      rw [hflag] at hflag'
      cases hflag'
    apply hbelow.insert
    intro hflag'
    rw [hflag] at hflag'
    cases hflag'
  · have hlt : m.fdIdx.toInt < m'.fdIdx.toInt := by
      have hlow := m.low
      have hle := m.fdIdx.toInt_lt
      have hne' : m.fdIdx.toInt ≠ Int32.maxValue.toInt := fun he => hne (Int32.toInt_inj.mp he)
      have hmax : Int32.maxValue.toInt = 2 ^ 31 - 1 := by decide
      have hone : (1 : Int32).toInt = 1 := rfl
      rw [hnext, Int32.toInt_add, hone, Int.bmod_eq_of_le (by omega) (by omega)]
      omega
    have hbelow : Below m' := by
      intro _ k g hk
      rw [get_eq_of_files hfiles] at hk
      exact (h hflag k g hk).imp (fun hk => Int.lt_trans hk hlt) id
    exact hbelow.insert fun _ => .inl hlt

theorem Below.remove (h : Below m) (fd : Int32) : Below (m.remove fd).2 := by
  intro hflag k g hk
  rw [fdIdx_remove]
  rw [validation_remove hk] at hflag
  rw [get_remove] at hk
  split at hk
  · cases hk
  · exact h hflag k g hk

/-- A `dup2` that does not land on the next descriptor notices one above it. -/
theorem Below.checkFdIdx (h : Below m) {newfd : Int32}
    (hnext : m.fdValidationNeeded = false → newfd = m.fdIdx → newfd = Int32.maxValue) (f : ρ) :
    Below ((m.checkFdIdx newfd).insert newfd f) := by
  have hbelow : Below (m.checkFdIdx newfd) := fun hflag =>
    h (Bool.or_eq_false_iff.mp hflag).1
  apply hbelow.insert
  intro hflag
  obtain ⟨hflag, hcheck⟩ := Bool.or_eq_false_iff.mp hflag
  by_cases heq : newfd = m.fdIdx
  · exact .inr (hnext hflag heq)
  · left
    change newfd.toInt < m.fdIdx.toInt
    have hlow := m.low
    have hne : newfd.toInt ≠ m.fdIdx.toInt := fun he => heq (Int32.toInt_inj.mp he)
    by_contra hge
    have hlt : m.fdIdx < newfd := Int32.lt_iff_toInt_lt.mpr (by omega)
    have hsmall : ∀ x : Int32, x.toInt < 10000 → (newfd != x) = true := by
      intro x hx
      rw [bne_iff_ne]
      rintro rfl
      omega
    rw [decide_eq_true hlt, hsmall 0 (by decide), hsmall 1 (by decide), hsmall 2 (by decide)] at hcheck
    cases hcheck

theorem Below.step (h : Below m) {op : Op ρ} (hop : ¬ LandsOnNext m op) : Below (step m op) := by
  cases op with
  | add f =>
    change Below (m.add f).2
    rw [add]
    split
    · exact h
    · rename_i hgen
      exact h.safeGenerateFdIdx hgen
  | dup oldfd =>
    change Below (m.dup oldfd).2
    rw [dup]
    split
    · exact h
    · split
      · exact h
      · rename_i hgen
        exact h.safeGenerateFdIdx hgen
  | dup2 oldfd newfd nonneg =>
    change Below (m.dup2 oldfd newfd).2
    rw [dup2]
    split
    · exact h
    · rename_i f hold
      dsimp only
      split
      · exact h
      · rename_i hne
        have hnext : m.fdValidationNeeded = false → newfd = m.fdIdx → newfd = Int32.maxValue := by
          intro hflag heq
          by_contra hmax
          exact hop ⟨by rw [hold]; rfl, hne, heq, hflag, hmax⟩
        split
        · -- the old descriptor stays, so the flag does too
          have hleft : (m.remove newfd).2.get oldfd = some f := by rw [get_remove, if_neg hne, hold]
          apply (h.remove newfd).checkFdIdx
          rw [validation_remove hleft, fdIdx_remove]
          exact hnext
        · exact h.checkFdIdx hnext f
  | remove fd => exact h.remove fd

theorem below_start : Below (OpenFileMap.start : OpenFileMap ρ) := by
  intro _ k f hk
  cases hk

/-- All calls of a sequence are correct exactly if none of them asks for a
descriptor that is in use unnoticed. If no `dup2` lands on the next descriptor,
none does. -/
theorem descriptors_correct_iff (ops : List (Op ρ)) :
    (AllSteps step Correct OpenFileMap.start ops ↔
      AllSteps step (fun m op => Allocates m op → ¬ Taken m) OpenFileMap.start ops) ∧
    (AllSteps step (fun m op => ¬ LandsOnNext m op) OpenFileMap.start ops →
      AllSteps step Correct OpenFileMap.start ops) := by
  constructor
  · exact allSteps_congr (fun _ _ _ _ => trivial) (fun m op _ => correct_iff op) (I := fun _ => True)
      trivial ops
  · apply AllSteps.imp (I := Below)
    · intro m op h hop
      exact ⟨h.step hop, (correct_iff op).mpr fun _ => h.not_taken⟩
    · exact below_start

end Run

/-- The second file gets the descriptor that the first was duplicated to, which
goes on to denote the first. -/
theorem dup2_onto_next :
    let ops : List (Op Bool) := [.add true, .dup2 10000 10001 (by decide), .add false]
    ¬ AllSteps step Correct OpenFileMap.start ops := by
  intro ops h
  have hadd := h.2.2.1 10001 (by decide) (by decide)
  have hget := hadd.denotes
  revert hget
  decide

end GaoFS.FileMap
