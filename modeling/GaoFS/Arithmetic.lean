import GaoFS.Library.Blocks
import Mathlib.Data.Nat.Bitwise
import Mathlib.Data.UInt
import Mathlib.Tactic.Linarith

namespace GaoFS.Arithmetic

open Library.Blocks

def isPowerOf2 (n : UInt64) : Bool := n != 0 && n &&& (n - 1) == 0

def log2 (n : UInt64) : UInt64 := n.log2

/-- The mask is built from the 32-bit literal `1u`. -/
def isAligned (n blockSize : UInt64) : Bool :=
  n &&& (((1 : UInt32) <<< (log2 blockSize).toUInt32) - 1).toUInt64 == 0

def alignLeft (offset blockSize : UInt64) : UInt64 := offset &&& ~~~(blockSize - 1)

def alignRight (offset blockSize : UInt64) : UInt64 := alignLeft offset blockSize + blockSize

def blockOverrun (offset blockSize : UInt64) : UInt64 := offset &&& (blockSize - 1)

def blockUnderrun (offset blockSize : UInt64) : UInt64 := alignRight offset blockSize - offset

def blockIndex (offset blockSize : UInt64) : UInt64 :=
  alignLeft offset blockSize >>> log2 blockSize

section BlockCount

/-- The language gives `1u << log2(block_size)` no value from the width of `1u` on. Where there is
one anyway it is `isAligned`, the shift being by the count modulo the width. -/
def isAlignedValue (n blockSize : UInt64) : Option Bool :=
  if log2 blockSize < 32 then some (isAligned n blockSize) else none

/-- Release builds drop the assertions. The one on the sum depends on the compiler. -/
inductive Build where
  | release
  | gnu
  | other
  deriving DecidableEq

def asserted : Build → UInt64 → UInt64 → UInt64 → Bool
  | .release, _, _, _ => true
  | .gnu, offset, size, blockSize =>
    isPowerOf2 blockSize && decide (offset.toNat + size.toNat < 2 ^ 64)
  | .other, offset, size, blockSize => isPowerOf2 blockSize && decide (offset < offset + size)

/-- What `block_count` returns, from whether the end is aligned. -/
def blockCountFrom (endAligned : Bool) (offset size blockSize : UInt64) : UInt64 :=
  let firstBlock := alignLeft offset blockSize
  let finalBlock := alignLeft (offset + size) blockSize
  let mask := -(size != 0).toUInt64
  ((finalBlock >>> log2 blockSize) - (firstBlock >>> log2 blockSize) + (!endAligned).toUInt64) &&& mask

/-- A failed assertion ends the process. -/
def blockCount (build : Build) (offset size blockSize : UInt64) : Option UInt64 :=
  if asserted build offset size blockSize then
    (isAlignedValue (offset + size) blockSize).map fun endAligned =>
      blockCountFrom endAligned offset size blockSize
  else none

end BlockCount

theorem toNat_add_of_lt {a b : UInt64} (h : a.toNat + b.toNat < 2 ^ 64) :
    (a + b).toNat = a.toNat + b.toNat := by
  rw [UInt64.toNat_add, Nat.mod_eq_of_lt h]

section PowerOfTwo

variable {bs : UInt64} {k : Nat} (hbs : bs.toNat = 2 ^ k)
include hbs

theorem exponent_lt : k < 64 :=
  (Nat.pow_lt_pow_iff_right (by omega)).mp (hbs ▸ bs.toNat_lt)

theorem toNat_sub_one : (bs - 1).toNat = 2 ^ k - 1 := by
  have hpos := Nat.two_pow_pos k
  rw [UInt64.toNat_sub_of_le _ _ (UInt64.le_iff_toNat_le.mpr (by simp; omega)), hbs]
  rfl

theorem toNat_log2 : (log2 bs).toNat = k := by
  have h : (log2 bs).toNat = bs.toNat.log2 := rfl
  rw [h, hbs, Nat.log2_two_pow]

theorem toNat_blockOverrun (x : UInt64) : (blockOverrun x bs).toNat = x.toNat % 2 ^ k := by
  rw [blockOverrun, UInt64.toNat_and, toNat_sub_one hbs, Nat.and_two_pow_sub_one_eq_mod]

theorem toNat_alignLeft (x : UInt64) : (alignLeft x bs).toNat = 2 ^ k * (x.toNat / 2 ^ k) := by
  apply Nat.eq_of_testBit_eq
  intro i
  have hm : (bs - 1).toNat.testBit i = decide (i < k) := by
    rw [toNat_sub_one hbs, Nat.testBit_two_pow_sub_one]
  have hx : x.toNat.testBit i = true → i < 64 := fun h => by
    by_contra hi
    have hlt : x.toNat < 2 ^ i := x.toNat_lt.trans_le (Nat.pow_le_pow_right (by omega) (by omega))
    simp [Nat.testBit_lt_two_pow hlt] at h
  have hn : (~~~(bs - 1)).toNat.testBit i = (decide (i < 64) && !decide (i < k)) := by
    rw [← hm]
    exact BitVec.getLsbD_not
  rw [alignLeft, UInt64.toNat_and, Nat.testBit_and, hn, Nat.testBit_two_pow_mul,
    Nat.testBit_div_two_pow]
  by_cases hik : i < k
  · simp [hik]
  · rw [show i - k + k = i by omega]
    cases hb : x.toNat.testBit i with
    | false => simp
    | true => simp [hik, hx hb]; omega

theorem toNat_blockIndex (x : UInt64) : (blockIndex x bs).toNat = x.toNat / 2 ^ k := by
  have hk := exponent_lt hbs
  rw [blockIndex, UInt64.toNat_shiftRight, toNat_log2 hbs, toNat_alignLeft hbs,
    Nat.mod_eq_of_lt hk, Nat.shiftRight_eq_div_pow, Nat.mul_div_cancel_left _ (Nat.two_pow_pos k)]

/-- The exponent is taken modulo 32. -/
theorem isAligned_iff_wrapped (x : UInt64) : isAligned x bs = true ↔ 2 ^ (k % 32) ∣ x.toNat := by
  have hk := exponent_lt hbs
  have hk32 : (2 : Nat) ^ (k % 32) < 2 ^ 32 := Nat.pow_lt_pow_right (by omega) (Nat.mod_lt k (by decide))
  have hpos := Nat.two_pow_pos (k % 32)
  have hshift : ((1 : UInt32) <<< (log2 bs).toUInt32).toNat = 2 ^ (k % 32) := by
    rw [UInt32.toNat_shiftLeft, UInt64.toNat_toUInt32, toNat_log2 hbs,
      Nat.mod_eq_of_lt (by omega : k < 2 ^ 32), Nat.shiftLeft_eq]
    simpa using Nat.mod_eq_of_lt hk32
  have hmask : (((1 : UInt32) <<< (log2 bs).toUInt32) - 1).toUInt64.toNat = 2 ^ (k % 32) - 1 := by
    rw [UInt32.toNat_toUInt64,
      UInt32.toNat_sub_of_le _ _ (UInt32.le_iff_toNat_le.mpr (by rw [hshift]; simp; omega)), hshift]
    rfl
  rw [isAligned, beq_iff_eq, ← UInt64.toNat_inj, UInt64.toNat_and, hmask,
    Nat.and_two_pow_sub_one_eq_mod, Nat.dvd_iff_mod_eq_zero]
  rfl

theorem isAligned_iff (hk : k < 32) (x : UInt64) : isAligned x bs = true ↔ 2 ^ k ∣ x.toNat := by
  rw [isAligned_iff_wrapped hbs, Nat.mod_eq_of_lt hk]

/-- The right boundary may wrap to zero at the end of the address range; the
subtraction then wraps back. -/
theorem toNat_blockUnderrun (x : UInt64) :
    (blockUnderrun x bs).toNat = 2 ^ k - x.toNat % 2 ^ k := by
  have hk : (2 : Nat) ^ k < 2 ^ 64 := Nat.pow_lt_pow_right (by omega) (exponent_lt hbs)
  have hmod := Nat.div_add_mod x.toNat (2 ^ k)
  have hlt := Nat.mod_lt x.toNat (Nat.two_pow_pos k)
  have hx := x.toNat_lt
  rw [blockUnderrun, alignRight, UInt64.toNat_sub, UInt64.toNat_add, toNat_alignLeft hbs, hbs]
  generalize 2 ^ k * (x.toNat / 2 ^ k) = l at *
  generalize x.toNat % 2 ^ k = r at *
  generalize (2 : Nat) ^ k = b at *
  omega

theorem toNat_alignRight {x : UInt64} (h : 2 ^ k * (x.toNat / 2 ^ k) + 2 ^ k < 2 ^ 64) :
    (alignRight x bs).toNat = 2 ^ k * (x.toNat / 2 ^ k) + 2 ^ k := by
  rw [← toNat_alignLeft hbs, ← hbs] at h ⊢
  exact toNat_add_of_lt h

theorem log2_lt_iff : log2 bs < 32 ↔ bs.toNat < 2 ^ 32 := by
  rw [UInt64.lt_iff_toNat_lt, toNat_log2 hbs, hbs, Nat.pow_lt_pow_iff_right (by decide)]
  rfl

omit hbs in
theorem blockCountFrom_zero (endAligned : Bool) (offset : UInt64) :
    blockCountFrom endAligned offset 0 bs = 0 := UInt64.and_zero

/-- Between the indices of the two ends, and one more if the end is not on a boundary. Blocks of
one byte have all their ends on one. -/
theorem toNat_blockCountFrom {endAligned : Bool} (hbyte : k = 0 → endAligned = true)
    {offset size : UInt64} (hsize : size ≠ 0) (hend : offset.toNat + size.toNat < 2 ^ 64) :
    (blockCountFrom endAligned offset size bs).toNat =
      (offset.toNat + size.toNat) / 2 ^ k - offset.toNat / 2 ^ k + (!endAligned).toNat := by
  have hmask : -(size != 0).toUInt64 = -1 := by
    rw [bne_iff_ne.mpr hsize]
    rfl
  have hsum := toNat_add_of_lt hend
  have hle : offset.toNat / 2 ^ k ≤ (offset.toNat + size.toNat) / 2 ^ k :=
    Nat.div_le_div_right (Nat.le_add_right _ _)
  have hdiff : (blockIndex (offset + size) bs - blockIndex offset bs).toNat =
      (offset.toNat + size.toNat) / 2 ^ k - offset.toNat / 2 ^ k := by
    rw [UInt64.toNat_sub_of_le, toNat_blockIndex hbs, toNat_blockIndex hbs, hsum]
    rw [UInt64.le_iff_toNat_le, toNat_blockIndex hbs, toNat_blockIndex hbs, hsum]
    exact hle
  have hbool : (!endAligned).toUInt64.toNat = (!endAligned).toNat := by cases endAligned <;> rfl
  change ((blockIndex (offset + size) bs - blockIndex offset bs + (!endAligned).toUInt64) &&&
    -(size != 0).toUInt64).toNat = _
  rw [hmask, UInt64.and_neg_one, UInt64.toNat_add, hdiff, hbool]
  apply Nat.mod_eq_of_lt
  cases endAligned with
  | true =>
    have hquot := Nat.div_le_self (offset.toNat + size.toNat) (2 ^ k)
    exact (Nat.sub_le _ _).trans_lt (hquot.trans_lt hend)
  | false =>
    have hk : k ≠ 0 := fun h0 => Bool.false_ne_true (hbyte h0)
    have htwo : 2 ^ 1 ≤ 2 ^ k := Nat.pow_le_pow_right (by decide) (Nat.pos_of_ne_zero hk)
    have hquot : (offset.toNat + size.toNat) / 2 ^ k ≤ (offset.toNat + size.toNat) / 2 :=
      Nat.div_le_div_left htwo (by decide)
    have hdiff : (offset.toNat + size.toNat) / 2 ^ k - offset.toNat / 2 ^ k ≤ (offset.toNat + size.toNat) / 2 :=
      (Nat.sub_le _ _).trans hquot
    change _ + 1 < _
    omega

/-- For an end that is tested right this is the number of blocks. -/
theorem toNat_blockCountFrom_right {endAligned : Bool} {offset size : UInt64}
    (hend : offset.toNat + size.toNat < 2 ^ 64)
    (haligned : endAligned = true ↔ 2 ^ k ∣ offset.toNat + size.toNat) :
    (blockCountFrom endAligned offset size bs).toNat = (meeting (2 ^ k) offset.toNat size.toNat).ncard := by
  by_cases hsize : size = 0
  · rw [hsize, blockCountFrom_zero, UInt64.toNat_zero, meeting_empty, Set.ncard_empty]
  have hpos : 0 < size.toNat := Nat.pos_of_ne_zero fun h0 => hsize (UInt64.toNat_inj.mp h0)
  have hbyte : k = 0 → endAligned = true := by
    rintro rfl
    exact haligned.mpr (one_dvd _)
  rw [toNat_blockCountFrom hbs hbyte hsize hend, ncard_meeting (Nat.two_pow_pos k) hpos]
  obtain ⟨last, hlast⟩ : ∃ last, offset.toNat + size.toNat = last + 1 := ⟨_, (Nat.sub_add_cancel (by omega)).symm⟩
  have hle : offset.toNat / 2 ^ k ≤ last / 2 ^ k := Nat.div_le_div_right (by omega)
  rw [hlast] at haligned ⊢
  rw [Nat.succ_div, Nat.add_sub_cancel]
  by_cases hdvd : 2 ^ k ∣ last + 1
  · rw [if_pos hdvd, haligned.mpr hdvd]
    rfl
  · rw [if_neg hdvd, Bool.eq_false_iff.mpr (mt haligned.mp hdvd)]
    change _ + 0 - _ + 1 = _
    omega

end PowerOfTwo

section Division

variable {bs x : UInt64} {k : Nat}

theorem isPowerOf2_iff (n : UInt64) : isPowerOf2 n = true ↔ ∃ k, n.toNat = 2 ^ k := by
  change _ ↔ n.toNat.isPowerOfTwo
  rw [← Nat.ne_zero_and_sub_one_eq_zero_iff_isPowerOfTwo, isPowerOf2, Bool.and_eq_true, bne_iff_ne,
    beq_iff_eq, ne_eq, ← UInt64.toNat_inj, ← UInt64.toNat_inj, UInt64.toNat_and]
  apply and_congr_right
  intro hne
  have hpos : (1 : UInt64).toNat ≤ n.toNat := Nat.pos_of_ne_zero hne
  have hpred : (n - 1).toNat = n.toNat - 1 := by
    rw [UInt64.toNat_sub_of_le _ _ (UInt64.le_iff_toNat_le.mpr hpos)]
    rfl
  rw [hpred]
  rfl

/-- The functions on one number, against division. -/
structure AgreesWithDivision (bs x : UInt64) : Prop where
  alignLeft : (alignLeft x bs).toNat = bs.toNat * (x.toNat / bs.toNat)
  blockIndex : (blockIndex x bs).toNat = x.toNat / bs.toNat
  blockOverrun : (blockOverrun x bs).toNat = x.toNat % bs.toNat
  alignRight : bs.toNat * (x.toNat / bs.toNat) + bs.toNat < 2 ^ 64 →
    (alignRight x bs).toNat = bs.toNat * (x.toNat / bs.toNat) + bs.toNat
  blockUnderrun : bs.toNat * (x.toNat / bs.toNat) + bs.toNat < 2 ^ 64 →
    (blockUnderrun x bs).toNat = bs.toNat - x.toNat % bs.toNat

theorem agreesWithDivision (hbs : bs.toNat = 2 ^ k) (x : UInt64) : AgreesWithDivision bs x where
  alignLeft := by rw [toNat_alignLeft hbs, hbs]
  blockIndex := by rw [toNat_blockIndex hbs, hbs]
  blockOverrun := by rw [toNat_blockOverrun hbs, hbs]
  alignRight h := by
    rw [hbs] at h ⊢
    exact toNat_alignRight hbs h
  blockUnderrun _ := by rw [toNat_blockUnderrun hbs, hbs]

theorem isAlignedValue_eq (hbs : bs.toNat = 2 ^ k) (x : UInt64) : isAlignedValue x bs =
    if bs.toNat < 2 ^ 32 then some (decide (bs.toNat ∣ x.toNat)) else none := by
  simp only [isAlignedValue, log2_lt_iff hbs]
  split_ifs with hlt
  · rw [hbs, Nat.pow_lt_pow_iff_right (by decide)] at hlt
    rw [Option.some_inj, Bool.eq_iff_iff, isAligned_iff hbs hlt, decide_eq_true_iff, hbs]
  · rfl

theorem blockCount_eq_some_iff (hbs : bs.toNat = 2 ^ k) (build : Build) {offset size : UInt64}
    (hend : offset.toNat + size.toNat < 2 ^ 64) :
    (blockCount build offset size bs).map UInt64.toNat =
        some (meeting bs.toNat offset.toNat size.toNat).ncard ↔
      bs.toNat < 2 ^ 32 ∧ (build = .other → size ≠ 0) := by
  have hpow : isPowerOf2 bs = true := (isPowerOf2_iff bs).mpr ⟨k, hbs⟩
  have hsum := toNat_add_of_lt hend
  have hasserted : asserted build offset size bs = true ↔ (build = .other → size ≠ 0) := by
    cases build with
    | release => exact iff_of_true rfl fun h => by cases h
    | gnu =>
      refine iff_of_true ?_ fun h => by cases h
      rw [asserted, hpow, decide_eq_true hend]
      rfl
    | other =>
      rw [asserted, hpow, Bool.true_and, decide_eq_true_iff, UInt64.lt_iff_toNat_lt, hsum, ne_eq,
        ← UInt64.toNat_inj, imp_iff_right rfl, UInt64.toNat_zero]
      omega
  rw [blockCount, isAlignedValue_eq hbs, hsum, ← hasserted]
  split_ifs with h hlt
  · refine iff_of_true ?_ ⟨hlt, h⟩
    rw [Option.map_some, Option.map_some, hbs,
      toNat_blockCountFrom_right hbs hend (decide_eq_true_iff (p := 2 ^ k ∣ offset.toNat + size.toNat))]
  · exact iff_of_false (Option.some_ne_none _).symm fun hc => hlt hc.1
  · exact iff_of_false (Option.some_ne_none _).symm fun hc => h hc.2

/-- In blocks too large for the mask a smaller power of two passes for aligned. -/
theorem exists_misaligned (hbs : bs.toNat = 2 ^ k) (hk : 32 ≤ k) :
    ∃ x : UInt64, 0 < x.toNat ∧ x.toNat < 2 ^ k ∧ isAligned x bs = true := by
  have hmod : k % 32 < 32 := Nat.mod_lt k (by decide)
  have hlt : (2 : Nat) ^ (k % 32) < 2 ^ 64 := Nat.pow_lt_pow_right (by decide) (by omega)
  have hx : (UInt64.ofNat (2 ^ (k % 32))).toNat = 2 ^ (k % 32) := by
    rw [UInt64.toNat_ofNat', Nat.mod_eq_of_lt hlt]
  refine ⟨UInt64.ofNat (2 ^ (k % 32)), ?_, ?_, ?_⟩
  · rw [hx]
    exact Nat.two_pow_pos _
  · rw [hx]
    exact Nat.pow_lt_pow_right (by decide) (by omega)
  · rw [isAligned_iff_wrapped hbs, hx]

theorem isAligned_right_iff (hbs : bs.toNat = 2 ^ k) :
    (∀ x, isAligned x bs = true ↔ bs.toNat ∣ x.toNat) ↔ bs.toNat < 2 ^ 32 := by
  constructor
  · intro h
    by_contra hge
    rw [hbs, Nat.pow_lt_pow_iff_right (by decide), Nat.not_lt] at hge
    obtain ⟨x, hpos, hlt, haligned⟩ := exists_misaligned hbs hge
    have hdvd := (h x).mp haligned
    rw [hbs] at hdvd
    exact absurd (Nat.le_of_dvd hpos hdvd) (Nat.not_le.mpr hlt)
  · intro hlt x
    rw [hbs, Nat.pow_lt_pow_iff_right (by decide)] at hlt
    rw [isAligned_iff hbs hlt, hbs]

theorem blockCountFrom_right_iff (hbs : bs.toNat = 2 ^ k) :
    (∀ offset size : UInt64, offset.toNat + size.toNat < 2 ^ 64 →
      (blockCountFrom (isAligned (offset + size) bs) offset size bs).toNat =
        (meeting bs.toNat offset.toNat size.toNat).ncard) ↔ bs.toNat < 2 ^ 32 := by
  constructor
  · intro h
    by_contra hge
    rw [hbs, Nat.pow_lt_pow_iff_right (by decide), Nat.not_lt] at hge
    obtain ⟨x, hpos, hlt, haligned⟩ := exists_misaligned hbs hge
    have hsize : x ≠ 0 := by
      rintro rfl
      exact absurd hpos (by decide)
    have hend : (0 : UInt64).toNat + x.toNat < 2 ^ 64 := by
      rw [UInt64.toNat_zero, Nat.zero_add]
      exact x.toNat_lt
    have hcount := h 0 x hend
    rw [UInt64.zero_add, haligned, toNat_blockCountFrom hbs (fun _ => rfl) hsize hend, UInt64.toNat_zero,
      hbs, ncard_meeting (Nat.two_pow_pos k) hpos, Nat.zero_add, Nat.zero_div, Nat.div_eq_of_lt hlt] at hcount
    exact absurd hcount (Nat.succ_ne_zero _).symm
  · intro hlt offset size hend
    have haligned := (isAligned_right_iff hbs).mpr hlt (offset + size)
    rw [toNat_add_of_lt hend, hbs] at haligned
    rw [hbs]
    exact toNat_blockCountFrom_right hbs hend haligned

/-- The arithmetic on blocks is that of division, but the test of alignment and the count built on
it only for blocks of less than `2 ^ 32` bytes, and the count of an empty interval only where no
assertion excludes it. With a shift by the count modulo the width the bound is the same. -/
theorem blockArithmetic_iff (bs : UInt64) (hpow : isPowerOf2 bs = true) :
    (∀ x, AgreesWithDivision bs x) ∧
    (∀ x, isAlignedValue x bs = some (decide (bs.toNat ∣ x.toNat)) ↔ bs.toNat < 2 ^ 32) ∧
    (∀ build offset size, offset.toNat + size.toNat < 2 ^ 64 →
      ((blockCount build offset size bs).map UInt64.toNat =
          some (meeting bs.toNat offset.toNat size.toNat).ncard ↔
        bs.toNat < 2 ^ 32 ∧ (build = .other → size ≠ 0))) ∧
    ((∀ x, isAligned x bs = true ↔ bs.toNat ∣ x.toNat) ↔ bs.toNat < 2 ^ 32) ∧
    ((∀ offset size : UInt64, offset.toNat + size.toNat < 2 ^ 64 →
      (blockCountFrom (isAligned (offset + size) bs) offset size bs).toNat =
        (meeting bs.toNat offset.toNat size.toNat).ncard) ↔ bs.toNat < 2 ^ 32) := by
  obtain ⟨k, hbs⟩ := (isPowerOf2_iff bs).mp hpow
  refine ⟨agreesWithDivision hbs, fun x => ?_, fun build offset size => blockCount_eq_some_iff hbs build,
    isAligned_right_iff hbs, blockCountFrom_right_iff hbs⟩
  rw [isAlignedValue_eq hbs]
  by_cases hlt : bs.toNat < 2 ^ 32
  · rw [if_pos hlt]
    exact iff_of_true rfl hlt
  · rw [if_neg hlt]
    exact iff_of_false (Option.some_ne_none _).symm hlt

theorem blockArithmetic_chunks :
    isAlignedValue 524289 524288 = some false ∧
      (blockCount .gnu 524287 2 524288).map UInt64.toNat = some (meeting 524288 524287 2).ncard := by
  obtain ⟨-, haligned, hcount, -⟩ := blockArithmetic_iff 524288 (by decide)
  exact ⟨(haligned 524289).mpr (by decide), (hcount .gnu 524287 2 (by decide)).mpr (by decide)⟩

/-- Blocks of 4 GiB, where the shift has no value. With the count modulo 32 every number is
aligned, and no block meets the first byte. For an empty interval the assertion of other compilers
fails. -/
theorem wide_blocks :
    isAlignedValue 1 4294967296 = none ∧ blockCount .gnu 0 1 4294967296 = none ∧
      isAligned 1 4294967296 = true ∧ ¬ 4294967296 ∣ (1 : UInt64).toNat ∧
      blockCountFrom (isAligned (0 + 1) 4294967296) 0 1 4294967296 = 0 ∧
      (meeting 4294967296 0 1).ncard = 1 ∧ blockCount .other 0 0 4096 = none := by
  refine ⟨by decide, by decide, by decide, by decide, by decide, ?_, by decide⟩
  rw [ncard_meeting (by decide) (by decide)]

end Division

theorem toInt_eq_toNat {x : Int64} (h : x.toUInt64.toNat < 2 ^ 63) :
    x.toInt = x.toUInt64.toNat := by
  have hbits : x.toBitVec.toNat = x.toUInt64.toNat := rfl
  rw [← Int64.toInt_toBitVec, BitVec.toInt_eq_toNat_of_lt (by omega), hbits]

theorem toInt_of_nonneg {x : Int64} (h : 0 ≤ x) : x.toInt = x.toUInt64.toNat := by
  have hbits : x.toBitVec.toNat = x.toUInt64.toNat := rfl
  have hcond := BitVec.toInt_eq_toNat_cond x.toBitVec
  rw [Int64.toInt_toBitVec, hbits] at hcond
  have hnonneg : 0 ≤ x.toInt := by simpa [Int64.le_iff_toInt_le] using h
  have hlt := x.toUInt64.toNat_lt
  split at hcond <;> omega

theorem pos_iff_toUInt64 {x : Int64} (h : x.toUInt64.toNat < 2 ^ 63) :
    0 < x ↔ 0 < x.toUInt64.toNat := by
  rw [Int64.lt_iff_toInt_lt, toInt_eq_toNat h]
  simp

theorem toInt64_nonneg {x : UInt64} (h : x.toNat < 2 ^ 63) : 0 ≤ x.toInt64 := by
  have hx : x.toInt64.toInt = x.toNat := by
    rw [toInt_eq_toNat (by rw [UInt64.toUInt64_toInt64]; exact h), UInt64.toUInt64_toInt64]
  rw [Int64.le_iff_toInt_le, hx]
  simp

theorem not_ofNat_neg {n : Nat} (h : n < 2 ^ 63) : ¬ Int64.ofNat n < 0 := by
  rw [Int64.lt_iff_toInt_lt, Int64.toInt_ofNat_of_lt h]
  simp

theorem ofNat_eq_zero_iff {n : Nat} (h : n < 2 ^ 63) : Int64.ofNat n = 0 ↔ n = 0 := by
  rw [← Int64.toInt_inj, Int64.toInt_ofNat_of_lt h]
  simp

theorem toNat_sum (l : List UInt64) (h : (l.map UInt64.toNat).sum < 2 ^ 64) :
    l.sum.toNat = (l.map UInt64.toNat).sum := by
  induction l with
  | nil => rfl
  | cons x l ih =>
    rw [List.map_cons, List.sum_cons] at h
    rw [List.sum_cons, UInt64.toNat_add, ih (by omega), List.map_cons, List.sum_cons,
      Nat.mod_eq_of_lt h]

end GaoFS.Arithmetic
