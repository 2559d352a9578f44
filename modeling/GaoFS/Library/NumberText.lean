import Mathlib.Data.Nat.Digits.Defs
import Mathlib.Data.List.TakeWhile
import Mathlib.Tactic.Ring

namespace GaoFS.Library.NumberText

/-- Contents of a C++ string. A pointer into a string is the suffix it points
to, and the end of the list stands for the terminating zero byte. -/
abbrev Bytes := List UInt8

def text (s : String) : Bytes := s.toList.map Char.toUInt8

def isDigit (b : UInt8) : Bool := 48 ≤ b.toNat && b.toNat ≤ 57

def isSpace (b : UInt8) : Bool := b.toNat == 32 || (9 ≤ b.toNat && b.toNat ≤ 13)

def digitChar (d : Nat) : UInt8 := UInt8.ofNat (48 + d)

def decimal (n : Nat) : Bytes :=
  if n = 0 then [48] else ((Nat.digits 10 n).reverse).map digitChar

def value (ds : Bytes) : Nat := ds.foldl (fun v d => 10 * v + (d.toNat - 48)) 0

def formatInt (i : Int) : Bytes :=
  if i < 0 then 45 :: decimal i.natAbs else decimal i.natAbs

theorem toNat_digitChar (d : Nat) (h : d < 10) : (digitChar d).toNat = 48 + d := by
  simp only [digitChar, UInt8.toNat_ofNat']
  omega

theorem isDigit_digitChar (d : Nat) (h : d < 10) : isDigit (digitChar d) = true := by
  simp only [isDigit, toNat_digitChar d h, Bool.and_eq_true, decide_eq_true_eq]
  omega

theorem isDigit_decimal (n : Nat) : ∀ b ∈ decimal n, isDigit b = true := by
  intro b hb
  unfold decimal at hb
  split at hb
  · obtain rfl := List.mem_singleton.mp hb
    decide
  · obtain ⟨d, hd, rfl⟩ := List.mem_map.mp hb
    exact isDigit_digitChar d (Nat.digits_lt_base (by omega) (List.mem_reverse.mp hd))

theorem decimal_ne_nil (n : Nat) : decimal n ≠ [] := by
  unfold decimal
  split
  · simp
  · rename_i h
    simpa [Nat.digits_eq_nil_iff_eq_zero] using h

theorem value_decimal (n : Nat) : value (decimal n) = n := by
  unfold decimal
  split
  · rename_i h; subst h; decide
  · have hlt : ∀ d ∈ Nat.digits 10 n, d < 10 := fun d hd => Nat.digits_lt_base (by omega) hd
    have hv : ∀ ds : List Nat, (∀ d ∈ ds, d < 10) →
        value (ds.reverse.map digitChar) = Nat.ofDigits 10 ds := by
      intro ds hds
      induction ds with
      | nil => rfl
      | cons d ds ih =>
        have ih' := ih (fun e he => hds e (List.mem_cons_of_mem d he))
        have hd := toNat_digitChar d (hds d List.mem_cons_self)
        unfold value at ih' ⊢
        rw [List.reverse_cons, List.map_append, List.foldl_append, ih', Nat.ofDigits_cons]
        simp only [List.map_cons, List.map_nil, List.foldl_cons, List.foldl_nil, hd]
        omega
    rw [hv _ hlt, Nat.ofDigits_digits]

theorem decimal_injective : Function.Injective decimal := fun m n h => by
  rw [← value_decimal m, h, value_decimal]

/-- A suffix that does not continue a number. -/
def Stops (rest : Bytes) : Prop := ∀ b, rest.head? = some b → isDigit b = false

theorem stops_nil : Stops [] := by simp [Stops]

theorem stops_cons {b : UInt8} (h : isDigit b = false) (rest : Bytes) : Stops (b :: rest) := by
  intro c hc
  simp only [List.head?_cons, Option.some.injEq] at hc
  exact hc ▸ h

theorem takeWhile_digits (n : Nat) (rest : Bytes) (h : Stops rest) :
    (decimal n ++ rest).takeWhile isDigit = decimal n := by
  rw [List.takeWhile_append_of_pos (isDigit_decimal n)]
  cases rest with
  | nil => simp
  | cons b rest => simp [h b rfl]

/-- What the `strto` family reads: blanks, an optional sign and digits. The
result is the sign, the magnitude and the number of characters consumed. A zero
byte belongs to none of the three classes, so the scan stays in the C string. -/
def scanNumber (s : Bytes) : Option (Bool × Nat × Nat) :=
  let blanks := s.takeWhile isSpace
  let signed := s.dropWhile isSpace
  let sign := signed.takeWhile (fun b => b == 43 || b == 45) |>.take 1
  let digits := (signed.drop sign.length).takeWhile isDigit
  if digits = [] then none
  else some (sign == [45], value digits, blanks.length + sign.length + digits.length)

theorem not_isSpace_of_isDigit {b : UInt8} (h : isDigit b = true) : isSpace b = false := by
  simp only [isDigit, Bool.and_eq_true, decide_eq_true_eq] at h
  simp only [isSpace, Bool.or_eq_false_iff, beq_eq_false_iff_ne, Bool.and_eq_false_iff,
    decide_eq_false_iff_not]
  omega

theorem not_sign_of_isDigit {b : UInt8} (h : isDigit b = true) : (b == 43 || b == 45) = false := by
  simp only [isDigit, Bool.and_eq_true, decide_eq_true_eq] at h
  simp only [Bool.or_eq_false_iff, beq_eq_false_iff_ne]
  constructor <;> rintro rfl <;> simp at h

theorem scanNumber_decimal (n : Nat) (rest : Bytes) (h : Stops rest) :
    scanNumber (decimal n ++ rest) = some (false, n, (decimal n).length) := by
  obtain ⟨d, ds, hd⟩ := List.exists_cons_of_ne_nil (decimal_ne_nil n)
  have hdig : isDigit d = true := isDigit_decimal n d (by simp [hd])
  have hblanks : (decimal n ++ rest).takeWhile isSpace = [] := by
    simp [hd, not_isSpace_of_isDigit hdig]
  have hsigned : (decimal n ++ rest).dropWhile isSpace = decimal n ++ rest := by
    simp [hd, not_isSpace_of_isDigit hdig]
  have hsign : (decimal n ++ rest).takeWhile (fun b => b == 43 || b == 45) = [] := by
    rw [hd, List.cons_append, List.takeWhile_cons_of_neg]
    simp [not_sign_of_isDigit hdig]
  simp [scanNumber, hblanks, hsigned, hsign, takeWhile_digits n rest h, decimal_ne_nil,
    value_decimal]

theorem scanNumber_formatInt (i : Int) (rest : Bytes) (h : Stops rest) :
    scanNumber (formatInt i ++ rest) =
      some (decide (i < 0), i.natAbs, (formatInt i).length) := by
  unfold formatInt
  split
  · rename_i hi
    have ht := takeWhile_digits i.natAbs rest h
    have h45 : isSpace 45 = false := by decide
    simp only [scanNumber, List.cons_append, List.takeWhile_cons_of_neg, List.dropWhile_cons_of_neg,
      h45, Bool.false_eq_true, not_false_eq_true, hi]
    simp [ht, decimal_ne_nil, value_decimal, Nat.add_comm]
  · rename_i hi
    simpa [hi] using scanNumber_decimal i.natAbs rest h

inductive StoError where
  | invalidArgument
  | outOfRange
  deriving DecidableEq, Repr

/-- `std::stoul` on a 64-bit target: a minus sign negates modulo `2 ^ 64`. -/
def stoul (s : Bytes) : Except StoError (UInt64 × Nat) :=
  match scanNumber s with
  | none => .error .invalidArgument
  | some (neg, v, read) =>
    if v < 2 ^ 64 then .ok (if neg then -UInt64.ofNat v else UInt64.ofNat v, read)
    else .error .outOfRange

def stol (s : Bytes) : Except StoError (Int64 × Nat) :=
  match scanNumber s with
  | none => .error .invalidArgument
  | some (neg, v, read) =>
    let i : Int := if neg then -v else v
    if -2 ^ 63 ≤ i ∧ i < 2 ^ 63 then .ok (Int64.ofInt i, read) else .error .outOfRange

theorem stoul_decimal (n : UInt64) (rest : Bytes) (h : Stops rest) :
    stoul (decimal n.toNat ++ rest) = .ok (n, (decimal n.toNat).length) := by
  simp [stoul, scanNumber_decimal n.toNat rest h, n.toNat_lt]

theorem toUInt64_eq_natAbs (i : Int64) :
    i.toUInt64 = if i.toInt < 0 then -UInt64.ofNat i.toInt.natAbs else UInt64.ofNat i.toInt.natAbs := by
  have hi := Int64.ofInt_toInt i
  generalize i.toInt = z at hi ⊢
  subst hi
  split
  · obtain ⟨n, rfl⟩ : ∃ n : Nat, z = -n := ⟨z.natAbs, by omega⟩
    rw [Int64.ofInt_neg, Int64.ofInt_eq_ofNat, Int64.toUInt64_neg, Int64.toUInt64_ofNat', Int.natAbs_neg,
      Int.natAbs_natCast]
  · obtain ⟨n, rfl⟩ : ∃ n : Nat, z = n := ⟨z.natAbs, by omega⟩
    rw [Int64.ofInt_eq_ofNat, Int64.toUInt64_ofNat', Int.natAbs_natCast]

/-- Negative text reads back unsigned as its two's complement. -/
theorem stoul_formatInt (i : Int64) (rest : Bytes) (h : Stops rest) :
    stoul (formatInt i.toInt ++ rest) = .ok (i.toUInt64, (formatInt i.toInt).length) := by
  have hlo := i.le_toInt
  have hhi := i.toInt_lt
  rw [stoul, scanNumber_formatInt i.toInt rest h, toUInt64_eq_natAbs i]
  simp only [decide_eq_true_eq]
  rw [if_pos (by omega)]

theorem stol_formatInt (i : Int64) (rest : Bytes) (h : Stops rest) :
    stol (formatInt i.toInt ++ rest) = .ok (i, (formatInt i.toInt).length) := by
  have hlo := i.le_toInt
  have hhi := i.toInt_lt
  have hv : (if decide (i.toInt < 0) = true then -(i.toInt.natAbs : Int) else i.toInt.natAbs) =
      i.toInt := by
    split <;> rename_i hi <;> simp only [decide_eq_true_eq] at hi <;> omega
  simp only [stol, scanNumber_formatInt i.toInt rest h, hv, Int64.ofInt_toInt]
  rw [if_pos ⟨hlo, hhi⟩]

theorem scanNumber_pos {s : Bytes} {neg : Bool} {v read : Nat} (h : scanNumber s = some (neg, v, read)) :
    0 < read := by
  rw [scanNumber] at h
  split_ifs at h with hdigits
  obtain rfl := (Prod.mk.inj (Prod.mk.inj (Option.some.inj h)).2).2
  exact Nat.add_pos_right _ (List.length_pos_iff.mpr hdigits)

/-- A conversion that does not throw has read something. -/
theorem stol_pos {s : Bytes} {i : Int64} {read : Nat} (h : stol s = .ok (i, read)) : 0 < read := by
  rw [stol] at h
  cases hscan : scanNumber s with
  | none =>
    rw [hscan] at h
    cases h
  | some scanned =>
    obtain ⟨neg, v, n⟩ := scanned
    rw [hscan] at h
    dsimp only at h
    generalize (if neg = true then -(v : Int) else v) = i at h
    split_ifs at h
    cases h
    exact scanNumber_pos hscan

/-- A printed unsigned number reads back as signed exactly up to `2 ^ 63 - 1`. -/
theorem stol_decimal (n : Nat) (rest : Bytes) (h : Stops rest) :
    stol (decimal n ++ rest) =
      if n < 2 ^ 63 then .ok (Int64.ofNat n, (decimal n).length) else .error .outOfRange := by
  simp only [stol, scanNumber_decimal n rest h, Bool.false_eq_true, ↓reduceIte, Int64.ofInt_eq_ofNat]
  by_cases hn : n < 2 ^ 63
  · rw [if_pos hn, if_pos (by omega)]
  · rw [if_neg hn, if_neg (by omega)]

def notNul (b : UInt8) : Bool := b != 0

/-- What a `std::string` takes from a `char*`: the bytes before the first zero. -/
def cString (s : Bytes) : Bytes := s.takeWhile notNul

theorem cString_clean (s : Bytes) : ∀ b ∈ cString s, notNul b = true :=
  fun _ hb => List.mem_takeWhile_imp hb

theorem cString_eq_self_iff (s : Bytes) : cString s = s ↔ ∀ b ∈ s, notNul b = true :=
  List.takeWhile_eq_self_iff

/-- Behind what a `char*` gives there is a zero byte or the end. -/
theorem headD_drop_cString (s : Bytes) : (s.drop (cString s).length).headD 0 = 0 := by
  induction s with
  | nil => rfl
  | cons b s ih =>
    by_cases hb : notNul b = true
    · rw [cString, List.takeWhile_cons_of_pos hb]
      exact ih
    · rw [cString, List.takeWhile_cons_of_neg hb]
      simpa [notNul] using hb

theorem getElem?_cString {s : Bytes} {i : Nat} (h : i < (cString s).length) :
    (cString s)[i]? = s[i]? := by
  obtain ⟨t, ht⟩ := List.takeWhile_prefix (p := notNul) (l := s)
  have happ : s[i]? = (cString s ++ t)[i]? := by rw [cString, ht]
  rw [happ, List.getElem?_append_left h]

theorem lt_length_cString_iff (s : Bytes) (i : Nat) :
    i < (cString s).length ↔ i < s.length ∧ ∀ p, p ≤ i → s[p]? ≠ some 0 := by
  induction s generalizing i with
  | nil => simp [cString]
  | cons b s ih =>
    by_cases hb : b = 0
    · subst hb
      have hcut : cString (0 :: s) = [] := by simp [cString, notNul]
      rw [hcut]
      exact iff_of_false (Nat.not_lt_zero i) fun h => h.2 0 (Nat.zero_le i) rfl
    · have hcut : cString (b :: s) = b :: cString s :=
        List.takeWhile_cons_of_pos (by simpa [notNul] using hb)
      rw [hcut, List.length_cons, List.length_cons]
      cases i with
      | zero => simp [hb]
      | succ i =>
        rw [Nat.add_lt_add_iff_right, Nat.add_lt_add_iff_right, ih]
        refine and_congr_right fun _ => ⟨fun h p hp => ?_, fun h p hp => h (p + 1) (by omega)⟩
        cases p with
        | zero => simp [hb]
        | succ p => exact h p (by omega)

/-- Contents of a string that ends at its first zero byte. -/
def NulFree : Type := { t : Bytes // ∀ b ∈ t, notNul b = true }

theorem NulFree.clean (t : NulFree) : ∀ b ∈ t.1, notNul b = true := t.2

def cPath (s : Bytes) : NulFree := ⟨cString s, cString_clean s⟩

/-- A decoder of a text record throws out of a conversion or fails an assertion. -/
inductive DecodeError where
  | std (e : StoError)
  | assertion
  deriving DecidableEq

example : stol (text " -12|x") = .ok (-12, 4) := by decide

end GaoFS.Library.NumberText
