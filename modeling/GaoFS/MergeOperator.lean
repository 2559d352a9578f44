import GaoFS.MetadataRecord
import GaoFS.Library.Runs
import Mathlib.Data.List.Perm.Basic
import Mathlib.Data.List.Infix

namespace GaoFS.MergeOperator

open MetadataRecord Library.NumberText Library.Runs

inductive MergeOperand where
  | increaseSize (size : UInt64) (append : Bool)
  | decreaseSize (size : UInt64)
  | create (metadata : Bytes)
  deriving DecidableEq

def OperandID.increaseSize : UInt8 := 105

def OperandID.decreaseSize : UInt8 := 100

def OperandID.create : UInt8 := 99

def operandIdSuffix : UInt8 := 58

def separator : UInt8 := 44

def trueChar : UInt8 := 116

def falseChar : UInt8 := 102

def MergeOperand.id : MergeOperand → UInt8
  | .increaseSize _ _ => OperandID.increaseSize
  | .decreaseSize _ => OperandID.decreaseSize
  | .create _ => OperandID.create

def MergeOperand.serializeParams : MergeOperand → Bytes
  | .increaseSize size append =>
    decimal size.toNat ++ [separator, if append then trueChar else falseChar]
  | .decreaseSize size => decimal size.toNat
  | .create metadata => metadata

def MergeOperand.serialize (op : MergeOperand) : Bytes :=
  op.id :: operandIdSuffix :: op.serializeParams

inductive MergeError where
  | decode (e : DecodeError)
  | runtimeError
  deriving DecidableEq

def getId : Bytes → Except MergeError UInt8
  | [] => .error (.decode .assertion)
  | b :: _ => .ok b

def getParams : Bytes → Except MergeError Bytes
  | _ :: b :: params => if b = operandIdSuffix then .ok params else .error (.decode .assertion)
  | _ => .error (.decode .assertion)

def decodeIncreaseSize (s : Bytes) : Except MergeError (UInt64 × Bool) :=
  match stoul s with
  | .error e => .error (.decode (.std e))
  | .ok (size, read) =>
    match s.drop read with
    | [sep, c] =>
      if sep = separator ∧ (c = trueChar ∨ c = falseChar) then .ok (size, c != falseChar)
      else .error (.decode .assertion)
    | _ => .error (.decode .assertion)

def decodeDecreaseSize (s : Bytes) : Except MergeError UInt64 :=
  match stoul s with
  | .error e => .error (.decode (.std e))
  | .ok (size, read) => if read = s.length then .ok size else .error (.decode .assertion)

def mergeOperand (fsize : UInt64) (op : Bytes) : Except MergeError UInt64 := do
  let id ← getId op
  let params ← getParams op
  if id = OperandID.create then .ok fsize
  else if id = OperandID.increaseSize then
    (decodeIncreaseSize params).map fun r => if r.2 then fsize + r.1 else max fsize r.1
  else if id = OperandID.decreaseSize then decodeDecreaseSize params
  else .error .runtimeError

/-- The value to start from and the operands that are left. Operands without a
base value have to start with a create. -/
def mergeBase : Option Bytes → List Bytes → Except MergeError (Bytes × List Bytes)
  | some value, ops => .ok (value, ops)
  | none, [] => .error (.decode .assertion)
  | none, op :: ops => do
    let id ← getId op
    if id = OperandID.create then (getParams op).map fun value => (value, ops)
    else .error .runtimeError

def fullMergeV2 (cfg : Config) (existing : Option Bytes) (ops : List Bytes) :
    Except MergeError Bytes := do
  let (value, ops) ← mergeBase existing ops
  let md ← (Metadata.decode cfg value).mapError MergeError.decode
  let fsize ← ops.foldlM mergeOperand md.size
  .ok ((md.resized fsize).serialize cfg)

def MergeOperand.resize (fsize : UInt64) : MergeOperand → UInt64
  | .increaseSize s append => if append then fsize + s else max fsize s
  | .decreaseSize s => s
  | .create _ => fsize

/-- The same on the size of a file, which is a number. -/
def sizeAfter (size : Nat) : MergeOperand → Nat
  | .increaseSize s append => if append then size + s.toNat else max size s.toNat
  | .decreaseSize s => s.toNat
  | .create _ => size

def finalSize (size : Nat) (ops : List MergeOperand) : Nat := ops.foldl sizeAfter size

/-- The record that a base value or, without one, the first create fixes. -/
inductive Fixes (cfg : Config) : Option Bytes → List MergeOperand → Metadata → Prop where
  | existing {md : Metadata} (h : md.size.toNat < 2 ^ 63) (ops : List MergeOperand) :
    Fixes cfg (some (md.serialize cfg)) ops md
  | create {metadata : Bytes} {md : Metadata} (h : Metadata.decode cfg metadata = .ok md)
      (ops : List MergeOperand) : Fixes cfg none (.create metadata :: ops) md

section Operands

theorem decodeIncreaseSize_serializeParams (size : UInt64) (append : Bool) :
    decodeIncreaseSize (MergeOperand.increaseSize size append).serializeParams = .ok (size, append) := by
  have hparse := stoul_decimal size [separator, if append then trueChar else falseChar]
    (stops_cons (by decide) _)
  simp only [decodeIncreaseSize, MergeOperand.serializeParams, hparse, List.drop_left]
  cases append <;> rfl

theorem decodeDecreaseSize_serializeParams (size : UInt64) :
    decodeDecreaseSize (MergeOperand.decreaseSize size).serializeParams = .ok size := by
  have hparse := stoul_decimal size [] stops_nil
  rw [List.append_nil] at hparse
  simp [decodeDecreaseSize, MergeOperand.serializeParams, hparse]

theorem getId_serialize (op : MergeOperand) : getId op.serialize = .ok op.id := rfl

theorem getParams_serialize (op : MergeOperand) : getParams op.serialize = .ok op.serializeParams := rfl

theorem toNat_max (a b : UInt64) : (max a b).toNat = max a.toNat b.toNat := by
  change (if a ≤ b then b else a).toNat = _
  rw [max_def]
  simp only [UInt64.le_iff_toNat_le]
  split <;> rfl

theorem mergeOperand_serialize (fsize : UInt64) (op : MergeOperand) :
    mergeOperand fsize op.serialize = .ok (op.resize fsize) := by
  cases op with
  | create metadata => rfl
  | decreaseSize s =>
    have hdec := decodeDecreaseSize_serializeParams s
    simp only [mergeOperand, getId_serialize, getParams_serialize, hdec, MergeOperand.id, bind, Except.bind]
    simp [MergeOperand.resize, OperandID.decreaseSize, OperandID.create, OperandID.increaseSize]
  | increaseSize s append =>
    have hdec := decodeIncreaseSize_serializeParams s append
    have hid : ¬ OperandID.increaseSize = OperandID.create := by decide
    simp only [mergeOperand, getId_serialize, getParams_serialize, hdec, MergeOperand.id, bind, Except.bind]
    rw [if_neg hid, if_pos trivial]
    rfl

theorem foldlM_mergeOperand (ops : List MergeOperand) (fsize : UInt64) :
    (ops.map MergeOperand.serialize).foldlM mergeOperand fsize =
      .ok (ops.foldl MergeOperand.resize fsize) := by
  induction ops generalizing fsize with
  | nil => rfl
  | cons op ops ih =>
    rw [List.map_cons, List.foldlM_cons, mergeOperand_serialize]
    exact ih (op.resize fsize)

theorem toNat_foldl_resize (ops : List MergeOperand) (fsize : UInt64)
    (h : ∀ p, p <+: ops → finalSize fsize.toNat p ≤ 2 ^ 63 - 1) :
    (ops.foldl MergeOperand.resize fsize).toNat = finalSize fsize.toNat ops := by
  induction ops generalizing fsize with
  | nil => rfl
  | cons op ops ih =>
    have h1 : sizeAfter fsize.toNat op ≤ 2 ^ 63 - 1 := h [op] ⟨ops, rfl⟩
    have hop : (op.resize fsize).toNat = sizeAfter fsize.toNat op := by
      cases op with
      | create metadata => rfl
      | decreaseSize s => rfl
      | increaseSize s append =>
        cases append with
        | true =>
          simp only [sizeAfter, MergeOperand.resize, if_true] at h1 ⊢
          rw [UInt64.toNat_add]
          omega
        | false => simp only [sizeAfter, MergeOperand.resize, Bool.false_eq_true, if_false, toNat_max]
    have hrest := ih (op.resize fsize) fun p hp => by
      rw [hop]
      exact h (op :: p) (List.cons_prefix_cons.mpr ⟨rfl, hp⟩)
    rw [hop] at hrest
    exact hrest

end Operands

section Merge

variable {cfg : Config} {existing : Option Bytes} {md : Metadata} {ops xs ys : List MergeOperand}

/-- A merge gives the fixed record with the size that the operands lead to. -/
theorem fullMergeV2_eq (hfix : Fixes cfg existing ops md) :
    fullMergeV2 cfg existing (ops.map MergeOperand.serialize) =
      .ok ((md.resized (ops.foldl MergeOperand.resize md.size)).serialize cfg) := by
  cases hfix with
  | existing h ops =>
    have hdec := decode_serialize cfg md h
    have hfold := foldlM_mergeOperand ops (md.kept cfg).size
    simp only [fullMergeV2, mergeBase, hdec, Except.mapError, bind, Except.bind] at hfold ⊢
    rw [hfold]
    exact congrArg Except.ok (by rw [kept_resized, serialize_kept]; rfl)
  | create hdec ops =>
    have hfold := foldlM_mergeOperand ops md.size
    simp only [fullMergeV2, mergeBase, List.map_cons, getId_serialize, getParams_serialize,
      MergeOperand.id, MergeOperand.serializeParams, if_true, Except.map, hdec, Except.mapError, bind,
      Except.bind] at hfold ⊢
    rw [hfold]
    rfl

theorem Fixes.append (h : Fixes cfg existing xs md) (ys : List MergeOperand) :
    Fixes cfg existing (xs ++ ys) md := by
  cases h with
  | existing h xs => exact .existing h _
  | create h xs => exact .create h _

theorem finalSize_append (size : Nat) (xs ys : List MergeOperand) :
    finalSize size (xs ++ ys) = finalSize (finalSize size xs) ys := List.foldl_append

def plainIncrease (size : UInt64) : MergeOperand := .increaseSize size false

theorem finalSize_increases (size : Nat) (run : List UInt64) :
    finalSize size (run.map plainIncrease) = run.foldl (fun m s => max m s.toNat) size := by
  rw [finalSize, List.foldl_map]
  rfl

theorem finalSize_perm {run run' : List UInt64} (h : run.Perm run') (size : Nat) :
    finalSize size (run.map plainIncrease) = finalSize size (run'.map plainIncrease) := by
  rw [finalSize_increases, finalSize_increases]
  exact h.foldl_eq' (fun x _ y _ z => by omega) size

theorem le_finalSize_increases (size : Nat) (run : List UInt64) :
    size ≤ finalSize size (run.map plainIncrease) ∧
      ∀ s ∈ run, s.toNat ≤ finalSize size (run.map plainIncrease) := by
  induction run generalizing size with
  | nil => simp [finalSize]
  | cons t run ih =>
    obtain ⟨hle, hall⟩ := ih (max size t.toNat)
    refine ⟨(le_max_left _ _).trans hle, fun s hs => ?_⟩
    cases List.mem_cons.mp hs with
    | inl he =>
      subst he
      exact (le_max_right _ _).trans hle
    | inr hm => exact hall s hm

theorem Fixes.of_perm {pre post : List MergeOperand} {run run' : List UInt64}
    (h : Fixes cfg existing (pre ++ (run.map plainIncrease ++ post)) md) (hperm : run.Perm run') :
    Fixes cfg existing (pre ++ (run'.map plainIncrease ++ post)) md := by
  cases existing with
  | some value =>
    cases h with
    | existing hmd ops => exact .existing hmd _
  | none =>
    cases pre with
    | cons op pre =>
      cases h with
      | create hdec ops => exact .create hdec _
    | nil =>
      cases run with
      | nil =>
        obtain rfl := hperm.nil_eq
        exact h
      | cons s run => cases h

/-- No size on the way exceeds the limit after the reordering either. -/
theorem finalSize_le_of_perm {size limit : Nat} {pre post : List MergeOperand} {run run' : List UInt64}
    (hperm : run.Perm run')
    (h : ∀ p, p <+: pre ++ (run.map plainIncrease ++ post) → finalSize size p ≤ limit) :
    ∀ p, p <+: pre ++ (run'.map plainIncrease ++ post) → finalSize size p ≤ limit := by
  simp only [forall_prefix_append, finalSize_append] at h ⊢
  obtain ⟨hpre, hrun, hpost⟩ := h
  rw [finalSize_perm hperm] at hpost
  refine ⟨hpre, ?_, hpost⟩
  intro p hp
  obtain ⟨l, ⟨t, rfl⟩, rfl⟩ := List.prefix_map_iff.mp hp
  have hlast := hpost [] List.nil_prefix
  rw [List.map_append, finalSize_append] at hlast
  exact (le_finalSize_increases _ t).1.trans hlast

/-- RocksDB may fold the operands of a key in one merge or in two: both give the
record that is fixed first, with the size that all operands lead to, and the
order of plain increases does not matter. -/
theorem fullMergeV2_grouping (cfg : Config) (existing : Option Bytes) (xs ys : List MergeOperand)
    (md : Metadata) (hfix : Fixes cfg existing xs md)
    (hsizes : ∀ p, p <+: xs ++ ys → finalSize md.size.toNat p ≤ 2 ^ 63 - 1) :
    let merge := fun value ops => fullMergeV2 cfg value (ops.map MergeOperand.serialize)
    let size := finalSize md.size.toNat (xs ++ ys)
    let value := (md.resized (UInt64.ofNat size)).serialize cfg
    merge existing (xs ++ ys) = .ok value ∧
      (∃ w, merge existing xs = .ok w ∧ merge (some w) ys = .ok value) ∧
      (∃ back, Metadata.decode cfg value = .ok back ∧ back.size.toNat = size ∧ back.mode = md.mode ∧
        back.targetPath = (md.kept cfg).targetPath) ∧
      ∀ pre (run run' : List UInt64) post, xs ++ ys = pre ++ (run.map plainIncrease ++ post) →
        run.Perm run' → merge existing (pre ++ (run'.map plainIncrease ++ post)) = .ok value ∧
          ∀ s ∈ run, s.toNat ≤ finalSize md.size.toNat (pre ++ run.map plainIncrease) := by
  intro merge size value
  have hbound := (forall_prefix_append xs ys _).mp hsizes
  have hsize := toNat_foldl_resize _ md.size hsizes
  have hmid := toNat_foldl_resize xs md.size hbound.1
  have hlt : finalSize md.size.toNat xs ≤ 2 ^ 63 - 1 := hbound.1 xs (List.prefix_refl xs)
  have hlt' : size ≤ 2 ^ 63 - 1 := hsizes _ (List.prefix_refl _)
  have hword : (xs ++ ys).foldl MergeOperand.resize md.size = UInt64.ofNat size := by
    rw [← UInt64.ofNat_toNat (x := (xs ++ ys).foldl MergeOperand.resize md.size), hsize]
  have hnat : (UInt64.ofNat size).toNat = size := by rw [← hword, hsize]
  have hwhole := fullMergeV2_eq (hfix.append ys)
  rw [hword] at hwhole
  let mid := md.resized (xs.foldl MergeOperand.resize md.size)
  refine ⟨hwhole, ⟨mid.serialize cfg, fullMergeV2_eq hfix, ?_⟩,
    ⟨(md.resized (UInt64.ofNat size)).kept cfg, ?_, hnat, rfl, rfl⟩, ?_⟩
  · have hmidFixes : Fixes cfg (some (mid.serialize cfg)) ys mid :=
      .existing (by rw [size_resized, hmid]; omega) ys
    have hsecond := fullMergeV2_eq hmidFixes
    rw [size_resized, ← List.foldl_append, hword] at hsecond
    exact hsecond
  · exact decode_serialize cfg _ (by rw [size_resized, hnat]; omega)
  · intro pre run run' post happ hperm
    have hfix' := hfix.append ys
    rw [happ] at hfix' hsizes
    have hsame : finalSize md.size.toNat (pre ++ (run'.map plainIncrease ++ post)) = size := by
      change _ = finalSize md.size.toNat (xs ++ ys)
      rw [happ]
      simp only [finalSize_append, finalSize_perm hperm]
    have hreordered := toNat_foldl_resize _ md.size (finalSize_le_of_perm hperm hsizes)
    have hmerge := fullMergeV2_eq (hfix'.of_perm hperm)
    rw [← UInt64.ofNat_toNat (x := (pre ++ (run'.map plainIncrease ++ post)).foldl _ md.size), hreordered,
      hsame] at hmerge
    refine ⟨hmerge, fun s hs => ?_⟩
    rw [finalSize_append]
    exact (le_finalSize_increases _ run).2 s hs

/-- A create and a write in one merge, a shorter write, a truncate and an append in the next. -/
theorem fullMergeV2_grouping_created :
    let merge := fun value ops => fullMergeV2 config value (ops.map MergeOperand.serialize)
    ∃ w, merge none [.create (text "33188|0|"), .increaseSize 5 false] = .ok w ∧
      merge (some w) [.increaseSize 3 false, .decreaseSize 2, .increaseSize 4 true] =
        .ok (text "33188|6|") := by
  have hsizes : ∀ p ∈ ([.create (text "33188|0|"), .increaseSize 5 false] ++
      [.increaseSize 3 false, .decreaseSize 2, .increaseSize 4 true] : List MergeOperand).inits,
      finalSize (Metadata.ofMode 33188).size.toNat p ≤ 2 ^ 63 - 1 := by decide
  have h := fullMergeV2_grouping config none [.create (text "33188|0|"), .increaseSize 5 false]
    [.increaseSize 3 false, .decreaseSize 2, .increaseSize 4 true] (Metadata.ofMode 33188)
    (.create (by decide) _) fun p hp => hsizes p ((List.mem_inits p _).mpr hp)
  obtain ⟨w, hw, hmerge⟩ := h.2.1
  exact ⟨w, hw, hmerge.trans (by decide)⟩

end Merge

end GaoFS.MergeOperator
