import GaoFS.MergeOperator
import GaoFS.DataOps

namespace GaoFS.MetadataKey

open Chunks Replies ChunkStorage DataOps MetadataRecord MergeOperator
open Library.NumberText Library.Runs

/-- What RocksDB holds under a key: a base value, and the operands merged since,
the oldest first. -/
structure Key where
  base : Option Bytes
  operands : List Bytes
  deriving DecidableEq

def Key.absent : Key := ⟨none, []⟩

def Key.merge (k : Key) (op : MergeOperand) : Key := { k with operands := k.operands ++ [op.serialize] }

/-- `Get` folds the operands. A merge that throws makes it fail, and `none` is a
failed assertion. -/
def getStr (k : Key) : Option (Except Failure Bytes) :=
  if k.operands = [] then
    match k.base with
    | none => some (.error .notFoundException)
    | some value => some (.ok value)
  else
    match fullMergeV2 config k.base k.operands with
    | .ok value => some (.ok value)
    | .error (.decode .assertion) => none
    | .error _ => some (.error .stdException)

def getMetadata (k : Key) : Option (Except Failure Metadata) :=
  (getStr k).bind fun
    | .error e => some (.error e)
    | .ok value => match Metadata.decode config value with
      | .ok md => some (.ok md)
      | .error (.std _) => some (.error .stdException)
      | .error .assertion => none

def existsKey (k : Key) : Option (Except Failure Bool) :=
  (getStr k).map fun
    | .ok _ => .ok true
    | .error .notFoundException => .ok false
    | .error e => .error e

structure Store where
  key : Key
  data : Local

structure StatOut where
  err : Int32
  dbVal : Option Bytes

structure RmMetadataOut where
  err : Int32
  mode : UInt32
  size : Int64

section Handlers

variable (rootPath : Bytes) (path : Path) (s : Store)

/-- `rpc_srv_create`. No time is stored, so the clock does not matter. In all
handlers no reply is an aborted daemon. -/
def rpcSrvCreate (mode : UInt32) : Option Int32 × Store :=
  if S_ISDIR mode || S_ISREG mode then
    match existsKey s.key with
    | none => (none, s)
    | some (.error e) => (some (createErr (.error e : Except Failure Unit)), s)
    | some (.ok true) => (some (createErr (.error .existsException : Except Failure Unit)), s)
    | some (.ok false) =>
      (some (createErr (.ok ())),
        { s with key := s.key.merge (.create ((Metadata.ofMode mode).serialize config)) })
  else (none, s)

def rpcSrvStat : Option StatOut :=
  (getStr s.key).map fun r => ⟨statErr r, match r with
    | .ok value => some (cString value)
    | .error _ => none⟩

def rpcSrvDecrSize (length : UInt64) : Option Int32 × Store :=
  (some (decrSizeErr (.ok ())), { s with key := s.key.merge (.decreaseSize length) })

def removeLocalData (md : Metadata) : Option (Except Failure Unit × Local) :=
  if S_ISREG md.mode = true ∧ md.size ≠ 0 then
    (destroyChunkSpace rootPath path s.data.fs).map fun r => (r.1, ⟨none, r.2⟩)
  else some (.ok (), s.data)

def rpcSrvRemoveMetadata : Option RmMetadataOut × Store :=
  match getMetadata s.key with
  | none => (none, s)
  | some (.error e) => (some ⟨removeErr (.error e : Except Failure Unit), 0, 0⟩, s)
  | some (.ok md) =>
    match removeLocalData rootPath path s md with
    | none => (none, { s with key := Key.absent })
    | some (r, data) => (some ⟨removeErr r, md.mode, md.size.toInt64⟩, ⟨Key.absent, data⟩)

def rpcSrvUpdateMetadentrySize (size : UInt64) (offset : Int64) (append : Bool) :
    Option SizeOut × Store :=
  (some (updateMetadentrySizeOut (.ok ()) size offset),
    { s with key := s.key.merge (.increaseSize (size + offset.toUInt64) append) })

def rpcSrvGetMetadentrySize : Option SizeOut :=
  (getMetadata s.key).map fun r => getMetadentrySizeOut (r.map Metadata.size)

end Handlers

inductive Request where
  | create (mode : UInt32) (valid : (S_ISDIR mode || S_ISREG mode) = true)
  | removeMetadata
  | updateMetadentrySize (size : UInt64) (offset : Int64) (append : Bool)
  | decrSize (length : UInt64)
  | stat
  | getMetadentrySize

variable (rootPath : Bytes) (path : Path)

def handle (s : Store) : Request → Option Int32 × Store
  | .create mode _ => rpcSrvCreate s mode
  | .removeMetadata => ((rpcSrvRemoveMetadata rootPath path s).1.map RmMetadataOut.err,
      (rpcSrvRemoveMetadata rootPath path s).2)
  | .updateMetadentrySize size offset append =>
    ((rpcSrvUpdateMetadentrySize s size offset append).1.map SizeOut.err,
      (rpcSrvUpdateMetadentrySize s size offset append).2)
  | .decrSize length => rpcSrvDecrSize s length
  | .stat => ((rpcSrvStat s).map StatOut.err, s)
  | .getMetadentrySize => ((rpcSrvGetMetadentrySize s).map SizeOut.err, s)

def step (s : Store) (r : Request) : Store := (handle rootPath path s r).2

def err (s : Store) (r : Request) : Option Int32 := (handle rootPath path s r).1

def sizeOperand : Request → Option MergeOperand
  | .updateMetadentrySize size offset append => some (.increaseSize (size + offset.toUInt64) append)
  | .decrSize length => some (.decreaseSize length)
  | _ => none

def NotFound (k : Key) : Prop := getStr k = some (.error .notFoundException)

instance decidableNotFound (k : Key) : Decidable (NotFound k) :=
  inferInstanceAs (Decidable (getStr k = _))

/-- A lookup reports not-found, or a record that decodes. -/
def Decodable (k : Key) : Prop := NotFound k ∨ ∃ md, getMetadata k = some (.ok md)

/-- A size request finds a record, whose size it leaves below `2 ^ 63`. -/
def Harmless (s : Store) (r : Request) : Prop :=
  ∀ op ∈ sizeOperand r, ∃ md, getMetadata s.key = some (.ok md) ∧ (op.resize md.size).toNat < 2 ^ 63

def Recorded (k : Key) (md : Metadata) : Prop :=
  ∃ ops md₀, k.operands = ops.map MergeOperand.serialize ∧ Fixes config k.base ops md₀ ∧
    md = md₀.resized (ops.foldl MergeOperand.resize md₀.size)

def Good (s : Store) : Prop := s.key = Key.absent ∨ ∃ md, Recorded s.key md ∧ md.size.toNat < 2 ^ 63

section Keys

variable {k : Key} {md : Metadata}

theorem notFound_absent : NotFound Key.absent := rfl

theorem getStr_recorded (h : Recorded k md) : getStr k = some (.ok (md.serialize config)) := by
  obtain ⟨ops, md₀, hops, hfix, rfl⟩ := h
  cases ops with
  | nil =>
    have hnil : k.operands = [] := hops
    generalize hbase : k.base = base at hfix
    cases hfix with
    | existing h ops =>
      rw [getStr, if_pos hnil, hbase]
      rfl
  | cons op ops =>
    have hne : k.operands ≠ [] := by simp [hops]
    rw [getStr, if_neg hne, hops, fullMergeV2_eq hfix]

theorem getMetadata_recorded (h : Recorded k md) (hmd : md.size.toNat < 2 ^ 63) :
    getMetadata k = some (.ok (md.kept config)) := by
  simp only [getMetadata, getStr_recorded h, Option.bind_some, decode_serialize config md hmd]

theorem getMetadata_overflow (h : Recorded k md) (hmd : 2 ^ 63 ≤ md.size.toNat) :
    getMetadata k = some (.error .stdException) := by
  simp only [getMetadata, getStr_recorded h, Option.bind_some, decode_serialize_overflow config md hmd]

theorem not_notFound_recorded (h : Recorded k md) : ¬ NotFound k := by
  rw [NotFound, getStr_recorded h]
  simp

theorem decodable_recorded_iff (h : Recorded k md) : Decodable k ↔ md.size.toNat < 2 ^ 63 := by
  constructor
  · rintro (hnone | ⟨back, hback⟩)
    · exact absurd hnone (not_notFound_recorded h)
    · by_contra hlt
      rw [getMetadata_overflow h (by omega)] at hback
      cases hback
  · exact fun hlt => .inr ⟨_, getMetadata_recorded h hlt⟩

theorem Recorded.merge (h : Recorded k md) (op : MergeOperand) :
    Recorded (k.merge op) (md.resized (op.resize md.size)) := by
  obtain ⟨ops, md₀, hops, hfix, rfl⟩ := h
  refine ⟨ops ++ [op], md₀, ?_, hfix.append [op], ?_⟩
  · rw [Key.merge, List.map_append, hops]
    rfl
  · rw [List.foldl_append]
    rfl

theorem recorded_created (mode : UInt32) :
    Recorded (Key.absent.merge (.create ((Metadata.ofMode mode).serialize config)))
      ((Metadata.ofMode mode).kept config) := by
  have hsize : (Metadata.ofMode mode).size.toNat < 2 ^ 63 := Nat.two_pow_pos 63
  have hdec := decode_serialize config (Metadata.ofMode mode) hsize
  exact ⟨[_], _, rfl, .create hdec [], rfl⟩

end Keys

section Steps

variable {rootPath : Bytes} {path : Path} {s : Store} {r : Request} {md : Metadata}

theorem existsKey_absent : existsKey Key.absent = some (.ok false) := rfl

theorem existsKey_recorded {k : Key} (h : Recorded k md) : existsKey k = some (.ok true) := by
  rw [existsKey, getStr_recorded h, Option.map_some]

variable (rootPath path s) in
theorem key_step_size {op : MergeOperand} (h : sizeOperand r = some op) :
    (step rootPath path s r).key = s.key.merge op ∧ err rootPath path s r = some 0 := by
  cases r with
  | updateMetadentrySize size offset append =>
    obtain rfl := Option.some.inj h
    exact ⟨rfl, rfl⟩
  | decrSize length =>
    obtain rfl := Option.some.inj h
    exact ⟨rfl, rfl⟩
  | create mode valid => cases h
  | removeMetadata => cases h
  | stat => cases h
  | getMetadentrySize => cases h

theorem rpcSrvCreate_absent (h : s.key = Key.absent) {mode : UInt32}
    (valid : (S_ISDIR mode || S_ISREG mode) = true) :
    rpcSrvCreate s mode = (some 0,
      { s with key := Key.absent.merge (.create ((Metadata.ofMode mode).serialize config)) }) := by
  simp only [rpcSrvCreate, valid, if_true, h, existsKey_absent]
  rfl

theorem create_absent (h : s.key = Key.absent) (mode : UInt32)
    (valid : (S_ISDIR mode || S_ISREG mode) = true) :
    handle rootPath path s (.create mode valid) = (some 0,
      { s with key := Key.absent.merge (.create ((Metadata.ofMode mode).serialize config)) }) :=
  rpcSrvCreate_absent h valid

variable (rootPath path) in
/-- On an absent key no other request than a create has an effect. -/
theorem key_step_absent (h : s.key = Key.absent) (hr : sizeOperand r = none) :
    (step rootPath path s r).key = Key.absent ∨
      ∃ mode valid, r = .create mode valid ∧ (step rootPath path s r).key =
        Key.absent.merge (.create ((Metadata.ofMode mode).serialize config)) := by
  cases r with
  | create mode valid =>
    refine .inr ⟨mode, valid, rfl, ?_⟩
    rw [step, create_absent h]
  | removeMetadata =>
    have hget : getMetadata s.key = some (.error .notFoundException) := by
      rw [h]
      rfl
    refine .inl ?_
    simp only [step, handle, rpcSrvRemoveMetadata, hget]
    exact h
  | updateMetadentrySize size offset append => cases hr
  | decrSize length => cases hr
  | stat => exact .inl h
  | getMetadentrySize => exact .inl h

variable (rootPath path) in
theorem key_step_recorded (h : Recorded s.key md) (hmd : md.size.toNat < 2 ^ 63)
    (hr : sizeOperand r = none) :
    (step rootPath path s r).key = s.key ∨ (step rootPath path s r).key = Key.absent := by
  cases r with
  | create mode valid =>
    exact .inl (by simp only [step, handle, rpcSrvCreate, valid, if_true, existsKey_recorded h])
  | removeMetadata =>
    refine .inr ?_
    simp only [step, handle, rpcSrvRemoveMetadata, getMetadata_recorded h hmd]
    cases removeLocalData rootPath path s (md.kept config) <;> rfl
  | updateMetadentrySize size offset append => cases hr
  | decrSize length => cases hr
  | stat => exact .inl rfl
  | getMetadentrySize => exact .inl rfl

theorem Good.decodable (h : Good s) : Decodable s.key := by
  cases h with
  | inl habsent => exact .inl (by rw [habsent]; exact notFound_absent)
  | inr hrec =>
    obtain ⟨md, hmd, hlt⟩ := hrec
    exact (decodable_recorded_iff hmd).mpr hlt

theorem harmless_recorded_iff (h : Recorded s.key md) (hmd : md.size.toNat < 2 ^ 63)
    {op : MergeOperand} (hr : sizeOperand r = some op) :
    Harmless s r ↔ (op.resize md.size).toNat < 2 ^ 63 := by
  simp only [Harmless, hr, Option.mem_def, Option.some.injEq, forall_eq', getMetadata_recorded h hmd,
    Except.ok.injEq, exists_eq_left']
  rfl

theorem not_harmless_absent (h : NotFound s.key) {op : MergeOperand} (hr : sizeOperand r = some op) :
    ¬ Harmless s r := by
  intro hharm
  obtain ⟨md, hmd, -⟩ := hharm op hr
  rw [getMetadata, h] at hmd
  cases hmd

theorem Good.step (h : Good s) (hr : Harmless s r) : Good (step rootPath path s r) := by
  cases hop : sizeOperand r with
  | none =>
    cases h with
    | inl habsent =>
      cases key_step_absent rootPath path habsent hop with
      | inl hkey => exact .inl hkey
      | inr hcreate =>
        obtain ⟨mode, valid, -, hkey⟩ := hcreate
        exact .inr ⟨(Metadata.ofMode mode).kept config, by rw [hkey]; exact recorded_created mode,
          Nat.two_pow_pos 63⟩
    | inr hrec =>
      obtain ⟨md, hmd, hlt⟩ := hrec
      cases key_step_recorded rootPath path hmd hlt hop with
      | inl hkey => exact .inr ⟨md, by rw [hkey]; exact hmd, hlt⟩
      | inr hkey => exact .inl hkey
  | some op =>
    cases h with
    | inl habsent => exact absurd hr (not_harmless_absent (by rw [habsent]; exact notFound_absent) hop)
    | inr hrec =>
      obtain ⟨md, hmd, hlt⟩ := hrec
      refine .inr ⟨md.resized (op.resize md.size), ?_, (harmless_recorded_iff hmd hlt hop).mp hr⟩
      rw [(key_step_size rootPath path _ hop).1]
      exact hmd.merge op

/-- Whether a request leaves the path with a working lookup, and is refused if
it is about the size of an absent path. -/
def Sound (rootPath : Bytes) (path : Path) (s : Store) (r : Request) : Prop :=
  Decodable (step rootPath path s r).key ∧
    ((sizeOperand r).isSome → NotFound s.key →
      step rootPath path s r = s ∧ ∃ e, err rootPath path s r = some e ∧ e ≠ 0)

theorem sound_iff (h : Good s) : Sound rootPath path s r ↔ Harmless s r := by
  constructor
  · rintro ⟨hdec, hrefused⟩
    cases hop : sizeOperand r with
    | none => exact fun op hmem => by rw [hop] at hmem; cases hmem
    | some op =>
      have hkey := key_step_size rootPath path s hop
      cases h with
      | inl habsent =>
        obtain ⟨-, e, he, hne⟩ := hrefused (by rw [hop]; rfl) (by rw [habsent]; exact notFound_absent)
        rw [hkey.2] at he
        exact absurd (Option.some.inj he).symm hne
      | inr hrec =>
        obtain ⟨md, hmd, hlt⟩ := hrec
        rw [hkey.1] at hdec
        exact (harmless_recorded_iff hmd hlt hop).mpr ((decodable_recorded_iff (hmd.merge op)).mp hdec)
  · intro hr
    refine ⟨(h.step hr).decodable, fun hop hnone => ?_⟩
    obtain ⟨op, hop⟩ := Option.isSome_iff_exists.mp hop
    exact absurd hr (not_harmless_absent hnone hop)

end Steps

section Runs

variable {rootPath : Bytes} {path : Path}

def start (data : Local) : Store := ⟨Key.absent, data⟩

theorem good_start (data : Local) : Good (start data) := .inl rfl

def IsCreate : Request → Prop
  | .create _ _ => True
  | _ => False

theorem absent_until_create {s : Store} (h : s.key = Key.absent) {rs : List Request}
    (hok : AllSteps (step rootPath path) Harmless s rs) (hrs : ∀ r ∈ rs, ¬ IsCreate r) :
    (rs.foldl (step rootPath path) s).key = Key.absent := by
  induction rs generalizing s with
  | nil => exact h
  | cons r rs ih =>
    refine ih ?_ hok.2 fun t ht => hrs t (List.mem_cons_of_mem r ht)
    cases hop : sizeOperand r with
    | some op => exact absurd hok.1 (not_harmless_absent (by rw [h]; exact notFound_absent) hop)
    | none =>
      cases key_step_absent rootPath path h hop with
      | inl hkey => exact hkey
      | inr hcreate =>
        obtain ⟨mode, valid, rfl, -⟩ := hcreate
        exact absurd trivial (hrs _ List.mem_cons_self)

theorem absent_of_removed {s : Store} (h : Good s)
    (hok : err rootPath path s .removeMetadata = some 0) :
    (step rootPath path s .removeMetadata).key = Key.absent := by
  cases h with
  | inl habsent =>
    have hget : getMetadata s.key = some (.error .notFoundException) := by
      rw [habsent]
      rfl
    simp only [err, handle, rpcSrvRemoveMetadata, hget] at hok
    cases hok
  | inr hrec =>
    obtain ⟨md, hmd, hlt⟩ := hrec
    simp only [step, handle, rpcSrvRemoveMetadata, getMetadata_recorded hmd hlt]
    cases removeLocalData rootPath path s (md.kept config) <;> rfl

/-- In every state of the run a lookup of the path works, no size request has
an effect on an absent path, and a removed path can be created again. -/
structure KeepsDecodable (rootPath : Bytes) (path : Path) (s : Store) (rs : List Request) : Prop where
  decodable : ∀ p, p <+: rs → Decodable (p.foldl (step rootPath path) s).key
  refused : ∀ p r q, rs = p ++ r :: q → (sizeOperand r).isSome →
    let t := p.foldl (step rootPath path) s
    NotFound t.key → step rootPath path t r = t ∧ ∃ e, err rootPath path t r = some e ∧ e ≠ 0
  recreated : ∀ p q mode valid t, rs = p ++ .removeMetadata :: (q ++ .create mode valid :: t) →
    err rootPath path (p.foldl (step rootPath path) s) .removeMetadata = some 0 →
    (∀ r ∈ q, ¬ IsCreate r) →
    err rootPath path ((p ++ .removeMetadata :: q).foldl (step rootPath path) s) (.create mode valid) =
      some 0

/-- A path keeps working lookups exactly if every size request of the run finds
a record and leaves its size below `2 ^ 63`. -/
theorem keepsDecodable_iff (rootPath : Bytes) (path : Path) (data : Local) (rs : List Request) :
    KeepsDecodable rootPath path (start data) rs ↔
      AllSteps (step rootPath path) Harmless (start data) rs := by
  constructor
  · intro h
    have hsound : AllSteps (step rootPath path) (Sound rootPath path) (start data) rs := by
      rw [allSteps_iff_split]
      intro p r q hsplit
      refine ⟨?_, h.refused p r q hsplit⟩
      have hdec := h.decodable (p ++ [r]) ⟨q, by rw [hsplit, List.append_assoc]; rfl⟩
      rw [List.foldl_append] at hdec
      exact hdec
    exact (allSteps_congr (I := Good) (fun s r hs hr => hs.step ((sound_iff hs).mp hr))
      (fun s r hs => sound_iff hs) (good_start data) rs).mp hsound
  · intro h
    have hgood : ∀ p q, rs = p ++ q → Good (p.foldl (step rootPath path) (start data)) ∧
        AllSteps (step rootPath path) Harmless (p.foldl (step rootPath path) (start data)) q := by
      rintro p q rfl
      obtain ⟨hp, hq⟩ := (allSteps_append _ _ _ p q).mp h
      exact ⟨AllSteps.invariant (fun s r hs hr => hs.step hr) (good_start data) hp, hq⟩
    refine ⟨?_, ?_, ?_⟩
    · rintro p ⟨q, rfl⟩
      exact (hgood p q rfl).1.decodable
    · intro p r q hsplit hop t hnone
      obtain ⟨hs, hq⟩ := hgood p (r :: q) hsplit
      exact ((sound_iff hs).mpr hq.1).2 hop hnone
    · intro p q mode valid t hsplit hremoved hq
      obtain ⟨hs, hrest⟩ := hgood p _ hsplit
      have habsent := absent_until_create (absent_of_removed hs hremoved)
        ((allSteps_append _ _ _ q _).mp hrest.2).1 hq
      rw [List.foldl_append, List.foldl_cons, err, create_absent habsent]

/-- A size update of a removed path is acknowledged, and then every lookup fails
and the path can be neither created nor removed. -/
theorem update_after_remove :
    let regular : Request := .create 0o100644 (by decide)
    let rs := [regular, .removeMetadata, .updateMetadentrySize 5 0 false]
    let s := rs.foldl (step (text "/r") (text "/f")) (start ⟨none, fun _ => none⟩)
    ¬ KeepsDecodable (text "/r") (text "/f") (start ⟨none, fun _ => none⟩) rs ∧
      getStr s.key = some (.error .stdException) ∧
      err (text "/r") (text "/f") s regular = some (-1) ∧
      err (text "/r") (text "/f") s .removeMetadata = some EBUSY := by
  refine ⟨fun h => ?_, by decide, by decide, by decide⟩
  cases h.decodable _ (List.prefix_refl _) with
  | inl hnone => revert hnone; decide
  | inr hsome =>
    obtain ⟨md, hmd⟩ := hsome
    have hfail : getMetadata ([.create 0o100644 (by decide), .removeMetadata,
        .updateMetadentrySize 5 0 false].foldl (step (text "/r") (text "/f"))
        (start ⟨none, fun _ => none⟩)).key = some (.error .stdException) := by decide
    rw [hfail] at hmd
    cases hmd

end Runs

end GaoFS.MetadataKey
