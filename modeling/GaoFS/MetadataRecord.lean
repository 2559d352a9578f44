import GaoFS.Library.NumberText

namespace GaoFS.MetadataRecord

open Library.NumberText

def MSP : UInt8 := 124

def S_IFMT : UInt32 := 0o170000

def S_ISLNK (mode : UInt32) : Bool := mode &&& S_IFMT == 0o120000

def S_ISDIR (mode : UInt32) : Bool := mode &&& S_IFMT == 0o040000

def S_ISREG (mode : UInt32) : Bool := mode &&& S_IFMT == 0o100000

/-- The switches of `gaofs::config::metadata` and the symlink option of the
build, which choose the fields that a serialized record has. -/
structure Config where
  useAtime : Bool
  useMtime : Bool
  useCtime : Bool
  useLinkCnt : Bool
  useBlocks : Bool
  hasSymlinks : Bool

def config : Config := ⟨false, false, false, false, false, true⟩

/-- A metadata record. Only a link has a target, and a path has no zero byte. -/
@[ext] structure Metadata where
  atime : Int64
  mtime : Int64
  ctime : Int64
  mode : UInt32
  linkCount : UInt64
  size : UInt64
  blocks : Int64
  targetPath : Bytes
  link : targetPath = [] ∨ S_ISLNK mode = true
  clean : ∀ b ∈ targetPath, notNul b = true
  deriving DecidableEq

/-- The record that a create request makes, without a target. -/
def Metadata.ofMode (mode : UInt32) : Metadata where
  atime := 0
  mtime := 0
  ctime := 0
  mode := mode
  linkCount := 0
  size := 0
  blocks := 0
  targetPath := []
  link := .inl rfl
  clean := by simp

def fieldText (use : Bool) (text : Bytes) : Bytes := if use then MSP :: text else []

/-- What a serialized record has behind its mode and its size. -/
def Metadata.tail (cfg : Config) (md : Metadata) : Bytes :=
  fieldText cfg.useAtime (formatInt md.atime.toInt) ++
    (fieldText cfg.useMtime (formatInt md.mtime.toInt) ++
      (fieldText cfg.useCtime (formatInt md.ctime.toInt) ++
        (fieldText cfg.useLinkCnt (decimal md.linkCount.toNat) ++
          (fieldText cfg.useBlocks (formatInt md.blocks.toInt) ++
            fieldText cfg.hasSymlinks md.targetPath))))

def Metadata.serialize (cfg : Config) (md : Metadata) : Bytes :=
  decimal md.mode.toNat ++ (fieldText true (decimal md.size.toNat) ++ md.tail cfg)

/-- A number and what follows it. A conversion that returns has read a digit, as
the source asserts. -/
def number {α : Type*} (parse : Bytes → Except StoError (α × Nat)) (s : Bytes) :
    Except DecodeError (α × Bytes) :=
  match parse s with
  | .error e => .error (.std e)
  | .ok (v, read) => .ok (v, s.drop read)

/-- A separator and a number, if the configuration has the field. -/
def field {α : Type*} (use : Bool) (parse : Bytes → Except StoError (α × Nat)) (unset : α)
    (s : Bytes) : Except DecodeError (α × Bytes) :=
  if use then
    match s with
    | [] => .error .assertion
    | b :: s => if b = MSP then number parse s else .error .assertion
  else .ok (unset, s)

/-- The target, and the check that nothing else follows. -/
def targetField (use : Bool) (s : Bytes) : Except DecodeError NulFree :=
  match s with
  | [] => if use then .error .assertion else .ok (cPath [])
  | b :: s =>
    if use then if b = MSP then .ok (cPath s) else .error .assertion
    else if b = 0 then .ok (cPath []) else .error .assertion

/-- `Metadata(const std::string&)`. -/
def Metadata.decode (cfg : Config) (binaryStr : Bytes) : Except DecodeError Metadata := do
  let (mode, s) ← number stoul binaryStr
  let (size, s) ← field true stol 0 s
  let (atime, s) ← field cfg.useAtime stol 0 s
  let (mtime, s) ← field cfg.useMtime stol 0 s
  let (ctime, s) ← field cfg.useCtime stol 0 s
  let (linkCount, s) ← field cfg.useLinkCnt stoul 0 s
  let (blocks, s) ← field cfg.useBlocks stoul 0 s
  let target ← targetField cfg.hasSymlinks s
  if link : target.1 = [] ∨ S_ISLNK mode.toUInt32 = true then
    .ok ⟨atime, mtime, ctime, mode.toUInt32, linkCount, size.toUInt64, blocks.toInt64, target.1, link,
      target.2⟩
  else .error .assertion

/-- A record without the fields that the configuration does not store. -/
def Metadata.kept (cfg : Config) (md : Metadata) : Metadata where
  atime := if cfg.useAtime then md.atime else 0
  mtime := if cfg.useMtime then md.mtime else 0
  ctime := if cfg.useCtime then md.ctime else 0
  mode := md.mode
  linkCount := if cfg.useLinkCnt then md.linkCount else 0
  size := md.size
  blocks := if cfg.useBlocks then md.blocks else 0
  targetPath := if cfg.hasSymlinks then md.targetPath else []
  link := by
    cases cfg.hasSymlinks with
    | false => exact .inl rfl
    | true => exact md.link
  clean := by
    cases cfg.hasSymlinks with
    | false => simp
    | true => exact md.clean

def Metadata.resized (md : Metadata) (size : UInt64) : Metadata := { md with size := size }

@[simp] theorem size_resized (md : Metadata) (size : UInt64) : (md.resized size).size = size := rfl

theorem serialize_kept (cfg : Config) (md : Metadata) :
    (md.kept cfg).serialize cfg = md.serialize cfg := by
  simp only [Metadata.serialize, Metadata.tail, Metadata.kept, fieldText]
  congr 2
  split_ifs <;> rfl

theorem kept_resized (cfg : Config) (md : Metadata) (size : UInt64) :
    (md.kept cfg).resized size = (md.resized size).kept cfg := rfl

theorem stops_fieldText (use : Bool) (text : Bytes) {rest : Bytes} (h : Stops rest) :
    Stops (fieldText use text ++ rest) := by
  cases use with
  | false => exact h
  | true => exact stops_cons (by decide) _

theorem number_append {α : Type*} {parse : Bytes → Except StoError (α × Nat)} {text rest : Bytes}
    {v : α} (h : parse (text ++ rest) = .ok (v, text.length)) :
    number parse (text ++ rest) = .ok (v, rest) := by
  simp [number, h]

/-- A field reads back, and leaves what stands behind it. -/
theorem field_fieldText {α : Type*} (use : Bool) {parse : Bytes → Except StoError (α × Nat)}
    (unset : α) {v : α} {text rest : Bytes} (h : parse (text ++ rest) = .ok (v, text.length)) :
    field use parse unset (fieldText use text ++ rest) = .ok (if use then v else unset, rest) := by
  cases use with
  | false => rfl
  | true => simp [field, fieldText, number, h]

theorem targetField_fieldText (use : Bool) (target : Bytes) :
    targetField use (fieldText use target) = .ok (cPath (if use then target else [])) := by
  cases use with
  | false => rfl
  | true => simp [targetField, fieldText]

theorem stops_tail (cfg : Config) (md : Metadata) : Stops (md.tail cfg) := by
  have hlast : Stops (fieldText cfg.hasSymlinks md.targetPath) := by
    simpa using stops_fieldText cfg.hasSymlinks md.targetPath stops_nil
  exact stops_fieldText _ _ (stops_fieldText _ _ (stops_fieldText _ _ (stops_fieldText _ _
    (stops_fieldText _ _ hlast))))

theorem number_mode (cfg : Config) (md : Metadata) :
    number stoul (md.serialize cfg) =
      .ok (md.mode.toUInt64, fieldText true (decimal md.size.toNat) ++ md.tail cfg) := by
  have hmode := number_append (stoul_decimal md.mode.toUInt64 _
    (stops_fieldText true (decimal md.size.toNat) (stops_tail cfg md)))
  rw [UInt32.toNat_toUInt64] at hmode
  exact hmode

/-- A record reads back from its text as far as the text has its fields. -/
theorem decode_serialize (cfg : Config) (md : Metadata) (h : md.size.toNat < 2 ^ 63) :
    Metadata.decode cfg (md.serialize cfg) = .ok (md.kept cfg) := by
  -- the fields from the last to the first: each needs that the text behind it ends its number
  have htarget := targetField_fieldText cfg.hasSymlinks md.targetPath
  have stops₅ : Stops (fieldText cfg.hasSymlinks md.targetPath) := by
    simpa using stops_fieldText cfg.hasSymlinks md.targetPath stops_nil
  have hblocks := field_fieldText cfg.useBlocks 0 (stoul_formatInt md.blocks _ stops₅)
  have stops₄ := stops_fieldText cfg.useBlocks (formatInt md.blocks.toInt) stops₅
  have hlinks := field_fieldText cfg.useLinkCnt 0 (stoul_decimal md.linkCount _ stops₄)
  have stops₃ := stops_fieldText cfg.useLinkCnt (decimal md.linkCount.toNat) stops₄
  have hctime := field_fieldText cfg.useCtime 0 (stol_formatInt md.ctime _ stops₃)
  have stops₂ := stops_fieldText cfg.useCtime (formatInt md.ctime.toInt) stops₃
  have hmtime := field_fieldText cfg.useMtime 0 (stol_formatInt md.mtime _ stops₂)
  have stops₁ := stops_fieldText cfg.useMtime (formatInt md.mtime.toInt) stops₂
  have hatime := field_fieldText cfg.useAtime 0 (stol_formatInt md.atime _ stops₁)
  have hparse := stol_decimal md.size.toNat _ (stops_tail cfg md)
  rw [if_pos h] at hparse
  have hsize := field_fieldText true 0 hparse
  have hclean : cString (if cfg.hasSymlinks then md.targetPath else []) =
      if cfg.hasSymlinks then md.targetPath else [] :=
    (cString_eq_self_iff _).mpr (md.kept cfg).clean
  have hlink : (if cfg.hasSymlinks then md.targetPath else []) = [] ∨ S_ISLNK md.mode = true :=
    (md.kept cfg).link
  have hback : (if cfg.useBlocks then md.blocks.toUInt64 else 0).toInt64 =
      if cfg.useBlocks then md.blocks else 0 := by
    split <;> rfl
  rw [Metadata.tail] at hsize
  simp only [Metadata.decode, number_mode, Metadata.tail, hsize, hatime, hmtime, hctime, hlinks, hblocks,
    htarget, bind, Except.bind, cPath, hclean, if_true, UInt32.toUInt32_toUInt64, Int64.toUInt64_ofNat',
    UInt64.ofNat_toNat, hback]
  exact dif_pos hlink

theorem clean_decimal (n : Nat) : ∀ b ∈ decimal n, notNul b = true := by
  intro b hb
  have hdigit := isDigit_decimal n b hb
  simp only [isDigit, notNul, Bool.and_eq_true, decide_eq_true_eq, bne_iff_ne] at hdigit ⊢
  rintro rfl
  exact absurd hdigit.1 (by decide)

theorem clean_formatInt (i : Int) : ∀ b ∈ formatInt i, notNul b = true := by
  rw [formatInt]
  split
  · intro b hb
    cases List.mem_cons.mp hb with
    | inl hsign => rw [hsign]; rfl
    | inr hdigits => exact clean_decimal _ b hdigits
  · exact clean_decimal _

theorem clean_fieldText (use : Bool) {text : Bytes} (h : ∀ b ∈ text, notNul b = true) :
    ∀ b ∈ fieldText use text, notNul b = true := by
  intro b hb
  rw [fieldText] at hb
  split at hb
  · cases List.mem_cons.mp hb with
    | inl hsep => rw [hsep]; rfl
    | inr htext => exact h b htext
  · cases hb

/-- A record goes through a C string as it is. -/
theorem cString_serialize (cfg : Config) (md : Metadata) :
    cString (md.serialize cfg) = md.serialize cfg := by
  rw [cString_eq_self_iff, Metadata.serialize, Metadata.tail]
  simp only [List.forall_mem_append]
  exact ⟨clean_decimal _, clean_fieldText _ (clean_decimal _), clean_fieldText _ (clean_formatInt _),
    clean_fieldText _ (clean_formatInt _), clean_fieldText _ (clean_formatInt _),
    clean_fieldText _ (clean_decimal _), clean_fieldText _ (clean_formatInt _),
    clean_fieldText _ md.clean⟩

/-- Two records that a build with this configuration cannot tell apart. -/
structure Metadata.Same (cfg : Config) (md md' : Metadata) : Prop where
  mode : md'.mode = md.mode
  size : md'.size = md.size
  atime : cfg.useAtime = true → md'.atime = md.atime
  mtime : cfg.useMtime = true → md'.mtime = md.mtime
  ctime : cfg.useCtime = true → md'.ctime = md.ctime
  linkCount : cfg.useLinkCnt = true → md'.linkCount = md.linkCount
  blocks : cfg.useBlocks = true → md'.blocks = md.blocks
  targetPath : cfg.hasSymlinks = true → md'.targetPath = md.targetPath

theorem same_kept (cfg : Config) (md : Metadata) : md.Same cfg (md.kept cfg) where
  mode := rfl
  size := rfl
  atime h := if_pos h
  mtime h := if_pos h
  ctime h := if_pos h
  linkCount h := if_pos h
  blocks h := if_pos h
  targetPath h := if_pos h

/-- A record reads back from its text in every configuration, and has the same text again.
No byte of the text is zero, so the decoder has come to its end. -/
theorem metadata_roundTrip (cfg : Config) (md : Metadata) (h : md.size.toNat < 2 ^ 63) :
    ∃ md', Metadata.decode cfg (md.serialize cfg) = .ok md' ∧ md.Same cfg md' ∧
      md'.serialize cfg = md.serialize cfg ∧ ∀ b ∈ md.serialize cfg, notNul b = true :=
  ⟨md.kept cfg, decode_serialize cfg md h, same_kept cfg md, serialize_kept cfg md,
    (cString_eq_self_iff _).mp (cString_serialize cfg md)⟩

/-- A link whose target has the separator in it, in a build that stores all fields. -/
theorem link_roundTrip :
    let cfg : Config := ⟨true, true, true, true, true, true⟩
    let md : Metadata := ⟨-1, 0, 1, 0o120777, 2, 3, -4, [47, 124, 49], .inr rfl, by decide +kernel⟩
    ∃ md', Metadata.decode cfg (md.serialize cfg) = .ok md' ∧ md.Same cfg md' ∧
      md'.serialize cfg = md.serialize cfg ∧ ∀ b ∈ md.serialize cfg, notNul b = true :=
  metadata_roundTrip _ _ (by decide)

/-- The size is printed unsigned and read back signed. -/
theorem decode_serialize_overflow (cfg : Config) (md : Metadata) (h : 2 ^ 63 ≤ md.size.toNat) :
    Metadata.decode cfg (md.serialize cfg) = .error (.std .outOfRange) := by
  have hparse := stol_decimal md.size.toNat _ (stops_tail cfg md)
  rw [if_neg (by omega)] at hparse
  have hsize : field true stol 0 (fieldText true (decimal md.size.toNat) ++ md.tail cfg) =
      .error (.std .outOfRange) := by
    simp [field, fieldText, number, hparse]
  simp only [Metadata.decode, number_mode, hsize, bind, Except.bind]

end GaoFS.MetadataRecord
