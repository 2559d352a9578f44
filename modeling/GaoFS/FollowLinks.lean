import Mathlib.Data.Set.Finite.Lattice
import GaoFS.Library.Loops
import GaoFS.Tree
import GaoFS.FileSizes

namespace GaoFS.FollowLinks

open Chunks Replies ChunkStorage DataOps MetadataRecord MetadataKey MetadataDB Dirents Listing
open GaofsFunctions Library.NumberText Library.Loops Relation

section Model

def LINK_MODE : UInt32 := 0o120777

/-- `Metadata(mode, target_path)` as it is called for a link. -/
def linkMetadata (targetPath : NulFree) : Metadata where
  atime := 0
  mtime := 0
  ctime := 0
  mode := LINK_MODE
  linkCount := 0
  size := 0
  blocks := 0
  targetPath := targetPath.1
  link := .inr rfl
  clean := targetPath.clean

/-- The constructor asserts that the target is absolute, if there is one. Every exception is
answered with -1. -/
def rpcSrvMkSymlink (s : Store) (targetPath : NulFree) : Option Int32 × Store :=
  if targetPath.1 = [] ∨ isAbsolute targetPath.1 = true then
    match existsKey s.key with
    | none => (none, s)
    | some (.ok false) =>
      (some 0, { s with key := s.key.merge (.create ((linkMetadata targetPath).serialize config)) })
    | some _ => (some (-1), s)
  else (none, s)

variable (d : SimpleHashDistributor)

def forwardMkSymlink (path : Path) (targetPath : NulFree) (cl : Cluster) : Int32 × Cluster :=
  let k := metadataHost d path
  let out := rpcSrvMkSymlink ((cl k).store path) targetPath
  (out.1.getD EBUSY, cl.putStore k path out.2)

inductive Request where
  | create (p : KeyPath) (mode : UInt32)
  | mkSymlink (p : KeyPath) (targetPath : NulFree) (absolute : isAbsolute targetPath.1 = true)

def serve (cl : Cluster) : Request → Cluster
  | .create p mode => (forwardCreate d p.path cl mode).2
  | .mkSymlink p targetPath _ => (forwardMkSymlink d p.path targetPath cl).2

/-- What each client finds under a path, at the metadata host of the path. -/
def stores (cl : Cluster) : FileSizes.Stores := fun path => (cl (metadataHost d path)).store path

/-- One turn of the loop of `get_metadata`. -/
def getMetadataTurn (cl : Cluster) (path : Path) : Path ⊕ Option (Except Int32 Metadata) :=
  match utilsGetMetadata d path cl with
  | some (.ok md) => if S_ISLNK md.mode then .inl md.targetPath else .inr (some (.ok md))
  | r => .inr r

variable (mem : UInt64 → Bytes) (mode flags : UInt32)

/-- The start of `gaofs_open`, where no attempt to create counts as a file that exists. -/
def openCreate (path : Path) (cl : Cluster) : Outcome Unit :=
  if hasFlag flags O_CREAT then
    if hasFlag flags O_DIRECTORY then (some (.error ENOTSUP), cl)
    else gaofsCreate d path cl (mode ||| S_IFREG)
  else (some (.error EEXIST), cl)

/-- The end of `gaofs_open`, with the path to go on with from a link. -/
def openExisting (path : Path) (cl : Cluster) : (Path × Cluster) ⊕ Outcome Opened :=
  match utilsGetMetadata d path cl with
  | none => .inr (none, cl)
  | some (.error e) => .inr (some (.error e), cl)
  | some (.ok md) =>
    if S_ISLNK md.mode then
      if hasFlag flags O_NOFOLLOW then .inr (some (.error ELOOP), cl) else .inl (md.targetPath, cl)
    else if S_ISDIR md.mode then .inr (gaofsOpendir d path cl mem, cl)
    else if S_ISREG md.mode = false then .inr (none, cl)
    else if hasFlag flags O_TRUNC = true ∧
        (hasFlag flags O_RDWR = true ∨ hasFlag flags O_WRONLY = true) then
      match gaofsTruncate d path cl md.size.toInt64 0 (2 ^ 32 + 1) with
      | (none, cl) => .inr (none, cl)
      | (some (.error e), cl) => .inr (some (.error e), cl)
      | (some (.ok _), cl) => .inr (some (.ok (.file path flags)), cl)
    else .inr (some (.ok (.file path flags)), cl)

/-- One call of `gaofs_open` with the recursive one taken out. -/
def openTurn (s : Path × Cluster) : (Path × Cluster) ⊕ Outcome Opened :=
  if hasFlag flags O_PATH then .inr (some (.error ENOTSUP), s.2)
  else if hasFlag flags O_APPEND then .inr (some (.error ENOTSUP), s.2)
  else
    let create := openCreate d mode flags s.1 s.2
    match create.1 with
    | none => .inr (none, create.2)
    | some (.ok _) => .inr (some (.ok (.file s.1 flags)), create.2)
    | some (.error e) =>
      if hasFlag flags O_CREAT = true ∧ (e ≠ EEXIST ∨ hasFlag flags O_EXCL = true) then
        .inr (some (.error e), create.2)
      else openExisting d mem flags s.1 create.2

end Model

section Turns

variable {d : SimpleHashDistributor} {cl : Cluster} {mem : UInt64 → Bytes} {mode flags : UInt32}

theorem getMetadataFollow_turns (fuel : Nat) (path : Path) :
    FileSizes.getMetadataFollow (stores d cl) fuel path =
      match turns (getMetadataTurn d cl) fuel path with
      | .inl _ => none
      | .inr r => r := by
  induction fuel generalizing path with
  | zero => rfl
  | succ fuel ih =>
    rw [FileSizes.getMetadataFollow, turns, getMetadataTurn, utilsGetMetadata]
    have hstat : FileSizes.forwardStat (stores d cl path) = forwardStat d path cl := rfl
    rw [hstat]
    cases forwardStat d path cl with
    | error e => rfl
    | ok attr =>
      dsimp only
      rw [FileSizes.parse]
      cases Metadata.decode config attr with
      | error e => rfl
      | ok md =>
        dsimp only
        split
        · exact ih md.targetPath
        · rfl

theorem gaofsOpen_succ (fuel : Nat) (path : Path) (cl : Cluster) :
    gaofsOpen d mem mode flags (fuel + 1) path cl =
      match openTurn d mem mode flags (path, cl) with
      | .inl s => gaofsOpen d mem mode flags fuel s.1 s.2
      | .inr out => out := by
  rw [gaofsOpen, openTurn]
  by_cases hpath : hasFlag flags O_PATH = true
  · rw [if_pos hpath, if_pos hpath]
  by_cases happend : hasFlag flags O_APPEND = true
  · rw [if_neg hpath, if_neg hpath, if_pos happend, if_pos happend]
  rw [if_neg hpath, if_neg hpath, if_neg happend, if_neg happend]
  rw [← openCreate]
  generalize openCreate d mode flags path cl = create
  obtain ⟨result, c⟩ := create
  dsimp only
  cases result with
  | none => rfl
  | some result =>
    cases result with
    | ok u => rfl
    | error e =>
      dsimp only
      split
      · rfl
      · rw [openExisting]
        cases utilsGetMetadata d path c with
        | none => rfl
        | some found =>
          cases found with
          | error e => rfl
          | ok md =>
            dsimp only
            split
            · split
              · rfl
              · rfl
            · split
              · rfl
              · split
                · rfl
                · split
                  · generalize gaofsTruncate d path c md.size.toInt64 0 (2 ^ 32 + 1) = cut
                    obtain ⟨_ | _ | _, c'⟩ := cut
                    · rfl
                    · rfl
                    · rfl
                  · rfl

theorem gaofsOpen_turns (fuel : Nat) (path : Path) (cl : Cluster) :
    gaofsOpen d mem mode flags fuel path cl =
      match turns (openTurn d mem mode flags) fuel (path, cl) with
      | .inl s => (none, s.2)
      | .inr out => out := by
  induction fuel generalizing path cl with
  | zero => rfl
  | succ fuel ih =>
    rw [gaofsOpen_succ, turns]
    cases openTurn d mem mode flags (path, cl) with
    | inl s => exact ih s.1 s.2
    | inr out => rfl

end Turns

section Records

variable {d : SimpleHashDistributor} {cl c : Cluster} {path q : Path} {md : Metadata}

/-- The records of the namespace: directories and files without data, and links. -/
structure Plain (md : Metadata) : Prop where
  size : md.size = 0
  kind : (S_ISDIR md.mode || S_ISREG md.mode) = true ∨
    (S_ISLNK md.mode = true ∧ isAbsolute md.targetPath = true)

/-- A key with nothing under it or with such a record. -/
def PlainKey (k : Key) : Prop := k = Key.absent ∨ ∃ md, Recorded k md ∧ Plain md

/-- What the daemons hold after links and files have been created, and nothing else. -/
structure Linked (d : SimpleHashDistributor) (cl : Cluster) : Prop where
  key : ∀ q, isAbsolute q = true → PlainKey ((cl (metadataHost d q)).store q).key
  finite : {q | isAbsolute q = true ∧ ∃ md, Existing d cl q md}.Finite

theorem recorded_serialized (md : Metadata) (h : md.size = 0) :
    Recorded (Key.absent.merge (.create (md.serialize config))) (md.kept config) := by
  have hsize : md.size.toNat < 2 ^ 63 := by
    rw [h]
    exact Nat.two_pow_pos 63
  exact ⟨[_], _, rfl, .create (decode_serialize config md hsize) [], rfl⟩

theorem getMetadata_created (h : md.size = 0) :
    getMetadata (Key.absent.merge (.create (md.serialize config))) =
      some (.ok ((md.kept config).kept config)) := by
  apply getMetadata_recorded (recorded_serialized md h)
  change md.size.toNat < 2 ^ 63
  rw [h]
  exact Nat.two_pow_pos 63

theorem plain_kept (h : Plain md) : Plain (md.kept config) := ⟨h.size, h.kind⟩

theorem plainKey_created (h : Plain md) :
    PlainKey (Key.absent.merge (.create (md.serialize config))) :=
  .inr ⟨_, recorded_serialized md h.size, plain_kept h⟩

theorem plain_ofMode {mode : UInt32} (h : (S_ISDIR mode || S_ISREG mode) = true) :
    Plain (Metadata.ofMode mode) := ⟨rfl, .inl h⟩

theorem isLink_mode : S_ISLNK LINK_MODE = true := by decide

theorem plain_link {targetPath : NulFree} (h : isAbsolute targetPath.1 = true) :
    Plain (linkMetadata targetPath) := ⟨rfl, .inr ⟨isLink_mode, h⟩⟩

theorem Plain.size_lt (h : Plain md) : md.size.toNat < 2 ^ 63 := by
  rw [h.size]
  exact Nat.two_pow_pos 63

theorem plainKey_create {s : Store} (h : PlainKey s.key) (mode : UInt32) :
    PlainKey (rpcSrvCreate s mode).2.key := by
  by_cases hvalid : (S_ISDIR mode || S_ISREG mode) = true
  · obtain habsent | ⟨md, hrec, -⟩ := id h
    · rw [rpcSrvCreate_absent habsent hvalid]
      exact plainKey_created (plain_ofMode hvalid)
    · rw [rpcSrvCreate, if_pos hvalid, existsKey_recorded hrec]
      exact h
  · rw [rpcSrvCreate, if_neg hvalid]
    exact h

theorem plainKey_mkSymlink {s : Store} (h : PlainKey s.key) {targetPath : NulFree}
    (habsolute : isAbsolute targetPath.1 = true) : PlainKey (rpcSrvMkSymlink s targetPath).2.key := by
  rw [rpcSrvMkSymlink, if_pos (.inr habsolute)]
  obtain habsent | ⟨md, hrec, -⟩ := id h
  · rw [habsent, existsKey_absent]
    exact plainKey_created (plain_link habsolute)
  · rw [existsKey_recorded hrec]
    exact h

theorem existing_congr (h : ((c (metadataHost d q)).store q).key = ((cl (metadataHost d q)).store q).key) :
    Existing d c q md ↔ Existing d cl q md := by
  rw [Existing, Existing, h]

theorem Linked.putStore (h : Linked d cl) (p : KeyPath) {s : Store} (hs : PlainKey s.key) :
    Linked d (cl.putStore (metadataHost d p.path) p.path s) := by
  constructor
  · intro q hq
    rw [key_putStore_path d cl p.path s hq]
    split
    · exact hs
    · exact h.key q hq
  · refine (h.finite.insert p.path).subset ?_
    rintro q ⟨hq, md, hmd⟩
    by_cases hqp : q = p.path
    · exact .inl hqp
    · have hkey := key_putStore_path d cl p.path s hq
      rw [if_neg hqp] at hkey
      exact .inr ⟨hq, md, (existing_congr hkey).mp hmd⟩

theorem Linked.serve (h : Linked d cl) (r : Request) : Linked d (serve d cl r) := by
  cases r with
  | create p mode => exact h.putStore p (plainKey_create (h.key p.path p.absolute) mode)
  | mkSymlink p targetPath absolute =>
    exact h.putStore p (plainKey_mkSymlink (h.key p.path p.absolute) absolute)

theorem linked_started (d : SimpleHashDistributor) (roots : UInt64 → Bytes) : Linked d (started roots) := by
  constructor
  · intro q hq
    rw [Tree.key_started roots _ hq]
    split
    · exact plainKey_created (plain_ofMode (by decide))
    · exact .inl rfl
  · refine (Set.finite_singleton [separator]).subset ?_
    rintro q ⟨hq, md, hmd⟩
    rw [Existing, Tree.key_started roots _ hq] at hmd
    split at hmd
    · rename_i hroot
      exact hroot
    · cases hmd

theorem linked_run (d : SimpleHashDistributor) (roots : UInt64 → Bytes) (rs : List Request) :
    Linked d (rs.foldl (serve d) (started roots)) :=
  Library.Runs.invariant_foldl (fun _ r h => h.serve r) rs (linked_started d roots)

/-- A client reads the record that the metadata host has, or it learns that there is none. -/
theorem Linked.utilsGetMetadata (h : Linked d cl) (hq : isAbsolute q = true) :
    ((∀ md, ¬ Existing d cl q md) ∧ utilsGetMetadata d q cl = some (.error ENOENT)) ∨
      ∃ md, Existing d cl q md ∧ Plain md ∧ utilsGetMetadata d q cl = some (.ok md) := by
  rw [GaofsFunctions.utilsGetMetadata, forwardStat, rpcSrvStat]
  obtain habsent | ⟨md, hrec, hplain⟩ := h.key q hq
  · left
    refine ⟨fun md hmd => ?_, by rw [habsent]; rfl⟩
    rw [Existing, habsent] at hmd
    cases hmd
  · right
    refine ⟨md.kept config, getMetadata_recorded hrec hplain.size_lt, plain_kept hplain, ?_⟩
    rw [getStr_recorded hrec]
    simp [statErr, cString_serialize, decode_serialize config md hplain.size_lt]

theorem existing_unique {md md' : Metadata} (h : Existing d cl q md) (h' : Existing d cl q md') : md = md' :=
  Except.ok.inj (Option.some.inj (h.symm.trans h'))

end Records

section Links

variable {d : SimpleHashDistributor} {cl : Cluster} {path q t : Path}

def LinksTo (d : SimpleHashDistributor) (cl : Cluster) (q t : Path) : Prop :=
  ∃ md, Existing d cl q md ∧ S_ISLNK md.mode = true ∧ md.targetPath = t

theorem not_linksTo_of_missing (hnone : ∀ md, ¬ Existing d cl q md) (t : Path) : ¬ LinksTo d cl q t := by
  rintro ⟨md, hmd, -⟩
  exact hnone md hmd

theorem not_linksTo_of_kind {md : Metadata} (hmd : Existing d cl q md) (hlink : S_ISLNK md.mode = false)
    (t : Path) : ¬ LinksTo d cl q t := by
  rintro ⟨md', hmd', hlink', -⟩
  rw [existing_unique hmd' hmd, hlink] at hlink'
  cases hlink'

theorem linksTo_unique (a b c : Path) (hb : LinksTo d cl a b) (hc : LinksTo d cl a c) : b = c := by
  obtain ⟨md, hmd, -, rfl⟩ := hb
  obtain ⟨md', hmd', -, rfl⟩ := hc
  rw [existing_unique hmd hmd']

theorem Linked.plain (h : Linked d cl) (hq : isAbsolute q = true) {md : Metadata}
    (hmd : Existing d cl q md) : Plain md := by
  obtain ⟨hnone, -⟩ | ⟨md', hmd', hplain, -⟩ := h.utilsGetMetadata hq
  · exact absurd hmd (hnone md)
  · exact existing_unique hmd hmd' ▸ hplain

theorem Plain.target_absolute {md : Metadata} (h : Plain md) (hlink : S_ISLNK md.mode = true) :
    isAbsolute md.targetPath = true := by
  obtain hvalid | ⟨-, habsolute⟩ := h.kind
  · rw [Tree.not_link hvalid] at hlink
    cases hlink
  · exact habsolute

theorem Linked.absolute (h : Linked d cl) (hpath : isAbsolute path = true)
    (hreach : ReflTransGen (LinksTo d cl) path q) : isAbsolute q = true := by
  induction hreach with
  | refl => exact hpath
  | tail _ hstep ih =>
    obtain ⟨md, hmd, hlink, rfl⟩ := hstep
    exact (h.plain ih hmd).target_absolute hlink

/-- From a path only the targets of the records can be reached. -/
theorem Linked.reach_finite (h : Linked d cl) (hpath : isAbsolute path = true) :
    {q | ReflTransGen (LinksTo d cl) path q}.Finite := by
  let target : Path → Path := fun q =>
    ((recordAt ((cl (metadataHost d q)).store q).key).map Metadata.targetPath).getD []
  refine ((h.finite.image target).insert path).subset ?_
  intro q hq
  cases hq with
  | refl => exact .inl rfl
  | tail hreach hstep =>
    rename_i p
    obtain ⟨md, hmd, -, rfl⟩ := hstep
    refine .inr ⟨p, ⟨h.absolute hpath hreach, md, hmd⟩, ?_⟩
    change ((recordAt _).map Metadata.targetPath).getD [] = _
    rw [Tree.existing_iff.mp hmd]
    rfl

/-- What following the links from a path is to come to: the record of the first path that is
no link, or the error of a link without a target or of a cycle. -/
inductive Answer (d : SimpleHashDistributor) (cl : Cluster) (path : Path) : Except Int32 Metadata → Prop
  | record {q : Path} {md : Metadata} (hreach : ReflTransGen (LinksTo d cl) path q)
      (hmd : Existing d cl q md) (hlink : S_ISLNK md.mode = false) : Answer d cl path (.ok md)
  | dangling {q : Path} (hreach : ReflTransGen (LinksTo d cl) path q)
      (hnone : ∀ md, ¬ Existing d cl q md) : Answer d cl path (.error ENOENT)
  | cycle {q : Path} (hreach : ReflTransGen (LinksTo d cl) path q)
      (hcycle : TransGen (LinksTo d cl) q q) : Answer d cl path (.error ELOOP)

theorem Linked.getMetadataTurn_cases (h : Linked d cl) (hpath : isAbsolute path = true)
    (hreach : ReflTransGen (LinksTo d cl) path q) :
    (∃ t, LinksTo d cl q t ∧ getMetadataTurn d cl q = .inl t) ∨
      ∃ r, Answer d cl path r ∧ (∀ t, ¬ LinksTo d cl q t) ∧ getMetadataTurn d cl q = .inr (some r) := by
  rw [getMetadataTurn]
  obtain ⟨hnone, hget⟩ | ⟨md, hmd, -, hget⟩ := h.utilsGetMetadata (h.absolute hpath hreach)
  · rw [hget]
    exact .inr ⟨_, .dangling hreach hnone, not_linksTo_of_missing hnone, rfl⟩
  · rw [hget]
    dsimp only
    cases hlink : S_ISLNK md.mode with
    | true => exact .inl ⟨_, ⟨md, hmd, hlink, rfl⟩, if_pos rfl⟩
    | false =>
      exact .inr ⟨_, .record hreach hmd hlink, not_linksTo_of_kind hmd hlink, if_neg Bool.false_ne_true⟩

theorem Linked.getMetadataFollow_circles (h : Linked d cl) (hpath : isAbsolute path = true)
    (hcircles : Circles (LinksTo d cl) path) (fuel : Nat) :
    FileSizes.getMetadataFollow (stores d cl) fuel path = none := by
  have hstep : ∀ s a b, s = a ∧ ReflTransGen (LinksTo d cl) path a → LinksTo d cl a b →
      ∃ t, getMetadataTurn d cl s = .inl t ∧ t = b ∧ ReflTransGen (LinksTo d cl) path b := by
    rintro s a b ⟨rfl, hreach⟩ hstep
    obtain ⟨t, ht, hturn⟩ | ⟨r, -, hend, -⟩ := h.getMetadataTurn_cases hpath hreach
    · obtain rfl := linksTo_unique _ _ _ hstep ht
      exact ⟨b, hturn, rfl, hreach.tail hstep⟩
    · exact absurd hstep (hend b)
  obtain ⟨t, b, hturns, -⟩ := turns_of_circles hstep ⟨rfl, .refl⟩ hcircles fuel
  rw [getMetadataFollow_turns, hturns]

theorem Linked.getMetadataFollow_iff (h : Linked d cl) (hpath : isAbsolute path = true) :
    (∃ fuel r, FileSizes.getMetadataFollow (stores d cl) fuel path = some r ∧ Answer d cl path r) ↔
      ¬ Circles (LinksTo d cl) path := by
  constructor
  · rintro ⟨fuel, r, hr, -⟩ hcircles
    rw [h.getMetadataFollow_circles hpath hcircles] at hr
    cases hr
  · intro hcircles
    have hstep : ∀ s a, s = a ∧ ReflTransGen (LinksTo d cl) path a →
        (∃ r, getMetadataTurn d cl s = .inr r) ∨
          ∃ t b, getMetadataTurn d cl s = .inl t ∧ LinksTo d cl a b ∧
            t = b ∧ ReflTransGen (LinksTo d cl) path b := by
      rintro s a ⟨rfl, hreach⟩
      obtain ⟨t, ht, hturn⟩ | ⟨r, -, -, hturn⟩ := h.getMetadataTurn_cases hpath hreach
      · exact .inr ⟨t, t, hturn, ht, rfl, hreach.tail ht⟩
      · exact .inl ⟨_, hturn⟩
    have hacc := acc_of_not_circles (h.reach_finite hpath) hcircles
    obtain ⟨t, b, r, -, ⟨rfl, hreach⟩, hlast, fuel, hends⟩ := ends_of_acc hstep hacc ⟨rfl, .refl⟩
    obtain ⟨t', -, hturn⟩ | ⟨r', hanswer, -, hturn⟩ := h.getMetadataTurn_cases hpath hreach
    · rw [hturn] at hlast
      cases hlast
    · rw [hturn] at hlast
      obtain rfl := Sum.inr.inj hlast
      refine ⟨fuel, r', ?_, hanswer⟩
      rw [getMetadataFollow_turns, hends]

end Links

section Open

variable {d : SimpleHashDistributor} {cl c : Cluster} {mem : UInt64 → Bytes} {mode flags : UInt32}
variable {path q : Path}

/-- The daemons hold the same metadata. -/
def SameKeys (d : SimpleHashDistributor) (cl c : Cluster) : Prop :=
  ∀ q, isAbsolute q = true →
    ((c (metadataHost d q)).store q).key = ((cl (metadataHost d q)).store q).key

/-- The open cannot create anything at the path, not even find that it exists. -/
def Barred (d : SimpleHashDistributor) (cl : Cluster) (mode flags : UInt32) (q : Path) : Prop :=
  hasFlag flags O_CREAT = true ∧ (hasFlag flags O_DIRECTORY = true ∨
    (∀ m, createMode (mode ||| S_IFREG) ≠ .ok m) ∨
    ∀ md, Existing d cl (dirname q) md → S_ISDIR md.mode = false)

/-- An open that is refused at the path, be it a link or not. -/
def Refused (d : SimpleHashDistributor) (cl : Cluster) (mode flags : UInt32) (q : Path) : Prop :=
  hasFlag flags O_PATH = true ∨ hasFlag flags O_APPEND = true ∨ Barred d cl mode flags q ∨
    (hasFlag flags O_CREAT = true ∧ hasFlag flags O_EXCL = true ∧ ∃ md, Existing d cl q md)

/-- What an open of a path is to come to, with the links followed: an open of the first path
that is no link, or an error. -/
inductive OpenAnswer (d : SimpleHashDistributor) (cl : Cluster) (mem : UInt64 → Bytes)
    (mode flags : UInt32) (path : Path) : Outcome Opened → Prop
  | file {q : Path} {md : Metadata} {c : Cluster} (hreach : ReflTransGen (LinksTo d cl) path q)
      (hmd : Existing d cl q md) (hfile : S_ISREG md.mode = true) :
      OpenAnswer d cl mem mode flags path (some (.ok (.file q flags)), c)
  | dir {q : Path} {md : Metadata} {c : Cluster} (hreach : ReflTransGen (LinksTo d cl) path q)
      (hmd : Existing d cl q md) (hdir : S_ISDIR md.mode = true) (hsame : SameKeys d cl c) :
      OpenAnswer d cl mem mode flags path (gaofsOpendir d q c mem, c)
  | created {q : Path} {md : Metadata} {c : Cluster} (hreach : ReflTransGen (LinksTo d cl) path q)
      (hnone : ∀ md, ¬ Existing d cl q md) (hcreat : hasFlag flags O_CREAT = true)
      (hmd : Existing d c q md) (hlink : S_ISLNK md.mode = false) :
      OpenAnswer d cl mem mode flags path (some (.ok (.file q flags)), c)
  | dangling {q : Path} {c : Cluster} (hreach : ReflTransGen (LinksTo d cl) path q)
      (hnone : ∀ md, ¬ Existing d cl q md) (hcreat : hasFlag flags O_CREAT = false) :
      OpenAnswer d cl mem mode flags path (some (.error ENOENT), c)
  | refused {q : Path} {e : Int32} {c : Cluster} (hreach : ReflTransGen (LinksTo d cl) path q)
      (h : Refused d cl mode flags q) : OpenAnswer d cl mem mode flags path (some (.error e), c)
  | cycle {q : Path} {c : Cluster} (hreach : ReflTransGen (LinksTo d cl) path q)
      (hcycle : TransGen (LinksTo d cl) q q) :
      OpenAnswer d cl mem mode flags path (some (.error ELOOP), c)

theorem SameKeys.existing (h : SameKeys d cl c) (hq : isAbsolute q = true) {md : Metadata} :
    Existing d c q md ↔ Existing d cl q md := existing_congr (h q hq)

theorem SameKeys.linked (hsame : SameKeys d cl c) (h : Linked d cl) : Linked d c where
  key q hq := hsame q hq ▸ h.key q hq
  finite := by
    refine h.finite.subset ?_
    rintro q ⟨hq, md, hmd⟩
    exact ⟨hq, md, (hsame.existing hq).mp hmd⟩

/-- What the check of the parent directory says. -/
theorem Linked.checkParentDir_cases (h : Linked d cl) (hsame : SameKeys d cl c) (hq : isAbsolute q = true) :
    (∃ e, checkParentDir d q c = some (.error e) ∧ e ≠ EEXIST ∧
        ∀ md, Existing d cl (dirname q) md → S_ISDIR md.mode = false) ∨
      (checkParentDir d q c = some (.ok ()) ∧
        ∃ md, Existing d cl (dirname q) md ∧ S_ISDIR md.mode = true) := by
  have hparent := isAbsolute_dirname hq
  rw [checkParentDir]
  obtain ⟨hnone, hget⟩ | ⟨md, hmd, -, hget⟩ := (hsame.linked h).utilsGetMetadata hparent
  · rw [hget]
    exact .inl ⟨ENOENT, rfl, by decide, fun md hmd => absurd ((hsame.existing hparent).mpr hmd) (hnone md)⟩
  · rw [hget]
    have hmd' := (hsame.existing hparent).mp hmd
    cases hdir : S_ISDIR md.mode with
    | true => exact .inr ⟨by simp [hdir], md, hmd', hdir⟩
    | false =>
      refine .inl ⟨ENOTDIR, by simp [hdir], by decide, fun md' hother => ?_⟩
      rw [existing_unique hother hmd', hdir]

theorem createMode_error {mode : UInt32} {e : Int32} (h : createMode mode = .error e) : e ≠ EEXIST := by
  rw [createMode] at h
  split_ifs at h
  · obtain rfl := Except.error.inj h
    decide
  · obtain rfl := Except.error.inj h
    decide

theorem SameKeys.putStore (h : SameKeys d cl c) {s : Store}
    (hkey : s.key = ((c (metadataHost d path)).store path).key) :
    SameKeys d cl (c.putStore (metadataHost d path) path s) := by
  intro q hq
  rw [key_putStore_path d c path s hq]
  split
  · rename_i hqp
    subst hqp
    rw [hkey, h q hq]
  · exact h q hq

theorem Linked.forwardCreate_cases (h : Linked d cl) (hsame : SameKeys d cl c) (hq : isAbsolute q = true)
    {m : UInt32} (hvalid : (S_ISDIR m || S_ISREG m) = true) :
    ((forwardCreate d q c m).1 = EEXIST ∧ SameKeys d cl (forwardCreate d q c m).2 ∧ ∃ md, Existing d cl q md) ∨
      ((forwardCreate d q c m).1 = 0 ∧ (∀ md, ¬ Existing d cl q md) ∧
        ∃ md, Existing d (forwardCreate d q c m).2 q md ∧ S_ISLNK md.mode = false) := by
  have hkey := hsame q hq
  have hput := key_putStore_path d c q (rpcSrvCreate ((c (metadataHost d q)).store q) m).2 hq
  rw [if_pos rfl] at hput
  obtain habsent | ⟨md, hrec, hplain⟩ := h.key q hq
  · right
    have hcreate := rpcSrvCreate_absent (hkey.trans habsent) hvalid
    refine ⟨by rw [forwardCreate, hcreate]; rfl, fun md hmd => ?_, ?_⟩
    · rw [Existing, habsent] at hmd
      cases hmd
    · rw [hcreate] at hput
      refine ⟨((Metadata.ofMode m).kept config).kept config, ?_, Tree.not_link hvalid⟩
      rw [Existing, forwardCreate, hcreate, hput]
      exact getMetadata_created rfl
  · left
    have hexists : rpcSrvCreate ((c (metadataHost d q)).store q) m =
        (some EEXIST, (c (metadataHost d q)).store q) := by
      rw [rpcSrvCreate, if_pos hvalid, hkey, existsKey_recorded hrec]
      rfl
    refine ⟨by rw [forwardCreate, hexists]; rfl, ?_, _, getMetadata_recorded hrec hplain.size_lt⟩
    rw [forwardCreate, hexists]
    exact hsame.putStore rfl

theorem Linked.gaofsCreate_cases (h : Linked d cl) (hsame : SameKeys d cl c) (hq : isAbsolute q = true)
    (mode : UInt32) :
    (∃ e, gaofsCreate d q c mode = (some (.error e), c) ∧ e ≠ EEXIST ∧
        ((∀ m, createMode mode ≠ .ok m) ∨ ∀ md, Existing d cl (dirname q) md → S_ISDIR md.mode = false)) ∨
      ((∃ m, createMode mode = .ok m) ∧ (∃ md, Existing d cl (dirname q) md ∧ S_ISDIR md.mode = true) ∧
        ((∃ c', gaofsCreate d q c mode = (some (.error EEXIST), c') ∧ SameKeys d cl c' ∧
            ∃ md, Existing d cl q md) ∨
          ∃ c', gaofsCreate d q c mode = (some (.ok ()), c') ∧ (∀ md, ¬ Existing d cl q md) ∧
            ∃ md, Existing d c' q md ∧ S_ISLNK md.mode = false)) := by
  rw [gaofsCreate]
  cases hmode : createMode mode with
  | error e => exact .inl ⟨e, rfl, createMode_error hmode, .inl fun m hm => by cases hm⟩
  | ok m =>
    obtain ⟨e, hcheck, hne, hparent⟩ | ⟨hcheck, hparent⟩ := h.checkParentDir_cases hsame hq
    · exact .inl ⟨e, by rw [hcheck], hne, .inr hparent⟩
    · refine .inr ⟨⟨m, rfl⟩, hparent, ?_⟩
      rw [hcheck]
      obtain ⟨herr, hkeys, hmd⟩ | ⟨herr, hnone, hmd⟩ :=
        h.forwardCreate_cases hsame hq (Tree.createMode_valid hmode)
      · refine .inl ⟨_, ?_, hkeys, hmd⟩
        dsimp only
        rw [herr, if_pos (by decide)]
      · refine .inr ⟨_, ?_, hnone, hmd⟩
        dsimp only
        rw [herr, if_neg (by decide)]

variable (mem mode) in
theorem Linked.openExisting_cases (h : Linked d cl) (hsame : SameKeys d cl c)
    (hpath : isAbsolute path = true) (hreach : ReflTransGen (LinksTo d cl) path q)
    (hno : hasFlag flags O_NOFOLLOW = false) :
    (∃ t, LinksTo d cl q t ∧ openExisting d mem flags q c = .inl (t, c)) ∨
      ((∀ t, ¬ LinksTo d cl q t) ∧
        (((∀ md, ¬ Existing d cl q md) ∧ openExisting d mem flags q c = .inr (some (.error ENOENT), c)) ∨
          ∃ out, openExisting d mem flags q c = .inr out ∧ OpenAnswer d cl mem mode flags path out)) := by
  have hq := h.absolute hpath hreach
  rw [openExisting]
  obtain ⟨hnone, hget⟩ | ⟨md, hmd, hplain, hget⟩ := (hsame.linked h).utilsGetMetadata hq
  · rw [hget]
    have hnone' : ∀ md, ¬ Existing d cl q md := fun md hmd => hnone md ((hsame.existing hq).mpr hmd)
    exact .inr ⟨not_linksTo_of_missing hnone', .inl ⟨hnone', rfl⟩⟩
  · rw [hget]
    have hmd' := (hsame.existing hq).mp hmd
    dsimp only
    cases hlink : S_ISLNK md.mode with
    | true =>
      rw [if_pos rfl, hno, if_neg Bool.false_ne_true]
      exact .inl ⟨_, ⟨md, hmd', hlink, rfl⟩, rfl⟩
    | false =>
      rw [if_neg Bool.false_ne_true]
      refine .inr ⟨not_linksTo_of_kind hmd' hlink, .inr ?_⟩
      cases hdir : S_ISDIR md.mode with
      | true => exact ⟨_, if_pos rfl, .dir hreach hmd' hdir hsame⟩
      | false =>
        have hfile : S_ISREG md.mode = true := by
          obtain hkind | ⟨hlink', -⟩ := hplain.kind
          · rw [hdir, Bool.false_or] at hkind
            exact hkind
          · rw [hlink] at hlink'
            cases hlink'
        have hcut : gaofsTruncate d q c md.size.toInt64 0 (2 ^ 32 + 1) = (some (.ok ()), c) := by
          rw [hplain.size]
          rfl
        rw [if_neg Bool.false_ne_true, hfile, if_neg Bool.false_ne_true.symm, hcut]
        refine ⟨(some (.ok (.file q flags)), c), ?_, .file hreach hmd' hfile⟩
        split
        · rfl
        · rfl

variable (mode flags) in
/-- The start of an open ends it, or finds a file that exists, or nothing is to be created. -/
theorem Linked.openCreate_cases (h : Linked d cl) (hsame : SameKeys d cl c) (hq : isAbsolute q = true) :
    (∃ e, openCreate d mode flags q c = (some (.error e), c) ∧ e ≠ EEXIST ∧ Barred d cl mode flags q) ∨
      (∃ c', openCreate d mode flags q c = (some (.ok ()), c') ∧ hasFlag flags O_CREAT = true ∧
        (∀ md, ¬ Existing d cl q md) ∧ ∃ md, Existing d c' q md ∧ S_ISLNK md.mode = false) ∨
      (¬ Barred d cl mode flags q ∧ ∃ c', openCreate d mode flags q c = (some (.error EEXIST), c') ∧
        SameKeys d cl c' ∧ (hasFlag flags O_CREAT = true → ∃ md, Existing d cl q md)) := by
  rw [openCreate]
  cases hcreat : hasFlag flags O_CREAT with
  | false =>
    refine .inr (.inr ⟨fun hbarred => ?_, c, if_neg Bool.false_ne_true, hsame, fun hf => ?_⟩)
    · rw [Barred, hcreat] at hbarred
      cases hbarred.1
    · cases hf
  | true =>
    rw [if_pos rfl]
    cases hdirectory : hasFlag flags O_DIRECTORY with
    | true => exact .inl ⟨ENOTSUP, if_pos rfl, by decide, hcreat, .inl hdirectory⟩
    | false =>
      rw [if_neg Bool.false_ne_true]
      obtain ⟨e, heq, hne, hbarred⟩ | ⟨⟨m, hm⟩, ⟨dir, hdir, hisDir⟩, hend⟩ :=
        h.gaofsCreate_cases hsame hq (mode ||| S_IFREG)
      · exact .inl ⟨e, heq, hne, hcreat, .inr hbarred⟩
      · obtain ⟨c', heq, hkeys, hmd⟩ | ⟨c', heq, hnone, hmd⟩ := hend
        · refine .inr (.inr ⟨?_, c', heq, hkeys, fun _ => hmd⟩)
          rintro ⟨-, hd | hmode | hparent⟩
          · rw [hdirectory] at hd
            cases hd
          · exact hmode m hm
          · rw [hparent dir hdir] at hisDir
            cases hisDir
        · exact .inr (.inl ⟨c', heq, rfl, hnone, hmd⟩)

variable (mem mode) in
/-- One turn of an open goes on to where the link leads, unless the link refuses it, or comes
to an end. -/
theorem Linked.openTurn_cases (h : Linked d cl) (hsame : SameKeys d cl c)
    (hpath : isAbsolute path = true) (hreach : ReflTransGen (LinksTo d cl) path q)
    (hno : hasFlag flags O_NOFOLLOW = false) :
    (∃ t c', openTurn d mem mode flags (q, c) = .inl (t, c') ∧ SameKeys d cl c' ∧
        LinksTo d cl q t ∧ ¬ Refused d cl mode flags q) ∨
      ∃ out, openTurn d mem mode flags (q, c) = .inr out ∧ OpenAnswer d cl mem mode flags path out ∧
        ∀ t, LinksTo d cl q t → Refused d cl mode flags q := by
  have hq := h.absolute hpath hreach
  have hrefused : ∀ {e : Int32} {c' : Cluster}, Refused d cl mode flags q →
      OpenAnswer d cl mem mode flags path (some (.error e), c') ∧
        ∀ t, LinksTo d cl q t → Refused d cl mode flags q := fun hr => ⟨.refused hreach hr, fun _ _ => hr⟩
  rw [openTurn]
  by_cases hopath : hasFlag flags O_PATH = true
  · rw [if_pos hopath]
    exact .inr ⟨_, rfl, hrefused (.inl hopath)⟩
  by_cases happend : hasFlag flags O_APPEND = true
  · rw [if_neg hopath, if_pos happend]
    exact .inr ⟨_, rfl, hrefused (.inr (.inl happend))⟩
  rw [if_neg hopath, if_neg happend]
  dsimp only
  obtain ⟨e, heq, hne, hbarred⟩ | ⟨c', heq, hcreat, hnone, md, hmd, hlink⟩ | ⟨hbarred, c', heq, hkeys, hmd⟩ :=
    h.openCreate_cases mode flags hsame hq
  · rw [heq]
    dsimp only
    rw [if_pos ⟨hbarred.1, .inl hne⟩]
    exact .inr ⟨_, rfl, hrefused (.inr (.inr (.inl hbarred)))⟩
  · rw [heq]
    exact .inr ⟨_, rfl, .created hreach hnone hcreat hmd hlink,
      fun t ht => absurd ht (not_linksTo_of_missing hnone t)⟩
  · rw [heq]
    dsimp only
    by_cases hexcl : hasFlag flags O_CREAT = true ∧ hasFlag flags O_EXCL = true
    · rw [if_pos ⟨hexcl.1, .inr hexcl.2⟩]
      exact .inr ⟨_, rfl, hrefused (.inr (.inr (.inr ⟨hexcl.1, hexcl.2, hmd hexcl.1⟩)))⟩
    · rw [if_neg fun hc => hexcl ⟨hc.1, hc.2.resolve_left fun hne => hne rfl⟩]
      have hgo : ¬ Refused d cl mode flags q := by
        rintro (hr | hr | hr | hr)
        · exact hopath hr
        · exact happend hr
        · exact hbarred hr
        · exact hexcl ⟨hr.1, hr.2.1⟩
      obtain ⟨t, ht, hopen⟩ | ⟨hend, ⟨hnone, hopen⟩ | ⟨out, hopen, hanswer⟩⟩ :=
        h.openExisting_cases mem mode hkeys hpath hreach hno
      · exact .inl ⟨t, c', hopen, hkeys, ht, hgo⟩
      · have hcreat : hasFlag flags O_CREAT = false := by
          rw [← Bool.not_eq_true]
          intro hcreat
          obtain ⟨md, hmd⟩ := hmd hcreat
          exact hnone md hmd
        exact .inr ⟨_, hopen, .dangling hreach hnone hcreat, fun t ht => absurd ht (hend t)⟩
      · exact .inr ⟨out, hopen, hanswer, fun t ht => absurd ht (hend t)⟩

/-- An open follows a link that does not refuse it. -/
def Follows (d : SimpleHashDistributor) (cl : Cluster) (mode flags : UInt32) (q t : Path) : Prop :=
  LinksTo d cl q t ∧ ¬ Refused d cl mode flags q

/-- An open has come to a place along the links, and the metadata is what it was. -/
structure OpenAt (d : SimpleHashDistributor) (cl : Cluster) (path : Path) (s : Path × Cluster) (a : Path) :
    Prop where
  place : s.1 = a
  same : SameKeys d cl s.2
  reach : ReflTransGen (LinksTo d cl) path a

theorem openAt_start (d : SimpleHashDistributor) (cl : Cluster) (path : Path) :
    OpenAt d cl path (path, cl) path := ⟨rfl, fun _ _ => rfl, .refl⟩

variable (mem) in
theorem Linked.gaofsOpen_circles (h : Linked d cl) (hpath : isAbsolute path = true)
    (hno : hasFlag flags O_NOFOLLOW = false) (hcircles : Circles (Follows d cl mode flags) path)
    (fuel : Nat) : (gaofsOpen d mem mode flags fuel path cl).1 = none := by
  have hstep : ∀ s a b, OpenAt d cl path s a → Follows d cl mode flags a b →
      ∃ t, openTurn d mem mode flags s = .inl t ∧ OpenAt d cl path t b := by
    rintro ⟨q, c⟩ a b ⟨rfl, hsame, hreach⟩ ⟨hlink, hgo⟩
    obtain ⟨t, c', hturn, hkeys, ht, -⟩ | ⟨out, -, -, hrefused⟩ :=
      h.openTurn_cases mem mode hsame hpath hreach hno
    · obtain rfl := linksTo_unique _ _ _ hlink ht
      exact ⟨_, hturn, ⟨rfl, hkeys, hreach.tail hlink⟩⟩
    · exact absurd (hrefused b hlink) hgo
  obtain ⟨t, b, hturns, -⟩ := turns_of_circles hstep (openAt_start d cl path) hcircles fuel
  rw [gaofsOpen_turns, hturns]

theorem Linked.gaofsOpen_iff (h : Linked d cl) (hpath : isAbsolute path = true)
    (hno : hasFlag flags O_NOFOLLOW = false) :
    (∃ fuel out, (∀ n, fuel ≤ n → gaofsOpen d mem mode flags n path cl = out) ∧
        OpenAnswer d cl mem mode flags path out) ↔ ¬ Circles (Follows d cl mode flags) path := by
  constructor
  · rintro ⟨fuel, out, hout, hanswer⟩ hcircles
    have hforever := h.gaofsOpen_circles mem hpath hno hcircles fuel
    rw [hout fuel (Nat.le_refl fuel)] at hforever
    -- wherever the answer is from, the open goes on from there
    have hon : ∀ {q}, ReflTransGen (LinksTo d cl) path q → ∃ t, Follows d cl mode flags q t := by
      intro q hreach
      obtain ⟨t, ht, -⟩ := (hcircles.forced (fun _ _ h => h.1) linksTo_unique hreach).step
      exact ⟨t, ht⟩
    cases hanswer with
    | file hreach hmd hfile =>
      obtain ⟨t, ht, -⟩ := hon hreach
      exact not_linksTo_of_kind hmd (Tree.not_link (by rw [hfile, Bool.or_true])) t ht
    | dir hreach hmd hdir hsame =>
      obtain ⟨t, ht, -⟩ := hon hreach
      exact not_linksTo_of_kind hmd (Tree.not_link (by rw [hdir, Bool.true_or])) t ht
    | created hreach hnone hcreat hmd hlink =>
      obtain ⟨t, ht, -⟩ := hon hreach
      exact not_linksTo_of_missing hnone t ht
    | dangling hreach hnone hcreat =>
      obtain ⟨t, ht, -⟩ := hon hreach
      exact not_linksTo_of_missing hnone t ht
    | refused hreach hrefused =>
      obtain ⟨t, -, hgo⟩ := hon hreach
      exact hgo hrefused
    | cycle hreach hcycle => cases hforever
  · intro hcircles
    have hstep : ∀ s a, OpenAt d cl path s a → (∃ r, openTurn d mem mode flags s = .inr r) ∨
        ∃ t b, openTurn d mem mode flags s = .inl t ∧ Follows d cl mode flags a b ∧ OpenAt d cl path t b := by
      rintro ⟨q, c⟩ a ⟨rfl, hsame, hreach⟩
      obtain ⟨t, c', hturn, hkeys, ht, hgo⟩ | ⟨out, hturn, -⟩ :=
        h.openTurn_cases mem mode hsame hpath hreach hno
      · exact .inr ⟨_, t, hturn, ⟨ht, hgo⟩, ⟨rfl, hkeys, hreach.tail ht⟩⟩
      · exact .inl ⟨out, hturn⟩
    have hfin : {q | ReflTransGen (Follows d cl mode flags) path q}.Finite :=
      (h.reach_finite hpath).subset fun q hq => ReflTransGen.mono (fun _ _ hf => hf.1) _ _ hq
    have hacc := acc_of_not_circles hfin hcircles
    obtain ⟨⟨q, c⟩, b, out, -, ⟨rfl, hsame, hreach⟩, hlast, fuel, hends⟩ :=
      ends_of_acc hstep hacc (openAt_start d cl path)
    obtain ⟨t, c', hturn, -⟩ | ⟨out', hturn, hanswer, -⟩ :=
      h.openTurn_cases mem mode hsame hpath hreach hno
    · rw [hturn] at hlast
      cases hlast
    · rw [hturn] at hlast
      obtain rfl := Sum.inr.inj hlast
      refine ⟨fuel, out', fun n hn => ?_, hanswer⟩
      rw [gaofsOpen_turns, turns_mono hends hn]

end Open

section Runs

variable {d : SimpleHashDistributor} {cl : Cluster} {path : Path}

/-- Following links comes to its end, with the right answer, unless the links go round. An open
follows the links that do not refuse it. -/
theorem follow_links_iff (d : SimpleHashDistributor) (roots : UInt64 → Bytes) (rs : List Request)
    (hpath : isAbsolute path = true) :
    let cl := rs.foldl (serve d) (started roots)
    ((∃ fuel r, FileSizes.getMetadataFollow (stores d cl) fuel path = some r ∧ Answer d cl path r) ↔
        ¬ Circles (LinksTo d cl) path) ∧
      ∀ mem mode flags, hasFlag flags O_NOFOLLOW = false →
        ((∃ fuel out, (∀ n, fuel ≤ n → gaofsOpen d mem mode flags n path cl = out) ∧
            OpenAnswer d cl mem mode flags path out) ↔ ¬ Circles (Follows d cl mode flags) path) := by
  intro cl
  have hlinked := linked_run d roots rs
  exact ⟨hlinked.getMetadataFollow_iff hpath, fun _ _ _ hno => hlinked.gaofsOpen_iff hpath hno⟩

theorem linksTo_mkSymlink (p : KeyPath) (targetPath : NulFree) (absolute : isAbsolute targetPath.1 = true)
    (habsent : ((cl (metadataHost d p.path)).store p.path).key = Key.absent) :
    LinksTo d (serve d cl (.mkSymlink p targetPath absolute)) p.path targetPath.1 := by
  have hput := key_putStore_path d cl p.path
    (rpcSrvMkSymlink ((cl (metadataHost d p.path)).store p.path) targetPath).2 p.absolute
  have hmake : (rpcSrvMkSymlink ((cl (metadataHost d p.path)).store p.path) targetPath).2.key =
      Key.absent.merge (.create ((linkMetadata targetPath).serialize config)) := by
    rw [rpcSrvMkSymlink, if_pos (.inr absolute), habsent]
    rfl
  rw [if_pos rfl, hmake] at hput
  refine ⟨((linkMetadata targetPath).kept config).kept config, ?_, isLink_mode, rfl⟩
  rw [Existing, serve, forwardMkSymlink, hput]
  exact getMetadata_created rfl

def oneHost : SimpleHashDistributor := ⟨fun _ => 0, 1, by decide⟩

def linkPath : KeyPath := ⟨text "/l", by decide, .inr (by decide), by decide +kernel⟩

def missingPath : NulFree := ⟨text "/f", by decide +kernel⟩

/-- The link `/l` to a target. -/
def linked (targetPath : NulFree) (absolute : isAbsolute targetPath.1 = true) : Cluster :=
  [Request.mkSymlink linkPath targetPath absolute].foldl (serve oneHost) (started fun _ => text "/r")

theorem linksTo_linked (targetPath : NulFree) (absolute : isAbsolute targetPath.1 = true) :
    LinksTo oneHost (linked targetPath absolute) (text "/l") targetPath.1 := by
  apply linksTo_mkSymlink linkPath targetPath absolute
  rw [Tree.key_started _ _ linkPath.absolute]
  exact if_neg (by decide)

/-- A link to itself. -/
theorem self_link_never_ends :
    let cl := linked ⟨linkPath.path, linkPath.clean⟩ linkPath.absolute
    (∀ fuel, FileSizes.getMetadataFollow (stores oneHost cl) fuel (text "/l") = none) ∧
      ∀ mem fuel, (gaofsOpen oneHost mem 0 0 fuel (text "/l") cl).1 = none := by
  intro cl
  have hlinked : Linked oneHost cl := linked_run _ _ _
  have hlink : LinksTo oneHost cl (text "/l") (text "/l") := linksTo_linked _ _
  have hgo : ¬ Refused oneHost cl 0 0 (text "/l") := by
    rintro (h | h | h | h)
    · exact absurd h (by decide)
    · exact absurd h (by decide)
    · exact absurd h.1 (by decide)
    · exact absurd h.1 (by decide)
  exact ⟨hlinked.getMetadataFollow_circles (by decide) ⟨_, .refl, .single hlink⟩,
    fun mem => hlinked.gaofsOpen_circles mem (by decide) (by decide) ⟨_, .refl, .single ⟨hlink, hgo⟩⟩⟩

/-- A link without a file behind it. -/
theorem dangling_link_ends :
    let cl := linked missingPath (by decide)
    (∃ fuel r, FileSizes.getMetadataFollow (stores oneHost cl) fuel (text "/l") = some r ∧
        Answer oneHost cl (text "/l") r) ∧
      ∃ fuel out, (∀ n, fuel ≤ n → gaofsOpen oneHost (fun _ => []) 0 0 n (text "/l") cl = out) ∧
        OpenAnswer oneHost cl (fun _ => []) 0 0 (text "/l") out := by
  intro cl
  obtain ⟨hget, hopen⟩ := follow_links_iff oneHost (fun _ => text "/r")
    [.mkSymlink linkPath missingPath (by decide)] (by decide : isAbsolute (text "/l") = true)
  have hlink : LinksTo oneHost cl (text "/l") (text "/f") := linksTo_linked _ _
  have hend : ∀ t, ¬ LinksTo oneHost cl (text "/f") t := by
    rintro t ⟨md, hmd, -⟩
    have hkey := key_putStore_path oneHost (started fun _ => text "/r") (text "/l")
      (rpcSrvMkSymlink ((started (fun _ => text "/r") (metadataHost oneHost (text "/l"))).store (text "/l"))
        missingPath).2 (by decide : isAbsolute (text "/f") = true)
    rw [if_neg (by decide), Tree.key_started _ _ (by decide), if_neg (by decide)] at hkey
    have habsent : ((cl (metadataHost oneHost (text "/f"))).store (text "/f")).key = Key.absent := hkey
    rw [Existing, habsent] at hmd
    cases hmd
  have hcircles : ¬ Circles (LinksTo oneHost cl) (text "/l") := by
    intro hcircles
    obtain ⟨t, ht, hcircles⟩ := hcircles.step
    obtain rfl := linksTo_unique _ _ _ hlink ht
    obtain ⟨t, ht, -⟩ := hcircles.step
    exact hend t ht
  exact ⟨hget.mpr hcircles,
    (hopen _ 0 0 (by decide)).mpr fun hfollows => hcircles (hfollows.mono fun _ _ h => h.1)⟩

end Runs

end GaoFS.FollowLinks
