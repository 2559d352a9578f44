import GaoFS.GaofsFunctions
import GaoFS.Library.RootedTree

namespace GaoFS.Tree

open Chunks Replies ChunkStorage DataOps MetadataRecord MetadataKey MetadataDB ForwardRemove Dirents
open Listing GaofsFunctions Library.NumberText Library.Runs Library.RootedTree

def rootDir : CanonicalPath := ⟨[], by simp⟩

/-- The namespace that clients see: a path exists if its metadata host has a
record of it, and `true` tells a directory. -/
def kindOf (d : SimpleHashDistributor) (cl : Cluster) (path : Path) : Option Bool :=
  if isAbsolute path then
    (recordAt ((cl (metadataHost d path)).store path).key).map fun md => S_ISDIR md.mode
  else none

/-- The root is a directory, and so is the parent of every other path that exists. -/
abbrev IsTree (d : SimpleHashDistributor) (cl : Cluster) : Prop :=
  Rooted [separator] dirname (kindOf d cl)

inductive Call where
  | create (p : CanonicalPath) (mode : UInt32)
  | openCreat (p : CanonicalPath) (mode flags : UInt32) (creat : hasFlag flags O_CREAT = true)
      (mem : UInt64 → Bytes) (fuel : Nat)
  | remove (p : CanonicalPath)
  | rmdir (p : CanonicalPath) (mem : UInt64 → Bytes)

def step (d : SimpleHashDistributor) (cl : Cluster) : Call → Cluster
  | .create p mode => (gaofsCreate d p.path cl mode).2
  | .openCreat p mode flags _ mem fuel => (gaofsOpen d mem mode flags fuel p.path cl).2
  | .remove p => (gaofsRemove d p.path cl).2
  | .rmdir p mem => (gaofsRmdir d p.path cl mem).2

/-- A state that calls of this kind reach: records of canonical paths, no data. -/
structure Fresh (d : SimpleHashDistributor) (cl : Cluster) : Prop where
  inv : Inv d cl
  plain : ∀ path md, isAbsolute path = true → Existing d cl path md →
    (∃ p : CanonicalPath, path = p.path) ∧ md.size = 0 ∧ S_ISLNK md.mode = false

/-- What a call does to the daemons: at most one entry changes, on its metadata
host. Only a `gaofs_rmdir` takes a directory away. -/
inductive Effect (d : SimpleHashDistributor) (cl : Cluster) : Call → Cluster → Prop
  | same {call : Call} : Effect d cl call cl
  | keep {call : Call} (p : CanonicalPath) {s : Store}
      (hkey : s.key = ((cl (metadataHost d p.path)).store p.path).key) :
      Effect d cl call (cl.putStore (metadataHost d p.path) p.path s)
  | create {call : Call} (p : CanonicalPath) {s : Store} {mode : UInt32}
      (hvalid : (S_ISDIR mode || S_ISREG mode) = true)
      (hkey : s.key = Key.absent.merge (.create ((Metadata.ofMode mode).serialize config)))
      (habsent : kindOf d cl p.path = none) (hparent : kindOf d cl (dirname p.path) = some true) :
      Effect d cl call (cl.putStore (metadataHost d p.path) p.path s)
  | remove {call : Call} (p : CanonicalPath) {s : Store} (hkey : s.key = Key.absent)
      (hkind : kindOf d cl p.path = some false) :
      Effect d cl call (cl.putStore (metadataHost d p.path) p.path s)
  | rmdir (p : CanonicalPath) (mem : UInt64 → Bytes) {s : Store} (hkey : s.key = Key.absent)
      (hempty : ∀ name md, ¬ Child d cl p.path name md) :
      Effect d cl (.rmdir p mem) (cl.putStore (metadataHost d p.path) p.path s)

/-- The root goes like any other directory without children. -/
def RemovesRoot (d : SimpleHashDistributor) (cl : Cluster) : Call → Prop
  | .rmdir p _ => p.path = [separator] ∧ ∀ name md, ¬ Child d cl [separator] name md
  | _ => False

section Paths

theorem path_of_ne {p : CanonicalPath} (h : p.components ≠ []) :
    p.path = p.components.flatMap (separator :: ·) := if_neg h

/-- A path other than the root is a directory path, a slash and a name. -/
theorem exists_snoc {p : CanonicalPath} (h : p.components ≠ []) :
    ∃ (dir : CanonicalPath) (name : Bytes), Component name ∧
      p.path = dir.components.flatMap (separator :: ·) ++ separator :: name := by
  have hsplit := List.dropLast_append_getLast h
  have hvalid : ∀ c ∈ p.components.dropLast, Component c := fun c hc =>
    p.valid c (List.mem_of_mem_dropLast hc)
  refine ⟨⟨p.components.dropLast, hvalid⟩, p.components.getLast h,
    p.valid _ (List.getLast_mem h), ?_⟩
  rw [path_of_ne h]
  conv_lhs => rw [← hsplit, List.flatMap_append, List.flatMap_singleton]

theorem dirname_snoc (dir : CanonicalPath) {name : Bytes} (hname : Component name) :
    dirname (dir.components.flatMap (separator :: ·) ++ separator :: name) = dir.path := by
  have hstop : (dir.components.flatMap (separator :: ·) ++ separator :: name).reverse.dropWhile
      (· != separator) = separator :: (dir.components.flatMap (separator :: ·)).reverse := by
    rw [List.reverse_append, List.reverse_cons, List.append_assoc, List.singleton_append,
      List.dropWhile_append_of_pos]
    · rw [List.dropWhile_cons_of_neg (by simp)]
    · intro b hb
      have hne : b ≠ separator := fun he => hname.no_separator (by
        rw [← he]
        exact List.mem_reverse.mp hb)
      simpa using hne
  simp only [dirname, hstop, List.drop_succ_cons, List.drop_zero, List.reverse_reverse]
  cases hc : dir.components with
  | nil =>
    simp only [List.flatMap_nil, List.isEmpty_nil, if_true, CanonicalPath.path, hc]
    rfl
  | cons c cs => simp [CanonicalPath.path, hc]

theorem not_trailing_snoc (pre : Bytes) {name : Bytes} (hname : Component name) :
    hasTrailingSlash (pre ++ separator :: name) = false := by
  obtain ⟨b, bs, hb⟩ := List.exists_cons_of_ne_nil hname.ne_nil
  have hlast : (pre ++ separator :: name).getLast? = name.getLast? := by
    rw [List.getLast?_append, hb, List.getLast?_cons_cons, List.getLast?_cons]
    rfl
  rw [hasTrailingSlash, hlast, List.getLast?_eq_some_getLast hname.ne_nil]
  have hne : name.getLast hname.ne_nil ≠ separator := fun he => hname.no_separator (by
    rw [← he]
    exact List.getLast_mem _)
  simpa using hne

theorem rootPath_path (dir : CanonicalPath) :
    rootPath dir.path = dir.components.flatMap (separator :: ·) ++ [separator] := by
  by_cases h : dir.components = []
  · simp [CanonicalPath.path, h, rootPath, hasTrailingSlash]
  · obtain ⟨up, name, hname, hpath⟩ := exists_snoc h
    have hlen : dir.path.length ≠ 1 := by
      have hpos := List.length_pos_of_ne_nil hname.ne_nil
      rw [hpath, List.length_append, List.length_cons]
      omega
    have hslash : hasTrailingSlash dir.path = false := by
      rw [hpath]
      exact not_trailing_snoc _ hname
    rw [rootPath, if_pos ⟨hslash, hlen⟩, ← path_of_ne h]

theorem path_eq_root_iff {p : CanonicalPath} : p.path = [separator] ↔ p.components = [] := by
  constructor
  · intro hpath
    by_contra h
    obtain ⟨dir, name, hname, hsnoc⟩ := exists_snoc h
    have hpos := List.length_pos_of_ne_nil hname.ne_nil
    have hlen := congrArg List.length (hsnoc.symm.trans hpath)
    rw [List.length_append, List.length_cons, List.length_singleton] at hlen
    omega
  · exact fun h => if_pos h

theorem clean_path (p : CanonicalPath) : ∀ b ∈ p.path, notNul b = true := by
  intro b hb
  rw [CanonicalPath.path] at hb
  split at hb
  · rw [List.mem_singleton.mp hb]
    rfl
  · obtain ⟨c, hc, hbc⟩ := List.mem_flatMap.mp hb
    cases List.mem_cons.mp hbc with
    | inl hsep => rw [hsep]; rfl
    | inr hmem =>
      have hne : b ≠ 0 := fun he => (p.valid c hc).no_nul (by rw [← he]; exact hmem)
      simpa [notNul] using hne

def keyPath (p : CanonicalPath) : KeyPath where
  path := p.path
  absolute := isAbsolute_path p
  slash := by
    by_cases h : p.components = []
    · exact .inl (if_pos h)
    · obtain ⟨dir, name, hname, hpath⟩ := exists_snoc h
      exact .inr (by rw [hpath]; exact not_trailing_snoc _ hname)
  clean := clean_path p

/-- The parent of a path has it as a child. -/
theorem dirname_spec {p : CanonicalPath} (h : p.path ≠ [separator]) :
    ∃ (dir : CanonicalPath) (name : Bytes), name ≠ [] ∧ separator ∉ name ∧
      dirname p.path = dir.path ∧ rootPath dir.path ++ name = p.path := by
  obtain ⟨dir, name, hname, hpath⟩ := exists_snoc fun hnil => h (path_eq_root_iff.mpr hnil)
  refine ⟨dir, name, hname.ne_nil, hname.no_separator, ?_, ?_⟩
  · rw [hpath, dirname_snoc dir hname]
  · rw [rootPath_path, hpath, List.append_assoc]
    rfl

end Paths

section Kinds

variable {d : SimpleHashDistributor} {cl : Cluster} {p : CanonicalPath}

theorem existing_iff {path : Path} {md : Metadata} :
    Existing d cl path md ↔ recordAt ((cl (metadataHost d path)).store path).key = some md :=
  recordAt_eq_some.symm

theorem key_putStore_at (cl : Cluster) (p : CanonicalPath) (s : Store) {q : Path}
    (hq : isAbsolute q = true) :
    ((cl.putStore (metadataHost d p.path) p.path s (metadataHost d q)).store q).key =
      if q = p.path then s.key else ((cl (metadataHost d q)).store q).key :=
  key_putStore_path d cl p.path s hq

theorem kindOf_putStore (cl : Cluster) (p : CanonicalPath) (s : Store) :
    kindOf d (cl.putStore (metadataHost d p.path) p.path s) =
      Function.update (kindOf d cl) p.path ((recordAt s.key).map fun md => S_ISDIR md.mode) := by
  funext q
  by_cases hq : isAbsolute q = true
  · by_cases hqp : q = p.path
    · subst hqp
      rw [Function.update_self, kindOf, if_pos hq, key_putStore_at cl p s hq, if_pos rfl]
    · rw [Function.update_of_ne hqp, kindOf, if_pos hq, key_putStore_at cl p s hq, if_neg hqp, kindOf,
        if_pos hq]
  · have hqp : q ≠ p.path := fun he => hq (by rw [he]; exact isAbsolute_path p)
    rw [Function.update_of_ne hqp, kindOf, if_neg hq, kindOf, if_neg hq]

theorem kindOf_path (d : SimpleHashDistributor) (cl : Cluster) (p : CanonicalPath) :
    kindOf d cl p.path =
      (recordAt ((cl (metadataHost d p.path)).store p.path).key).map fun md => S_ISDIR md.mode :=
  if_pos (isAbsolute_path p)

theorem recordAt_created (mode : UInt32) :
    recordAt (Key.absent.merge (.create ((Metadata.ofMode mode).serialize config))) =
      some (((Metadata.ofMode mode).kept config).kept config) :=
  recordAt_eq_some.mpr (getMetadata_recorded (recorded_created mode) (Nat.two_pow_pos 63))

theorem recordAt_absent : recordAt Key.absent = none := rfl

theorem Fresh.putStore (h : Fresh d cl) (p : CanonicalPath) {s : Store} (hgood : Good s)
    (hplain : ∀ md, recordAt s.key = some md → md.size = 0 ∧ S_ISLNK md.mode = false) :
    Fresh d (cl.putStore (metadataHost d p.path) p.path s) where
  inv := h.inv.putStore (keyOk_of_good (keyPath p) hgood)
  plain := by
    intro path md hpath hmd
    rw [existing_iff, key_putStore_at cl p s hpath] at hmd
    split at hmd
    · rename_i he
      exact ⟨⟨p, he⟩, hplain md hmd⟩
    · exact h.plain path md hpath (existing_iff.mpr hmd)

theorem good_created {s : Store} {mode : UInt32}
    (hkey : s.key = Key.absent.merge (.create ((Metadata.ofMode mode).serialize config))) : Good s := by
  refine .inr ⟨(Metadata.ofMode mode).kept config, ?_, Nat.two_pow_pos 63⟩
  rw [hkey]
  exact recorded_created mode

/-- A valid mode is not that of a link. -/
theorem not_link {mode : UInt32} (h : (S_ISDIR mode || S_ISREG mode) = true) : S_ISLNK mode = false := by
  rw [Bool.or_eq_true, S_ISDIR, S_ISREG, beq_iff_eq, beq_iff_eq] at h
  rw [S_ISLNK]
  cases h with
  | inl hdir => rw [hdir]; rfl
  | inr hreg => rw [hreg]; rfl

theorem Effect.fresh {call : Call} {cl' : Cluster} (h : Fresh d cl) (heff : Effect d cl call cl') :
    Fresh d cl' := by
  have hremove : ∀ (p : CanonicalPath) {s : Store}, s.key = Key.absent →
      Fresh d (cl.putStore (metadataHost d p.path) p.path s) := by
    intro p s hkey
    apply h.putStore p
    · exact .inl hkey
    · intro md hmd
      rw [hkey] at hmd
      cases hmd
  cases heff with
  | same => exact h
  | keep p hkey =>
    apply h.putStore p
    · have hgood := h.inv.good (metadataHost d p.path) (isAbsolute_path p)
      rw [Good, hkey]
      exact hgood
    · intro md hmd
      rw [hkey] at hmd
      exact (h.plain p.path md (isAbsolute_path p) (existing_iff.mpr hmd)).2
  | create p hvalid hkey habsent hparent =>
    apply h.putStore p
    · exact good_created hkey
    · intro md hmd
      rw [hkey, recordAt_created] at hmd
      obtain rfl := Option.some.inj hmd
      exact ⟨rfl, not_link hvalid⟩
  | remove p hkey hkind => exact hremove p hkey
  | rmdir p mem hkey hempty => exact hremove p hkey

end Kinds

section Calls

variable {d : SimpleHashDistributor} {cl : Cluster} {p : CanonicalPath} {path : Path} {md : Metadata}

theorem Fresh.recorded (h : Fresh d cl) (hpath : isAbsolute path = true) (hmd : Existing d cl path md) :
    ∃ md₀, Recorded ((cl (metadataHost d path)).store path).key md₀ ∧ md₀.size.toNat < 2 ^ 63 ∧
      md = md₀.kept config := by
  cases h.inv.good (metadataHost d path) hpath with
  | inl habs =>
    rw [Existing, habs] at hmd
    cases hmd
  | inr hrec =>
    obtain ⟨md₀, hrec, hlt⟩ := hrec
    rw [Existing, getMetadata_recorded hrec hlt] at hmd
    cases hmd
    exact ⟨md₀, hrec, hlt, rfl⟩

/-- A client reads the record that the metadata host has. -/
theorem Fresh.utilsGetMetadata_iff (h : Fresh d cl) (hpath : isAbsolute path = true) :
    utilsGetMetadata d path cl = some (.ok md) ↔ Existing d cl path md := by
  rw [Existing, utilsGetMetadata, forwardStat, rpcSrvStat]
  cases h.inv.good (metadataHost d path) hpath with
  | inl habs =>
    rw [habs]
    constructor <;> intro hmd <;> cases hmd
  | inr hrec =>
    obtain ⟨md₀, hrec, hlt⟩ := hrec
    rw [getMetadata_recorded hrec hlt, getStr_recorded hrec]
    simp [statErr, cString_serialize, decode_serialize config md₀ hlt]

theorem kindOf_existing (hpath : isAbsolute path = true) (hmd : Existing d cl path md) :
    kindOf d cl path = some (S_ISDIR md.mode) := by
  rw [kindOf, if_pos hpath, existing_iff.mp hmd]
  rfl

theorem createMode_valid {mode m : UInt32} (h : createMode mode = .ok m) :
    (S_ISDIR m || S_ISREG m) = true := by
  rw [createMode] at h
  split at h
  · rename_i hzero
    cases h
    have hkind : (mode ||| S_IFREG) &&& S_IFMT = S_IFREG := by
      apply UInt32.toNat_inj.mp
      rw [UInt32.toNat_and, UInt32.toNat_or, Nat.and_or_distrib_right, ← UInt32.toNat_and, hzero]
      decide
    rw [S_ISREG, hkind]
    exact Bool.or_true _
  · split at h
    · rename_i hkind
      cases h
      rw [Bool.or_eq_true, S_ISDIR, S_ISREG, beq_iff_eq, beq_iff_eq]
      exact hkind.symm
    · split at h <;> cases h

theorem Fresh.parent_kind (h : Fresh d cl) (hpath : isAbsolute (dirname path) = true)
    (hok : checkParentDir d path cl = some (.ok ())) : kindOf d cl (dirname path) = some true := by
  rw [checkParentDir, Option.map_eq_some_iff] at hok
  obtain ⟨r, hget, hr⟩ := hok
  cases r with
  | error e => cases hr
  | ok md =>
    have hmd := (h.utilsGetMetadata_iff hpath).mp hget
    rw [kindOf_existing hpath hmd]
    change (if S_ISDIR md.mode = true then Except.ok () else Except.error ENOTDIR) = _ at hr
    split at hr
    · rename_i hdir
      rw [hdir]
    · cases hr

theorem Fresh.effect_gaofsCreate (h : Fresh d cl) (call : Call) (p : CanonicalPath) (mode : UInt32) :
    Effect d cl call (gaofsCreate d p.path cl mode).2 := by
  rw [gaofsCreate]
  split
  · exact .same
  · rename_i m hmode
    split
    · exact .same
    · exact .same
    · rename_i hparent
      have hvalid := createMode_valid hmode
      change Effect d cl call (cl.putStore _ _ (rpcSrvCreate _ m).2)
      cases h.inv.good (metadataHost d p.path) (isAbsolute_path p) with
      | inl habs =>
        apply Effect.create p hvalid
        · exact congrArg (fun r => r.2.key) (rpcSrvCreate_absent habs hvalid)
        · rw [kindOf_path, habs, recordAt_absent, Option.map_none]
        · exact h.parent_kind (isAbsolute_dirname (isAbsolute_path p)) hparent
      | inr hrec =>
        obtain ⟨md, hrec, hlt⟩ := hrec
        apply Effect.keep p
        rw [rpcSrvCreate, if_pos hvalid, existsKey_recorded hrec]

/-- Files without data are removed with their entries. -/
theorem Fresh.forwardRemove_eq (h : Fresh d cl) (p : CanonicalPath) (hmd : Existing d cl p.path md) :
    (forwardRemove d p.path cl).2 = cl.putStore (metadataHost d p.path) p.path
      ⟨Key.absent, ((cl (metadataHost d p.path)).store p.path).data⟩ := by
  obtain ⟨md₀, hrec, hlt, rfl⟩ := h.recorded (isAbsolute_path p) hmd
  apply forwardRemove_no_data hrec hlt
  rintro ⟨-, hne⟩
  exact hne (h.plain p.path _ (isAbsolute_path p) hmd).2.1

theorem Fresh.effect_gaofsRemove (h : Fresh d cl) (call : Call) (p : CanonicalPath) :
    Effect d cl call (gaofsRemove d p.path cl).2 := by
  rw [gaofsRemove]
  split
  · exact .same
  · exact .same
  · rename_i md hget
    have hmd := (h.utilsGetMetadata_iff (isAbsolute_path p)).mp hget
    split
    · exact .same
    · rename_i hfile
      change Effect d cl call (forwardRemove d p.path cl).2
      rw [h.forwardRemove_eq p hmd]
      apply Effect.remove p rfl
      rw [kindOf_existing (isAbsolute_path p) hmd, Bool.eq_false_of_not_eq_true hfile]

theorem Fresh.effect_gaofsRmdir (h : Fresh d cl) (p : CanonicalPath) (mem : UInt64 → Bytes) :
    Effect d cl (.rmdir p mem) (gaofsRmdir d p.path cl mem).2 := by
  rw [gaofsRmdir]
  split
  · exact .same
  · exact .same
  · rename_i md hget
    have hmd := (h.utilsGetMetadata_iff (isAbsolute_path p)).mp hget
    split
    · exact .same
    · split
      · exact .same
      · rename_i err entries hlist
        split
        · exact .same
        · rename_i herr
          obtain rfl := not_not.mp herr
          split
          · exact .same
          · rename_i hlen
            change Effect d cl _ (forwardRemove d p.path cl).2
            rw [h.forwardRemove_eq p hmd]
            apply Effect.rmdir p mem rfl
            intro name md' hchild
            have hmem := (h.inv.mem_children (isAbsolute_path p)).mpr hchild
            have hnil := List.length_eq_zero_iff.mp (not_not.mp hlen)
            rw [h.inv.forwardGetDirents_ok (isAbsolute_path p) hlist, List.map_eq_nil_iff] at hnil
            rw [hnil] at hmem
            cases hmem

/-- What an open does after its create: there are no links to follow and no data to cut. -/
theorem Fresh.effect_gaofsOpen (h : Fresh d cl) (call : Call) (p : CanonicalPath) (mode flags : UInt32)
    (mem : UInt64 → Bytes) (fuel : Nat) :
    Effect d cl call (gaofsOpen d mem mode flags fuel p.path cl).2 := by
  cases fuel with
  | zero => exact .same
  | succ fuel =>
    rw [gaofsOpen]
    split
    · exact .same
    · split
      · exact .same
      · have hcreate : Effect d cl call (if hasFlag flags O_CREAT = true then
            if hasFlag flags O_DIRECTORY = true then ((some (.error ENOTSUP), cl) : Outcome Unit)
            else gaofsCreate d p.path cl (mode ||| S_IFREG)
          else (some (.error EEXIST), cl)).2 := by
          split
          · split
            · exact .same
            · exact h.effect_gaofsCreate call p _
          · exact .same
        generalize (if hasFlag flags O_CREAT = true then
          if hasFlag flags O_DIRECTORY = true then ((some (.error ENOTSUP), cl) : Outcome Unit)
          else gaofsCreate d p.path cl (mode ||| S_IFREG) else (some (.error EEXIST), cl)) = create
          at hcreate ⊢
        have hfresh := hcreate.fresh h
        dsimp only
        split
        · exact hcreate
        · exact hcreate
        · split
          · exact hcreate
          · split
            · exact hcreate
            · exact hcreate
            · rename_i md hget
              have hmd := (hfresh.utilsGetMetadata_iff (isAbsolute_path p)).mp hget
              obtain ⟨-, hsize, hlink⟩ := hfresh.plain p.path md (isAbsolute_path p) hmd
              rw [if_neg (by rw [hlink]; exact Bool.false_ne_true)]
              split
              · exact hcreate
              · split
                · exact hcreate
                · split
                  · have hcut : gaofsTruncate d p.path create.2 md.size.toInt64 0 (2 ^ 32 + 1) =
                        (some (.ok ()), create.2) := by
                      rw [hsize]
                      rfl
                    rw [hcut]
                    exact hcreate
                  · exact hcreate

/-- What one call can do. -/
theorem Fresh.effect (h : Fresh d cl) (call : Call) : Effect d cl call (step d cl call) := by
  cases call with
  | create p mode => exact h.effect_gaofsCreate _ p mode
  | openCreat p mode flags creat mem fuel => exact h.effect_gaofsOpen _ p mode flags mem fuel
  | remove p => exact h.effect_gaofsRemove _ p
  | rmdir p mem => exact h.effect_gaofsRmdir p mem

end Calls

section Run

variable {d : SimpleHashDistributor} {cl : Cluster}

theorem Effect.isTree {call : Call} {cl' : Cluster} (h : Fresh d cl) (htree : IsTree d cl)
    (hcall : ¬ RemovesRoot d cl call) (heff : Effect d cl call cl') : IsTree d cl' := by
  cases heff with
  | same => exact htree
  | keep p hkey =>
    rw [IsTree, kindOf_putStore, hkey, ← kindOf_path, Function.update_eq_self]
    exact htree
  | create p hvalid hkey habsent hparent =>
    rw [IsTree, kindOf_putStore, hkey, recordAt_created]
    exact htree.add habsent hparent _
  | remove p hkey hkind =>
    rw [IsTree, kindOf_putStore, hkey]
    exact htree.remove_file hkind
  | rmdir p mem hkey hempty =>
    rw [IsTree, kindOf_putStore, hkey]
    apply htree.remove
    · intro hroot
      exact hcall ⟨hroot, by rw [← hroot]; exact hempty⟩
    · intro q hq hkind hdir
      have habs : isAbsolute q = true := by
        by_contra habs
        exact hkind (if_neg habs)
      rw [kindOf, if_pos habs, ne_eq, Option.map_eq_none_iff] at hkind
      obtain ⟨md, hmd⟩ := Option.ne_none_iff_exists'.mp hkind
      obtain ⟨⟨p', rfl⟩, -⟩ := h.plain q md habs (existing_iff.mpr hmd)
      obtain ⟨dir, name, hne, hsep, hparent, hpath⟩ := dirname_spec hq
      refine hempty name md ⟨hne, hsep, ?_⟩
      rw [← hdir, hparent, hpath]
      exact existing_iff.mpr hmd

/-- Without children the root is removed, and then there is none. -/
theorem not_isTree_of_removesRoot {call : Call} (h : Fresh d cl) (htree : IsTree d cl)
    (hcall : RemovesRoot d cl call) : ¬ IsTree d (step d cl call) := by
  cases call with
  | create p mode => exact hcall.elim
  | openCreat p mode flags creat mem fuel => exact hcall.elim
  | remove p => exact hcall.elim
  | rmdir p mem =>
    obtain ⟨hroot, hempty⟩ := hcall
    have hkind := htree.root_dir
    rw [← hroot, kindOf_path] at hkind
    obtain ⟨md, hrec, hdir⟩ := Option.map_eq_some_iff.mp hkind
    have hmd := existing_iff.mpr hrec
    have hchildren : children d cl p.path = [] := by
      refine List.eq_nil_iff_forall_not_mem.mpr fun e he => ?_
      rw [hroot] at he
      exact hempty e.1 e.2 ((h.inv.mem_children rfl).mp he)
    have hlist : forwardGetDirents d p.path cl mem = some (0, []) := by
      rw [h.inv.forwardGetDirents_eq (isAbsolute_path p), hchildren]
      · rfl
      · intro k hk es hes
        rw [getDirents, getDirentsWith_eq _ (h.inv.readable k) (isAbsolute_path p),
          List.flatMap_eq_nil_iff.mp hchildren k hk] at hes
        cases hes
        exact Nat.zero_le _
    have hstep : step d cl (.rmdir p mem) = (forwardRemove d p.path cl).2 := by
      rw [step, gaofsRmdir, (h.utilsGetMetadata_iff (isAbsolute_path p)).mpr hmd]
      simp [hdir, hlist]
    intro htree'
    have hgone := htree'.root_dir
    rw [hstep, h.forwardRemove_eq p hmd, ← hroot, kindOf_putStore, Function.update_self] at hgone
    cases hgone

theorem key_started (roots : UInt64 → Bytes) (k : UInt64) {q : Path} (hq : isAbsolute q = true) :
    ((started roots k).store q).key = if q = [separator] then
      Key.absent.merge (.create ((Metadata.ofMode rootMode).serialize config)) else Key.absent := by
  change ((startedHost (roots k)).mdb.key q) = _
  rw [startedHost, key_putStore, if_neg (firstChunkKey_ne_absolute hq), key_create_root]
  rfl

theorem fresh_started (d : SimpleHashDistributor) (roots : UInt64 → Bytes) : Fresh d (started roots) where
  inv := inv_started d roots
  plain := by
    intro path md hpath hmd
    rw [existing_iff, key_started roots _ hpath] at hmd
    split at hmd
    · rename_i hroot
      rw [recordAt_created] at hmd
      obtain rfl := Option.some.inj hmd
      exact ⟨⟨rootDir, hroot⟩, rfl, by decide⟩
    · cases hmd

theorem isTree_started (d : SimpleHashDistributor) (roots : UInt64 → Bytes) :
    IsTree d (started roots) where
  root_dir := by
    have hroot : isAbsolute [separator] = true := rfl
    rw [kindOf, if_pos hroot, key_started roots _ hroot, if_pos rfl, recordAt_created]
    rfl
  parent_dir := by
    intro p hp hkind
    rw [kindOf] at hkind
    split at hkind
    · rename_i habs
      rw [key_started roots _ habs, if_neg hp] at hkind
      exact absurd rfl hkind
    · exact absurd rfl hkind

/-- A run keeps a tree exactly if none of its steps removes the root, which an
`rmdir` of an empty root does. -/
theorem tree_iff (d : SimpleHashDistributor) (roots : UInt64 → Bytes) (calls : List Call) :
    (∀ run, run <+: calls → IsTree d (run.foldl (step d) (started roots))) ↔
      AllSteps (step d) (fun cl call => ¬ RemovesRoot d cl call) (started roots) calls := by
  rw [← forall_prefix_iff (I := fun cl => Fresh d cl ∧ IsTree d cl)]
  · have hfresh : ∀ run : List Call, Fresh d (run.foldl (step d) (started roots)) := fun run =>
      invariant_foldl (fun cl call h => (h.effect call).fresh h) run (fresh_started d roots)
    exact forall₂_congr fun run _ => ⟨fun h => ⟨hfresh run, h⟩, And.right⟩
  · rintro cl call ⟨h, htree⟩
    constructor
    · exact fun h' hcall => not_isTree_of_removesRoot h htree hcall h'.2
    · exact fun hcall => ⟨(h.effect call).fresh h, (h.effect call).isTree h htree hcall⟩
  · exact ⟨fresh_started d roots, isTree_started d roots⟩

end Run

/-- The first call of a run can take the root away. -/
theorem rmdir_root_breaks_tree :
    ¬ ∀ run, run <+: [Call.rmdir rootDir fun _ => []] →
      IsTree twoHosts (run.foldl (step twoHosts) (started fun _ => text "/r")) := by
  intro h
  have hroot := (h _ List.prefix_rfl).root_dir
  revert hroot
  decide +kernel

end GaoFS.Tree
