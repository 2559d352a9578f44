import GaoFS.MetadataDB
import GaoFS.ForwardData

namespace GaoFS.ForwardRemove

open Arithmetic Chunks Replies ChunkStorage DataOps MetadataRecord MetadataKey MetadataDB ForwardData
open Library.NumberText

def rpcSrvRemoveData (rootPath : Bytes) (path : Path) (s : Store) : Option Int32 × Store :=
  match destroyChunkSpace rootPath path s.data.fs with
  | none => (none, { s with data := { s.data with firstChunk := none } })
  | some (r, fs) => (some (removeErr r), { s with data := ⟨none, fs⟩ })

/-- The hosts that get a `remove_data` message. Those of a small file come from
its chunks, less the metadata host, which has removed its part already. -/
def removeTargets (d : SimpleHashDistributor) (path : Path) (size : Int64) : List UInt64 :=
  if (size / chunksize.toInt64).toUInt64 < d.hostsSize.toUInt64 then
    (((chnkIds 0 (size / chunksize.toInt64).toUInt64).map (target d path)).filter
      (· ≠ metadataHost d path)).dedup
  else allHosts d

/-- One message and its reply. A reply that cannot be had counts as `EBUSY`. -/
def postRemoveData (path : Path) (s : Int32 × Cluster) (k : UInt64) : Int32 × Cluster :=
  let out := rpcSrvRemoveData (s.2 k).rootPath path ((s.2 k).store path)
  (match out.1 with
    | none => EBUSY
    | some err => if err ≠ 0 then err else s.1, s.2.putStore k path out.2)

def forwardRemove (d : SimpleHashDistributor) (path : Path) (cl : Cluster) : Int32 × Cluster :=
  let m := metadataHost d path
  let out := rpcSrvRemoveMetadata (cl m).rootPath path ((cl m).store path)
  let cl := cl.putStore m path out.2
  match out.1 with
  | none => (EBUSY, cl)
  | some out =>
    if out.err ≠ 0 then (out.err, cl)
    else if S_ISREG out.mode = true ∧ out.size ≠ 0 then
      (removeTargets d path out.size).foldl (postRemoveData path) (0, cl)
    else (0, cl)

/-- A host stores a chunk of a file: the first-chunk record, or a chunk file. -/
def Holds (h : Host) (path : Path) (c : UInt64) : Prop :=
  c = 0 ∧ (h.store path).data.firstChunk ≠ none ∨
    ∃ dir, chunkDir h.rootPath path = some dir ∧ chunkFile h.fs dir c ≠ none

/-- Each stored chunk lies on the host that its id hashes to and begins before
the end of the file. -/
def Placed (d : SimpleHashDistributor) (path : Path) (size : Nat) (cl : Cluster) : Prop :=
  ∀ k ∈ allHosts d, ∀ c, Holds (cl k) path c → k = target d path c ∧ c.toNat * C < size

/-- Storage without the chunks of a file, whose entry is `key`. -/
def Host.clear (h : Host) (path : Path) (dir : Bytes) (key : Key) : Host :=
  h.putStore path ⟨key, ⟨none, Function.update h.fs dir none⟩⟩

section Hosts

variable {path : Path} {h : Host} {dir : Bytes}

theorem chunkDir_isSome (r r' : Bytes) (path : Path) :
    (chunkDir r path).isSome = (chunkDir r' path).isSome := by
  simp only [chunkDir, absolute]
  split
  · split <;> rfl
  · rfl

theorem rpcSrvRemoveData_eq {r : Bytes} (hdir : chunkDir r path = some dir) (s : Store) :
    rpcSrvRemoveData r path s = (some 0, ⟨s.key, ⟨none, Function.update s.data.fs dir none⟩⟩) := by
  simp only [rpcSrvRemoveData, destroyChunkSpace, hdir, Option.map_some]
  rfl

theorem not_holds_clear (hdir : chunkDir h.rootPath path = some dir) (key : Key) (c : UInt64) :
    ¬ Holds (Host.clear h path dir key) path c := by
  rintro (⟨-, hfirst⟩ | ⟨dir', hdir', hfile⟩)
  · exact hfirst (by rw [Host.clear, store_putStore])
  · have heq : dir' = dir := Option.some.inj (hdir'.symm.trans hdir)
    subst heq
    exact hfile (by simp [Host.clear, Host.putStore, chunkFile])

end Hosts

section Broadcast

variable {path : Path} {dirs : UInt64 → Bytes}

/-- The messages clear the hosts that they go to, and no other. -/
theorem foldl_postRemoveData (cl : Cluster)
    (hdirs : ∀ k, chunkDir (cl k).rootPath path = some (dirs k)) (ts : List UInt64) (hts : ts.Nodup) :
    ts.foldl (postRemoveData path) (0, cl) =
      (0, fun k => if k ∈ ts then Host.clear (cl k) path (dirs k) ((cl k).store path).key else cl k) := by
  induction ts generalizing cl with
  | nil => simp
  | cons t ts ih =>
    obtain ⟨hnot, hts⟩ := List.nodup_cons.mp hts
    have hpost : postRemoveData path (0, cl) t =
        (0, Function.update cl t (Host.clear (cl t) path (dirs t) ((cl t).store path).key)) := by
      simp only [postRemoveData, rpcSrvRemoveData_eq (hdirs t)]
      rfl
    rw [List.foldl_cons, hpost, ih _ _ hts]
    · refine congrArg (Prod.mk 0) (funext fun k => ?_)
      by_cases hk : k = t
      · subst hk
        simp [hnot]
      · simp [hk]
    · intro k
      by_cases hk : k = t
      · subst hk
        simpa [Host.clear, Host.putStore] using hdirs k
      · simpa [hk] using hdirs k

end Broadcast

section Targets

variable {d : SimpleHashDistributor} {path : Path}

theorem toNat_lastChunk {size : UInt64} (h : size.toNat < 2 ^ 63) :
    (size.toInt64 / chunksize.toInt64).toUInt64.toNat = size.toNat / C := by
  have hsize : size.toInt64.toInt = size.toNat := by
    rw [toInt_eq_toNat (by rw [UInt64.toUInt64_toInt64]; exact h), UInt64.toUInt64_toInt64]
  have hdiv : (size.toInt64 / chunksize.toInt64).toInt = (size.toNat / C : Nat) := by
    rw [Int64.toInt_div_of_ne_right _ _ (by decide), hsize]
    rfl
  have hnonneg : 0 ≤ size.toInt64 / chunksize.toInt64 := by
    rw [Int64.le_iff_toInt_le, hdiv]
    exact Int.natCast_nonneg _
  rw [toInt_of_nonneg hnonneg] at hdiv
  exact Int.ofNat_inj.mp hdiv

theorem nodup_removeTargets (size : Int64) : (removeTargets d path size).Nodup := by
  rw [removeTargets]
  split
  · exact List.nodup_dedup _
  · exact nodup_allHosts d

/-- The two choices of hosts reach every host of a chunk before the end of the
file, the metadata host aside. -/
theorem target_mem_removeTargets {size c : UInt64} (hsize : size.toNat < 2 ^ 63)
    (hc : c.toNat * C < size.toNat) (hall : target d path c ∈ allHosts d)
    (hne : target d path c ≠ metadataHost d path) :
    target d path c ∈ removeTargets d path size.toInt64 := by
  rw [removeTargets]
  split
  · have hle : c.toNat ≤ size.toNat / C := (Nat.le_div_iff_mul_le C_pos).mpr hc.le
    have hid : c ∈ chnkIds 0 (size.toInt64 / chunksize.toInt64).toUInt64 := by
      refine List.mem_map.mpr ⟨c.toNat, List.mem_range'_1.mpr ⟨Nat.zero_le _, ?_⟩, UInt64.ofNat_toNat⟩
      rw [toNat_lastChunk hsize, UInt64.toNat_zero]
      omega
    apply List.mem_dedup.mpr
    exact List.mem_filter.mpr ⟨List.mem_map_of_mem hid, decide_eq_true hne⟩
  · exact hall

end Targets

/-- Nothing of another path has changed on a host. -/
structure Frame (path : Path) (h h' : Host) : Prop where
  rootPath : h'.rootPath = h.rootPath
  dirs : ∀ dir, chunkDir h.rootPath path ≠ some dir → h'.fs dir = h.fs dir
  others : ∀ q, isAbsolute q = true → q ≠ path → (h'.store q).key = (h.store q).key ∧
    (h'.store q).data.firstChunk = (h.store q).data.firstChunk

/-- What a successful remove of `path` has done to the cluster. -/
structure Removed (d : SimpleHashDistributor) (path : Path) (cl cl' : Cluster) : Prop where
  chunks : ∀ k ∈ allHosts d, ∀ c, ¬ Holds (cl' k) path c
  key : ∀ k, ((cl' k).store path).key =
    if k = metadataHost d path then Key.absent else ((cl k).store path).key
  frame : ∀ k, Frame path (cl k) (cl' k)

section Remove

variable {d : SimpleHashDistributor} {p : CanonicalPath} {cl : Cluster} {md : Metadata}

theorem Frame.refl (path : Path) (h : Host) : Frame path h h :=
  ⟨rfl, fun _ _ => rfl, fun _ _ _ => ⟨rfl, rfl⟩⟩

theorem Frame.trans {path : Path} {h h' h'' : Host} (h1 : Frame path h h') (h2 : Frame path h' h'') :
    Frame path h h'' where
  rootPath := h2.rootPath.trans h1.rootPath
  dirs dir hdir := by
    rw [h2.dirs dir (by rw [h1.rootPath]; exact hdir), h1.dirs dir hdir]
  others q hq hne :=
    ⟨(h2.others q hq hne).1.trans (h1.others q hq hne).1,
      (h2.others q hq hne).2.trans (h1.others q hq hne).2⟩

theorem frame_putStore (h : Host) {s : Store} (hfs : ∀ dir, chunkDir h.rootPath p.path ≠ some dir →
    s.data.fs dir = h.fs dir) : Frame p.path h (h.putStore p.path s) where
  rootPath := rfl
  dirs := hfs
  others _ hq hne :=
    ⟨key_putStore_of_ne h s hq hne, firstChunk_putStore_of_ne h s (isAbsolute_path p) hne⟩

theorem frame_clear {h : Host} {dir : Bytes} (hdir : chunkDir h.rootPath p.path = some dir)
    (key : Key) : Frame p.path h (Host.clear h p.path dir key) := by
  apply frame_putStore
  intro dir' hne
  exact Function.update_of_ne (fun he => hne (by rw [he]; exact hdir)) _ _

theorem holds_putStore {h : Host} {path : Path} {key : Key} {c : UInt64}
    (hc : Holds (h.putStore path ⟨key, (h.store path).data⟩) path c) : Holds h path c := by
  rw [Holds, store_putStore] at hc
  exact hc

theorem forwardRemove_overflow (hrec : Recorded ((cl (metadataHost d p.path)).store p.path).key md)
    (hsize : 2 ^ 63 ≤ md.size.toNat) : (forwardRemove d p.path cl).1 = EBUSY := by
  simp only [forwardRemove, rpcSrvRemoveMetadata, getMetadata_overflow hrec hsize]
  rfl

/-- Without data the entry is all there is to remove. -/
theorem forwardRemove_no_data (hrec : Recorded ((cl (metadataHost d p.path)).store p.path).key md)
    (hsize : md.size.toNat < 2 ^ 63) (hno : ¬ (S_ISREG md.mode = true ∧ md.size ≠ 0)) :
    (forwardRemove d p.path cl).2 = cl.putStore (metadataHost d p.path) p.path
      ⟨Key.absent, ((cl (metadataHost d p.path)).store p.path).data⟩ := by
  have hno' : ¬ (S_ISREG (md.kept config).mode = true ∧ (md.kept config).size ≠ 0) := hno
  have hzero : ¬ (S_ISREG (md.kept config).mode = true ∧ (md.kept config).size.toInt64 ≠ 0) := by
    rintro ⟨hreg, hne⟩
    exact hno ⟨hreg, fun h0 => hne (by rw [show (md.kept config).size = md.size from rfl, h0]; rfl)⟩
  simp only [forwardRemove, rpcSrvRemoveMetadata, getMetadata_recorded hrec hsize, removeLocalData,
    if_neg hno', removeErr_ok, ne_eq, not_true_eq_false, if_false, if_neg hzero]

theorem forwardRemove_trapped (hrec : Recorded ((cl (metadataHost d p.path)).store p.path).key md)
    (hsize : md.size.toNat < 2 ^ 63) (hdata : S_ISREG md.mode = true ∧ md.size ≠ 0)
    (hdir : chunkDir (cl (metadataHost d p.path)).rootPath p.path = none) :
    (forwardRemove d p.path cl).1 = EBUSY := by
  have hdata' : S_ISREG (md.kept config).mode = true ∧ (md.kept config).size ≠ 0 := hdata
  simp only [forwardRemove, rpcSrvRemoveMetadata, getMetadata_recorded hrec hsize, removeLocalData,
    if_pos hdata', destroyChunkSpace, hdir, Option.map_none]

theorem forwardRemove_data (hrec : Recorded ((cl (metadataHost d p.path)).store p.path).key md)
    (hsize : md.size.toNat < 2 ^ 63) (hdata : S_ISREG md.mode = true ∧ md.size ≠ 0)
    {dir : Bytes} (hdir : chunkDir (cl (metadataHost d p.path)).rootPath p.path = some dir) :
    forwardRemove d p.path cl =
      (removeTargets d p.path md.size.toInt64).foldl (postRemoveData p.path)
        (0, Function.update cl (metadataHost d p.path)
          (Host.clear (cl (metadataHost d p.path)) p.path dir Key.absent)) := by
  have hdata' : S_ISREG (md.kept config).mode = true ∧ (md.kept config).size ≠ 0 := hdata
  have hne : (md.kept config).size.toInt64 ≠ 0 := by
    intro h0
    have hword := congrArg Int64.toUInt64 h0
    rw [UInt64.toUInt64_toInt64] at hword
    exact hdata.2 hword
  simp only [forwardRemove, rpcSrvRemoveMetadata, getMetadata_recorded hrec hsize, removeLocalData,
    if_pos hdata', destroyChunkSpace, hdir, Option.map_some, removeErr_ok, ne_eq, not_true_eq_false,
    if_false, if_pos (And.intro hdata'.1 hne)]
  rfl

/-- The metadata host is cleared first, then the targets. -/
theorem removed_of_targets {ts : List UInt64} {dirs : UInt64 → Bytes}
    (hdirs : ∀ k, chunkDir (cl k).rootPath p.path = some (dirs k)) (hts : ts.Nodup)
    (hall : ∀ k ∈ allHosts d, ∀ c, Holds (cl k) p.path c → k ∈ ts ∨ k = metadataHost d p.path) :
    Removed d p.path cl (ts.foldl (postRemoveData p.path)
      (0, Function.update cl (metadataHost d p.path) (Host.clear (cl (metadataHost d p.path)) p.path
        (dirs (metadataHost d p.path)) Key.absent))).2 := by
  generalize hcl : Function.update cl (metadataHost d p.path) (Host.clear (cl (metadataHost d p.path))
    p.path (dirs (metadataHost d p.path)) Key.absent) = cl1
  have hm : cl1 (metadataHost d p.path) = Host.clear (cl (metadataHost d p.path)) p.path
      (dirs (metadataHost d p.path)) Key.absent := by
    rw [← hcl, Function.update_self]
  have hother : ∀ k, k ≠ metadataHost d p.path → cl1 k = cl k := by
    intro k hk
    rw [← hcl, Function.update_of_ne hk]
  have hframe : ∀ k, Frame p.path (cl k) (cl1 k) := by
    intro k
    by_cases hk : k = metadataHost d p.path
    · rw [hk, hm]
      exact frame_clear (hdirs _) _
    · rw [hother k hk]
      exact Frame.refl _ _
  have hdirs1 : ∀ k, chunkDir (cl1 k).rootPath p.path = some (dirs k) := by
    intro k
    rw [(hframe k).rootPath]
    exact hdirs k
  have hkey : ∀ k, ((cl1 k).store p.path).key =
      if k = metadataHost d p.path then Key.absent else ((cl k).store p.path).key := by
    intro k
    split
    · rename_i hk
      rw [hk, hm, Host.clear, store_putStore]
    · rename_i hk
      rw [hother k hk]
  rw [foldl_postRemoveData cl1 hdirs1 ts hts]
  refine ⟨fun k hk c => ?_, fun k => ?_, fun k => ?_⟩
  · change ¬ Holds (if k ∈ ts then _ else _) p.path c
    split
    · exact not_holds_clear (hdirs1 k) _ c
    · rename_i hno
      by_cases hkm : k = metadataHost d p.path
      · rw [hkm, hm]
        exact not_holds_clear (hdirs _) _ c
      · rw [hother k hkm]
        exact fun hc => (hall k hk c hc).elim hno hkm
  · rw [← hkey]
    change ((if k ∈ ts then _ else _ : Host).store p.path).key = _
    split
    · rw [Host.clear, store_putStore]
    · rfl
  · change Frame p.path (cl k) (if k ∈ ts then _ else _)
    split
    · exact (hframe k).trans (frame_clear (hdirs1 k) _)
    · exact hframe k

theorem removed_of_no_data (hno : ∀ k ∈ allHosts d, ∀ c, ¬ Holds (cl k) p.path c) :
    Removed d p.path cl (cl.putStore (metadataHost d p.path) p.path
      ⟨Key.absent, ((cl (metadataHost d p.path)).store p.path).data⟩) := by
  refine ⟨fun k hk c => ?_, fun k => ?_, fun k => ?_⟩ <;>
    by_cases hm : k = metadataHost d p.path
  · subst hm
    rw [Cluster.putStore, Function.update_self]
    exact fun hc => hno _ hk c (holds_putStore hc)
  · rw [Cluster.putStore, Function.update_of_ne hm]
    exact hno k hk c
  · subst hm
    rw [Cluster.putStore, Function.update_self, store_putStore, if_pos rfl]
  · rw [Cluster.putStore, Function.update_of_ne hm, if_neg hm]
  · subst hm
    rw [Cluster.putStore, Function.update_self]
    exact frame_putStore _ fun _ _ => rfl
  · rw [Cluster.putStore, Function.update_of_ne hm]
    exact Frame.refl _ _

/-- A remove that returns 0 leaves no chunk of the path on any host and takes its
entry from the metadata host, while nothing of another path changes. -/
theorem forwardRemove_clears (d : SimpleHashDistributor) (p : CanonicalPath) (cl : Cluster)
    (hrec : Recorded ((cl (metadataHost d p.path)).store p.path).key md)
    (hplaced : Placed d p.path md.size.toNat cl)
    (hreg : S_ISREG md.mode = true ∨ ∀ k ∈ allHosts d, ∀ c, ¬ Holds (cl k) p.path c)
    (hret : (forwardRemove d p.path cl).1 = 0) :
    Removed d p.path cl (forwardRemove d p.path cl).2 := by
  have hsize : md.size.toNat < 2 ^ 63 := by
    by_contra hlarge
    rw [forwardRemove_overflow hrec (by omega)] at hret
    exact absurd hret (by decide)
  by_cases hdata : S_ISREG md.mode = true ∧ md.size ≠ 0
  · cases hdir : chunkDir (cl (metadataHost d p.path)).rootPath p.path with
    | none =>
      rw [forwardRemove_trapped hrec hsize hdata hdir] at hret
      exact absurd hret (by decide)
    | some dir =>
      have hdirs : ∀ k, ∃ dir, chunkDir (cl k).rootPath p.path = some dir := by
        intro k
        have hsome := chunkDir_isSome (cl k).rootPath (cl (metadataHost d p.path)).rootPath p.path
        rw [hdir] at hsome
        exact Option.isSome_iff_exists.mp hsome
      choose dirs hdirs using hdirs
      obtain rfl : dir = dirs (metadataHost d p.path) := Option.some.inj (hdir.symm.trans (hdirs _))
      rw [forwardRemove_data hrec hsize hdata hdir]
      apply removed_of_targets hdirs (nodup_removeTargets _)
      intro k hk c hc
      obtain ⟨rfl, hlt⟩ := hplaced k hk c hc
      by_cases hm : target d p.path c = metadataHost d p.path
      · exact .inr hm
      · exact .inl (target_mem_removeTargets hsize hlt hk hm)
  · rw [forwardRemove_no_data hrec hsize hdata]
    apply removed_of_no_data
    cases hreg with
    | inl hmode =>
      have hzero : md.size = 0 := by_contra fun hne => hdata ⟨hmode, hne⟩
      intro k hk c hc
      have hlt := (hplaced k hk c hc).2
      rw [hzero, UInt64.toNat_zero] at hlt
      exact absurd hlt (Nat.not_lt_zero _)
    | inr hno => exact hno

end Remove

def emptyHost : Host := ⟨text "/r", Mdb.empty, fun _ => none⟩

def letterFile : CanonicalPath := ⟨[text "d"], by decide⟩

/-- A path with one byte of data and an entry of the given mode. -/
def oneByte (mode : UInt32) : Store where
  key := (Key.absent.merge (.create ((Metadata.ofMode mode).serialize config))).merge
    (.increaseSize 1 false)
  data := ⟨some (FirstChunkRecord.recordOf [7]), fun _ => none⟩

def oneByteTwo (mode : UInt32) : Cluster :=
  Cluster.putStore (fun _ => emptyHost) (metadataHost twoHosts letterFile.path) letterFile.path
    (oneByte mode)

/-- Without chunk files a host holds a first-chunk record at most. -/
theorem Holds.first {h : Host} {path : Path} {c : UInt64} (hfs : h.fs = fun _ => none) (hc : Holds h path c) :
    c = 0 ∧ (h.store path).data.firstChunk ≠ none := by
  obtain hfirst | ⟨dir, -, hfile⟩ := hc
  · exact hfirst
  · rw [hfs] at hfile
    exact absurd rfl hfile

theorem placed_oneByte (mode : UInt32) : Placed twoHosts letterFile.path 1 (oneByteTwo mode) := by
  intro k hk c hc
  rw [oneByteTwo, Cluster.putStore] at hc
  by_cases hm : k = metadataHost twoHosts letterFile.path
  · subst hm
    rw [Function.update_self] at hc
    obtain ⟨rfl, -⟩ := hc.first rfl
    decide
  · rw [Function.update_of_ne hm] at hc
    exact absurd rfl (hc.first rfl).2

def apartFile : CanonicalPath := ⟨[text "a"], by decide⟩

/-- A file of one byte, with the entry on one host and the first chunk on the other. -/
def oneByteApart : Cluster :=
  Cluster.putStore
    (Cluster.putStore (fun _ => emptyHost) 1 apartFile.path ⟨(oneByte 0o100644).key, none, fun _ => none⟩)
    0 apartFile.path ⟨Key.absent, (oneByte 0o100644).data⟩

theorem recorded_oneByteApart :
    Recorded ((oneByteApart (metadataHost twoHosts apartFile.path)).store apartFile.path).key
      (((Metadata.ofMode 0o100644).kept config).resized 1) := by
  have hhost : metadataHost twoHosts apartFile.path = 1 := by decide +kernel
  rw [hhost, oneByteApart, Cluster.putStore, Function.update_of_ne (by decide), Cluster.putStore,
    Function.update_self, store_putStore]
  exact (recorded_created 0o100644).merge (.increaseSize 1 false)

theorem placed_oneByteApart : Placed twoHosts apartFile.path 1 oneByteApart := by
  intro k hk c hc
  rw [oneByteApart, Cluster.putStore] at hc
  by_cases h0 : k = 0
  · subst h0
    rw [Function.update_self] at hc
    obtain ⟨rfl, -⟩ := hc.first rfl
    decide +kernel
  · rw [Function.update_of_ne h0, Cluster.putStore] at hc
    by_cases h1 : k = 1
    · subst h1
      rw [Function.update_self] at hc
      have hfirst := (hc.first rfl).2
      rw [store_putStore] at hfirst
      exact absurd rfl hfirst
    · rw [Function.update_of_ne h1] at hc
      exact absurd rfl (hc.first rfl).2

theorem forwardRemove_clears_oneByte :
    removeTargets twoHosts apartFile.path 1 = [0] ∧ Holds (oneByteApart 0) apartFile.path 0 ∧
      Removed twoHosts apartFile.path oneByteApart (forwardRemove twoHosts apartFile.path oneByteApart).2 :=
  ⟨by decide +kernel, .inl ⟨rfl, by decide +kernel⟩,
    forwardRemove_clears twoHosts apartFile _ recorded_oneByteApart placed_oneByteApart (.inl (by decide))
      (by decide +kernel)⟩

def startedTwo : Cluster := fun _ => startedHost (text "/r")

/-- Two removes that return 0 and leave something behind. The root has an entry on
each host and is removed from one; a directory keeps the chunk that it has. -/
theorem root_and_directory_remain :
    (Placed twoHosts [separator] 0 startedTwo ∧
      (forwardRemove twoHosts [separator] startedTwo).1 = 0 ∧ 0 ∈ allHosts twoHosts ∧
      (((forwardRemove twoHosts [separator] startedTwo).2 0).store [separator]).key ≠ Key.absent) ∧
    Placed twoHosts letterFile.path 1 (oneByteTwo 0o040755) ∧
      (forwardRemove twoHosts letterFile.path (oneByteTwo 0o040755)).1 = 0 ∧ 0 ∈ allHosts twoHosts ∧
      Holds ((forwardRemove twoHosts letterFile.path (oneByteTwo 0o040755)).2 0) letterFile.path 0 := by
  refine ⟨⟨?_, by decide +kernel, by decide, by decide +kernel⟩, placed_oneByte 0o040755,
    by decide +kernel, by decide, .inl ⟨rfl, by decide +kernel⟩⟩
  intro k hk c hc
  have hnone : ((startedTwo k).store [separator]).data.firstChunk = none := by
    change ((startedHost (text "/r")).store [separator]).data.firstChunk = none
    decide +kernel
  exact absurd hnone (hc.first rfl).2

end GaoFS.ForwardRemove
