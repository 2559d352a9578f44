import GaoFS.Dirents
import GaoFS.ForwardRemove

namespace GaoFS.Listing

open Chunks Replies ChunkStorage DataOps MetadataRecord MetadataKey MetadataDB ForwardData
open ForwardRemove Dirents Library.NumberText Library.OrderedMap Library.Runs

/-- A path that the daemon's assertions let through, sent as a C string. -/
structure KeyPath where
  path : Path
  absolute : isAbsolute path = true
  slash : path = [separator] ∨ hasTrailingSlash path = false
  clean : ∀ b ∈ path, notNul b = true

/-- The messages that create, remove and write, each at the host to which a client sends it. -/
inductive Message where
  | create (p : KeyPath) (mode : UInt32)
  | removeMetadata (p : KeyPath)
  | removeData (p : KeyPath) (host : UInt64)
  | writeFirstChunk (p : KeyPath) (buf : Bytes) (off : Nat)
  | updateMetadentrySize (p : KeyPath) (size : UInt64) (offset : Int64) (append : Bool)
  | decrSize (p : KeyPath) (length : UInt64)

def deliver (d : SimpleHashDistributor) (cl : Cluster) : Message → Cluster
  | .create p mode =>
    let k := metadataHost d p.path
    cl.putStore k p.path (rpcSrvCreate ((cl k).store p.path) mode).2
  | .removeMetadata p =>
    let k := metadataHost d p.path
    cl.putStore k p.path (rpcSrvRemoveMetadata (cl k).rootPath p.path ((cl k).store p.path)).2
  | .removeData p k =>
    cl.putStore k p.path (rpcSrvRemoveData (cl k).rootPath p.path ((cl k).store p.path)).2
  | .writeFirstChunk p buf off =>
    let k := target d p.path 0
    let s := (cl k).store p.path
    cl.putStore k p.path
      { s with data := ((writeFile (cl k).rootPath p.path s.data 0 buf off).map Prod.snd).getD s.data }
  | .updateMetadentrySize p size offset append =>
    let k := metadataHost d p.path
    cl.putStore k p.path (rpcSrvUpdateMetadentrySize ((cl k).store p.path) size offset append).2
  | .decrSize p length =>
    let k := metadataHost d p.path
    cl.putStore k p.path (rpcSrvDecrSize ((cl k).store p.path) length).2

/-- A message about a size finds a record, and leaves a size that can be read again. -/
def Message.Harmless (d : SimpleHashDistributor) (cl : Cluster) : Message → Prop
  | .updateMetadentrySize p size offset append =>
    MetadataKey.Harmless ((cl (metadataHost d p.path)).store p.path) (.updateMetadentrySize size offset append)
  | .decrSize p length => MetadataKey.Harmless ((cl (metadataHost d p.path)).store p.path) (.decrSize length)
  | _ => True

def started (roots : UInt64 → Bytes) : Cluster := fun k => startedHost (roots k)

/-- A path has a record on its metadata host. -/
def Existing (d : SimpleHashDistributor) (cl : Cluster) (path : Path) (md : Metadata) : Prop :=
  getMetadata ((cl (metadataHost d path)).store path).key = some (.ok md)

/-- What a host may hold under a key: nothing, the record of a path whose metadata
it keeps, or a first-chunk record. -/
inductive KeyOk (d : SimpleHashDistributor) (k : UInt64) (b : Bytes) : Key → Prop
  | absent : KeyOk d k b Key.absent
  | record (p : KeyPath) {v : Key} {md : Metadata} (hb : b = p.path)
      (hhost : k = metadataHost d b ∨ b = [separator]) (hv : Recorded v md)
      (hsize : md.size.toNat < 2 ^ 63) : KeyOk d k b v
  | firstChunk {q : Path} (hb : b = firstChunkKey q) (raw : Bytes) : KeyOk d k b ⟨some raw, []⟩

def Inv (d : SimpleHashDistributor) (cl : Cluster) : Prop := ∀ k b, KeyOk d k b ((cl k).mdb.key b)

section Invariant

variable {d : SimpleHashDistributor} {cl : Cluster} {k : UInt64}

theorem key_putStore (h : Host) (path : Path) (s : Store) (b : Bytes) :
    (h.putStore path s).mdb.key b = if b = firstChunkKey path then ⟨s.data.firstChunk, []⟩
      else if b = path then s.key else h.mdb.key b := by
  rw [Host.putStore, Mdb.key_putKey, Mdb.key_putKey]

theorem keyOk_putStore {h : Host} (hh : ∀ b, KeyOk d k b (h.mdb.key b)) {path : Path} {s : Store}
    (hs : KeyOk d k path s.key) (b : Bytes) : KeyOk d k b ((h.putStore path s).mdb.key b) := by
  rw [key_putStore]
  split
  · rename_i hb
    cases s.data.firstChunk with
    | none => exact .absent
    | some raw => exact .firstChunk hb raw
  · split
    · rename_i hb
      rw [hb]
      exact hs
    · exact hh b

theorem Inv.putStore (h : Inv d cl) {path : Path} {s : Store} (hs : KeyOk d k path s.key) :
    Inv d (cl.putStore k path s) := by
  intro k' b
  by_cases hk : k' = k
  · subst hk
    rw [Cluster.putStore, Function.update_self]
    exact keyOk_putStore (h k') hs b
  · rw [Cluster.putStore, Function.update_of_ne hk]
    exact h k' b

theorem Inv.good (h : Inv d cl) (k : UInt64) {path : Path} (hpath : isAbsolute path = true) :
    Good ((cl k).store path) := by
  have hkey : KeyOk d k path ((cl k).store path).key := h k path
  generalize ((cl k).store path) = s at hkey ⊢
  generalize hv : s.key = v at hkey
  cases hkey with
  | absent => exact .inl hv
  | record p hb hhost hrec hsize => exact .inr ⟨_, by rw [hv]; exact hrec, hsize⟩
  | firstChunk hb raw => exact absurd hb (firstChunkKey_ne_absolute hpath)

theorem keyOk_of_good (p : KeyPath) {s : Store} (hs : Good s) :
    KeyOk d (metadataHost d p.path) p.path s.key := by
  cases hs with
  | inl habs => rw [habs]; exact .absent
  | inr hrec =>
    obtain ⟨md, hmd, hlt⟩ := hrec
    exact .record p rfl (.inl rfl) hmd hlt

theorem good_create {s : Store} (hs : Good s) (mode : UInt32) : Good (rpcSrvCreate s mode).2 := by
  by_cases hvalid : (S_ISDIR mode || S_ISREG mode) = true
  · have hharm : MetadataKey.Harmless s (.create mode hvalid) := fun op hop => by cases hop
    have hstep : Good (step [] [] s (.create mode hvalid)) := hs.step hharm
    exact hstep
  · rw [rpcSrvCreate, if_neg hvalid]
    exact hs

theorem good_removeMetadata {s : Store} (hs : Good s) (rootPath : Bytes) (path : Path) :
    Good (rpcSrvRemoveMetadata rootPath path s).2 := by
  have hharm : MetadataKey.Harmless s .removeMetadata := fun op hop => by cases hop
  have hstep : Good (step rootPath path s .removeMetadata) := hs.step hharm
  exact hstep

theorem key_rpcSrvRemoveData (rootPath : Bytes) (path : Path) (s : Store) :
    (rpcSrvRemoveData rootPath path s).2.key = s.key := by
  rw [rpcSrvRemoveData]
  split <;> rfl

theorem Inv.deliver (h : Inv d cl) {msg : Message} (hmsg : msg.Harmless d cl) : Inv d (deliver d cl msg) := by
  cases msg with
  | create p mode => exact h.putStore (keyOk_of_good p (good_create (h.good _ p.absolute) mode))
  | removeMetadata p =>
    exact h.putStore (keyOk_of_good p (good_removeMetadata (h.good _ p.absolute) _ _))
  | removeData p k =>
    apply h.putStore
    rw [key_rpcSrvRemoveData]
    exact h k p.path
  | writeFirstChunk p buf off => exact h.putStore (h _ p.path)
  | updateMetadentrySize p size offset append =>
    have hgood : Good (step [] [] _ (.updateMetadentrySize size offset append)) := (h.good _ p.absolute).step hmsg
    exact h.putStore (keyOk_of_good p hgood)
  | decrSize p length =>
    have hgood : Good (step [] [] _ (.decrSize length)) := (h.good _ p.absolute).step hmsg
    exact h.putStore (keyOk_of_good p hgood)

def rootKey : KeyPath := ⟨[separator], rfl, .inl rfl, List.all_eq_true.mp rfl⟩

theorem inv_started (d : SimpleHashDistributor) (roots : UInt64 → Bytes) : Inv d (started roots) := by
  intro k b
  apply keyOk_putStore
  · exact fun b => .absent
  · rw [key_create_root]
    exact .record rootKey rfl (.inr rfl) (recorded_created rootMode) (Nat.two_pow_pos 63)

theorem inv_run (d : SimpleHashDistributor) (roots : UInt64 → Bytes) {msgs : List Message}
    (hmsgs : AllSteps (deliver d) (Message.Harmless d) (started roots) msgs) :
    Inv d (msgs.foldl (deliver d) (started roots)) :=
  hmsgs.invariant (fun _ _ h hmsg => h.deliver hmsg) (inv_started d roots)

theorem Inv.readable (h : Inv d cl) (k : UInt64) : Readable (cl k).mdb := by
  intro b v he
  obtain ⟨hv, hne⟩ := Mdb.mem_entries.mp he
  have hkey := h k b
  rw [hv] at hkey
  cases hkey with
  | absent => exact absurd rfl hne
  | record p hb hhost hrec hsize =>
    exact ⟨⟨_, getStr_recorded hrec⟩, fun _ => ⟨_, getMetadata_recorded hrec hsize⟩⟩
  | firstChunk hb raw =>
    refine ⟨⟨raw, rfl⟩, fun habs => ?_⟩
    rw [hb] at habs
    cases habs

/-- An entry of a listing has a clean name, and lies on the metadata host of its path. -/
theorem Inv.listed_at (h : Inv d cl) {dir : Path} (hdir : isAbsolute dir = true) {name : Bytes}
    {md : Metadata} (hmem : (name, md) ∈ visited (cl k).mdb (rootPath dir)) :
    (∀ b ∈ name, notNul b = true) ∧ k = metadataHost d (rootPath dir ++ name) := by
  obtain ⟨hne, hsep, hmd⟩ := mem_visited.mp hmem
  have habs := isAbsolute_of_prefix (isAbsolute_rootPath hdir) (List.prefix_append _ name)
  have hkey := h k (rootPath dir ++ name)
  generalize (cl k).mdb.key (rootPath dir ++ name) = v at hkey hmd
  generalize hb : rootPath dir ++ name = b at hkey habs
  cases hkey with
  | absent => cases hmd
  | record p hp hhost hrec hsize =>
    constructor
    · intro c hc
      apply p.clean
      rw [← hp, ← hb]
      exact List.mem_append_right _ hc
    · cases hhost with
      | inl hhost => exact hhost
      | inr hroot =>
        have hlen := congrArg List.length (hb.trans hroot)
        have hroot := List.length_pos_of_ne_nil (l := rootPath dir) fun hnil => by
          have hcontra := isAbsolute_rootPath hdir
          rw [hnil] at hcontra
          cases hcontra
        have hname := List.length_pos_of_ne_nil hne
        rw [List.length_append, List.length_singleton] at hlen
        omega
  | firstChunk hq raw => exact absurd hq (firstChunkKey_ne_absolute habs)

end Invariant

/-- The entries of a host, if it has any to send, fit a buffer. -/
def Fits {ε : Type*} (name : ε → Bytes) (width limit : Nat)
    (entries : Option (Except Failure (List ε))) : Prop :=
  ∀ es, entries = some (.ok es) → outSize name width es ≤ limit

instance decidableFits {ε : Type*} (name : ε → Bytes) (width limit : Nat) :
    ∀ entries, Decidable (Fits name width limit entries)
  | some (.ok es) => decidable_of_iff (outSize name width es ≤ limit) (by simp [Fits])
  | some (.error _) => isTrue fun _ h => by cases h
  | none => isTrue fun _ h => by cases h

/-- No host has more entries than fit its part of the client's buffer, nor the
buffer of the extended listing. -/
def NoOverflow (d : SimpleHashDistributor) (cl : Cluster) (dir : Path) : Prop :=
  ∀ k ∈ allHosts d,
    Fits Dirent.name 1 (direntsBuffSize / (allHosts d).length) (getDirents (cl k).mdb dir) ∧
      Fits DirentExtended.name 17 direntsBuffSize (getDirentsExtended (cl k).mdb dir)

instance decidableNoOverflow (d : SimpleHashDistributor) (cl : Cluster) (dir : Path) :
    Decidable (NoOverflow d cl dir) := List.decidableBAll (fun _ => _ ∧ _) (allHosts d)

/-- `name` is a direct child of the directory, with the record `md`. -/
def Child (d : SimpleHashDistributor) (cl : Cluster) (dir : Path) (name : Bytes) (md : Metadata) : Prop :=
  name ≠ [] ∧ separator ∉ name ∧ Existing d cl (rootPath dir ++ name) md

structure Listed (d : SimpleHashDistributor) (cl : Cluster) (dir : Path)
    (entries : List (Bytes × FileType)) (extended : List DirentExtended) : Prop where
  once : (entries.map Prod.fst).Nodup
  mem : ∀ name t, (name, t) ∈ entries ↔
    ∃ md, Child d cl dir name md ∧ t = fileType (S_ISDIR md.mode)
  names : extended.map DirentExtended.name = entries.map Prod.fst
  stored : ∀ e ∈ extended, ∃ md, Child d cl dir e.name md ∧
    e.isDir = S_ISDIR md.mode ∧ e.size = md.size

section Gather

variable {d : SimpleHashDistributor} {cl : Cluster} {dir : Path}

/-- All children of a directory, host by host. -/
def children (d : SimpleHashDistributor) (cl : Cluster) (dir : Path) : List (Bytes × Metadata) :=
  (allHosts d).flatMap fun k => visited (cl k).mdb (rootPath dir)

theorem Inv.mem_children (h : Inv d cl) (hdir : isAbsolute dir = true) {name : Bytes} {md : Metadata} :
    (name, md) ∈ children d cl dir ↔ Child d cl dir name md := by
  rw [children, List.mem_flatMap]
  constructor
  · rintro ⟨k, -, hmem⟩
    obtain ⟨hne, hsep, hmd⟩ := mem_visited.mp hmem
    refine ⟨hne, hsep, ?_⟩
    rw [Existing, ← (h.listed_at hdir hmem).2]
    exact hmd
  · rintro ⟨hne, hsep, hmd⟩
    exact ⟨_, metadataHost_mem d _, mem_visited.mpr ⟨hne, hsep, hmd⟩⟩

theorem Inv.nodup_children (h : Inv d cl) (hdir : isAbsolute dir = true) :
    ((children d cl dir).map Prod.fst).Nodup := by
  rw [children, List.map_flatMap, List.nodup_flatMap]
  refine ⟨fun k _ => visited_nodup _ _, (nodup_allHosts d).imp fun {k k'} hne => ?_⟩
  intro name hk hk'
  obtain ⟨⟨n, md⟩, hmem, rfl⟩ := List.mem_map.mp hk
  obtain ⟨⟨n', md'⟩, hmem', hn⟩ := List.mem_map.mp hk'
  have hhost := (h.listed_at hdir hmem).2
  have hhost' := (h.listed_at hdir hmem').2
  rw [show n' = n from hn] at hhost'
  exact hne (hhost.trans hhost'.symm)

/-- A loop whose steps all append something collects it in their order. -/
theorem foldlM_append {ι ε α : Type*} {step : α × List ε → ι → Option (α × List ε)} (part : ι → List ε)
    (ks : List ι) (hstep : ∀ k ∈ ks, ∀ acc, step acc k = some (acc.1, acc.2 ++ part k))
    (acc : α × List ε) : ks.foldlM step acc = some (acc.1, acc.2 ++ ks.flatMap part) := by
  induction ks generalizing acc with
  | nil => simp
  | cons k ks ih =>
    rw [List.foldlM_cons, hstep k List.mem_cons_self]
    refine (ih (fun x hx => hstep x (List.mem_cons_of_mem k hx)) _).trans ?_
    rw [List.flatMap_cons, List.append_assoc]

/-- A loop that has ended without an error, whose steps each append something or
leave an error behind, has appended everything. -/
theorem foldlM_ok {ι ε : Type*} {step : Int32 × List ε → ι → Option (Int32 × List ε)}
    (part : ι → List ε) (ks : List ι)
    (hstep : ∀ k ∈ ks, ∀ acc, step acc k = some (acc.1, acc.2 ++ part k) ∨
      ∃ e, e ≠ 0 ∧ step acc k = some (e, acc.2)) {acc : Int32 × List ε} {es : List ε}
    (h : ks.foldlM step acc = some (0, es)) : acc.1 = 0 ∧ es = acc.2 ++ ks.flatMap part := by
  induction ks generalizing acc with
  | nil =>
    obtain rfl := Option.some.inj h
    exact ⟨rfl, by simp⟩
  | cons k ks ih =>
    have ih' : ∀ {acc}, ks.foldlM step acc = some (0, es) → acc.1 = 0 ∧ es = acc.2 ++ ks.flatMap part :=
      ih fun x hx => hstep x (List.mem_cons_of_mem k hx)
    rw [List.foldlM_cons] at h
    cases hstep k List.mem_cons_self acc with
    | inl hok =>
      rw [hok] at h
      obtain ⟨herr, hes⟩ := ih' h
      exact ⟨herr, by rw [hes, List.flatMap_cons, List.append_assoc]⟩
    | inr herror =>
      obtain ⟨e, he, hbad⟩ := herror
      rw [hbad] at h
      exact absurd (ih' h).1 he

/-- What a host adds to the listing of a client. -/
def listedAt (cl : Cluster) (dir : Path) (k : UInt64) : List (Bytes × FileType) :=
  (visited (cl k).mdb (rootPath dir)).map fun e => (e.1, fileType (S_ISDIR e.2.mode))

theorem map_children (d : SimpleHashDistributor) (cl : Cluster) (dir : Path) :
    ((children d cl dir).map fun e => (e.1, fileType (S_ISDIR e.2.mode))) =
      (allHosts d).flatMap (listedAt cl dir) := by
  rw [children, List.map_flatMap]
  rfl

variable (d) in
theorem Inv.gather_host (h : Inv d cl) (hdir : isAbsolute dir = true) (mem : Bytes) (perHost : Nat)
    (k : UInt64) (acc : Int32 × List (Bytes × FileType)) :
    (Fits Dirent.name 1 perHost (getDirents (cl k).mdb dir) ∧
      gatherDirents perHost mem acc (rpcSrvGetDirents (cl k).mdb dir perHost) =
        some (acc.1, acc.2 ++ listedAt cl dir k)) ∨
    ¬ Fits Dirent.name 1 perHost (getDirents (cl k).mdb dir) ∧
      gatherDirents perHost mem acc (rpcSrvGetDirents (cl k).mdb dir perHost) = some (ENOBUFS, acc.2) := by
  have hes : getDirents (cl k).mdb dir = _ :=
    getDirentsWith_eq (fun name md => (⟨name, S_ISDIR md.mode⟩ : Dirent)) (h.readable k) hdir
  have hclean : ∀ e ∈ (visited (cl k).mdb (rootPath dir)).map
      (fun e => (⟨e.1, S_ISDIR e.2.mode⟩ : Dirent)), ∀ c ∈ e.name, notNul c = true := by
    intro e he
    obtain ⟨⟨name, md⟩, hmem, rfl⟩ := List.mem_map.mp he
    exact (h.listed_at hdir hmem).1
  rw [rpcSrvGetDirents, hes]
  by_cases hfit : outSize Dirent.name 1 ((visited (cl k).mdb (rootPath dir)).map
      fun e => (⟨e.1, S_ISDIR e.2.mode⟩ : Dirent)) ≤ perHost
  · refine .inl ⟨?_, ?_⟩
    · intro es he
      cases he
      exact hfit
    · rw [gatherDirents_reply mem acc hclean hfit, List.map_map]
      rfl
  · exact .inr ⟨fun hall => hfit (hall _ rfl), gatherDirents_overflow mem acc (by omega)⟩

theorem Inv.forwardGetDirents_eq (h : Inv d cl) (hdir : isAbsolute dir = true)
    (hroom : ∀ k ∈ allHosts d,
      Fits Dirent.name 1 (direntsBuffSize / (allHosts d).length) (getDirents (cl k).mdb dir))
    (mem : UInt64 → Bytes) :
    forwardGetDirents d dir cl mem =
      some (0, (children d cl dir).map fun e => (e.1, fileType (S_ISDIR e.2.mode))) := by
  rw [forwardGetDirents, map_children, foldlM_append (listedAt cl dir)]
  · rfl
  · intro k hk acc
    cases h.gather_host d hdir (mem k) (direntsBuffSize / (allHosts d).length) k acc with
    | inl hok => exact hok.2
    | inr hover => exact absurd (hroom k hk) hover.1

/-- A listing that a client gets without an error is complete. -/
theorem Inv.forwardGetDirents_ok (h : Inv d cl) (hdir : isAbsolute dir = true) {mem : UInt64 → Bytes}
    {entries : List (Bytes × FileType)} (hres : forwardGetDirents d dir cl mem = some (0, entries)) :
    entries = (children d cl dir).map fun e => (e.1, fileType (S_ISDIR e.2.mode)) := by
  rw [map_children]
  refine (foldlM_ok (listedAt cl dir) _ ?_ hres).2
  intro k hk acc
  cases h.gather_host d hdir (mem k) (direntsBuffSize / (allHosts d).length) k acc with
  | inl hok => exact .inl hok.2
  | inr hover => exact .inr ⟨ENOBUFS, by decide, hover.2⟩

theorem Inv.forwardGetDirentsSingle_eq (h : Inv d cl) (hdir : isAbsolute dir = true)
    (hroom : NoOverflow d cl dir) (mem : Bytes) {k : UInt64} (hk : k ∈ allHosts d) :
    forwardGetDirentsSingle dir cl mem k = (0, (visited (cl k).mdb (rootPath dir)).map fun e =>
      ⟨e.1, S_ISDIR e.2.mode, e.2.size, e.2.ctime⟩) := by
  have hes := getDirentsWith_eq
    (fun name md => (⟨name, S_ISDIR md.mode, md.size, md.ctime⟩ : DirentExtended)) (h.readable k) hdir
  apply Dirents.forwardGetDirentsSingle_eq mem hes
  · intro e he
    obtain ⟨⟨name, md⟩, hmem, rfl⟩ := List.mem_map.mp he
    exact (h.listed_at hdir hmem).1
  · exact (hroom k hk).2 _ hes

end Gather

/-- In every state that creates, removes, first-chunk writes and harmless messages about sizes can
reach, a listing has each direct child of the directory once and nothing else. -/
theorem getDirents_exact (d : SimpleHashDistributor) (roots : UInt64 → Bytes) (msgs : List Message)
    (hmsgs : AllSteps (deliver d) (Message.Harmless d) (started roots) msgs) {dir : Path} (hdir : isAbsolute dir = true)
    (hroom : NoOverflow d (msgs.foldl (deliver d) (started roots)) dir) (mem : UInt64 → Bytes) :
    ∃ entries extended,
      forwardGetDirents d dir (msgs.foldl (deliver d) (started roots)) mem = some (0, entries) ∧
      (∀ k ∈ allHosts d, forwardGetDirentsSingle dir (msgs.foldl (deliver d) (started roots)) (mem k) k =
        (0, extended k)) ∧
      Listed d (msgs.foldl (deliver d) (started roots)) dir entries ((allHosts d).flatMap extended) := by
  have h := inv_run d roots hmsgs
  generalize msgs.foldl (deliver d) (started roots) = cl at h hroom ⊢
  refine ⟨_, _, h.forwardGetDirents_eq hdir (fun k hk => (hroom k hk).1) mem,
    fun k hk => h.forwardGetDirentsSingle_eq hdir hroom (mem k) hk, ?_, ?_, ?_, ?_⟩
  · rw [List.map_map]
    exact h.nodup_children hdir
  · intro name t
    rw [List.mem_map]
    constructor
    · rintro ⟨⟨n, md⟩, hmem, he⟩
      obtain ⟨rfl, rfl⟩ := Prod.mk.inj he
      exact ⟨md, (h.mem_children hdir).mp hmem, rfl⟩
    · rintro ⟨md, hchild, rfl⟩
      exact ⟨(name, md), (h.mem_children hdir).mpr hchild, rfl⟩
  · rw [children, List.map_flatMap, List.map_map, List.map_flatMap]
    simp only [List.map_map]
    rfl
  · intro e he
    rw [← List.map_flatMap] at he
    obtain ⟨⟨n, md⟩, hmem, rfl⟩ := List.mem_map.mp he
    exact ⟨md, (h.mem_children hdir).mp hmem, rfl, rfl⟩

def sampleKey (bytes : Bytes) (absolute : isAbsolute bytes = true)
    (slash : bytes = [separator] ∨ hasTrailingSlash bytes = false)
    (clean : bytes.all notNul = true) : KeyPath :=
  ⟨bytes, absolute, slash, List.all_eq_true.mp clean⟩

/-- A directory with a child that has a first chunk and a size, a deeper descendant, and a
sibling whose name begins like the directory's. -/
def sampleMessages : List Message :=
  let p := sampleKey (text "/d/a") (by decide) (by decide) (by decide)
  [.create (sampleKey (text "/d") (by decide) (by decide) (by decide)) 0o040755,
    .create p 0o100644,
    .create (sampleKey (text "/d/a/b") (by decide) (by decide) (by decide)) 0o100644,
    .create (sampleKey (text "/dx") (by decide) (by decide) (by decide)) 0o040755,
    .writeFirstChunk p [7] 0,
    .updateMetadentrySize p 1 4 false,
    .decrSize p 3]

theorem harmless_sampleMessages :
    AllSteps (deliver twoHosts) (Message.Harmless twoHosts) (started fun _ => text "/r") sampleMessages := by
  refine ⟨trivial, trivial, trivial, trivial, trivial, fun op hop => ?_, fun op hop => ?_, trivial⟩
  · cases hop
    exact ⟨(Metadata.ofMode 0o100644).kept config, by decide +kernel, by decide⟩
  · cases hop
    exact ⟨((Metadata.ofMode 0o100644).kept config).resized 5, by decide +kernel, by decide⟩

example : forwardGetDirents twoHosts (text "/d")
    (sampleMessages.foldl (deliver twoHosts) (started fun _ => text "/r")) (fun _ => []) =
      some (0, [(text "a", .regular)]) := by decide +kernel

theorem getDirents_exact_sample :
    (allHosts twoHosts).flatMap (fun k => (forwardGetDirentsSingle (text "/d")
      (sampleMessages.foldl (deliver twoHosts) (started fun _ => text "/r")) [] k).2.map fun e => (e.name, e.size)) =
      [(text "a", 3)] ∧
    ∃ entries extended,
    forwardGetDirents twoHosts (text "/d")
        (sampleMessages.foldl (deliver twoHosts) (started fun _ => text "/r")) (fun _ => []) =
      some (0, entries) ∧
    (∀ k ∈ allHosts twoHosts, forwardGetDirentsSingle (text "/d")
      (sampleMessages.foldl (deliver twoHosts) (started fun _ => text "/r")) [] k = (0, extended k)) ∧
    Listed twoHosts (sampleMessages.foldl (deliver twoHosts) (started fun _ => text "/r")) (text "/d")
      entries ((allHosts twoHosts).flatMap extended) :=
  ⟨by decide +kernel,
    getDirents_exact twoHosts (fun _ => text "/r") sampleMessages harmless_sampleMessages (by decide)
      (by decide +kernel) fun _ => []⟩

end GaoFS.Listing
