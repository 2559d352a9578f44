import GaoFS.MetadataKey
import GaoFS.Library.OrderedMap

namespace GaoFS.MetadataDB

open Chunks Replies ChunkStorage DataOps MetadataRecord MetadataKey
open Library.NumberText Library.OrderedMap

/-- Contents of a daemon's database, where an absent key has no entry. -/
structure Mdb where
  map : SortedMap Bytes Key
  live : ∀ e ∈ map.entries, e.2 ≠ Key.absent

def Mdb.empty : Mdb := ⟨SortedMap.empty, fun _ h => absurd h List.not_mem_nil⟩

def Mdb.key (m : Mdb) (k : Bytes) : Key := (m.map.find k).getD Key.absent

def Mdb.putKey (m : Mdb) (k : Bytes) (v : Key) : Mdb where
  map := m.map.set k (if v = Key.absent then none else some v)
  live := by
    rintro ⟨k', v'⟩ he
    rw [SortedMap.mem_set] at he
    split at he
    · split at he
      · cases he
      · rename_i hne
        obtain rfl := Option.some.inj he
        exact hne
    · exact m.live _ he

theorem Mdb.key_putKey (m : Mdb) (k k' : Bytes) (v : Key) :
    (m.putKey k v).key k' = if k' = k then v else m.key k' := by
  simp only [Mdb.key, Mdb.putKey, SortedMap.find_set]
  split
  · split
    · rename_i h
      exact h.symm
    · rfl
  · rfl

theorem Mdb.mem_entries {m : Mdb} {k : Bytes} {v : Key} :
    (k, v) ∈ m.map.entries ↔ m.key k = v ∧ v ≠ Key.absent := by
  rw [Mdb.key]
  constructor
  · intro h
    have hlive := m.live _ h
    rw [SortedMap.mem_entries] at h
    exact ⟨by rw [h, Option.getD_some], hlive⟩
  · rintro ⟨h, hne⟩
    rw [SortedMap.mem_entries]
    cases hf : m.map.find k with
    | none =>
      rw [hf] at h
      exact absurd h.symm hne
    | some w =>
      rw [hf] at h
      exact congrArg some h

theorem Mdb.ext_key {m m' : Mdb} (h : ∀ k, m.key k = m'.key k) : m = m' := by
  have hmap : m.map = m'.map := by
    apply SortedMap.ext_find
    intro k
    apply Option.ext
    intro v
    rw [← SortedMap.mem_entries, ← SortedMap.mem_entries, mem_entries, mem_entries, h]
  obtain ⟨map, live⟩ := m
  obtain rfl : map = m'.map := hmap
  rfl

/-- First-chunk records share the database with the metadata, under a key of their own. -/
def firstChunkKey (path : Path) : Bytes := 102 :: path

structure Host where
  rootPath : Bytes
  mdb : Mdb
  fs : Fs

/-- What a host has of one file, on which the handlers work. -/
def Host.store (h : Host) (path : Path) : Store where
  key := h.mdb.key path
  data := ⟨(h.mdb.key (firstChunkKey path)).base, h.fs⟩

def Host.putStore (h : Host) (path : Path) (s : Store) : Host where
  rootPath := h.rootPath
  mdb := (h.mdb.putKey path s.key).putKey (firstChunkKey path) ⟨s.data.firstChunk, []⟩
  fs := s.data.fs

/-- The daemons by host id. -/
abbrev Cluster := UInt64 → Host

def Cluster.putStore (cl : Cluster) (k : UInt64) (path : Path) (s : Store) : Cluster :=
  Function.update cl k ((cl k).putStore path s)

def metadataHost (d : SimpleHashDistributor) (path : Path) : UInt64 :=
  (d.locateFileMetadata path).toUInt64

def allHosts (d : SimpleHashDistributor) : List UInt64 :=
  (List.range d.hostsSize.toNat).map UInt64.ofNat

def rootMode : UInt32 := 0o040777

/-- A daemon that `init_environment` has started on empty storage. -/
def startedHost (rootPath : Bytes) : Host :=
  let h : Host := ⟨rootPath, Mdb.empty, fun _ => none⟩
  h.putStore [separator] (rpcSrvCreate (h.store [separator]) rootMode).2

theorem key_create_root (rootPath : Bytes) :
    (rpcSrvCreate (Host.store ⟨rootPath, Mdb.empty, fun _ => none⟩ [separator]) rootMode).2.key =
      Key.absent.merge (.create ((Metadata.ofMode rootMode).serialize config)) :=
  congrArg (fun r => r.2.key) (rpcSrvCreate_absent rfl (by decide))

theorem firstChunkKey_ne (path : Path) : firstChunkKey path ≠ path :=
  fun h => absurd (congrArg List.length h) (by simp [firstChunkKey])

theorem firstChunkKey_ne_absolute {path q : Path} (hq : isAbsolute q = true) :
    q ≠ firstChunkKey path := by
  rintro rfl
  simp [isAbsolute, firstChunkKey, separator] at hq

@[simp] theorem store_putStore (h : Host) (path : Path) (s : Store) :
    (h.putStore path s).store path = s := by
  have hne := (firstChunkKey_ne path).symm
  simp [Host.store, Host.putStore, Mdb.key_putKey, hne]

theorem key_putStore_of_ne (h : Host) {path q : Path} (s : Store) (hq : isAbsolute q = true)
    (hne : q ≠ path) : ((h.putStore path s).store q).key = (h.store q).key := by
  simp [Host.store, Host.putStore, Mdb.key_putKey, hne, firstChunkKey_ne_absolute hq]

theorem key_putStore_path (d : SimpleHashDistributor) (cl : Cluster) (path : Path) (s : Store) {q : Path}
    (hq : isAbsolute q = true) :
    ((cl.putStore (metadataHost d path) path s (metadataHost d q)).store q).key =
      if q = path then s.key else ((cl (metadataHost d q)).store q).key := by
  split
  · rename_i hqp
    subst hqp
    rw [Cluster.putStore, Function.update_self, store_putStore]
  · rename_i hqp
    rw [Cluster.putStore]
    by_cases hk : metadataHost d q = metadataHost d path
    · rw [hk, Function.update_self, key_putStore_of_ne _ _ hq hqp]
    · rw [Function.update_of_ne hk]

theorem firstChunk_putStore_of_ne (h : Host) {path q : Path} (s : Store)
    (hpath : isAbsolute path = true) (hne : q ≠ path) :
    ((h.putStore path s).store q).data.firstChunk = (h.store q).data.firstChunk := by
  have hkey : firstChunkKey q ≠ firstChunkKey path := fun he => hne (List.cons.inj he).2
  have hkey' : firstChunkKey q ≠ path := (firstChunkKey_ne_absolute hpath).symm
  simp [Host.store, Host.putStore, Mdb.key_putKey, hkey, hkey']

theorem mem_allHosts {d : SimpleHashDistributor} {k : UInt64} :
    k ∈ allHosts d ↔ k.toNat < d.hostsSize.toNat := by
  have hsize := d.hostsSize.toNat_lt
  constructor
  · intro h
    obtain ⟨i, hi, rfl⟩ := List.mem_map.mp h
    rw [UInt64.toNat_ofNat', Nat.mod_eq_of_lt]
    · exact List.mem_range.mp hi
    · have := List.mem_range.mp hi
      omega
  · exact fun h => List.mem_map.mpr ⟨k.toNat, List.mem_range.mpr h, UInt64.ofNat_toNat⟩

theorem nodup_allHosts (d : SimpleHashDistributor) : (allHosts d).Nodup := by
  apply List.Nodup.map_on _ List.nodup_range
  intro i hi j hj hij
  have hsize := d.hostsSize.toNat_lt
  have hi' := List.mem_range.mp hi
  have hj' := List.mem_range.mp hj
  have hnat := congrArg UInt64.toNat hij
  rw [UInt64.toNat_ofNat', UInt64.toNat_ofNat', Nat.mod_eq_of_lt (by omega),
    Nat.mod_eq_of_lt (by omega)] at hnat
  exact hnat

theorem metadataHost_mem (d : SimpleHashDistributor) (path : Path) :
    metadataHost d path ∈ allHosts d := by
  have hlt := UInt32.lt_iff_toNat_lt.mp (mod_hostsSize_lt d (d.strHash path))
  rw [mem_allHosts, metadataHost, UInt32.toNat_toUInt64]
  exact hlt

end GaoFS.MetadataDB
