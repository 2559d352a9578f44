import GaoFS.Arithmetic
import GaoFS.Library.Blocks
import GaoFS.Library.NumberText

namespace GaoFS.Chunks

open Arithmetic Library.NumberText Library.Blocks

abbrev Path := Bytes

def chunksize : UInt64 := 524288

abbrev C : Nat := 524288

theorem C_pos : 0 < C := by decide

theorem toNat_chunksize : chunksize.toNat = C := rfl

theorem chunksize_pow : chunksize.toNat = 2 ^ 19 := rfl

@[simp] theorem toNat_chunkIndex (x : UInt64) : (blockIndex x chunksize).toNat = x.toNat / C :=
  toNat_blockIndex chunksize_pow x

@[simp] theorem toNat_chunkOverrun (x : UInt64) : (blockOverrun x chunksize).toNat = x.toNat % C :=
  toNat_blockOverrun chunksize_pow x

theorem chunkAligned_iff (x : UInt64) : isAligned x chunksize = true ↔ x.toNat % C = 0 := by
  rw [isAligned_iff chunksize_pow (by omega), Nat.dvd_iff_mod_eq_zero]
  rfl

@[simp] theorem toNat_chunkUnderrun (x : UInt64) :
    (blockUnderrun x chunksize).toNat = C - x.toNat % C :=
  toNat_blockUnderrun chunksize_pow x

/-- A hash distributor. Client and daemon each build one from the number of
hosts, which a machine division requires to be nonzero. -/
structure SimpleHashDistributor where
  strHash : Bytes → UInt64
  hostsSize : UInt32
  hostsSize_ne : hostsSize ≠ 0

/-- Chunk ids are passed as `chunkid_t`, an `unsigned int`. -/
def SimpleHashDistributor.locateData (d : SimpleHashDistributor) (path : Path)
    (chunkId : UInt32) : UInt32 :=
  (d.strHash (path ++ decimal chunkId.toNat) % d.hostsSize.toUInt64).toUInt32

def SimpleHashDistributor.locateFileMetadata (d : SimpleHashDistributor) (path : Path) : UInt32 :=
  (d.strHash path % d.hostsSize.toUInt64).toUInt32

theorem mod_hostsSize_lt (d : SimpleHashDistributor) (x : UInt64) :
    (x % d.hostsSize.toUInt64).toUInt32 < d.hostsSize := by
  have hpos : 0 < d.hostsSize.toNat := by
    have := d.hostsSize_ne
    rw [Nat.pos_iff_ne_zero]
    exact fun h => this (UInt32.toNat_inj.mp h)
  have hlt := d.hostsSize.toNat_lt
  have hmod := Nat.mod_lt x.toNat hpos
  rw [UInt32.lt_iff_toNat_lt, UInt64.toNat_toUInt32, UInt64.toNat_mod, UInt32.toNat_toUInt64]
  omega

theorem locateData_lt (d : SimpleHashDistributor) (path : Path) (chunkId : UInt32) :
    d.locateData path chunkId < d.hostsSize := mod_hostsSize_lt d _

def twoHosts : SimpleHashDistributor where
  strHash := fun key => (key.getLast?.getD 0).toUInt64
  hostsSize := 2
  hostsSize_ne := by decide

/-- The overload that the daemon calls: the number of hosts comes with the
request, and 0 makes the division trap. -/
def locateDataSized (strHash : Bytes → UInt64) (path : Path) (chunkId hostSize : UInt32) :
    Option UInt32 :=
  if h : hostSize ≠ 0 then some (SimpleHashDistributor.locateData ⟨strHash, hostSize, h⟩ path chunkId)
  else none

theorem locateDataSized_eq (d : SimpleHashDistributor) (path : Path) (chunkId : UInt32) :
    locateDataSized d.strHash path chunkId d.hostsSize = some (d.locateData path chunkId) := by
  rw [locateDataSized, dif_pos d.hostsSize_ne]

end GaoFS.Chunks
