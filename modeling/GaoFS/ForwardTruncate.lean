import GaoFS.DataOps
import GaoFS.ForwardData
import Mathlib.Data.Finset.Insert

namespace GaoFS.ForwardTruncate

open Arithmetic Chunks Replies ChunkStorage FirstChunkRecord DataOps ForwardData
open Library.NumberText Library.ByteFile

/-- The sizes that `forward_truncate` is called with, as it asserts. -/
structure Sizes where
  currentSize : UInt64
  newSize : UInt64
  shrinks : newSize < currentSize

/-- The loop that collects the hosts, whose counter has 32 bits. `none` is a loop
that has not ended after `fuel` tests. -/
def collectHosts (locate : UInt32 → UInt32) (chunkEnd : UInt32) :
    Nat → UInt32 → Finset UInt32 → Option (Finset UInt32)
  | 0, _, _ => none
  | fuel + 1, chunkId, hosts =>
    if chunkId ≤ chunkEnd then
      collectHosts locate chunkEnd fuel (chunkId + 1) (insert (locate chunkId) hosts)
    else some hosts

def Sizes.chunkStart (s : Sizes) : UInt32 := (blockIndex s.newSize chunksize).toUInt32

def Sizes.chunkEnd (s : Sizes) : UInt32 :=
  (blockIndex (s.currentSize - s.newSize - 1) chunksize).toUInt32

def forwardTruncate (d : SimpleHashDistributor) (path : Path) (s : Sizes) (fuel : Nat) :
    Option (Finset UInt32) :=
  collectHosts (d.locateData path) s.chunkEnd fuel s.chunkStart ∅

def truncateDaemon (d : SimpleHashDistributor) (path : Path) (s : Sizes) (host : UInt32)
    (dm : Daemon) : Option (Except Failure Unit × Local) :=
  truncateFile dm.rootPath path dm.store d.strHash s.newSize host.toUInt64 d.hostsSize.toUInt64

section Loop

variable {locate : UInt32 → UInt32} {chunkEnd : UInt32}

theorem succ_range {id j : UInt32} (h : id ≤ chunkEnd) (hend : chunkEnd.toNat ≠ 2 ^ 32 - 1) :
    id ≤ j ∧ j ≤ chunkEnd ↔ j = id ∨ id + 1 ≤ j ∧ j ≤ chunkEnd := by
  have hlt := chunkEnd.toNat_lt
  simp only [UInt32.le_iff_toNat_le, ← UInt32.toNat_inj, UInt32.toNat_add] at *
  have hone : (1 : UInt32).toNat = 1 := rfl
  rw [hone, Nat.mod_eq_of_lt (by omega)]
  omega

/-- A loop that ends has visited the whole range, and its end is not the largest
number of the counter. -/
theorem collectHosts_spec {fuel : Nat} {id : UInt32} {hosts hosts' : Finset UInt32}
    (h : collectHosts locate chunkEnd fuel id hosts = some hosts') :
    chunkEnd.toNat ≠ 2 ^ 32 - 1 ∧
      ∀ k, k ∈ hosts' ↔ k ∈ hosts ∨ ∃ j, (id ≤ j ∧ j ≤ chunkEnd) ∧ locate j = k := by
  induction fuel generalizing id hosts with
  | zero => cases h
  | succ fuel ih =>
    rw [collectHosts] at h
    split at h
    · rename_i hid
      obtain ⟨hend, hmem⟩ := ih h
      refine ⟨hend, fun k => ?_⟩
      rw [hmem k, Finset.mem_insert]
      simp only [succ_range hid hend, or_and_right, exists_or, exists_eq_left, eq_comm (a := k)]
      tauto
    · rename_i hid
      cases h
      have hlt : chunkEnd.toNat < id.toNat := by
        rw [UInt32.le_iff_toNat_le] at hid
        omega
      have hmax := id.toNat_lt
      refine ⟨by omega, fun k => ⟨.inl, ?_⟩⟩
      rintro (hk | ⟨j, ⟨h1, h2⟩, -⟩)
      · exact hk
      · rw [UInt32.le_iff_toNat_le] at h1 h2
        omega

variable (locate) in
theorem collectHosts_ends (hend : chunkEnd.toNat ≠ 2 ^ 32 - 1) (n : Nat) (id : UInt32)
    (hn : chunkEnd.toNat + 1 - id.toNat = n) (hosts : Finset UInt32) :
    ∃ hosts', collectHosts locate chunkEnd (n + 1) id hosts = some hosts' := by
  induction n generalizing id hosts with
  | zero =>
    have hid : ¬ id ≤ chunkEnd := by
      rw [UInt32.le_iff_toNat_le]
      omega
    exact ⟨hosts, by rw [collectHosts, if_neg hid]⟩
  | succ n ih =>
    have hlt := chunkEnd.toNat_lt
    have hid : id ≤ chunkEnd := by
      rw [UInt32.le_iff_toNat_le]
      omega
    have hone : (1 : UInt32).toNat = 1 := rfl
    have hsucc : (id + 1).toNat = id.toNat + 1 := by
      rw [UInt32.toNat_add, hone, Nat.mod_eq_of_lt (by omega)]
    rw [collectHosts, if_pos hid]
    exact ih (id + 1) (by omega) _

/-- Ids from that of the first number of a range to that of its length cover the range, in the
counter's bits, only if the counter starts at zero and there is no carry. -/
theorem covers_range_iff {a b e m : Nat} (hlo : a + e ≤ b) (hhi : b ≤ a + e + 1) (hm : 0 < m) :
    (e % m ≠ m - 1 ∧ ∀ c, a ≤ c → c ≤ b → a % m ≤ c % m ∧ c % m ≤ e % m) ↔
      a % m = 0 ∧ b = a + e ∧ e < m - 1 := by
  constructor
  · rintro ⟨hend, hall⟩
    have ha := Nat.mod_lt a hm
    -- the largest number of the counter is not met on the way
    have hshort : a % m + (b - a) < m := by
      by_contra hlong
      have hlast := (hall (a + (m - 1 - a % m)) (Nat.le_add_right _ _) (by omega)).2
      have hmax : (a + (m - 1 - a % m)) % m = m - 1 := by
        rw [Nat.add_mod, Nat.mod_eq_of_lt (by omega : m - 1 - a % m < m),
          Nat.add_sub_cancel' (by omega), Nat.mod_eq_of_lt (by omega)]
      have := Nat.mod_lt e hm
      omega
    have he : e % m = e := Nat.mod_eq_of_lt (by omega)
    have hb : b % m = a % m + (b - a) := by
      conv_lhs => rw [← Nat.add_sub_cancel' (by omega : a ≤ b)]
      rw [Nat.add_mod, Nat.mod_eq_of_lt (by omega : b - a < m), Nat.mod_eq_of_lt hshort]
    have hlast := (hall b (by omega) le_rfl).2
    rw [he] at hend hlast
    omega
  · rintro ⟨ha, rfl, he⟩
    rw [ha, Nat.mod_eq_of_lt (by omega : e < m)]
    refine ⟨he.ne, fun c hc hc' => ⟨Nat.zero_le _, ?_⟩⟩
    have hmod : c % m = c - a := by
      conv_lhs => rw [← Nat.add_sub_cancel' hc]
      rw [Nat.add_mod, ha, Nat.zero_add, Nat.mod_mod, Nat.mod_eq_of_lt (by omega)]
    omega

end Loop

section Daemon

variable {rootPath dir : Bytes} {path : Path} {l l' : Local} {size hostId : UInt64}

/-- No chunk byte of the file stands at or beyond a position. -/
def Within (l : Local) (dir : Bytes) (n : Nat) : Prop :=
  ∀ c b, l.stored dir c = some b → b ≠ [] → c.toNat * C + b.length ≤ n

theorem whole_chunk_le {n c : Nat} {b : Bytes} (hb : b.length ≤ C) (hc : c < n / C) :
    c * C + b.length ≤ n := by
  have hle := Nat.mul_le_of_le_div C (c + 1) n hc
  rw [Nat.add_mul] at hle
  omega

theorem stored_zero_congr (h : l'.firstChunk = l.firstChunk) : l'.stored dir 0 = l.stored dir 0 := by
  simp only [Local.stored, if_true, h]

theorem stored_of_ne {c : UInt64} (hc : c ≠ 0) : l.stored dir c = chunkFile l.fs dir c := if_neg hc

theorem chunkFile_trim (hdir : chunkDir rootPath path = some dir) {fs fs' : Fs} {start : UInt64}
    (h : trimChunkSpace rootPath path fs start = some (.ok (), fs')) (c : UInt64) :
    chunkFile fs' dir c = if start ≤ c then none else chunkFile fs dir c := by
  rw [trimChunkSpace, hdir, Option.map_some] at h
  cases hfiles : fs dir with
  | none => simp [hfiles] at h
  | some files =>
    simp only [hfiles, Option.some.injEq, Prod.mk.injEq, true_and] at h
    subst h
    simp [chunkFile, hfiles]

theorem stored_putFirstChunk {content b : Bytes} (hlen : content.length < 2 ^ 63)
    (h : (putFirstChunk l content).stored dir 0 = some b) : b.length ≤ content.length := by
  simp only [Local.stored, if_true, putFirstChunk, Option.bind_some, decode_recordOf content hlen] at h
  cases h
  exact (List.takeWhile_sublist _).length_le

variable {chunkStart leftPad start : UInt64} {n : Nat}

variable (dir) in
/-- A cut in the first chunk leaves nothing of it beyond the new end. -/
theorem truncateBoundary_first (hpad : leftPad.toNat = n % C)
    (h : truncateBoundary rootPath path l 0 leftPad = some (.ok start, l')) :
    start = 1 ∧ ∀ b, l'.stored dir 0 = some b → b.length ≤ n % C := by
  have hsmall : n % C < 2 ^ 63 := (Nat.mod_lt n C_pos).trans (by decide)
  rw [truncateBoundary, if_pos rfl] at h
  split at h
  · cases hget : getFirstChunk l with
    | none => simp [hget] at h
    | some r =>
      cases r with
      | error e => simp [hget] at h
      | ok x =>
        simp only [hget, Option.map_some, Option.some.injEq, Prod.mk.injEq, Except.ok.injEq] at h
        obtain ⟨rfl, rfl⟩ := h
        have htake : (x.content.take leftPad.toNat).length ≤ n % C := by
          rw [List.length_take, hpad]
          exact Nat.min_le_left _ _
        exact ⟨rfl, fun b hb => (stored_putFirstChunk (htake.trans_lt hsmall) hb).trans htake⟩
  · simp only [Option.some.injEq, Prod.mk.injEq, Except.ok.injEq] at h
    obtain ⟨rfl, rfl⟩ := h
    refine ⟨rfl, fun b hb => ?_⟩
    simp [Local.stored] at hb

theorem truncateBoundary_later (hdir : chunkDir rootPath path = some dir) (h0 : chunkStart ≠ 0)
    (hpad : leftPad.toNat = n % C)
    (h : truncateBoundary rootPath path l chunkStart leftPad = some (.ok start, l')) :
    (start = chunkStart ∨ start = chunkStart + 1 ∧
        ∀ b, l'.stored dir chunkStart = some b → b.length ≤ n % C) ∧
      ∀ c, c ≠ chunkStart → l'.stored dir c = l.stored dir c := by
  rw [truncateBoundary, if_neg h0] at h
  split at h
  · rename_i hne
    have hfit : 0 < leftPad.toNat ∧ leftPad.toNat ≤ C := by
      refine ⟨Nat.pos_of_ne_zero fun hz => hne (UInt64.toNat_inj.mp hz), ?_⟩
      rw [hpad]
      exact (Nat.mod_lt n C_pos).le
    rw [truncateChunkFile, if_pos hfit, hdir, Option.map_some] at h
    cases hfile : chunkFile l.fs dir chunkStart with
    | none => simp [hfile, Except.map] at h
    | some content =>
      simp only [hfile, Option.map_some, Except.map, Option.some.injEq, Prod.mk.injEq,
        Except.ok.injEq] at h
      obtain ⟨rfl, rfl⟩ := h
      refine ⟨.inr ⟨rfl, fun b hb => ?_⟩, fun c hc => ?_⟩
      · rw [stored_of_ne h0, chunkFile_putChunkFile, if_pos ⟨rfl, rfl⟩] at hb
        cases hb
        rw [length_resize, hpad]
      · by_cases hc0 : c = 0
        · subst hc0
          exact stored_zero_congr rfl
        · rw [stored_of_ne hc0, stored_of_ne hc0, chunkFile_putChunkFile, if_neg fun he => hc he.2]
  · simp only [Option.some.injEq, Prod.mk.injEq, Except.ok.injEq] at h
    obtain ⟨rfl, rfl⟩ := h
    exact ⟨.inl rfl, fun c _ => rfl⟩

/-- On the host of the boundary chunk nothing below the trim's start is left
beyond the new end. -/
theorem truncateBoundary_within (hdir : chunkDir rootPath path = some dir)
    (hlen : ∀ c b, l.stored dir c = some b → b.length ≤ C) (hstart : chunkStart.toNat = n / C)
    (hpad : leftPad.toNat = n % C) (hn : n < 2 ^ 64)
    (h : truncateBoundary rootPath path l chunkStart leftPad = some (.ok start, l')) :
    0 < start.toNat ∧ ∀ c b, l'.stored dir c = some b → c < start → c.toNat * C + b.length ≤ n := by
  have hmod := Nat.div_add_mod n C
  rw [Nat.mul_comm] at hmod
  by_cases h0 : chunkStart = 0
  · subst h0
    obtain ⟨rfl, hcut⟩ := truncateBoundary_first dir hpad h
    refine ⟨Nat.one_pos, fun c b hb hc => ?_⟩
    have hc0 : c.toNat < 1 := UInt64.lt_iff_toNat_lt.mp hc
    obtain rfl : c = 0 := UInt64.toNat_inj.mp (Nat.lt_one_iff.mp hc0)
    have hle := hcut b hb
    rw [UInt64.toNat_zero, Nat.zero_mul]
    omega
  · obtain ⟨hend, hother⟩ := truncateBoundary_later hdir h0 hpad h
    have hpos : 0 < n / C := by
      rw [← hstart]
      exact Nat.pos_of_ne_zero fun hz => h0 (UInt64.toNat_inj.mp hz)
    -- the chunks before the boundary chunk lie before the new end as a whole
    have hbefore : ∀ c b, l'.stored dir c = some b → c.toNat < n / C → c.toNat * C + b.length ≤ n := by
      intro c b hb hc
      rw [hother c fun he => by rw [he, hstart] at hc; omega] at hb
      exact whole_chunk_le (hlen c b hb) hc
    cases hend with
    | inl hsame =>
      subst hsame
      refine ⟨by omega, fun c b hb hc => hbefore c b hb ?_⟩
      rw [← hstart]
      exact UInt64.lt_iff_toNat_lt.mp hc
    | inr hnext =>
      obtain ⟨rfl, hcut⟩ := hnext
      have hle := Nat.div_le_self n C
      have hlast : n / C < 2 ^ 64 - 1 := Nat.lt_of_le_of_lt (Nat.div_le_div_right hn.le) (by decide)
      have hsucc : (chunkStart + 1).toNat = n / C + 1 := by
        rw [UInt64.toNat_add, hstart, UInt64.toNat_one, Nat.mod_eq_of_lt (by omega)]
      refine ⟨by omega, fun c b hb hc => ?_⟩
      rw [UInt64.lt_iff_toNat_lt, hsucc] at hc
      by_cases he : c = chunkStart
      · subst he
        have hlen' := hcut b hb
        rw [hstart]
        omega
      · have hne : c.toNat ≠ n / C := fun h => he (UInt64.toNat_inj.mp (h.trans hstart.symm))
        exact hbefore c b hb (by omega)

/-- What the boundary has left below the trim's start, on its host and elsewhere. -/
theorem boundary_keeps {size : UInt64} (hdir : chunkDir rootPath path = some dir)
    (hlen : ∀ c b, l.stored dir c = some b → b.length ≤ C) {host : Prop} [Decidable host]
    (hhost : ¬ host → ∀ b, l.stored dir (blockIndex size chunksize) = some b → b = [])
    (h : (if host then
        truncateBoundary rootPath path l (blockIndex size chunksize) (blockOverrun size chunksize)
        else some (.ok (blockIndex size chunksize), l)) = some (.ok start, l'))
    {c : UInt64} {b : Bytes} (hb : l'.stored dir c = some b) (hne : b ≠ [])
    (hc : c < start ∨ c = 0) : c.toNat * C + b.length ≤ size.toNat := by
  have hstart : (blockIndex size chunksize).toNat = size.toNat / C := toNat_chunkIndex size
  have hpad : (blockOverrun size chunksize).toNat = size.toNat % C := toNat_chunkOverrun size
  split at h
  · obtain ⟨hpos, hwithin⟩ := truncateBoundary_within hdir hlen hstart hpad size.toNat_lt h
    refine hwithin c b hb (hc.elim id fun h0 => ?_)
    rw [h0, UInt64.lt_iff_toNat_lt]
    exact hpos
  · rename_i haway
    simp only [Option.some.injEq, Prod.mk.injEq, Except.ok.injEq] at h
    obtain ⟨rfl, rfl⟩ := h
    refine whole_chunk_le (hlen c b hb) ?_
    rw [← hstart]
    cases hc with
    | inl hlt => exact UInt64.lt_iff_toNat_lt.mp hlt
    | inr h0 =>
      by_contra hle
      have hb0 : blockIndex size chunksize = c := by
        rw [← UInt64.toNat_inj]
        rw [h0, UInt64.toNat_zero] at hle ⊢
        omega
      exact hne (hhost haway b (by rw [hb0]; exact hb))

theorem truncateFile_within (d : SimpleHashDistributor) (hostId : UInt64)
    (hdir : chunkDir rootPath path = some dir)
    (hlen : ∀ c b, l.stored dir c = some b → b.length ≤ C)
    (hhome : ∀ c b, l.stored dir c = some b → b ≠ [] → target d path c = hostId)
    (h : truncateFile rootPath path l d.strHash size hostId d.hostsSize.toUInt64 = some (.ok (), l')) :
    Within l' dir size.toNat := by
  have hsize : d.hostsSize.toUInt64.toUInt32 = d.hostsSize := UInt32.toUInt32_toUInt64 _
  have haway : ¬ target d path (blockIndex size chunksize) = hostId →
      ∀ b, l.stored dir (blockIndex size chunksize) = some b → b = [] :=
    fun hne b hb => by_contra fun hb0 => hne (hhome _ b hb hb0)
  rw [truncateFile, hsize, locateDataSized_eq, Option.bind_some] at h
  change (Option.bind (if target d path (blockIndex size chunksize) = hostId then _ else _) _) = _ at h
  obtain ⟨⟨r, m⟩, hm, htrim⟩ := Option.bind_eq_some_iff.mp h
  cases r with
  | error e => simp at htrim
  | ok start =>
    obtain ⟨⟨res, fs⟩, htr, hres⟩ := Option.map_eq_some_iff.mp htrim
    simp only [Prod.mk.injEq] at hres
    obtain ⟨rfl, rfl⟩ := hres
    intro c b hb hne
    by_cases h0 : c = 0
    · subst h0
      have hsame : Local.stored ⟨m.firstChunk, fs⟩ dir 0 = m.stored dir 0 := stored_zero_congr rfl
      rw [hsame] at hb
      exact boundary_keeps hdir hlen haway hm hb hne (.inr rfl)
    · rw [stored_of_ne h0, chunkFile_trim hdir htr] at hb
      split at hb
      · cases hb
      · rename_i hlt
        rw [← stored_of_ne h0] at hb
        exact boundary_keeps hdir hlen haway hm hb hne (.inl (UInt64.not_le.mp hlt))

end Daemon

section Cluster

variable (d : SimpleHashDistributor) (path : Path) (s : Sizes)

/-- Chunks no longer than a chunk, on the hosts that their ids hash to, with no
byte at or beyond the current size. -/
structure Placed (daemons : UInt32 → Daemon) : Prop where
  length_le : ∀ k dir c b, chunkDir (daemons k).rootPath path = some dir →
    (daemons k).store.stored dir c = some b → b.length ≤ C
  home : ∀ k dir c b, chunkDir (daemons k).rootPath path = some dir →
    (daemons k).store.stored dir c = some b → b ≠ [] →
      d.locateData path c.toUInt32 = k ∧ c.toNat * C + b.length ≤ s.currentSize.toNat

def DropsAll (hosts : Finset UInt32) : Prop :=
  ∀ (daemons : UInt32 → Daemon) (after : UInt32 → Local), Placed d path s daemons →
    (∀ k ∈ hosts, truncateDaemon d path s k (daemons k) = some (.ok (), after k)) →
    (∀ k ∉ hosts, after k = (daemons k).store) →
    ∀ k dir, chunkDir (daemons k).rootPath path = some dir → Within (after k) dir s.newSize.toNat

/-- The hosts of all chunks that the old end and the new end enclose. -/
def Covers (hosts : Finset UInt32) : Prop :=
  ∀ c, s.newSize.toNat / C ≤ c → c ≤ (s.currentSize.toNat - 1) / C →
    d.locateData path (UInt32.ofNat c) ∈ hosts

/-- The loop ends, with the hosts of all chunks that have data to drop, which
leaves no such data anywhere. -/
def TruncateReaches : Prop :=
  ∃ fuel hosts, forwardTruncate d path s fuel = some hosts ∧ Covers d path s hosts ∧
    DropsAll d path s hosts

variable {d path s}

theorem toUInt32_eq_ofNat (c : UInt64) : c.toUInt32 = UInt32.ofNat c.toNat := by
  rw [← UInt32.toNat_inj, UInt64.toNat_toUInt32, UInt32.toNat_ofNat']

theorem dropsAll_of_covers {hosts : Finset UInt32} (h : Covers d path s hosts) :
    DropsAll d path s hosts := by
  intro daemons after hplaced hin hout k dir hdir
  by_cases hk : k ∈ hosts
  · refine truncateFile_within d k.toUInt64 hdir
      (fun c b hb => hplaced.length_le k dir c b hdir hb) (fun c b hb hne => ?_) (hin k hk)
    rw [target, (hplaced.home k dir c b hdir hb hne).1]
  · rw [hout k hk]
    intro c b hb hne
    obtain ⟨hhome, hend⟩ := hplaced.home k dir c b hdir hb hne
    have hlen := hplaced.length_le k dir c b hdir hb
    have hpos := List.length_pos_of_ne_nil hne
    by_contra hbeyond
    have hlo : s.newSize.toNat / C ≤ c.toNat := by
      rw [← Nat.lt_succ_iff, Nat.div_lt_iff_lt_mul C_pos, Nat.succ_mul]
      omega
    have hhi : c.toNat ≤ (s.currentSize.toNat - 1) / C := by
      rw [Nat.le_div_iff_mul_le C_pos]
      exact Nat.le_sub_one_of_lt ((Nat.lt_add_of_pos_right hpos).trans_le hend)
    have hmem := h c.toNat hlo hhi
    rw [← toUInt32_eq_ofNat, hhome] at hmem
    exact hk hmem

theorem toNat_chunkStart : s.chunkStart.toNat = s.newSize.toNat / C % 2 ^ 32 := by
  rw [Sizes.chunkStart, UInt64.toNat_toUInt32, toNat_chunkIndex]

theorem toNat_chunkEnd :
    s.chunkEnd.toNat = (s.currentSize.toNat - s.newSize.toNat - 1) / C % 2 ^ 32 := by
  have hlt := UInt64.lt_iff_toNat_lt.mp s.shrinks
  have hdiff : (s.currentSize - s.newSize).toNat = s.currentSize.toNat - s.newSize.toNat :=
    UInt64.toNat_sub_of_le _ _ (UInt64.le_iff_toNat_le.mpr hlt.le)
  have hone : (s.currentSize - s.newSize - 1).toNat = s.currentSize.toNat - s.newSize.toNat - 1 := by
    rw [UInt64.toNat_sub_of_le _ _ (UInt64.le_iff_toNat_le.mpr (by rw [hdiff, UInt64.toNat_one]; omega)),
      hdiff, UInt64.toNat_one]
  rw [Sizes.chunkEnd, UInt64.toNat_toUInt32, toNat_chunkIndex, hone]

def Visited (s : Sizes) (id : UInt32) : Prop :=
  s.newSize.toNat / C % 2 ^ 32 ≤ id.toNat ∧
    id.toNat ≤ (s.currentSize.toNat - s.newSize.toNat - 1) / C % 2 ^ 32

theorem visited_iff (id : UInt32) : Visited s id ↔ s.chunkStart ≤ id ∧ id ≤ s.chunkEnd := by
  rw [Visited, UInt32.le_iff_toNat_le, UInt32.le_iff_toNat_le, toNat_chunkStart, toNat_chunkEnd]

theorem mem_forwardTruncate {fuel : Nat} {hosts : Finset UInt32}
    (h : forwardTruncate d path s fuel = some hosts) (k : UInt32) :
    k ∈ hosts ↔ ∃ id, Visited s id ∧ d.locateData path id = k := by
  rw [(collectHosts_spec h).2 k]
  simp only [Finset.notMem_empty, false_or, visited_iff]

/-- A truncate reaches all hosts exactly if its last chunk id is not the largest
of 32 bits, and each chunk with data to drop shares its host with a chunk id from
the one of the new size to the one of the difference of the sizes. -/
theorem truncateReaches_iff :
    TruncateReaches d path s ↔
      (s.currentSize.toNat - s.newSize.toNat - 1) / C % 2 ^ 32 ≠ 2 ^ 32 - 1 ∧
        ∀ c, s.newSize.toNat / C ≤ c → c ≤ (s.currentSize.toNat - 1) / C →
          ∃ id, Visited s id ∧ d.locateData path id = d.locateData path (UInt32.ofNat c) := by
  constructor
  · rintro ⟨fuel, hosts, hrun, hcovers, -⟩
    refine ⟨?_, fun c h1 h2 => (mem_forwardTruncate hrun _).mp (hcovers c h1 h2)⟩
    rw [← toNat_chunkEnd]
    exact (collectHosts_spec hrun).1
  · rintro ⟨hend, hshare⟩
    rw [← toNat_chunkEnd] at hend
    obtain ⟨hosts, hrun⟩ := collectHosts_ends (d.locateData path) hend _ s.chunkStart rfl ∅
    have hcovers : Covers d path s hosts := fun c h1 h2 =>
      (mem_forwardTruncate hrun _).mpr (hshare c h1 h2)
    exact ⟨_, hosts, hrun, hcovers, dropsAll_of_covers hcovers⟩

/-- On two hosts or more some hash puts one chunk id apart from all others. -/
theorem exists_apart (d : SimpleHashDistributor) (path : Path) (hsize : d.hostsSize ≠ 1) (id : UInt32) :
    ∃ strHash : Bytes → UInt64, ∀ j, { d with strHash := strHash }.locateData path j =
      { d with strHash := strHash }.locateData path id → j = id := by
  refine ⟨fun key => if key = path ++ decimal id.toNat then 1 else 0, fun j hj => ?_⟩
  by_contra hne
  have hkey : path ++ decimal j.toNat ≠ path ++ decimal id.toNat := fun h =>
    hne (UInt32.toNat_inj.mp (decimal_injective (List.append_cancel_left h)))
  simp only [SimpleHashDistributor.locateData, if_neg hkey, if_true] at hj
  have h2 : 2 ≤ d.hostsSize.toNat := by
    have h0 := d.hostsSize_ne
    rw [ne_eq, ← UInt32.toNat_inj] at h0 hsize
    have hone : (1 : UInt32).toNat = 1 := rfl
    have hzero : (0 : UInt32).toNat = 0 := rfl
    omega
  rw [← UInt32.toNat_inj, UInt64.toNat_toUInt32, UInt64.toNat_toUInt32, UInt64.toNat_mod, UInt64.toNat_mod,
    UInt32.toNat_toUInt64, UInt64.toNat_zero, UInt64.toNat_one, Nat.mod_eq_of_lt h2] at hj
  simp at hj

/-- The cut starts in the first chunk, no further in than the last byte is in its own chunk, and drops no
more bytes than the 32-bit chunk ids can number. -/
def Sizes.CutsFromFirst (s : Sizes) : Prop :=
  s.newSize.toNat % 2 ^ 51 < C ∧ s.newSize.toNat % C ≤ (s.currentSize.toNat - 1) % C ∧
    s.currentSize.toNat - s.newSize.toNat ≤ 2 ^ 51 - C

/-- The number of bytes dropped, less one, reaches the chunk number of the new size. -/
def Sizes.CutsAsMuch (s : Sizes) : Prop :=
  s.newSize.toNat % 2 ^ 51 / C ≤ (s.currentSize.toNat - s.newSize.toNat - 1) % 2 ^ 51 / C ∧
    (s.currentSize.toNat - s.newSize.toNat - 1) % 2 ^ 51 < 2 ^ 51 - C

variable (s) in
theorem visits_range_iff :
    ((s.currentSize.toNat - s.newSize.toNat - 1) / C % 2 ^ 32 ≠ 2 ^ 32 - 1 ∧
      ∀ c, s.newSize.toNat / C ≤ c → c ≤ (s.currentSize.toNat - 1) / C → Visited s (UInt32.ofNat c)) ↔
      s.CutsFromFirst := by
  have hlt := UInt64.lt_iff_toNat_lt.mp s.shrinks
  have hlo : s.newSize.toNat / C + (s.currentSize.toNat - s.newSize.toNat - 1) / C ≤
      (s.currentSize.toNat - 1) / C := by
    simp only [C]
    omega
  have hhi : (s.currentSize.toNat - 1) / C ≤
      s.newSize.toNat / C + (s.currentSize.toNat - s.newSize.toNat - 1) / C + 1 := by
    simp only [C]
    omega
  simp only [Visited, UInt32.toNat_ofNat']
  rw [covers_range_iff hlo hhi (by decide), Sizes.CutsFromFirst]
  simp only [C]
  omega

variable (s) in
theorem visits_some_iff :
    ((s.currentSize.toNat - s.newSize.toNat - 1) / C % 2 ^ 32 ≠ 2 ^ 32 - 1 ∧ ∃ id, Visited s id) ↔
      s.CutsAsMuch := by
  have hsome : (∃ id, Visited s id) ↔ s.newSize.toNat / C % 2 ^ 32 ≤
      (s.currentSize.toNat - s.newSize.toNat - 1) / C % 2 ^ 32 := by
    refine ⟨fun ⟨id, h1, h2⟩ => h1.trans h2, fun hle => ⟨s.chunkStart, ?_⟩⟩
    rw [Visited, toNat_chunkStart]
    exact ⟨le_rfl, hle⟩
  rw [hsome, Sizes.CutsAsMuch]
  simp only [C]
  omega

theorem locateData_oneHost (hone : d.hostsSize = 1) (path : Path) (id : UInt32) : d.locateData path id = 0 := by
  have hlt := locateData_lt d path id
  rw [hone, UInt32.lt_iff_toNat_lt] at hlt
  exact UInt32.toNat_inj.mp (Nat.lt_one_iff.mp hlt)

/-- A truncate reaches all hosts however the chunks are hashed exactly if its sizes make the ids that it
visits those of the chunks to drop, or there is one host and at least one id. -/
theorem truncateReaches_everyHash_iff (d : SimpleHashDistributor) (path : Path) (s : Sizes) :
    (∀ strHash, TruncateReaches { d with strHash := strHash } path s) ↔
      s.CutsFromFirst ∨ d.hostsSize = 1 ∧ s.CutsAsMuch := by
  have hlt := UInt64.lt_iff_toNat_lt.mp s.shrinks
  have hrange : s.newSize.toNat / C ≤ (s.currentSize.toNat - 1) / C := Nat.div_le_div_right (by omega)
  constructor
  · intro hreaches
    have hhash := fun strHash => truncateReaches_iff.mp (hreaches strHash)
    by_cases hone : d.hostsSize = 1
    · obtain ⟨hend, hshare⟩ := hhash d.strHash
      obtain ⟨id, hid, -⟩ := hshare _ le_rfl hrange
      exact .inr ⟨hone, (visits_some_iff s).mp ⟨hend, id, hid⟩⟩
    · refine .inl ((visits_range_iff s).mp ⟨(hhash d.strHash).1, fun c h1 h2 => ?_⟩)
      obtain ⟨strHash, hapart⟩ := exists_apart d path hone (UInt32.ofNat c)
      obtain ⟨id, hid, hsame⟩ := (hhash strHash).2 c h1 h2
      rwa [← hapart id hsame]
  · rintro (hfirst | ⟨hone, hmuch⟩) strHash
    · obtain ⟨hend, hall⟩ := (visits_range_iff s).mpr hfirst
      exact truncateReaches_iff.mpr ⟨hend, fun c h1 h2 => ⟨_, hall c h1 h2, rfl⟩⟩
    · obtain ⟨hend, id, hid⟩ := (visits_some_iff s).mpr hmuch
      refine truncateReaches_iff.mpr ⟨hend, fun c _ _ => ⟨id, hid, ?_⟩⟩
      have hzero := locateData_oneHost (d := { d with strHash := strHash }) hone path
      rw [hzero, hzero]

/-- Ten chunks cut to nine: the loop from chunk 9 to chunk 0 contacts nobody. -/
def nearEnd : Sizes := ⟨5242880, 4718592, by decide⟩

theorem nearEnd_contacts_nobody :
    forwardTruncate twoHosts (text "/f") nearEnd 1 = some ∅ ∧
      ¬ TruncateReaches twoHosts (text "/f") nearEnd := by
  refine ⟨by decide +kernel, ?_⟩
  rintro ⟨fuel, hosts, hrun, hcovers, -⟩
  have hmem := hcovers 9 (by decide) (by decide)
  obtain ⟨id, ⟨h1, h2⟩, -⟩ := (mem_forwardTruncate hrun _).mp hmem
  have hlo : nearEnd.newSize.toNat / C % 2 ^ 32 = 9 := by decide
  have hhi : (nearEnd.currentSize.toNat - nearEnd.newSize.toNat - 1) / C % 2 ^ 32 = 0 := by decide
  omega

end Cluster

end GaoFS.ForwardTruncate
