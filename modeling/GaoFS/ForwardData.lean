import GaoFS.Chunks
import GaoFS.Replies
import Mathlib.Data.List.Induction

namespace GaoFS.ForwardData

open Arithmetic Chunks Replies Library.Blocks

/-- Input of the write and of the read request, which have the same fields. The
last one is the size of the buffer behind the bulk handle. -/
structure DataIn where
  path : Path
  offset : Int64
  hostId : UInt64
  hostSize : UInt64
  chunkN : UInt64
  chunkStart : UInt64
  chunkEnd : UInt64
  totalChunkSize : UInt64
  bulkSize : UInt64
  deriving DecidableEq

/-- The values that a loop from `start` to `stop` inclusive gives its variable. -/
def chnkIds (start stop : UInt64) : List UInt64 :=
  (List.range' start.toNat (stop.toNat + 1 - start.toNat)).map UInt64.ofNat

structure Targets where
  targetChnks : UInt64 → Option (List UInt64)
  targets : List UInt64
  chnkStartTarget : UInt64
  chnkEndTarget : UInt64

def target (d : SimpleHashDistributor) (path : Path) (chnkId : UInt64) : UInt64 :=
  (d.locateData path chnkId.toUInt32).toUInt64

def addChnk (d : SimpleHashDistributor) (path : Path) (chnkStart chnkEnd : UInt64)
    (t : Targets) (chnkId : UInt64) : Targets :=
  let k := target d path chnkId
  let t := match t.targetChnks k with
    | none => { t with
        targetChnks := Function.update t.targetChnks k (some [chnkId])
        targets := t.targets ++ [k] }
    | some ids => { t with targetChnks := Function.update t.targetChnks k (some (ids ++ [chnkId])) }
  let t := if chnkId = chnkStart then { t with chnkStartTarget := k } else t
  if chnkId = chnkEnd then { t with chnkEndTarget := k } else t

def collectTargets (d : SimpleHashDistributor) (path : Path) (chnkStart chnkEnd : UInt64) : Targets :=
  (chnkIds chnkStart chnkEnd).foldl (addChnk d path chnkStart chnkEnd) ⟨fun _ => none, [], 0, 0⟩

def totalChunkSize (t : Targets) (offset size k : UInt64) : UInt64 :=
  let total := UInt64.ofNat ((t.targetChnks k).getD []).length * chunksize
  let total := if k = t.chnkStartTarget then total - blockOverrun offset chunksize else total
  if k = t.chnkEndTarget ∧ isAligned (offset + size) chunksize = false then
    total - blockUnderrun (offset + size) chunksize
  else total

/-- The messages of one transfer, in the order in which they are posted. The
bodies of `forward_write` and `forward_read` compute them alike. -/
def dataRequests (d : SimpleHashDistributor) (path : Path) (offset size : UInt64) : List DataIn :=
  let chnkStart := blockIndex offset chunksize
  let chnkEnd := blockIndex (offset + size - 1) chunksize
  let t := collectTargets d path chnkStart chnkEnd
  t.targets.map fun k =>
    { path := path
      offset := (blockOverrun offset chunksize).toInt64
      hostId := k
      hostSize := d.hostsSize.toUInt64
      chunkN := UInt64.ofNat ((t.targetChnks k).getD []).length
      chunkStart := chnkStart
      chunkEnd := chnkEnd
      totalChunkSize := totalChunkSize t offset size k
      bulkSize := size }

/-- Requests of `forward_write`. Without the append flag the offset is recovered
from the size that the metadata host replied. -/
def forwardWrite (d : SimpleHashDistributor) (path : Path) (appendFlag : Bool) (inOffset : Int64)
    (writeSize : UInt64) (updatedMetadentrySize : Int64) : List DataIn :=
  let offset := if appendFlag then inOffset.toUInt64 else updatedMetadentrySize.toUInt64 - writeSize
  dataRequests d path offset writeSize

def forwardRead (d : SimpleHashDistributor) (path : Path) (offset : Int64) (readSize : UInt64) :
    List DataIn :=
  dataRequests d path offset.toUInt64 readSize

structure DataOut where
  err : Int32
  ioSize : UInt64
  deriving DecidableEq

/-- The reply loop of both functions: `none` is a reply that could not be had. -/
def collectReply (s : Int32 × UInt64) : Option DataOut → Int32 × UInt64
  | some out => (if out.err ≠ 0 then out.err else s.1, s.2 + out.ioSize)
  | none => ( EIO, s.2)

def collectReplies (outs : List (Option DataOut)) : Int32 × Int64 :=
  let s := outs.foldl collectReply (0, 0)
  if s.1 ≠ 0 then (s.1, 0) else (0, s.2.toInt64)

theorem collectReplies_ok (outs : List DataOut) (h : ∀ o ∈ outs, o.err = 0) :
    collectReplies (outs.map some) = (0, ((outs.map DataOut.ioSize).sum).toInt64) := by
  have hfold : ∀ (l : List DataOut) (s : UInt64), (∀ o ∈ l, o.err = 0) →
      (l.map some).foldl collectReply (0, s) = (0, s + (l.map DataOut.ioSize).sum) := by
    intro l
    induction l with
    | nil => simp
    | cons o l ih =>
      intro s hl
      rw [List.map_cons, List.foldl_cons, collectReply, hl o List.mem_cons_self]
      simp only [ne_eq, not_true_eq_false, ↓reduceIte, List.map_cons, List.sum_cons]
      rw [ih _ (fun p hp => hl p (List.mem_cons_of_mem o hp)), UInt64.add_assoc]
  simp [collectReplies, hfold outs 0 h]

theorem EIO_ne_zero : ( EIO : Int32) ≠ 0 := by decide

/-- An error that a reply has left is not forgotten. -/
theorem collectReply_error (outs : List (Option DataOut)) {s : Int32 × UInt64} (hs : s.1 ≠ 0) :
    (outs.foldl collectReply s).1 ≠ 0 := by
  induction outs generalizing s with
  | nil => exact hs
  | cons out outs ih =>
    apply ih
    cases out with
    | none => exact EIO_ne_zero
    | some out =>
      change (if out.err ≠ 0 then out.err else s.1) ≠ 0
      split
      · assumption
      · exact hs

/-- Without an error every message had a reply, and their counts are added up. -/
theorem collectReply_le {reqs : List DataIn} {reply : DataIn → Option DataOut} {s : UInt64}
    (hbound : ∀ r ∈ reqs, ∀ out, reply r = some out → out.ioSize ≤ r.totalChunkSize)
    (hlt : s.toNat + (reqs.map fun r => r.totalChunkSize.toNat).sum < 2 ^ 64)
    (hok : ((reqs.map reply).foldl collectReply (0, s)).1 = 0) :
    ((reqs.map reply).foldl collectReply (0, s)).2.toNat ≤
      s.toNat + (reqs.map fun r => r.totalChunkSize.toNat).sum := by
  induction reqs generalizing s with
  | nil => exact Nat.le_add_right _ _
  | cons r reqs ih =>
    simp only [List.map_cons, List.foldl_cons, List.sum_cons] at hok hlt ⊢
    cases hr : reply r with
    | none =>
      rw [hr] at hok
      exact absurd hok (collectReply_error _ EIO_ne_zero)
    | some out =>
      rw [hr] at hok
      have hout := UInt64.le_iff_toNat_le.mp (hbound r List.mem_cons_self out hr)
      by_cases herr : out.err = 0
      · have hreply : collectReply (0, s) (some out) = (0, s + out.ioSize) := by
          simp [collectReply, herr]
        have hsum : (s + out.ioSize).toNat = s.toNat + out.ioSize.toNat := toNat_add_of_lt (by omega)
        rw [hreply] at hok ⊢
        have hle := ih (s := s + out.ioSize) (fun r hr => hbound r (List.mem_cons_of_mem _ hr))
          (by omega) hok
        omega
      · have hreply : (collectReply (0, s) (some out)).1 ≠ 0 := by
          simp [collectReply, herr]
        exact absurd hok (collectReply_error _ hreply)

section Grouping

variable (d : SimpleHashDistributor) (path : Path) (chnkStart chnkEnd : UInt64)

@[simp] theorem addChnk_targetChnks (t : Targets) (c : UInt64) :
    (addChnk d path chnkStart chnkEnd t c).targetChnks =
      Function.update t.targetChnks (target d path c)
        (some ((t.targetChnks (target d path c)).getD [] ++ [c])) := by
  cases h : t.targetChnks (target d path c) <;> simp only [addChnk, h] <;> split_ifs <;> rfl

@[simp] theorem addChnk_targets (t : Targets) (c : UInt64) :
    (addChnk d path chnkStart chnkEnd t c).targets =
      if t.targetChnks (target d path c) = none then t.targets ++ [target d path c]
      else t.targets := by
  cases h : t.targetChnks (target d path c) <;> simp only [addChnk, h] <;> split_ifs <;> simp_all

@[simp] theorem addChnk_chnkStartTarget (t : Targets) (c : UInt64) :
    (addChnk d path chnkStart chnkEnd t c).chnkStartTarget =
      if c = chnkStart then target d path c else t.chnkStartTarget := by
  cases h : t.targetChnks (target d path c) <;> simp only [addChnk, h] <;> split_ifs <;> rfl

@[simp] theorem addChnk_chnkEndTarget (t : Targets) (c : UInt64) :
    (addChnk d path chnkStart chnkEnd t c).chnkEndTarget =
      if c = chnkEnd then target d path c else t.chnkEndTarget := by
  cases h : t.targetChnks (target d path c) <;> simp only [addChnk, h] <;> split_ifs <;> rfl

/-- What the grouping loop has built after visiting `ids`. -/
structure Grouped (ids : List UInt64) (t : Targets) : Prop where
  chnks : ∀ k, (t.targetChnks k).getD [] = ids.filter (fun c => target d path c = k)
  absent : ∀ k, t.targetChnks k = none ↔ k ∉ t.targets
  nodup : t.targets.Nodup
  mem : ∀ k, k ∈ t.targets ↔ ∃ c ∈ ids, target d path c = k
  first : chnkStart ∈ ids → t.chnkStartTarget = target d path chnkStart
  last : chnkEnd ∈ ids → t.chnkEndTarget = target d path chnkEnd

/-- The first and the last chunk set their target when the loop comes to them. -/
theorem target_snoc {ids : List UInt64} {m c k : UInt64} (h : m ∈ ids → k = target d path m)
    (hm : m ∈ ids ++ [c]) : (if c = m then target d path c else k) = target d path m := by
  split
  · rename_i he
    rw [he]
  · rename_i he
    cases List.mem_append.mp hm with
    | inl hold => exact h hold
    | inr hnew => exact absurd (List.mem_singleton.mp hnew).symm he

theorem Grouped.add {ids : List UInt64} {t : Targets}
    (h : Grouped d path chnkStart chnkEnd ids t) (c : UInt64) :
    Grouped d path chnkStart chnkEnd (ids ++ [c]) (addChnk d path chnkStart chnkEnd t c) := by
  have habsent := h.absent (target d path c)
  refine ⟨?_, ?_, ?_, ?_, ?_, ?_⟩
  · intro k
    by_cases hk : target d path c = k
    · subst hk; simp [h.chnks]
    · simp [h.chnks, hk, Ne.symm hk]
  · intro k
    by_cases hk : k = target d path c
    · subst hk
      by_cases hc : t.targetChnks (target d path c) = none
      · simp [hc]
      · simpa [hc] using fun hn => hc (habsent.mpr hn)
    · by_cases hc : t.targetChnks (target d path c) = none <;> simp [hc, hk, h.absent]
  · rw [addChnk_targets]
    split
    · rename_i hc
      exact List.nodup_append.mpr ⟨h.nodup, by simp, by
        intro a ha b hb
        rw [List.mem_singleton.mp hb]
        exact fun he => habsent.mp hc (he ▸ ha)⟩
    · exact h.nodup
  · intro k
    have hsplit : (∃ e ∈ ids ++ [c], target d path e = k) ↔ k ∈ t.targets ∨ target d path c = k := by
      simp [h.mem, or_and_right, exists_or]
    rw [hsplit, addChnk_targets]
    split
    · simp [eq_comm]
    · rename_i hc
      exact ⟨.inl, fun hor => hor.elim id (fun he => he ▸ by_contra fun hn => hc (habsent.mpr hn))⟩
  · intro hs
    rw [addChnk_chnkStartTarget]
    exact target_snoc d path h.first hs
  · intro hs
    rw [addChnk_chnkEndTarget]
    exact target_snoc d path h.last hs

theorem collectTargets_grouped :
    Grouped d path chnkStart chnkEnd (chnkIds chnkStart chnkEnd)
      (collectTargets d path chnkStart chnkEnd) := by
  have hall : ∀ ids : List UInt64, Grouped d path chnkStart chnkEnd ids
      (ids.foldl (addChnk d path chnkStart chnkEnd) ⟨fun _ => none, [], 0, 0⟩) := by
    intro ids
    induction ids using List.reverseRecOn with
    | nil => exact ⟨by simp, by simp, by simp, by simp, by simp, by simp⟩
    | append_singleton ids c ih =>
      rw [List.foldl_append]
      exact ih.add d path chnkStart chnkEnd c
  exact hall _

end Grouping

section Requests

variable (d : SimpleHashDistributor) (path : Path) (o n : Nat)

def home (c : Nat) : UInt64 := target d path (UInt64.ofNat c)

def chunksAt (k : UInt64) : List Nat := (blocks C o n).filter (fun c => home d path c = k)

/-- What a request says in terms of the file range `[o, o + n)`. -/
structure Plans (r : DataIn) : Prop where
  path_eq : r.path = path
  hostSize : r.hostSize.toUInt32 = d.hostsSize
  offset : r.offset.toUInt64.toNat = o % C
  chunkN : r.chunkN.toNat = (chunksAt d path o n r.hostId).length
  chunkStart : r.chunkStart.toNat = o / C
  chunkEnd : r.chunkEnd.toNat = (o + n - 1) / C
  total : r.totalChunkSize.toNat = ((chunksAt d path o n r.hostId).map (len C o n)).sum
  bulkSize : r.bulkSize.toNat = n

variable {d path o n}

theorem chnkIds_eq {start stop : UInt64} (h : start.toNat = o / C) (h' : stop.toNat = (o + n - 1) / C) :
    chnkIds start stop = (blocks C o n).map UInt64.ofNat := by
  rw [chnkIds, blocks, h, h']

theorem toNat_ofNat_block {c : Nat} (ho : o + n < 2 ^ 64) (hc : c ∈ blocks C o n) :
    (UInt64.ofNat c).toNat = c := by
  have hle := (mem_blocks.mp hc).2
  have hdiv := Nat.div_le_self (o + n - 1) C
  rw [UInt64.toNat_ofNat', Nat.mod_eq_of_lt]
  omega

variable (d path) in
/-- The sizes that a destination is given add up to its whole chunks less what
the request leaves of the first and of the last one. -/
theorem sum_len_chunksAt (o : Nat) {n : Nat} (hn : 0 < n) (k : UInt64) :
    ((chunksAt d path o n k).map (len C o n)).sum +
      (if o / C ∈ chunksAt d path o n k then o % C else 0) +
      (if (o + n - 1) / C ∈ chunksAt d path o n k then
        ((o + n - 1) / C + 1) * C - (o + n) else 0) = (chunksAt d path o n k).length * C := by
  apply sum_sub_special _ (blocks_nodup.filter _)
  intro c hc
  have h := len_eq C_pos hn (List.mem_of_mem_filter hc)
  by_cases hl : c = (o + n - 1) / C
  · subst hl; simpa using h
  · simpa [hl] using h

theorem mem_chunksAt {k : UInt64} {c : Nat} :
    c ∈ chunksAt d path o n k ↔ c ∈ blocks C o n ∧ home d path c = k := by
  simp [chunksAt]

variable (d path) in
theorem sum_len_chunksAt_le (o : Nat) {n : Nat} (hn : 0 < n) (k : UInt64) :
    ((chunksAt d path o n k).map (len C o n)).sum ≤ n := by
  have hsub : ((chunksAt d path o n k).map (len C o n)).Sublist ((blocks C o n).map (len C o n)) :=
    List.filter_sublist.map _
  exact (hsub.sum_le_sum (fun _ _ => Nat.zero_le _)).trans (sum_len_blocks C_pos hn).le

variable (d path o n) in
theorem length_chunksAt_le (k : UInt64) : (chunksAt d path o n k).length * C ≤ n + 2 * C := by
  have h := List.length_filter_le (fun c => decide (home d path c = k)) (blocks C o n)
  have hb : (blocks C o n).length = (o + n - 1) / C + 1 - o / C := by simp [blocks]
  simp only [chunksAt, C] at *
  omega

theorem toNat_ite_sub (p : Prop) [Decidable p] (a b : UInt64) (h : p → b.toNat ≤ a.toNat) :
    (if p then a - b else a).toNat = a.toNat - if p then b.toNat else 0 := by
  split
  · rename_i hp
    exact UInt64.toNat_sub_of_le _ _ (UInt64.le_iff_toNat_le.mpr (h hp))
  · rfl

/-- Whether a chunk of the range is the one whose destination `k` is recorded. -/
theorem target_iff_mem_chunksAt {c : Nat} {id k : UInt64} (hc : c ∈ blocks C o n)
    (hid : id.toNat = c) : k = target d path id ↔ c ∈ chunksAt d path o n k := by
  have hof : UInt64.ofNat c = id := by rw [← hid, UInt64.ofNat_toNat]
  rw [← hof, mem_chunksAt, eq_comm]
  exact ⟨fun h => ⟨hc, h⟩, fun h => h.2⟩

theorem totalChunkSize_eq {offset size : UInt64} {t : Targets} {start stop k : UInt64}
    (ho : offset.toNat = o) (hs : size.toNat = n) (hn : 0 < n) (hn' : n < 2 ^ 63)
    (hon : o + n < 2 ^ 64) (hstart : start.toNat = o / C) (hstop : stop.toNat = (o + n - 1) / C)
    (ht : Grouped d path start stop ((blocks C o n).map UInt64.ofNat) t) :
    (totalChunkSize t offset size k).toNat = ((chunksAt d path o n k).map (len C o n)).sum := by
  have hsum := sum_len_chunksAt d path o hn k
  have hle := length_chunksAt_le d path o n k
  have hlen : ((t.targetChnks k).getD []).length = (chunksAt d path o n k).length := by
    rw [ht.chnks, List.filter_map, List.length_map]
    rfl
  have hdiv : o / C ≤ (o + n - 1) / C := Nat.div_le_div_right (by omega)
  have hfirst : k = t.chnkStartTarget ↔ o / C ∈ chunksAt d path o n k := by
    have hb : o / C ∈ blocks C o n := mem_blocks.mpr ⟨le_rfl, hdiv⟩
    rw [ht.first (List.mem_map.mpr ⟨o / C, hb, by rw [← hstart, UInt64.ofNat_toNat]⟩)]
    exact target_iff_mem_chunksAt hb hstart
  have hlast : k = t.chnkEndTarget ↔ (o + n - 1) / C ∈ chunksAt d path o n k := by
    have hb : (o + n - 1) / C ∈ blocks C o n := mem_blocks.mpr ⟨hdiv, le_rfl⟩
    rw [ht.last (List.mem_map.mpr ⟨_, hb, by rw [← hstop, UInt64.ofNat_toNat]⟩)]
    exact target_iff_mem_chunksAt hb hstop
  have hend : (offset + size).toNat = o + n := by
    rw [UInt64.toNat_add, ho, hs, Nat.mod_eq_of_lt hon]
  have htotal : (UInt64.ofNat (chunksAt d path o n k).length * chunksize).toNat =
      (chunksAt d path o n k).length * C := by
    rw [UInt64.toNat_mul, UInt64.toNat_ofNat', toNat_chunksize]
    simp only [C] at *
    omega
  have hover : (blockOverrun offset chunksize).toNat = o % C := by rw [toNat_chunkOverrun, ho]
  have hunder : (blockUnderrun (offset + size) chunksize).toNat = C - (o + n) % C := by
    rw [toNat_chunkUnderrun, hend]
  have halign : isAligned (offset + size) chunksize = false ↔ (o + n) % C ≠ 0 := by
    rw [← hend, ← Bool.not_eq_true, chunkAligned_iff]
  have hmod : ((o + n - 1) / C + 1) * C - (o + n) = if (o + n) % C ≠ 0 then C - (o + n) % C else 0 := by
    simp only [C]
    split <;> omega
  rw [hmod, ← ite_and] at hsum
  simp only [totalChunkSize, hlen, hfirst, hlast, halign]
  rw [toNat_ite_sub, toNat_ite_sub, htotal, hover, hunder]
  · omega
  · intro h
    rw [if_pos h] at hsum
    omega
  · intro h
    rw [if_pos h] at hsum
    rw [toNat_ite_sub, htotal, hover, hunder]
    · omega
    · intro h'
      rw [if_pos h'] at hsum
      omega

/-- The last byte of a range. -/
theorem toNat_last {offset size : UInt64} (ho : offset.toNat = o) (hs : size.toNat = n) (hn : 0 < n)
    (hon : o + n < 2 ^ 64) : (offset + size - 1).toNat = o + n - 1 := by
  have h : (offset + size).toNat = o + n := by
    rw [UInt64.toNat_add, ho, hs, Nat.mod_eq_of_lt hon]
  rw [UInt64.toNat_sub_of_le _ _ (UInt64.le_iff_toNat_le.mpr (by rw [h]; simpa using by omega)), h]
  rfl

theorem dataRequests_plans {offset size : UInt64} (ho : offset.toNat = o) (hs : size.toNat = n)
    (hn : 0 < n) (hn' : n < 2 ^ 63) (hon : o + n < 2 ^ 64) :
    ∀ r ∈ dataRequests d path offset size, Plans d path o n r := by
  intro r hr
  have hstart : (blockIndex offset chunksize).toNat = o / C := by rw [toNat_chunkIndex, ho]
  have hstop : (blockIndex (offset + size - 1) chunksize).toNat = (o + n - 1) / C := by
    rw [toNat_chunkIndex, toNat_last ho hs hn hon]
  have ht := collectTargets_grouped d path (blockIndex offset chunksize)
    (blockIndex (offset + size - 1) chunksize)
  rw [chnkIds_eq hstart hstop] at ht
  obtain ⟨k, hk, rfl⟩ := List.mem_map.mp hr
  refine ⟨rfl, ?_, ?_, ?_, hstart, hstop, ?_, hs⟩
  · simp
  · simp [ho]
  · have hle := length_chunksAt_le d path o n k
    have hlen : ((collectTargets d path (blockIndex offset chunksize)
        (blockIndex (offset + size - 1) chunksize)).targetChnks k).getD [] =
        (chunksAt d path o n k).map UInt64.ofNat := by
      rw [ht.chnks, List.filter_map]
      rfl
    simp only [hlen, List.length_map, UInt64.toNat_ofNat', C] at hle ⊢
    omega
  · exact totalChunkSize_eq ho hs hn hn' hon hstart hstop ht

variable (d path) in
/-- One message goes to each host that holds a chunk of the range, and to no other. -/
theorem dataRequests_hosts {offset size : UInt64} (ho : offset.toNat = o) (hs : size.toNat = n)
    (hn : 0 < n) (hon : o + n < 2 ^ 64) :
    ((dataRequests d path offset size).map DataIn.hostId).Nodup ∧
      ∀ k, k ∈ (dataRequests d path offset size).map DataIn.hostId ↔
        ∃ c ∈ blocks C o n, home d path c = k := by
  have ht := collectTargets_grouped d path (blockIndex offset chunksize)
    (blockIndex (offset + size - 1) chunksize)
  rw [chnkIds_eq (by rw [toNat_chunkIndex, ho]) (by rw [toNat_chunkIndex, toNat_last ho hs hn hon])] at ht
  have hmap : (dataRequests d path offset size).map DataIn.hostId =
      (collectTargets d path (blockIndex offset chunksize)
        (blockIndex (offset + size - 1) chunksize)).targets := by
    simp [dataRequests, Function.comp_def]
  rw [hmap]
  refine ⟨ht.nodup, fun k => ?_⟩
  rw [ht.mem]
  simp [home]

end Requests

end GaoFS.ForwardData
