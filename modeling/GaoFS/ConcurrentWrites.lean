import GaoFS.FileContents

namespace GaoFS.ConcurrentWrites

open Arithmetic Chunks Replies ForwardData SrvData ChunkStorage FirstChunkRecord DataOps MetadataRecord
open MergeOperator MetadataDB ForwardRemove StoredWrites WritesInFlight
open FileContents
open MetadataKey (Key Store Recorded getMetadata rpcSrvUpdateMetadentrySize)
open WriteRun hiding start
open FirstChunkRace (Pc)
open Library.NumberText Library.Blocks Library.ByteFile Library.Runs

section Done

variable {d : SimpleHashDistributor} {path : Path} {o n : Nat} {r : DataIn} {user : Bytes} {sv sv' : Serving}

/-- The task for a chunk is done. -/
def Done (sv : Serving) (c : UInt64) : Prop :=
  ∃ idx slot, sv.srv.loop.slots[idx]? = some slot ∧ slot.chnkId = c ∧ (sv.eventual idx).isSome

theorem not_done_init (inp : DataIn) (c : UInt64) : ¬ Done (Serving.init inp) c := by
  rintro ⟨idx, slot, -, -, hdone⟩
  cases hdone

/-- A visit or a wait brings no task to its end. -/
theorem done_append (hfresh : ∀ idx, sv.srv.loop.slots[idx]? = none → sv.pc idx = .start) {new : List Slot}
    (hslots : sv'.srv.loop.slots = sv.srv.loop.slots ++ new) (hpc : sv'.pc = sv.pc) (c : UInt64) :
    Done sv' c ↔ Done sv c := by
  have hevent : sv'.eventual = sv.eventual := by
    funext idx
    simp only [Serving.eventual, hpc]
  have hold : ∀ idx, (sv.eventual idx).isSome → sv'.srv.loop.slots[idx]? = sv.srv.loop.slots[idx]? := by
    intro idx hdone
    obtain ⟨w, hw⟩ := Option.isSome_iff_exists.mp hdone
    cases hslot : sv.srv.loop.slots[idx]? with
    | none =>
      rw [eventual_eq_some, hfresh idx hslot] at hw
      cases hw
    | some slot => rw [hslots, List.getElem?_append_left (List.getElem?_eq_some_iff.mp hslot).1, hslot]
  constructor
  · rintro ⟨idx, slot, hslot, hc, hdone⟩
    rw [hevent] at hdone
    exact ⟨idx, slot, hold idx hdone ▸ hslot, hc, hdone⟩
  · rintro ⟨idx, slot, hslot, hc, hdone⟩
    exact ⟨idx, slot, (hold idx hdone).trans hslot, hc, hevent ▸ hdone⟩

theorem done_call {srv : Srv UInt8} {idx : Nat} {slot : Slot} {p : Pc} (hloop : srv.loop = sv.srv.loop)
    (hslot : sv.srv.loop.slots[idx]? = some slot) (hkeeps : ∀ w, sv.pc idx = .done w → p = .done w) (c : UInt64) :
    Done ⟨srv, Function.update sv.pc idx p⟩ c ↔ Done sv c ∨ c = slot.chnkId ∧ ∃ w, p = .done w := by
  have hevent : ∀ i w, Serving.eventual ⟨srv, Function.update sv.pc idx p⟩ i = some w ↔
      if i = idx then p = .done w else sv.pc i = .done w := by
    intro i w
    rw [eventual_eq_some]
    dsimp only
    rw [Function.update_apply]
    split <;> rfl
  constructor
  · rintro ⟨i, slot', hslot', hc, hdone⟩
    dsimp only at hslot'
    rw [hloop] at hslot'
    obtain ⟨w, hw⟩ := Option.isSome_iff_exists.mp hdone
    rw [hevent] at hw
    split at hw
    · rename_i hi
      rw [hi, hslot] at hslot'
      obtain rfl := Option.some.inj hslot'
      exact .inr ⟨hc.symm, w, hw⟩
    · exact .inl ⟨i, slot', hslot', hc, Option.isSome_iff_exists.mpr ⟨w, eventual_eq_some.mpr hw⟩⟩
  · rintro (⟨i, slot', hslot', hc, hdone⟩ | ⟨rfl, w, hw⟩)
    · obtain ⟨w, hw⟩ := Option.isSome_iff_exists.mp hdone
      refine ⟨i, slot', by rw [← hslot', ← hloop], hc, Option.isSome_iff_exists.mpr ⟨w, (hevent i w).mpr ?_⟩⟩
      rw [eventual_eq_some] at hw
      split
      · rename_i hi
        exact hkeeps w (hi ▸ hw)
      · exact hw
    · refine ⟨idx, slot, by rw [← hslot, ← hloop], rfl, Option.isSome_iff_exists.mpr ⟨w, (hevent idx w).mpr ?_⟩⟩
      rw [if_pos rfl]
      exact hw

/-- Two tasks of a daemon have different chunks. -/
theorem slot_unique {vis rest : List Nat} (hsplit : blocks C o n = vis ++ rest) {l : Loop}
    (h : LoopInv d path o n r vis rest l) {i j : Nat} {slot slot' : Slot} (hi : l.slots[i]? = some slot)
    (hj : l.slots[j]? = some slot') (heq : slot.chnkId = slot'.chnkId) : i = j := by
  have hnodup : (l.slots.map fun slot => slot.chnkId.toNat).Nodup := by
    rw [chunks_of_slots h]
    have hblocks : (blocks C o n).Nodup := blocks_nodup
    rw [hsplit] at hblocks
    exact (List.nodup_append.mp hblocks).1.filter _
  refine (List.getElem?_inj ?_ hnodup).mp ?_
  · rw [List.length_map]
    exact (List.getElem?_eq_some_iff.mp hi).1
  · rw [List.getElem?_map, List.getElem?_map, hi, hj, Option.map_some, Option.map_some, heq]

end Done

section Working

variable {ι : Type*} (d : SimpleHashDistributor) (f : FilePath) (calls : ι → Pwrite)

/-- The part of a chunk that a call has to write is written. -/
def Wrote (s : State ι) (i : ι) (c : UInt64) : Prop :=
  ∃ sv, s.serving i (target d f.path c) = some sv ∧ Done sv c

/-- The entry of the file has the size of the calls that have updated it. -/
def Sized (content final : Bytes) (s : State ι) : Prop :=
  ∃ md, Recorded ((s.cl (metadataHost d f.path)).store f.path).key md ∧ S_ISREG md.mode = true ∧
    content.length ≤ md.size.toNat ∧ md.size.toNat ≤ final.length ∧
    ∀ i, On f calls i → s.size i ≠ none → (calls i).stop ≤ md.size.toNat

/-- What holds of a file in every state that its calls reach. -/
structure Working (content final : Bytes) (base : Cluster) (s : State ι) : Prop where
  routed : Routed d calls s
  serving : ∀ i, On f calls i → ∀ host sv, s.serving i host = some sv →
    ServingInv d f.path (calls i).start (calls i).user.length sv.srv.inp (calls i).user sv
  clean : FirstClean ((s.cl (target d f.path 0)).store f.path).data
  stands : ∀ i, On f calls i → ∀ sv idx slot, s.serving i (target d f.path 0) = some sv →
    sv.srv.loop.slots[idx]? = some slot → slot.chnkId = 0 →
    Stands ((s.cl (target d f.path 0)).store f.path).data.firstChunk (sv.pc idx)
  holding : Holding d f calls final base s.cl (Wrote d f s)
  sized : Sized d f calls content final s

variable {d f calls} {content final : Bytes} {base cl : Cluster} {s s' : State ι}

theorem working_start (h : Contents d cl f content) (hsep : Separate d cl f calls)
    (hmerge : Merges f calls content final) : Working d f calls content final cl (start cl) := by
  refine ⟨routed_start cl, fun _ _ _ _ hsv => ?_, h.clean, fun _ _ _ _ _ hsv => ?_,
    ⟨hsep.reached, h.length_le, fun c j v hv => ?_, fun c j hj hv => ?_, fun c j hj hor => ?_⟩, ?_⟩
  · cases hsv
  · cases hsv
  · have hold := h.stored c j v hv
    by_cases hcov : ∃ i, On f calls i ∧ (calls i).Covers (c.toNat * C + j)
    · obtain ⟨i, hi, hx⟩ := hcov
      refine .inl ⟨i, hi, hx, ?_⟩
      rintro ⟨sv, hsv, -⟩
      cases hsv
    · have hrest := hmerge.uncovered _ fun i hi hx => hcov ⟨i, hi, hx⟩
      have hlt := (List.getElem?_eq_some_iff.mp hold).1.trans_le hmerge.length_le
      rw [hold, List.getElem?_eq_getElem hlt, Option.getD_some, Option.getD_some] at hrest
      exact .inr (by rw [List.getElem?_eq_getElem hlt, hrest])
  · have hold := h.absent c j hj hv
    by_cases hcov : ∃ i, On f calls i ∧ (calls i).Covers (c.toNat * C + j)
    · obtain ⟨i, hi, hx⟩ := hcov
      refine .inl ⟨i, hi, hx, ?_⟩
      rintro ⟨sv, hsv, -⟩
      cases hsv
    · exact .inr ((hmerge.uncovered _ fun i hi hx => hcov ⟨i, hi, hx⟩).trans hold)
  · refine hor.resolve_right ?_
    rintro ⟨i, hi, hx, sv, hsv, -⟩
    cases hsv
  · obtain ⟨md, hrec, hmode, hsize⟩ := h.recorded
    exact ⟨md, hrec, hmode, hsize.ge, hsize.le.trans hmerge.length_le, fun i _ hnot => absurd rfl hnot⟩

/-- A step that is not about the file. -/
theorem working_other (h : Working d f calls content final base s) {g : FilePath}
    (hdir : getChunksDir g.path ≠ getChunksDir f.path) (hframe : ∀ k, Frame g.path (s.cl k) (s'.cl k))
    (hrouted : Routed d calls s') (hserving : ∀ i, On f calls i → s'.serving i = s.serving i)
    (hsize : ∀ i, On f calls i → s'.size i = s.size i) : Working d f calls content final base s' := by
  have hne : f.path ≠ g.path := fun he => hdir (by rw [he])
  have hfirst := ((hframe (target d f.path 0)).others f.path (isAbsolute_path f.toCanonicalPath) hne).2
  have hkey := ((hframe (metadataHost d f.path)).others f.path (isAbsolute_path f.toCanonicalPath) hne).1
  refine ⟨hrouted, fun i hi host sv hsv => ?_, ?_, fun i hi sv idx slot hsv => ?_, ?_, ?_⟩
  · exact h.serving i hi host sv (hserving i hi ▸ hsv)
  · intro raw hraw
    exact h.clean raw (hfirst ▸ hraw)
  · rw [hfirst]
    exact h.stands i hi sv idx slot (hserving i hi ▸ hsv)
  · refine h.holding.congr (chunkOf_frame hdir hframe) fun i c hi => ?_
    rw [Wrote, Wrote, hserving i hi]
  · obtain ⟨md, hrec, hmode, hlo, hhi, hstop⟩ := h.sized
    exact ⟨md, hkey ▸ hrec, hmode, hlo, hhi, fun i hi hs => hstop i hi (hsize i hi ▸ hs)⟩

variable [DecidableEq ι]

theorem working_sendSize (h : Working d f calls content final base s) (hmerge : Merges f calls content final)
    {i : ι} (hi : On f calls i) (hunsent : s.size i = none) :
    Working d f calls content final base (sendSize d calls s i) := by
  have hpath : (calls i).file = f := hi
  have hcl := cl_sendSize (d := d) (s := s) hi
  refine ⟨h.routed.sendSize i, fun j hj host sv hsv => ?_, ?_, fun j hj sv idx slot hsv hslot h0 => ?_, ?_, ?_⟩
  · by_cases he : j = i
    · subst he
      obtain ⟨r, hr, rfl⟩ := init_of_sendSize hsv
      exact ServingInv.init (hpath ▸ requests_plans (calls j) d r hr)
    · rw [serving_sendSize_of_ne he] at hsv
      exact h.serving j hj host sv hsv
  · rw [data_sendSize hi]
    exact h.clean
  · rw [data_sendSize hi]
    by_cases he : j = i
    · subst he
      obtain ⟨r, -, rfl⟩ := init_of_sendSize hsv
      cases hslot
    · rw [serving_sendSize_of_ne he] at hsv
      exact h.stands j hj sv idx slot hsv hslot h0
  · refine h.holding.congr (chunkOf_sendSize hi) fun j c hj => ?_
    by_cases he : j = i
    · subst he
      refine iff_of_false ?_ ?_
      · rintro ⟨sv, hsv, hdone⟩
        obtain ⟨r, -, rfl⟩ := init_of_sendSize hsv
        exact not_done_init r c hdone
      · rintro ⟨sv, hsv, -⟩
        rw [h.routed.unsent j hunsent] at hsv
        cases hsv
    · rw [Wrote, Wrote, serving_sendSize_of_ne he]
  · obtain ⟨md, hrec, hmode, hlo, hhi, hstop⟩ := h.sized
    have hresize : ((MergeOperand.increaseSize ((calls i).count + (calls i).offset.toUInt64) false).resize
        md.size).toNat = max md.size.toNat (calls i).stop := by
      rw [MergeOperand.resize, ← toNat_sized]
      exact toNat_max _ _
    refine ⟨md.resized ((MergeOperand.increaseSize ((calls i).count + (calls i).offset.toUInt64) false).resize
      md.size), ?_, hmode, ?_, ?_, fun j hj hs => ?_⟩
    · rw [hcl, Cluster.putStore, Function.update_self, store_putStore]
      exact hrec.merge _
    · change _ ≤ (MergeOperand.resize _ _).toNat
      rw [hresize]
      exact hlo.trans (Nat.le_max_left _ _)
    · change (MergeOperand.resize _ _).toNat ≤ _
      rw [hresize]
      exact max_le hhi (hmerge.stop_le i hi)
    · change _ ≤ (MergeOperand.resize _ _).toNat
      rw [hresize]
      by_cases he : j = i
      · rw [he]
        exact Nat.le_max_right _ _
      · rw [size_sendSize, Function.update_of_ne he] at hs
        exact (hstop j hj hs).trans (Nat.le_max_left _ _)

/-- A step of a daemon that leaves its host alone and brings no task to its end. -/
theorem working_quiet (h : Working d f calls content final base s) {i : ι} (hi : On f calls i) {host : UInt64}
    {sv : Serving} (hsv : s.serving i host = some sv) (sv' : Serving) {new : List Slot}
    (hinv : ServingInv d f.path (calls i).start (calls i).user.length sv'.srv.inp (calls i).user sv')
    (hslots : sv'.srv.loop.slots = sv.srv.loop.slots ++ new) (hpc : sv'.pc = sv.pc)
    (hrouted : Routed d calls s') (hcl : s'.cl = s.cl) (hsize : s'.size = s.size)
    (hserving : ∀ j k, s'.serving j k = if j = i ∧ k = host then some sv' else s.serving j k) :
    Working d f calls content final base s' := by
  refine ⟨hrouted, fun j hj k sv2 hsv2 => ?_, ?_, fun j hj sv2 idx slot hsv2 hslot h0 => ?_, ?_, ?_⟩
  · rw [hserving] at hsv2
    split at hsv2
    · rename_i hjk
      obtain ⟨rfl, rfl⟩ := hjk
      obtain rfl := Option.some.inj hsv2
      exact hinv
    · exact h.serving j hj k sv2 hsv2
  · rw [hcl]
    exact h.clean
  · rw [hcl]
    rw [hserving] at hsv2
    split at hsv2
    · rename_i hjk
      obtain ⟨rfl, rfl⟩ := hjk
      obtain rfl := Option.some.inj hsv2
      rw [hpc]
      cases hold : sv.srv.loop.slots[idx]? with
      | none =>
        rw [(h.serving j hj _ sv hsv).fresh idx hold]
        trivial
      | some old =>
        rw [hslots, List.getElem?_append_left (List.getElem?_eq_some_iff.mp hold).1, hold] at hslot
        obtain rfl := Option.some.inj hslot
        exact h.stands j hj sv idx old hsv hold h0
    · exact h.stands j hj sv2 idx slot hsv2 hslot h0
  · refine h.holding.congr (fun c => by rw [hcl]) fun j c hj => ?_
    rw [Wrote, Wrote, hserving]
    split
    · rename_i hjk
      obtain ⟨rfl, hk⟩ := hjk
      rw [hk, hsv]
      simp only [Option.some.injEq, exists_eq_left']
      exact done_append (h.serving j hj host sv hsv).fresh hslots hpc c
    · rfl
  · obtain ⟨md, hrec, hrest⟩ := h.sized
    exact ⟨md, hcl ▸ hrec, hsize ▸ hrest⟩

/-- What the storage of a host has of the file after a task's call, and what the tasks make of it. -/
theorem working_call (h : Working d f calls content final base s) {i : ι} (hi : On f calls i) {host : UInt64}
    {sv : Serving} (hsv : s.serving i host = some sv) {idx : Nat} {slot : Slot} {pc : Pc} {l : Local}
    (hslot : sv.srv.loop.slots[idx]? = some slot) (hdone : ∀ w, pc = .done w → w = slot.size.toInt64)
    (hlater : slot.chnkId ≠ 0 → ∃ w, pc = .done w) (hkeeps : ∀ w, sv.pc idx = .done w → pc = .done w)
    (hrouted : Routed d calls s')
    (hcl : s'.cl = s.cl.putStore host f.path { (s.cl host).store f.path with data := l })
    (hsize : s'.size = s.size)
    (hserving : ∀ j k, s'.serving j k =
      if j = i ∧ k = host then some ⟨sv.srv.run idx, Function.update sv.pc idx pc⟩ else s.serving j k)
    (hholding : Holding d f calls final base s'.cl (Wrote d f s'))
    (hclean : host = target d f.path 0 → FirstClean l)
    (hstands : host = target d f.path 0 → ∀ j, On f calls j → ∀ sv' idx' slot', s.serving j host = some sv' →
      sv'.srv.loop.slots[idx']? = some slot' → slot'.chnkId = 0 →
      Stands l.firstChunk (if j = i ∧ idx' = idx then pc else sv'.pc idx')) :
    Working d f calls content final base s' := by
  have hdata : ∀ k, ((s'.cl k).store f.path).data = if k = host then l else ((s.cl k).store f.path).data := by
    intro k
    rw [hcl, Cluster.putStore, Function.update_apply]
    split
    · rw [store_putStore]
    · rfl
  have hloop : (sv.srv.run idx).loop = sv.srv.loop := by
    rw [Srv.run]
    split <;> rfl
  refine ⟨hrouted, fun j hj k sv2 hsv2 => ?_, ?_, fun j hj sv2 idx' slot' hsv2 hslot' h0 => ?_, hholding, ?_⟩
  · rw [hserving] at hsv2
    split at hsv2
    · rename_i hjk
      obtain ⟨rfl, rfl⟩ := hjk
      obtain rfl := Option.some.inj hsv2
      have hinp : (sv.srv.run idx).inp = sv.srv.inp := by
        rw [Srv.run]
        split <;> rfl
      dsimp only
      rw [hinp]
      exact (h.serving j hj k sv hsv).call hslot hdone hlater hkeeps
    · exact h.serving j hj k sv2 hsv2
  · rw [hdata]
    split
    · rename_i hk
      exact hclean hk.symm
    · exact h.clean
  · rw [hdata]
    rw [hserving] at hsv2
    split
    · rename_i hk
      split at hsv2
      · rename_i hji
        obtain rfl := Option.some.inj hsv2
        dsimp only at hslot' ⊢
        rw [hloop] at hslot'
        have hst := hstands hk.symm j hj sv idx' slot' (by rw [hji.1, hsv]) hslot' h0
        rw [Function.update_apply]
        simp only [hji.1, true_and] at hst
        exact hst
      · rename_i hji
        have hne : j ≠ i := fun he => hji ⟨he, hk⟩
        have hst := hstands hk.symm j hj sv2 idx' slot' (hk ▸ hsv2) hslot' h0
        rw [if_neg fun hboth => hne hboth.1] at hst
        exact hst
    · rename_i hk
      rw [if_neg fun hboth => hk hboth.2] at hsv2
      exact h.stands j hj sv2 idx' slot' hsv2 hslot' h0
  · obtain ⟨md, hrec, hrest⟩ := h.sized
    refine ⟨md, ?_, hsize ▸ hrest⟩
    rw [hcl, Cluster.putStore, Function.update_apply]
    split
    · rename_i hk
      rw [store_putStore, ← hk]
      exact hrec
    · exact hrec

/-- The parts that are written after a task's call. -/
theorem wrote_call {i : ι} {host : UInt64} {sv : Serving} (hsv : s.serving i host = some sv) {idx : Nat}
    {slot : Slot} {pc : Pc} (hslot : sv.srv.loop.slots[idx]? = some slot)
    (hhost : target d f.path slot.chnkId = host) (hkeeps : ∀ w, sv.pc idx = .done w → pc = .done w)
    (hserving : ∀ j k, s'.serving j k =
      if j = i ∧ k = host then some ⟨sv.srv.run idx, Function.update sv.pc idx pc⟩ else s.serving j k)
    (j : ι) (c : UInt64) :
    Wrote d f s' j c ↔ Wrote d f s j c ∨ j = i ∧ c = slot.chnkId ∧ ∃ w, pc = .done w := by
  have hloop : (sv.srv.run idx).loop = sv.srv.loop := by
    rw [Srv.run]
    split <;> rfl
  rw [Wrote, Wrote, hserving]
  split
  · rename_i hjk
    obtain ⟨rfl, hk⟩ := hjk
    rw [hk, hsv]
    simp only [Option.some.injEq, exists_eq_left', true_and]
    exact done_call hloop hslot hkeeps c
  · rename_i hjk
    refine (or_iff_left ?_).symm
    rintro ⟨rfl, rfl, -⟩
    exact hjk ⟨rfl, hhost⟩

omit [DecidableEq ι] in
/-- What a task for the first chunk finds there. -/
theorem first_chunk_ready (h : Working d f calls content final base s) (hsep : Separate d cl f calls) {i : ι}
    (hi : On f calls i) {host : UInt64} {sv : Serving} (hsv : s.serving i host = some sv) {idx : Nat}
    {slot : Slot} (hslot : sv.srv.loop.slots[idx]? = some slot) (h0 : slot.chnkId = 0) {dir : Bytes}
    (hdir : chunkDir (s.cl host).rootPath f.path = some dir) :
    host = target d f.path 0 ∧ (calls i).start < C ∧ FirstClean ((s.cl host).store f.path).data ∧
      Stands ((s.cl host).store f.path).data.firstChunk (sv.pc idx) ∧
      (calls i).start ≤ ((((s.cl host).store f.path).data.stored dir 0).getD []).length ∧
      0 ∉ part (calls i).start (calls i).user.length (calls i).user 0 := by
  obtain ⟨vis, rest, hsrv⟩ := (h.serving i hi host sv hsv).srv
  obtain ⟨c, hc, hhome, hid, -⟩ := SrvInv.slot_spec hsrv (fun _ => 0) hslot
  obtain rfl : c = 0 := by rw [← hid, h0]; rfl
  have hhost : target d f.path 0 = host := hhome.trans (h.routed.serving i host sv hsv).2
  subst hhost
  have hstart : (calls i).start < C := by
    exact (Nat.div_eq_zero_iff_lt C_pos).mp (Nat.le_zero.mp (mem_blocks.mp hc).1)
  refine ⟨rfl, hstart, h.clean, h.stands i hi sv idx slot hsv hslot h0, ?_, ?_⟩
  · have hreached := h.holding.reached i hi hstart
    rw [chunkOf, hdir] at hreached
    exact hreached
  · intro hmem
    obtain ⟨j, hj⟩ := List.mem_iff_getElem?.mp hmem
    have hfits := cut_sub_add_len_le C_pos hc
    rw [part, getElem?_pread] at hj
    split at hj
    · rename_i hlt
      have hcut : cut C (calls i).start (calls i).user.length 0 = (calls i).start := by
        simp only [cut]
        omega
      rw [hcut, Nat.sub_self, Nat.zero_add] at hj
      rw [hcut] at hfits
      exact hsep.clean i j hi (by omega) hj
    · cases hj

theorem working_run (h : Working d f calls content final base s) (hsep : Separate d cl f calls)
    (hmerge : Merges f calls content final) (heap : Nat → UInt8) {i : ι} (hi : On f calls i) {host : UInt64}
    {sv : Serving} (hsv : s.serving i host = some sv) (idx : Nat) :
    Working d f calls content final base (step d heap calls s (i, .act host (.run idx))) := by
  have hrouted : Routed d calls (step d heap calls s (i, .act host (.run idx))) := h.routed.step _
  have hinv := h.serving i hi host sv hsv
  obtain ⟨hreq, hhost⟩ := h.routed.serving i host sv hsv
  have hplans := requests_plans (calls i) d _ hreq
  have hn := length_pos (calls i)
  rw [show (calls i).file = f from hi] at hplans
  have hserving : ∀ j k, (step d heap calls s (i, .act host (.run idx))).serving j k =
      if j = i ∧ k = host then some (sv.run heap (s.cl host) idx).1 else s.serving j k :=
    fun j k => serving_act hsv
  have hcl : (step d heap calls s (i, .act host (.run idx))).cl =
      Function.update s.cl host (sv.run heap (s.cl host) idx).2 := by
    simp only [StoredWrites.step, hsv, Serving.act]
  have hsize : (step d heap calls s (i, .act host (.run idx))).size = s.size := by
    simp only [StoredWrites.step, hsv]
  generalize step d heap calls s (i, .act host (.run idx)) = s' at *
  rw [Serving.run] at hserving hcl
  cases hslot : sv.srv.loop.slots[idx]? with
  | none =>
    simp only [hslot] at hserving hcl
    rw [Function.update_eq_self] at hcl
    exact working_quiet h hi hsv sv hinv (List.append_nil _).symm rfl hrouted hcl hsize hserving
  | some slot =>
    simp only [hslot] at hserving hcl
    rw [hinv.inp_path hplans] at hcl
    obtain ⟨dir, hdir⟩ := exists_chunkDir (s.cl host).rootPath f
    have hfirst := fun h0 => first_chunk_ready h hsep hi hsv hslot h0 hdir
    obtain ⟨c, hc, hhome, hid, hbytes, heffect⟩ := hinv.taskOut hplans rfl hn heap hdir hslot fun h0 =>
      (hfirst h0).2.2
    have hof : UInt64.ofNat c = slot.chnkId := by rw [← hid, UInt64.ofNat_toNat]
    have htarget : target d f.path slot.chnkId = host := by
      rw [← hof]
      exact hhome.trans hhost
    have hkeep := fun (pc : Pc) (hkeeps : ∀ w, sv.pc idx = .done w → pc = .done w)
        (hserving : ∀ j k, s'.serving j k = if j = i ∧ k = host then
          some ⟨sv.srv.run idx, Function.update sv.pc idx pc⟩ else s.serving j k) j e =>
      wrote_call (d := d) (f := f) hsv hslot htarget hkeeps hserving j e
    -- a call that stores nothing leaves the chunks as they are
    have hsame : s'.cl = s.cl.putStore host f.path
        { (s.cl host).store f.path with data := ((s.cl host).store f.path).data } →
        ∀ e, chunkOf d s'.cl f e = chunkOf d s.cl f e := by
      intro hcl e
      rw [hcl, chunkOf_putStore]
      split
      · rename_i hk
        rw [chunkOf, hk]
      · rfl
    obtain ⟨w, hw, hout⟩ | ⟨hunfinished, heffect⟩ := heffect
    · rw [hout] at hserving hcl
      have hkeeps : ∀ w', sv.pc idx = .done w' → Pc.done w = .done w' := fun w' hw' => hw.symm.trans hw'
      have hdone := (hinv.done idx w hw).2
      rw [hslot, Option.map_some, Option.some.injEq] at hdone
      refine working_call h hi hsv hslot (fun w' hw' => ?_) (fun _ => ⟨w, rfl⟩) hkeeps hrouted hcl hsize hserving
        (h.holding.congr (hsame hcl) fun j e hj => ?_) (fun hk => hk ▸ h.clean) fun hk j hj sv2 idx' slot' => ?_
      · exact (Pc.done.inj hw').symm.trans hdone.symm
      · rw [hkeep _ hkeeps hserving]
        refine or_iff_left_of_imp ?_
        rintro ⟨rfl, rfl, -⟩
        refine ⟨sv, by rw [htarget, hsv], idx, slot, hslot, rfl, ?_⟩
        exact Option.isSome_iff_exists.mpr ⟨w, eventual_eq_some.mpr hw⟩
      · intro hsv2 hslot' h0
        split
        · trivial
        · exact hk ▸ h.stands j hj sv2 idx' slot' (hk ▸ hsv2) hslot' h0
    · generalize sv.taskOut heap (s.cl host) slot (sv.pc idx) = out at *
      have hkeeps : ∀ pc : Pc, ∀ w, sv.pc idx = .done w → pc = .done w := fun pc w hw => absurd hw (hunfinished w)
      cases heffect with
      | goesOn pc hnot hzero hstands =>
        refine working_call h hi hsv hslot (fun w hw => absurd hw (hnot w)) (fun hne => absurd hzero hne)
          (hkeeps pc) hrouted hcl hsize hserving (h.holding.congr (hsame hcl) fun j e hj => ?_)
          (fun hk => hk ▸ h.clean) fun hk j hj sv2 idx' slot' => ?_
        · rw [hkeep _ (hkeeps pc) hserving]
          refine or_iff_left ?_
          rintro ⟨-, -, w, hw⟩
          exact hnot w hw
        · intro hsv2 hslot' h0
          split
          · exact hstands
          · exact hk ▸ h.stands j hj sv2 idx' slot' (hk ▸ hsv2) hslot' h0
      | stores l hclean hstored hkept =>
        refine working_call h hi hsv hslot (fun w hw => ?_) (fun _ => ⟨_, rfl⟩) (hkeeps _) hrouted hcl hsize hserving
          (h.holding.write hmerge hi (c := slot.chnkId) (hid ▸ hc) (fun e => ?_) fun j e hj => ?_)
          (fun hk => ?_) fun hk j hj sv2 idx' slot' => ?_
        · exact (Pc.done.inj hw).symm.trans hbytes.symm
        · have hchunk : ∀ e, target d f.path e = host →
              chunkOf d s.cl f e = ((s.cl host).store f.path).data.stored dir e := by
            intro e hk
            rw [chunkOf, hk, hdir]
            rfl
          have hput : s'.cl = s.cl.putStore host f.path { (s.cl host).store f.path with data := l } := hcl
          rw [hput, chunkOf_putStore, hid]
          split
          · rename_i hk
            rw [hdir, Option.bind_some, hstored, hchunk e hk, hchunk _ htarget]
          · rename_i hk
            rw [if_neg fun he : e = slot.chnkId => hk (he ▸ htarget)]
        · rw [hkeep _ (hkeeps _) hserving]
          exact or_congr_right (and_congr_right fun _ => and_iff_left ⟨_, rfl⟩)
        · by_cases h0 : slot.chnkId = 0
          · exact hclean h0
          · intro raw hraw
            exact h.clean raw (hk ▸ (hkept h0).symm.trans hraw)
        · intro hsv2 hslot' h0
          split
          · trivial
          · rename_i hji
            by_cases hz : slot.chnkId = 0
            · -- only this call has a task for the first chunk, and only this one
              have hlt := (hfirst hz).2.1
              have hdir2 : chunkDir (s.cl host).rootPath f.path = some dir := hdir
              have hlt' := (first_chunk_ready h hsep hj hsv2 hslot' h0 hdir2).2.1
              obtain rfl := hsep.alone j i hj hi hlt' hlt
              obtain rfl : sv2 = sv := Option.some.inj (hsv2.symm.trans hsv)
              obtain ⟨vis, rest, hsrv⟩ := hinv.srv
              exact absurd ⟨rfl, slot_unique hsrv.split hsrv.loop hslot' hslot (h0.trans hz.symm)⟩ hji
            · rw [hkept hz]
              exact hk ▸ h.stands j hj sv2 idx' slot' (hk ▸ hsv2) hslot' h0

theorem working_step (h : Working d f calls content final base s) (hsep : Separate d cl f calls)
    (hmerge : Merges f calls content final) (heap : Nat → UInt8) (e : ι × Event)
    (hok : On f calls e.1 → e.2.fails = false) :
    Working d f calls content final base (step d heap calls s e) := by
  have hframe := step_frame h.routed heap e
  have hrouted : Routed d calls (step d heap calls s e) := h.routed.step e
  obtain ⟨i, e⟩ := e
  dsimp only at hok hframe
  by_cases hi : On f calls i
  · cases e with
    | updateSize =>
      change Working d f calls content final base (if (s.size i).isSome then s else sendSize d calls s i)
      split
      · exact h
      · rename_i hsome
        exact working_sendSize h hmerge hi (Option.not_isSome_iff_eq_none.mp hsome)
    | act host a =>
      cases hsv : s.serving i host with
      | none =>
        simp only [StoredWrites.step, hsv]
        exact h
      | some sv =>
        have hinv := h.serving i hi host sv hsv
        have hn := length_pos (calls i)
        have hstop := stop_lt (calls i)
        have hplans := requests_plans (calls i) d _ (h.routed.serving i host sv hsv).1
        rw [show (calls i).file = f from hi] at hplans
        rw [Pwrite.stop] at hstop
        have hserving : ∀ j k, (step d heap calls s (i, .act host a)).serving j k =
            if j = i ∧ k = host then some (sv.act heap d.strHash (calls i).user (s.cl host) a).1
            else s.serving j k := fun j k => serving_act hsv
        have hcl : ∀ out, (sv.act heap d.strHash (calls i).user (s.cl host) a) = (out, s.cl host) →
            (step d heap calls s (i, .act host a)).cl = s.cl := by
          intro out hout
          simp only [StoredWrites.step, hsv, hout, Function.update_eq_self]
        have hsize : (step d heap calls s (i, .act host a)).size = s.size := by simp only [StoredWrites.step, hsv]
        cases a with
        | run idx => exact working_run h hsep hmerge heap hi hsv idx
        | wait =>
          have hloop : sv.wait.srv.loop.slots = sv.srv.loop.slots ++ [] ∧ sv.wait.pc = sv.pc ∧
              sv.wait.srv.inp = sv.srv.inp := by
            rw [Serving.wait, List.append_nil]
            split <;> exact ⟨rfl, rfl, rfl⟩
          refine working_quiet h hi hsv sv.wait ?_ hloop.1 hloop.2.1 hrouted (hcl _ rfl) hsize hserving
          rw [hloop.2.2]
          exact hinv.wait
        | visit transferred =>
          obtain rfl : transferred = true := by
            cases transferred with
            | false => exact absurd (hok hi) Bool.noConfusion
            | true => rfl
          obtain ⟨-, ⟨new, hnew⟩, -⟩ := visit_spec (calls i).user d.strHash true sv.srv
          refine working_quiet h hi hsv { sv with srv := sv.srv.visit d.strHash (calls i).user true } ?_ hnew rfl
            hrouted (hcl _ rfl) hsize hserving
          rw [inp_visit]
          exact hinv.visit hplans rfl hn (by omega) (by omega)
  · have hsame := fun j (hj : On f calls j) => step_of_ne d calls s heap (i, e) fun he : j = i => hi (he ▸ hj)
    exact working_other h (hsep.apart i hi) hframe hrouted (fun j hj => (hsame j hj).1) fun j hj => (hsame j hj).2

theorem working_run_all (h : Working d f calls content final base s) (hsep : Separate d cl f calls)
    (hmerge : Merges f calls content final) (heap : Nat → UInt8) (es : List (ι × Event))
    (hok : ∀ e ∈ es, On f calls e.1 → e.2.fails = false) :
    Working d f calls content final base (es.foldl (step d heap calls) s) := by
  induction es generalizing s with
  | nil => exact h
  | cons e es ih =>
    exact ih (working_step h hsep hmerge heap e (hok e List.mem_cons_self))
      fun e' he' => hok e' (List.mem_cons_of_mem e he')

end Working

section Results

variable {ι : Type*} {d : SimpleHashDistributor} {f : FilePath} {calls : ι → Pwrite} {content final : Bytes}
  {base : Cluster} {s : State ι}

/-- A call that has heard from all of its hosts. -/
theorem replied (h : Working d f calls content final base s) {i : ι} (hi : On f calls i)
    (hsome : (result d calls s i).isSome) :
    ∀ r ∈ (calls i).requests d (calls i).sizeOut, replyOf s i r = some ⟨0, r.totalChunkSize⟩ ∧
      ∀ c ∈ chunksAt d f.path (calls i).start (calls i).user.length r.hostId, Wrote d f s i (UInt64.ofNat c) := by
  intro r hr
  rw [result] at hsome
  cases hsize : s.size i with
  | none =>
    rw [hsize] at hsome
    cases hsome
  | some out =>
    obtain rfl := h.routed.size i out hsize
    rw [hsize, Option.bind_some] at hsome
    split at hsome
    · rename_i hall
      have hreply := hall r hr
      rw [replyOf] at hreply ⊢
      cases hsv : s.serving i r.hostId with
      | none =>
        rw [hsv] at hreply
        cases hreply
      | some sv =>
        rw [hsv, Option.bind_some] at hreply
        obtain ⟨out, hout⟩ := Option.isSome_iff_exists.mp hreply
        obtain ⟨hinp, hhost⟩ := h.routed.serving i _ sv hsv
        have hinv := h.serving i hi _ sv hsv
        obtain rfl : sv.srv.inp = r := List.inj_on_of_nodup_map (requests_hosts (calls i) d).1 hinp hr hhost
        have hplans := requests_plans (calls i) d _ hr
        rw [show (calls i).file = f from hi] at hplans
        have hstop := stop_lt (calls i)
        rw [Pwrite.stop] at hstop
        obtain ⟨vis, rest, hsrv⟩ := hinv.srv
        obtain ⟨-, -, -, -, herr, hio⟩ :=
          hsrv.replied hplans (length_pos (calls i)) (by omega) hout
        refine ⟨by rw [Option.bind_some, hout, ← herr, ← hio], fun c hc => ⟨sv, ?_, ?_⟩⟩
        · rw [← hsv, ← (mem_chunksAt.mp hc).2]
          rfl
        · obtain rfl := (hsrv.reply out hout).1
          obtain ⟨idx, slot, hidx, hid⟩ := exists_slot hsrv.loop hsrv.split hc
          exact ⟨idx, slot, hidx, hid, hinv.reply out hout idx (List.getElem?_eq_some_iff.mp hidx).1⟩
    · cases hsome

theorem result_eq (h : Working d f calls content final base s) {i : ι} (hi : On f calls i)
    (hsome : (result d calls s i).isSome) :
    result d calls s i = some (Int64.ofNat (calls i).user.length) := by
  have hreplied := replied h hi hsome
  have hplans := requests_plans (calls i) d
  obtain ⟨hnodup, hmem⟩ := requests_hosts (calls i) d
  have hstop := stop_lt (calls i)
  rw [Pwrite.stop] at hstop
  have hsum := sum_replies hplans hnodup (fun k hk => List.mem_map.mp ((hmem k).mpr hk)) (length_pos (calls i))
  have houts : ((calls i).requests d (calls i).sizeOut).map (replyOf s i) =
      (((calls i).requests d (calls i).sizeOut).map fun r => (⟨0, r.totalChunkSize⟩ : DataOut)).map some := by
    rw [List.map_map]
    exact List.map_congr_left fun r hr => (hreplied r hr).1
  have htotal : ((((calls i).requests d (calls i).sizeOut).map
      fun r => (⟨0, r.totalChunkSize⟩ : DataOut)).map DataOut.ioSize).sum = (calls i).count := by
    rw [← UInt64.toNat_inj, toNat_sum, List.map_map, List.map_map, toNat_count]
    · exact hsum
    · rw [List.map_map, List.map_map]
      exact Nat.lt_of_le_of_lt hsum.le (by omega)
  have hok := collectReplies_ok (((calls i).requests d (calls i).sizeOut).map
    fun r => (⟨0, r.totalChunkSize⟩ : DataOut)) (by simp)
  rw [htotal, ← houts] at hok
  have hall : ∀ r ∈ (calls i).requests d (calls i).sizeOut, (replyOf s i r).isSome := by
    intro r hr
    rw [(hreplied r hr).1]
    rfl
  rw [result] at hsome ⊢
  cases hsize : s.size i with
  | none =>
    rw [hsize] at hsome
    cases hsome
  | some out =>
    obtain rfl := h.routed.size i out hsize
    have herr : ¬ (calls i).sizeOut.err ≠ 0 := fun hne => hne rfl
    rw [Option.bind_some, if_pos hall, gaofsPwriteResult, if_neg herr, hok]
    simp [Pwrite.count]

theorem wrote_of_returned (h : Working d f calls content final base s) {i : ι} (hi : On f calls i)
    (hsome : (result d calls s i).isSome) {c : UInt64} {j : Nat} (hj : j < C)
    (hx : (calls i).Covers (c.toNat * C + j)) : Wrote d f s i c := by
  have hdiv : (c.toNat * C + j) / C = c.toNat := by
    rw [Nat.mul_comm, Nat.mul_add_div C_pos, Nat.div_eq_of_lt hj, Nat.add_zero]
  have hblock := mem_blocks_of_covers (calls i) hx
  rw [hdiv] at hblock
  have hk := ((requests_hosts (calls i) d).2 _).mpr ⟨c.toNat, hblock, rfl⟩
  obtain ⟨r, hr, hhost⟩ := List.mem_map.mp hk
  have hwrote := (replied h hi hsome r hr).2 _
    (mem_chunksAt.mpr ⟨hblock, by rw [hhost, show (calls i).file = f from hi]⟩)
  rw [UInt64.ofNat_toNat] at hwrote
  exact hwrote

/-- When all calls on the file have returned, it has the contents that they leave one after the other. -/
theorem contents_of_returned (h : Working d f calls content final base s) (hmerge : Merges f calls content final)
    (hlt : content.length < 2 ^ 63) (hdone : ∀ i, On f calls i → (result d calls s i).isSome) :
    Contents d s.cl f final := by
  have hpending : ∀ (c : UInt64) j, j < C →
      ¬ ∃ i, On f calls i ∧ (calls i).Covers (c.toNat * C + j) ∧ ¬ Wrote d f s i c := by
    rintro c j hj ⟨i, hi, hx, hnot⟩
    exact hnot (wrote_of_returned h hi (hdone i hi) hj hx)
  refine ⟨?_, ?_, h.clean, h.holding.length_le, fun c j v hv => ?_, fun c j hj hv => ?_⟩
  · obtain ⟨md, hrec, hmode, hlo, hhi, hstop⟩ := h.sized
    refine ⟨md, hrec, hmode, hhi.antisymm ?_⟩
    obtain hsame | ⟨i, hi, hlen⟩ := hmerge.attained
    · rw [hsame]
      exact hlo
    · rw [hlen]
      refine hstop i hi fun hnone => ?_
      have hsome := hdone i hi
      rw [result, hnone] at hsome
      cases hsome
  · obtain hsame | ⟨i, hi, hlen⟩ := hmerge.attained
    · rw [hsame]
      exact hlt
    · rw [hlen]
      exact stop_lt _
  · exact (h.holding.stored c j v hv).resolve_left (hpending c j (cell_lt h.holding hv))
  · exact (h.holding.absent c j hj hv).resolve_left (hpending c j hj)

/-- What was stored and what the calls cover is stored in the end. -/
theorem present_of_returned (h : Working d f calls content final base s)
    (hdone : ∀ i, On f calls i → (result d calls s i).isSome) (c : UInt64) {j : Nat} (hj : j < C)
    (hor : cell d base f c j ≠ none ∨ ∃ i, On f calls i ∧ (calls i).Covers (c.toNat * C + j)) :
    cell d s.cl f c j ≠ none :=
  h.holding.present c j hj (hor.imp_right fun ⟨i, hi, hx⟩ =>
    ⟨i, hi, hx, wrote_of_returned h hi (hdone i hi) hj hx⟩)

variable [DecidableEq ι]

/-- Any number of calls are in flight, and their steps and those of the daemons come in any order.
Each call on a file returns its length, and when all have returned the file has the contents that
the calls leave one after the other, in whichever order they are taken. -/
theorem pwrites_merge (heap : Nat → UInt8) {cl : Cluster} (h : Contents d cl f content)
    (hsep : Separate d cl f calls) {order : List ι} (hnodup : order.Nodup)
    (hmem : ∀ i, i ∈ order ↔ On f calls i) (es : List (ι × Event))
    (hok : ∀ e ∈ es, On f calls e.1 → e.2.fails = false) :
    let s := es.foldl (step d heap calls) (start cl)
    (∀ i, On f calls i → ∀ ret, result d calls s i = some ret → ret = Int64.ofNat (calls i).user.length) ∧
      ((∀ i, On f calls i → (result d calls s i).isSome) →
        Contents d s.cl f (after calls order content) ∧ ∀ c j, j < C →
          (cell d cl f c j ≠ none ∨ ∃ i, On f calls i ∧ (calls i).Covers (c.toNat * C + j)) →
          cell d s.cl f c j ≠ none) := by
  have hmerge := merges_after hsep hnodup hmem content
  have hworking := working_run_all (working_start h hsep hmerge) hsep hmerge heap es hok
  refine ⟨fun i hi ret hret => ?_, fun hdone => ⟨contents_of_returned hworking hmerge h.length_lt hdone,
    fun c j hj => present_of_returned hworking hdone c hj⟩⟩
  have heq := result_eq hworking hi (by rw [hret]; rfl)
  rw [hret] at heq
  exact Option.some.inj heq

end Results

section Example

def alternating : List (Bool × Event) :=
  [(false, .updateSize), (true, .updateSize), (true, .act 1 (.visit true)), (false, .act 0 (.visit true)),
    (false, .act 0 (.run 0)), (true, .act 1 (.run 0)), (false, .act 0 (.run 0)), (true, .act 1 .wait),
    (false, .act 0 (.run 0)), (false, .act 0 .wait)]

theorem separate_twoCalls : Separate twoHosts createdTwo plainFile twoCalls := by
  have hfalse : (twoCalls false).start = 0 ∧ (twoCalls false).stop = 1 := by decide +kernel
  have htrue : (twoCalls true).start = 524288 ∧ (twoCalls true).stop = 524290 := by decide +kernel
  refine ⟨fun i hi => ?_, fun i j x _ _ hx hy => ?_, fun i j _ _ hlt hlt' => ?_, fun i _ hlt => ?_, fun i j _ hlt => ?_⟩
  · exact absurd (on_twoCalls i) hi
  · obtain ⟨hx1, hx2⟩ := hx
    obtain ⟨hy1, hy2⟩ := hy
    cases i <;> cases j
    · rfl
    · omega
    · omega
    · rfl
  · simp only [C] at hlt hlt'
    cases i <;> cases j
    · rfl
    · omega
    · omega
    · rfl
  · cases i with
    | false =>
      rw [hfalse.1]
      exact Nat.zero_le _
    | true =>
      rw [htrue.1] at hlt
      exact absurd hlt (lt_irrefl _)
  · cases i with
    | false => cases j <;> simp [twoCalls]
    | true =>
      simp only [htrue.1, C] at hlt
      omega

theorem pwrites_merge_alternating :
    let s := alternating.foldl (step twoHosts (fun _ => 0) twoCalls) (start createdTwo)
    (∀ i, result twoHosts twoCalls s i = some (Int64.ofNat (twoCalls i).user.length)) ∧
      Contents twoHosts s.cl plainFile (after twoCalls [false, true] []) := by
  have hreturned : ∀ i, result twoHosts twoCalls
      (alternating.foldl (step twoHosts (fun _ => 0) twoCalls) (start createdTwo)) i =
      some (Int64.ofNat (twoCalls i).user.length) := by
    decide +kernel
  refine ⟨hreturned, ?_⟩
  refine ((pwrites_merge (fun _ => 0) contents_createdTwo separate_twoCalls (by decide) (fun i => ?_) alternating
    fun e he _ => (by decide : ∀ e ∈ alternating, e.2.fails = false) e he).2 fun i _ => ?_).1
  · cases i <;> exact iff_of_true (by decide) rfl
  · exact (congrArg Option.isSome (hreturned i)).trans rfl

end Example

end GaoFS.ConcurrentWrites
