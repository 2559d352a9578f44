import GaoFS.WritesInFlight

namespace GaoFS.PlacedChunks

open Arithmetic Chunks Replies ForwardData SrvData ChunkStorage DataOps MetadataRecord
open MergeOperator MetadataDB ForwardRemove StoredWrites WritesInFlight
open MetadataKey (Key Store Recorded)
open WriteRun hiding start
open FirstChunkRace (Pc)
open Library.NumberText Library.Blocks Library.ByteFile Library.Runs

section Tasks

variable {rootPath dir : Bytes} {path : Path} {l : Local} {chnkId : UInt64} {buf : Bytes} {off : Nat} {pc : Pc}

/-- No chunk but the one that is written comes to be stored. -/
theorem taskCall_holds (hdir : chunkDir rootPath path = some dir) (c : UInt64)
    (h : c = 0 ∧ (taskCall rootPath path l chnkId buf off pc).2.firstChunk ≠ none ∨
      chunkFile (taskCall rootPath path l chnkId buf off pc).2.fs dir c ≠ none) :
    c = chnkId ∨ c = 0 ∧ l.firstChunk ≠ none ∨ chunkFile l.fs dir c ≠ none := by
  rw [taskCall.eq_def] at h
  split at h
  · rename_i h0
    obtain ⟨hc, -⟩ | hfile := h
    · exact .inl (hc.trans h0.symm)
    · refine .inr (.inr ?_)
      split at hfile <;> exact hfile
  · split at h
    · rw [writeChunk, hdir] at h
      split at h
      · exact .inr h
      · rename_i hout
        split at hout
        · obtain ⟨rfl, rfl⟩ := Prod.mk.inj (Option.some.inj hout)
          obtain hfirst | hfile := h
          · exact .inr (.inl hfirst)
          · rw [chunkFile_putChunkFile] at hfile
            split at hfile
            · rename_i hc
              exact .inl hc.2
            · exact .inr (.inr hfile)
        · cases hout
    · exact .inr h

end Tasks

section Daemon

variable {d : SimpleHashDistributor} {f : FilePath} {o n : Nat} {r : DataIn} {user : Bytes} {sv : Serving}

variable (d f o n r) in
/-- The tasks of a daemon are for chunks of the request that hash to it, whatever its transfers do. -/
def Launches (s : Srv UInt8) : Prop :=
  s.inp = r ∧ ∃ vis rest, blocks C o n = vis ++ rest ∧ LoopInv d f.path o n r vis rest s.loop ∧
    (s.rest = rest.map UInt64.ofNat ∨ s.rest = [])

theorem launches_init (hr : Plans d f.path o n r) : Launches d f o n r (Srv.init r) :=
  ⟨rfl, [], blocks C o n, rfl, LoopInv.init hr, .inl (chnkIds_eq hr.chunkStart hr.chunkEnd)⟩

theorem launches_visit {s : Srv UInt8} (h : Launches d f o n r s) (hr : Plans d f.path o n r) (hn : 0 < n)
    (hon : o + n < 2 ^ 64) (transferred : Bool) :
    Launches d f o n r (s.visit d.strHash user transferred) := by
  obtain ⟨hinp, vis, rest, hsplit, hloop, hrest⟩ := h
  have hstop : s.rest = [] → Launches d f o n r (s.visit d.strHash user transferred) := by
    intro hnil
    rw [Srv.visit, hnil]
    exact ⟨hinp, vis, rest, hsplit, hloop, .inr hnil⟩
  cases rest with
  | nil => exact hstop (hrest.elim id id)
  | cons c rest =>
    obtain hrest | hnil := hrest
    · obtain ⟨l, hl, hnext⟩ := hloop.visit hr hsplit hn hon
      have hsplit' : blocks C o n = (vis ++ [c]) ++ rest := by simp [hsplit]
      simp only [Srv.visit, hrest, List.map_cons, hinp, hl]
      split
      · exact ⟨rfl, _, _, hsplit', hnext, .inl rfl⟩
      · split
        · exact ⟨rfl, _, _, hsplit', hnext, .inl rfl⟩
        · split
          · exact ⟨rfl, vis, c :: rest, hsplit, hloop, .inr rfl⟩
          · exact ⟨rfl, _, _, hsplit', hnext, .inl rfl⟩
    · exact hstop hnil

theorem launches_act {heap : Nat → UInt8} (h : Launches d f o n r sv.srv) (hr : Plans d f.path o n r) (hn : 0 < n)
    (hon : o + n < 2 ^ 64) (host : Host) (a : Act) :
    Launches d f o n r (sv.act heap d.strHash user host a).1.srv := by
  cases a with
  | visit transferred => exact launches_visit h hr hn hon transferred
  | wait =>
    rw [Serving.act, Serving.wait]
    split <;> exact h
  | run idx =>
    rw [Serving.act, Serving.run]
    split
    · exact h
    · dsimp only
      rw [Srv.run]
      split <;> exact h

theorem launches_slot (h : Launches d f o n r sv.srv) {idx : Nat} {slot : Slot}
    (hslot : sv.srv.loop.slots[idx]? = some slot) :
    target d f.path slot.chnkId = r.hostId ∧ slot.chnkId.toNat ∈ blocks C o n := by
  obtain ⟨-, vis, rest, hsplit, hloop, -⟩ := h
  have hpiece := List.mem_of_getElem? ((List.getElem?_map (f := Slot.piece)).trans (congrArg _ hslot))
  rw [hloop.slots] at hpiece
  obtain ⟨c, hc, a, -, -, heq⟩ := mem_pieces hpiece
  have hid : slot.chnkId.toNat = c := congrArg Piece.chunk heq
  obtain ⟨hvis, hhome⟩ := List.mem_filter.mp hc
  have hhome : home d f.path c = r.hostId := of_decide_eq_true hhome
  refine ⟨?_, ?_⟩
  · rw [← hhome, home, ← hid, UInt64.ofNat_toNat]
  · rw [hid, hsplit]
    exact List.mem_append_left rest hvis

end Daemon

section System

variable {ι : Type*} (d : SimpleHashDistributor) (f : FilePath) (calls : ι → Pwrite) (md : Metadata)

/-- The stored chunks of a file lie where they belong and below the size of its entry, which has
grown to the end of each call whose requests are out. -/
structure InFlight (s : State ι) : Prop where
  routed : Routed d calls s
  launches : ∀ i, On f calls i → ∀ host sv, s.serving i host = some sv →
    Launches d f (calls i).start (calls i).user.length sv.srv.inp sv.srv
  entry : ∃ md', Recorded ((s.cl (metadataHost d f.path)).store f.path).key md' ∧ md'.mode = md.mode ∧
    md'.size.toNat < 2 ^ 63 ∧ (∀ i, On f calls i → s.size i ≠ none → (calls i).stop ≤ md'.size.toNat) ∧
    Placed d f.path md'.size.toNat s.cl

variable {d f calls md} {s s' : State ι} {cl : Cluster}

theorem inFlight_start (hrec : Recorded ((cl (metadataHost d f.path)).store f.path).key md)
    (hsize : md.size.toNat < 2 ^ 63) (hplaced : Placed d f.path md.size.toNat cl) :
    InFlight d f calls md (start cl) :=
  ⟨routed_start cl, fun _ _ _ _ hsv => (Option.some_ne_none _ hsv.symm).elim,
    md, hrec, rfl, hsize, fun _ _ hnot => absurd rfl hnot, hplaced⟩

theorem holds_of_frame {g : CanonicalPath} (hdir : getChunksDir g.path ≠ getChunksDir f.path) {h h' : Host}
    (hframe : Frame g.path h h') {c : UInt64} (hc : Holds h' f.path c) : Holds h f.path c := by
  have hne : f.path ≠ g.path := fun he => hdir (by rw [he])
  obtain ⟨h0, hfirst⟩ | ⟨dir, hown, hfile⟩ := hc
  · exact .inl ⟨h0, (hframe.others f.path (isAbsolute_path f.toCanonicalPath) hne).2 ▸ hfirst⟩
  · rw [hframe.rootPath] at hown
    refine .inr ⟨dir, hown, ?_⟩
    have hfs := hframe.dirs dir fun hother => hdir (chunkDir_inj hother hown)
    rw [chunkFile, ← hfs]
    exact hfile

theorem inFlight_other (h : InFlight d f calls md s) {g : FilePath}
    (hdir : getChunksDir g.path ≠ getChunksDir f.path) (hframe : ∀ k, Frame g.path (s.cl k) (s'.cl k))
    (hrouted : Routed d calls s') (hserving : ∀ i, On f calls i → s'.serving i = s.serving i)
    (hsize : ∀ i, On f calls i → s'.size i = s.size i) : InFlight d f calls md s' := by
  have hne : f.path ≠ g.path := fun he => hdir (by rw [he])
  have hkey := ((hframe (metadataHost d f.path)).others f.path (isAbsolute_path f.toCanonicalPath) hne).1
  obtain ⟨md', hrec, hmode, hlt, hstop, hplaced⟩ := h.entry
  refine ⟨hrouted, fun i hi host sv hsv => h.launches i hi host sv (hserving i hi ▸ hsv), md', hkey ▸ hrec, hmode,
    hlt, fun i hi hs => hstop i hi (hsize i hi ▸ hs), fun k hk c hc => ?_⟩
  exact hplaced k hk c (holds_of_frame hdir (hframe k) hc)

variable [DecidableEq ι]

theorem inFlight_sendSize (h : InFlight d f calls md s) {i : ι} (hi : On f calls i) :
    InFlight d f calls md (sendSize d calls s i) := by
  have hpath : (calls i).file = f := hi
  have hcl := cl_sendSize (d := d) (s := s) hi
  obtain ⟨md', hrec, hmode, hlt, hstop, hplaced⟩ := h.entry
  have hresize : ((MergeOperand.increaseSize ((calls i).count + (calls i).offset.toUInt64) false).resize
      md'.size).toNat = max md'.size.toNat (calls i).stop := by
    rw [MergeOperand.resize, ← toNat_sized]
    exact toNat_max _ _
  refine ⟨h.routed.sendSize i, fun j hj host sv hsv => ?_, md'.resized ((MergeOperand.increaseSize
    ((calls i).count + (calls i).offset.toUInt64) false).resize md'.size), ?_, hmode, ?_, fun j hj hs => ?_,
    fun k hk c hc => ?_⟩
  · by_cases he : j = i
    · subst he
      obtain ⟨r, hr, rfl⟩ := init_of_sendSize hsv
      exact launches_init (hpath ▸ requests_plans (calls j) d r hr)
    · rw [serving_sendSize_of_ne he] at hsv
      exact h.launches j hj host sv hsv
  · rw [hcl, Cluster.putStore, Function.update_self, store_putStore]
    exact hrec.merge _
  · change (MergeOperand.resize _ _).toNat < _
    rw [hresize]
    exact max_lt hlt (stop_lt _)
  · change _ ≤ (MergeOperand.resize _ _).toNat
    rw [hresize]
    by_cases he : j = i
    · rw [he]
      exact Nat.le_max_right _ _
    · rw [size_sendSize, Function.update_of_ne he] at hs
      exact (hstop j hj hs).trans (Nat.le_max_left _ _)
  · change _ ∧ _ < (MergeOperand.resize _ _).toNat
    rw [hresize]
    have hold : Holds (s.cl k) f.path c := by
      rw [hcl, Cluster.putStore, Function.update_apply] at hc
      split at hc
      · rename_i hm
        rw [hm]
        exact holds_putStore hc
      · exact hc
    obtain ⟨htarget, hbelow⟩ := hplaced k hk c hold
    exact ⟨htarget, hbelow.trans_le (Nat.le_max_left _ _)⟩

/-- A task stores its own chunk. -/
theorem holds_run {heap : Nat → UInt8} {sv : Serving} {h : Host} {idx : Nat} (hpath : sv.srv.inp.path = f.path)
    {c : UInt64} (hc : Holds (sv.run heap h idx).2 f.path c) :
    Holds h f.path c ∨ ∃ slot, sv.srv.loop.slots[idx]? = some slot ∧ c = slot.chnkId := by
  rw [Serving.run] at hc
  split at hc
  · exact .inl hc
  · rename_i slot hslot
    obtain ⟨dir, hdir⟩ := exists_chunkDir h.rootPath f
    dsimp only at hc
    rw [Serving.taskOut, hpath] at hc
    obtain hnew | hfirst | hfile := taskCall_holds hdir c (by
      obtain ⟨h0, hfirst⟩ | ⟨dir', hdir', hfile⟩ := hc
      · rw [store_putStore] at hfirst
        exact .inl ⟨h0, hfirst⟩
      · obtain rfl : dir' = dir := Option.some.inj (hdir'.symm.trans hdir)
        exact .inr hfile)
    · exact .inr ⟨slot, hslot, hnew⟩
    · exact .inl (.inl hfirst)
    · exact .inl (.inr ⟨dir, hdir, hfile⟩)

theorem inFlight_act (h : InFlight d f calls md s) (heap : Nat → UInt8) {i : ι} (hi : On f calls i) {host : UInt64}
    {sv : Serving} (hsv : s.serving i host = some sv) (a : Act) :
    InFlight d f calls md (step d heap calls s (i, .act host a)) := by
  obtain ⟨hreq, hhost⟩ := h.routed.serving i host sv hsv
  have hplans := requests_plans (calls i) d _ hreq
  have hstop := stop_lt (calls i)
  have hn := length_pos (calls i)
  rw [Pwrite.stop] at hstop
  rw [show (calls i).file = f from hi] at hplans
  have hlaunch := h.launches i hi host sv hsv
  have hsize : (step d heap calls s (i, .act host a)).size = s.size := by simp only [StoredWrites.step, hsv]
  have hcl : (step d heap calls s (i, .act host a)).cl =
      Function.update s.cl host (sv.act heap d.strHash (calls i).user (s.cl host) a).2 := by
    simp only [StoredWrites.step, hsv]
  obtain ⟨md', hrec, hmode, hlt, hends, hplaced⟩ := h.entry
  refine ⟨h.routed.step _, fun j hj k sv' hsv' => ?_, md', ?_, hmode, hlt, hsize ▸ hends, fun k hk c hc => ?_⟩
  · rw [serving_act hsv] at hsv'
    split at hsv'
    · rename_i hjk
      obtain ⟨rfl, rfl⟩ := hjk
      obtain rfl := Option.some.inj hsv'
      rw [inp_act]
      exact launches_act hlaunch hplans hn (by omega) _ a
    · exact h.launches j hj k sv' hsv'
  · rw [hcl, Function.update_apply]
    split
    · rename_i hm
      rw [← hm, key_act hplans.path_eq]
      exact hrec
    · exact hrec
  · rw [hcl, Function.update_apply] at hc
    split at hc
    · rename_i hkh
      subst hkh
      have hcase : Holds (s.cl k) f.path c ∨
          ∃ (idx : Nat) (slot : Slot), sv.srv.loop.slots[idx]? = some slot ∧ c = slot.chnkId := by
        cases a with
        | visit transferred => exact .inl hc
        | wait => exact .inl hc
        | run idx => exact (holds_run hplans.path_eq hc).imp_right fun hslot => ⟨idx, hslot⟩
      obtain hold | ⟨idx, slot, hslot, rfl⟩ := hcase
      · exact hplaced k hk c hold
      · obtain ⟨htarget, hblock⟩ := launches_slot hlaunch hslot
        refine ⟨hhost.symm.trans htarget.symm, ?_⟩
        have hend := hends i hi fun hnone => by
          rw [h.routed.unsent i hnone k] at hsv
          cases hsv
        have hbound := (blocks_bounds C_pos hblock).1
        rw [Pwrite.stop] at hend
        omega
    · exact hplaced k hk c hc

theorem inFlight_step (h : InFlight d f calls md s) (heap : Nat → UInt8)
    (hapart : ∀ i, ¬ On f calls i → getChunksDir (calls i).file.path ≠ getChunksDir f.path) (e : ι × Event) :
    InFlight d f calls md (step d heap calls s e) := by
  have hframe := step_frame h.routed heap e
  have hrouted : Routed d calls (step d heap calls s e) := h.routed.step e
  obtain ⟨i, e⟩ := e
  by_cases hi : On f calls i
  · cases e with
    | updateSize =>
      change InFlight d f calls md (if (s.size i).isSome then s else sendSize d calls s i)
      split
      · exact h
      · exact inFlight_sendSize h hi
    | act host a =>
      cases hsv : s.serving i host with
      | none =>
        simp only [StoredWrites.step, hsv]
        exact h
      | some sv => exact inFlight_act h heap hi hsv a
  · have hsame := fun j (hj : On f calls j) => step_of_ne d calls s heap (i, e) fun he : j = i => hi (he ▸ hj)
    exact inFlight_other h (hapart i hi) hframe hrouted (fun j hj => (hsame j hj).1) fun j hj => (hsame j hj).2

end System

section Remove

variable {d : SimpleHashDistributor} {f : FilePath} {cl : Cluster} {md : Metadata}

/-- The remove of a regular file whose chunks lie where they belong. -/
theorem forwardRemove_regular (hrec : Recorded ((cl (metadataHost d f.path)).store f.path).key md)
    (hsize : md.size.toNat < 2 ^ 63) (hreg : S_ISREG md.mode = true) (hplaced : Placed d f.path md.size.toNat cl) :
    (forwardRemove d f.path cl).1 = 0 ∧ Removed d f.path cl (forwardRemove d f.path cl).2 := by
  by_cases hdata : S_ISREG md.mode = true ∧ md.size ≠ 0
  · have hdirs : ∀ k, ∃ dir, chunkDir (cl k).rootPath f.path = some dir := fun k => exists_chunkDir _ f
    choose dirs hdirs using hdirs
    rw [forwardRemove_data hrec hsize hdata (hdirs _)]
    refine ⟨?_, removed_of_targets hdirs (nodup_removeTargets _) fun k hk c hc => ?_⟩
    · rw [foldl_postRemoveData _ (fun k => ?_) _ (nodup_removeTargets _)]
      · exact dirs
      · rw [Function.update_apply]
        split
        · rename_i hk
          rw [hk]
          exact hdirs _
        · exact hdirs k
    · obtain ⟨rfl, hlt⟩ := hplaced k hk c hc
      by_cases hm : target d f.path c = metadataHost d f.path
      · exact .inr hm
      · exact .inl (target_mem_removeTargets hsize hlt hk hm)
  · have hzero : md.size = 0 := by_contra fun hne => hdata ⟨hreg, hne⟩
    have hret : (forwardRemove d f.path cl).1 = 0 := by
      have hmd : ¬ (S_ISREG (md.kept config).mode = true ∧ (md.kept config).size ≠ 0) := hdata
      have hreply : ¬ (S_ISREG (md.kept config).mode = true ∧ (md.kept config).size.toInt64 ≠ 0) :=
        fun h => h.2 (by rw [show (md.kept config).size = md.size from rfl, hzero]; rfl)
      simp only [forwardRemove, MetadataKey.rpcSrvRemoveMetadata, MetadataKey.getMetadata_recorded hrec hsize,
        MetadataKey.removeLocalData, if_neg hmd, removeErr_ok, ne_eq, not_true_eq_false, if_false, if_neg hreply]
    refine ⟨hret, ?_⟩
    rw [forwardRemove_no_data hrec hsize hdata]
    refine removed_of_no_data fun k hk c hc => ?_
    have hlt := (hplaced k hk c hc).2
    rw [hzero, UInt64.toNat_zero] at hlt
    exact absurd hlt (Nat.not_lt_zero _)

end Remove

section Result

variable {ι : Type*} [DecidableEq ι] {d : SimpleHashDistributor} {f : FilePath} {calls : ι → Pwrite} {md : Metadata}
  {cl : Cluster}

/-- At every moment of calls in flight, their transfers failing or not and their tasks done or not,
the chunks of a file that are stored lie where they belong and below its size, so that a remove
sent then finds all of them. -/
theorem placed_in_flight (heap : Nat → UInt8)
    (hrec : Recorded ((cl (metadataHost d f.path)).store f.path).key md) (hsize : md.size.toNat < 2 ^ 63)
    (hreg : S_ISREG md.mode = true) (hplaced : Placed d f.path md.size.toNat cl)
    (hapart : ∀ i, ¬ On f calls i → getChunksDir (calls i).file.path ≠ getChunksDir f.path)
    (es : List (ι × Event)) :
    let s := es.foldl (step d heap calls) (start cl)
    (∃ md', Recorded ((s.cl (metadataHost d f.path)).store f.path).key md' ∧ md'.mode = md.mode ∧
        md'.size.toNat < 2 ^ 63 ∧ Placed d f.path md'.size.toNat s.cl) ∧
      (forwardRemove d f.path s.cl).1 = 0 ∧ Removed d f.path s.cl (forwardRemove d f.path s.cl).2 := by
  intro s
  have hflight : InFlight d f calls md (es.foldl (step d heap calls) (start cl)) :=
    invariant_foldl (I := InFlight d f calls md) (fun _ e h => inFlight_step h heap hapart e) es
      (inFlight_start hrec hsize hplaced)
  obtain ⟨md', hrec', hmode, hlt, -, hplaced'⟩ := hflight.entry
  exact ⟨⟨md', hrec', hmode, hlt, hplaced'⟩,
    forwardRemove_regular hrec' hlt (hmode ▸ hreg) hplaced'⟩

/-- Two bytes are stored, and neither has their call returned nor has the other one begun. -/
theorem placed_in_flight_unfinished :
    let s := [(true, Event.updateSize), (true, .act 1 (.visit true)), (true, .act 1 (.run 0))].foldl
      (step twoHosts (fun _ => 0) twoCalls) (start createdTwo)
    (forwardRemove twoHosts plainFile.path s.cl).1 = 0 ∧
      Removed twoHosts plainFile.path s.cl (forwardRemove twoHosts plainFile.path s.cl).2 :=
  (placed_in_flight (fun _ => 0) recorded_createdTwo (by decide) (by decide)
    (fun k _ c hc => by
      obtain ⟨-, hfirst⟩ | ⟨dir, -, hfile⟩ := hc
      · exact absurd (by rw [data_createdTwo]) hfirst
      · exact absurd (congrArg (fun l : Local => chunkFile l.fs dir c) (data_createdTwo k)) hfile)
    (fun i hi => absurd (on_twoCalls i) hi) _).2

end Result

end GaoFS.PlacedChunks
