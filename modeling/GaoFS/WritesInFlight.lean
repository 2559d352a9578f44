import GaoFS.StoredWrites

namespace GaoFS.WritesInFlight

open Arithmetic Chunks Replies ForwardData SrvData ChunkStorage FirstChunkRecord DataOps MetadataRecord
open MergeOperator MetadataDB ForwardRemove StoredWrites
open MetadataKey (Key Store Recorded getMetadata rpcSrvUpdateMetadentrySize)
open WriteRun hiding start
open FirstChunkRace (Pc)
open Library.NumberText Library.Blocks Library.ByteFile Library.Runs

section Calls

variable (w : Pwrite) (d : SimpleHashDistributor)

theorem length_pos : 0 < w.user.length := List.length_pos_of_ne_nil w.user_ne

theorem stop_lt : w.stop < 2 ^ 63 := by
  have hoff : w.offset.toInt = w.start := toInt_of_nonneg w.offset_nonneg
  have hend := w.end_le
  rw [Pwrite.stop]
  omega

theorem toNat_count : w.count.toNat = w.user.length := by
  have h := stop_lt w
  rw [Pwrite.count, UInt64.toNat_ofNat', Nat.mod_eq_of_lt]
  rw [Pwrite.stop] at h
  omega

theorem toNat_sized : (w.count + w.offset.toUInt64).toNat = w.stop := by
  have h := stop_lt w
  rw [Pwrite.stop, Pwrite.start] at h ⊢
  rw [UInt64.toNat_add, toNat_count, Nat.mod_eq_of_lt (by omega), Nat.add_comm]

theorem requests_eq : w.requests d w.sizeOut = dataRequests d w.file.path w.offset.toUInt64 w.count := by
  have hret : (w.offset.toUInt64 + w.count).toInt64.toUInt64 - w.count = w.offset.toUInt64 := by
    rw [UInt64.toUInt64_toInt64, UInt64.add_sub_cancel]
  rw [← hret]
  rfl

theorem requests_plans : ∀ r ∈ w.requests d w.sizeOut, Plans d w.file.path w.start w.user.length r := by
  have h := stop_lt w
  rw [Pwrite.stop] at h
  rw [requests_eq]
  exact dataRequests_plans rfl (toNat_count w) (length_pos w) (by omega) (by omega)

theorem requests_hosts : ((w.requests d w.sizeOut).map DataIn.hostId).Nodup ∧
    ∀ k, k ∈ (w.requests d w.sizeOut).map DataIn.hostId ↔
      ∃ c ∈ blocks C w.start w.user.length, home d w.file.path c = k := by
  have h := stop_lt w
  rw [Pwrite.stop] at h
  rw [requests_eq]
  exact dataRequests_hosts d w.file.path rfl (toNat_count w) (length_pos w) (by omega)

/-- A chunk of a call is one whose positions the call covers some of. -/
theorem mem_blocks_of_covers {x : Nat} (h : w.Covers x) : x / C ∈ blocks C w.start w.user.length := by
  obtain ⟨hlo, hhi⟩ := h
  rw [Pwrite.stop] at hhi
  exact mem_blocks.mpr ⟨Nat.div_le_div_right hlo, Nat.div_le_div_right (by omega)⟩

end Calls

section View

variable {d : SimpleHashDistributor} {cl cl' : Cluster} {f : FilePath} {g : CanonicalPath}

variable (d cl f) in
def cell (c : UInt64) (j : Nat) : Option UInt8 := (chunkOf d cl f c).bind fun b => b[j]?

theorem chunkOf_putStore (k : UInt64) (s : Store) (c : UInt64) :
    chunkOf d (cl.putStore k f.path s) f c =
      if target d f.path c = k then
        (chunkDir (cl k).rootPath f.path).bind fun dir => s.data.stored dir c
      else chunkOf d cl f c := by
  rw [chunkOf, Cluster.putStore]
  split
  · rename_i hk
    subst hk
    rw [Function.update_self, store_putStore]
    rfl
  · rename_i hk
    rw [Function.update_of_ne hk]
    rfl

/-- Nothing of a file changes when another one's directory and keys do. -/
theorem chunkOf_frame (hdir : getChunksDir g.path ≠ getChunksDir f.path)
    (hframe : ∀ k, Frame g.path (cl k) (cl' k)) (c : UInt64) : chunkOf d cl' f c = chunkOf d cl f c := by
  have hne : f.path ≠ g.path := fun h => hdir (by rw [h])
  obtain ⟨hroot, hdirs, hothers⟩ := hframe (target d f.path c)
  simp only [chunkOf, hroot]
  obtain ⟨dir, hown⟩ := exists_chunkDir (cl (target d f.path c)).rootPath f
  have hfs := hdirs dir fun hother => hdir (chunkDir_inj hother hown)
  have hfirst := (hothers f.path (isAbsolute_path f.toCanonicalPath) hne).2
  rw [hown, Option.bind_some, Option.bind_some, Local.stored, Local.stored, hfirst]
  have hfile : chunkFile ((cl' (target d f.path c)).store f.path).data.fs dir c =
      chunkFile ((cl (target d f.path c)).store f.path).data.fs dir c := by
    simp only [chunkFile, Host.store, hfs]
  rw [hfile]

end View

section Frames

variable {rootPath : Bytes} {path : Path} {l : Local} {chnkId : UInt64} {buf : Bytes} {off : Nat} {pc : Pc}

/-- The directories of other files stay as they are. -/
theorem taskCall_fs (dir : Bytes) (hdir : chunkDir rootPath path ≠ some dir) :
    (taskCall rootPath path l chnkId buf off pc).2.fs dir = l.fs dir := by
  rw [taskCall.eq_def]
  split
  · split <;> rfl
  · split
    · have happly := apply_of_ne rootPath path l.fs (.writeChunk chnkId buf off) dir hdir
      rw [ChunkStorage.apply] at happly
      cases hwrite : writeChunk rootPath path l.fs chnkId buf off with
      | none => rfl
      | some out =>
        rw [hwrite] at happly
        exact happly
    · rfl

variable {d : SimpleHashDistributor} {heap : Nat → UInt8} {user : Bytes} {sv : Serving} {f : FilePath}

theorem act_frame (hpath : sv.srv.inp.path = f.path) (h : Host) (a : Act) :
    Frame f.path h (sv.act heap d.strHash user h a).2 := by
  cases a with
  | visit transferred => exact Frame.refl _ _
  | wait => exact Frame.refl _ _
  | run idx =>
    rw [Serving.act, Serving.run]
    split
    · exact Frame.refl _ _
    · rw [hpath]
      apply frame_putStore
      intro dir hdir
      rw [← hpath] at hdir
      exact taskCall_fs dir hdir

theorem key_act (hpath : sv.srv.inp.path = f.path) (h : Host) (a : Act) :
    ((sv.act heap d.strHash user h a).2.store f.path).key = (h.store f.path).key := by
  cases a with
  | visit transferred => rfl
  | wait => rfl
  | run idx =>
    rw [Serving.act, Serving.run]
    split
    · rfl
    · rw [hpath]
      dsimp only
      rw [store_putStore]

theorem inp_visit (strHash : Bytes → UInt64) (transferred : Bool) (s : Srv UInt8) :
    (s.visit strHash user transferred).inp = s.inp := by
  rw [Srv.visit]
  split
  · rfl
  · split
    · rfl
    · split
      · rfl
      · split
        · rfl
        · split <;> rfl

theorem inp_act (h : Host) (a : Act) : (sv.act heap d.strHash user h a).1.srv.inp = sv.srv.inp := by
  cases a with
  | visit transferred => exact inp_visit d.strHash transferred sv.srv
  | wait =>
    rw [Serving.act, Serving.wait]
    split <;> rfl
  | run idx =>
    rw [Serving.act, Serving.run]
    split
    · rfl
    · change (sv.srv.run idx).inp = sv.srv.inp
      rw [Srv.run]
      split <;> rfl

end Frames

section System

/-- The call is on the file. -/
def On {ι : Type*} (f : FilePath) (calls : ι → Pwrite) (i : ι) : Prop := (calls i).file = f

variable {ι : Type*} [DecidableEq ι] (d : SimpleHashDistributor) (heap : Nat → UInt8) (calls : ι → Pwrite)

/-- Each call has the requests that it has sent at the hosts that they are for. -/
structure Routed (s : State ι) : Prop where
  size : ∀ i out, s.size i = some out → out = (calls i).sizeOut
  unsent : ∀ i, s.size i = none → ∀ host, s.serving i host = none
  sent : ∀ i, s.size i ≠ none → ∀ r ∈ (calls i).requests d (calls i).sizeOut, ∃ sv, s.serving i r.hostId = some sv
  serving : ∀ i host sv, s.serving i host = some sv →
    sv.srv.inp ∈ (calls i).requests d (calls i).sizeOut ∧ sv.srv.inp.hostId = host

variable {d heap calls} {s : State ι}

omit [DecidableEq ι] in
theorem routed_start (cl : Cluster) : Routed d calls (start cl : State ι) where
  size _ _ h := by cases h
  unsent _ _ _ := rfl
  sent _ h := absurd rfl h
  serving _ _ _ h := by cases h

theorem serving_sendSize (i : ι) (host : UInt64) : (sendSize d calls s i).serving i host =
    (((calls i).requests d (calls i).sizeOut).find? (fun r => r.hostId = host)).map Serving.init := by
  rw [sendSize]
  dsimp only
  rw [Function.update_self]
  rfl

theorem serving_sendSize_of_ne {i j : ι} (h : j ≠ i) : (sendSize d calls s i).serving j = s.serving j := by
  rw [sendSize]
  dsimp only
  rw [Function.update_of_ne h]

theorem size_sendSize (i : ι) : (sendSize d calls s i).size = Function.update s.size i (some (calls i).sizeOut) :=
  rfl

/-- The requests that are out have not been served yet. -/
theorem init_of_sendSize {i : ι} {host : UInt64} {sv : Serving}
    (hsv : (sendSize d calls s i).serving i host = some sv) :
    ∃ r ∈ (calls i).requests d (calls i).sizeOut, sv = Serving.init r := by
  rw [serving_sendSize] at hsv
  obtain ⟨r, hr, rfl⟩ := Option.map_eq_some_iff.mp hsv
  exact ⟨r, List.mem_of_find?_eq_some hr, rfl⟩

theorem cl_sendSize {f : FilePath} {i : ι} (hi : On f calls i) : (sendSize d calls s i).cl =
    s.cl.putStore (metadataHost d f.path) f.path
      ⟨((s.cl (metadataHost d f.path)).store f.path).key.merge (.increaseSize ((calls i).count +
        (calls i).offset.toUInt64) false), ((s.cl (metadataHost d f.path)).store f.path).data⟩ := by
  rw [← show (calls i).file = f from hi]
  rfl

theorem data_sendSize {f : FilePath} {i : ι} (hi : On f calls i) (k : UInt64) :
    (((sendSize d calls s i).cl k).store f.path).data = ((s.cl k).store f.path).data := by
  rw [cl_sendSize hi, Cluster.putStore, Function.update_apply]
  split
  · rename_i hk
    rw [store_putStore, hk]
  · rfl

theorem chunkOf_sendSize {f : FilePath} {i : ι} (hi : On f calls i) (c : UInt64) :
    chunkOf d (sendSize d calls s i).cl f c = chunkOf d s.cl f c := by
  rw [cl_sendSize hi, chunkOf_putStore]
  split
  · rename_i hk
    rw [chunkOf, hk]
  · rfl

theorem Routed.sendSize (h : Routed d calls s) (i : ι) : Routed d calls (sendSize d calls s i) := by
  refine ⟨fun j out hout => ?_, fun j hnone host => ?_, fun j hsome r hr => ?_, fun j host sv hsv => ?_⟩
  · rw [size_sendSize] at hout
    by_cases hj : j = i
    · subst hj
      rw [Function.update_self] at hout
      exact (Option.some.inj hout).symm
    · rw [Function.update_of_ne hj] at hout
      exact h.size j out hout
  · rw [size_sendSize] at hnone
    by_cases hj : j = i
    · subst hj
      rw [Function.update_self] at hnone
      cases hnone
    · rw [Function.update_of_ne hj] at hnone
      rw [serving_sendSize_of_ne hj]
      exact h.unsent j hnone host
  · by_cases hj : j = i
    · subst hj
      rw [serving_sendSize]
      cases hfind : ((calls j).requests d (calls j).sizeOut).find? (fun r' => r'.hostId = r.hostId) with
      | none => exact absurd (List.find?_eq_none.mp hfind r hr) (by simp)
      | some r' => exact ⟨_, rfl⟩
    · rw [size_sendSize, Function.update_of_ne hj] at hsome
      rw [serving_sendSize_of_ne hj]
      exact h.sent j hsome r hr
  · by_cases hj : j = i
    · subst hj
      rw [serving_sendSize] at hsv
      obtain ⟨r, hr, rfl⟩ := Option.map_eq_some_iff.mp hsv
      have hhost : r.hostId = host := by simpa using List.find?_some hr
      exact ⟨List.mem_of_find?_eq_some hr, hhost⟩
    · rw [serving_sendSize_of_ne hj] at hsv
      exact h.serving j host sv hsv

/-- Where the calls stand after an act of one daemon for one of them. -/
theorem serving_act {i j : ι} {host k : UInt64} {sv : Serving} {a : Act} (hsv : s.serving i host = some sv) :
    (step d heap calls s (i, .act host a)).serving j k =
      if j = i ∧ k = host then some (sv.act heap d.strHash (calls i).user (s.cl host) a).1
      else s.serving j k := by
  simp only [step, hsv]
  by_cases hj : j = i
  · subst hj
    rw [Function.update_self]
    by_cases hk : k = host
    · subst hk
      rw [Function.update_self, if_pos ⟨rfl, rfl⟩]
    · rw [Function.update_of_ne hk, if_neg fun h => hk h.2]
  · rw [Function.update_of_ne hj, if_neg fun h => hj h.1]

theorem Routed.act (h : Routed d calls s) {i : ι} {host : UInt64} {sv : Serving} (a : Act)
    (hsv : s.serving i host = some sv) : Routed d calls (step d heap calls s (i, .act host a)) := by
  have hsize : (step d heap calls s (i, .act host a)).size = s.size := by simp only [step, hsv]
  refine ⟨fun j out hout => ?_, fun j hnone k => ?_, fun j hsome r hr => ?_, fun j k sv' hsv' => ?_⟩
  · exact h.size j out (hsize ▸ hout)
  · rw [hsize] at hnone
    rw [serving_act hsv, if_neg, h.unsent j hnone]
    rintro ⟨rfl, rfl⟩
    exact absurd (hsv.symm.trans (h.unsent j hnone k)) (by simp)
  · rw [hsize] at hsome
    rw [serving_act hsv]
    split
    · exact ⟨_, rfl⟩
    · exact h.sent j hsome r hr
  · rw [serving_act hsv] at hsv'
    split at hsv'
    · rename_i hjk
      obtain ⟨rfl, rfl⟩ := hjk
      obtain rfl := Option.some.inj hsv'
      rw [inp_act]
      exact h.serving j k sv hsv
    · exact h.serving j k sv' hsv'

theorem Routed.step (h : Routed d calls s) (e : ι × Event) : Routed d calls (step d heap calls s e) := by
  obtain ⟨i, e⟩ := e
  cases e with
  | updateSize =>
    change Routed d calls (if (s.size i).isSome then s else StoredWrites.sendSize d calls s i)
    split
    · exact h
    · exact h.sendSize i
  | act host a =>
    cases hsv : s.serving i host with
    | none =>
      simp only [StoredWrites.step, hsv]
      exact h
    | some sv => exact h.act a hsv

variable (d calls s) in
/-- A step of a call leaves the other calls where they are. -/
theorem step_of_ne (heap : Nat → UInt8) (e : ι × Event) {j : ι} (hj : j ≠ e.1) :
    (step d heap calls s e).serving j = s.serving j ∧ (step d heap calls s e).size j = s.size j := by
  obtain ⟨i, e⟩ := e
  cases e with
  | updateSize =>
    change (if (s.size i).isSome then s else sendSize d calls s i).serving j = _ ∧
      (if (s.size i).isSome then s else sendSize d calls s i).size j = _
    split
    · exact ⟨rfl, rfl⟩
    · exact ⟨serving_sendSize_of_ne hj, by rw [size_sendSize, Function.update_of_ne hj]⟩
  | act host a =>
    cases hsv : s.serving i host with
    | none => simp only [StoredWrites.step, hsv, and_self]
    | some sv =>
      refine ⟨funext fun k => ?_, by simp only [StoredWrites.step, hsv]⟩
      rw [serving_act hsv, if_neg fun hjk => hj hjk.1]

/-- A step of a call changes nothing of other files. -/
theorem step_frame (h : Routed d calls s) (heap : Nat → UInt8) (e : ι × Event) (k : UInt64) :
    Frame (calls e.1).file.path (s.cl k) ((step d heap calls s e).cl k) := by
  obtain ⟨i, e⟩ := e
  cases e with
  | updateSize =>
    change Frame _ _ ((if (s.size i).isSome then s else sendSize d calls s i).cl k)
    split
    · exact Frame.refl _ _
    · change Frame _ _ (s.cl.putStore _ _ _ k)
      rw [Cluster.putStore, Function.update_apply]
      split
      · rename_i hk
        subst hk
        exact frame_putStore _ fun _ _ => rfl
      · exact Frame.refl _ _
  | act host a =>
    cases hsv : s.serving i host with
    | none =>
      simp only [StoredWrites.step, hsv]
      exact Frame.refl _ _
    | some sv =>
      have hpath := (requests_plans (calls i) d _ (h.serving i host sv hsv).1).path_eq
      simp only [StoredWrites.step, hsv, Function.update_apply]
      split
      · rename_i hk
        subst hk
        exact act_frame hpath _ a
      · exact Frame.refl _ _

end System

section Example

def createdTwo : Cluster :=
  Cluster.putStore (fun _ => emptyHost) (metadataHost twoHosts plainFile.path) plainFile.path
    ⟨Key.absent.merge (.create ((Metadata.ofMode 0o100644).serialize config)), ⟨none, fun _ => none⟩⟩

theorem recorded_createdTwo :
    Recorded ((createdTwo (metadataHost twoHosts plainFile.path)).store plainFile.path).key
      ((Metadata.ofMode 0o100644).kept config) := by
  rw [createdTwo, Cluster.putStore, Function.update_self, store_putStore]
  exact MetadataKey.recorded_created 0o100644

theorem data_createdTwo (k : UInt64) : ((createdTwo k).store plainFile.path).data = ⟨none, fun _ => none⟩ := by
  rw [createdTwo, Cluster.putStore, Function.update_apply]
  split
  · rw [store_putStore]
  · rfl

/-- One byte in the first chunk and two in the second, which lies on the other host. -/
def twoCalls : Bool → Pwrite
  | false => ⟨plainFile, [7], 0, by decide, by decide, by decide⟩
  | true => ⟨plainFile, [8, 9], 524288, by decide, by decide, by decide⟩

theorem on_twoCalls (i : Bool) : On plainFile twoCalls i := by
  cases i <;> rfl

end Example

end GaoFS.WritesInFlight
