import GaoFS.ConcurrentWrites

namespace GaoFS.ChunkOrder

open Arithmetic Chunks Replies ForwardData SrvData ChunkStorage DataOps MetadataDB ForwardRemove
open StoredWrites WritesInFlight ConcurrentWrites
open WriteRun hiding start
open FirstChunkRace (Pc)
open Library.NumberText Library.Blocks Library.ByteFile Library.Runs

section Order

variable {ι : Type*} [DecidableEq ι]

/-- The call whose task writes the chunk file in an event, if there is one. -/
def writer (f : FilePath) (c : UInt64) (s : State ι) (e : ι × Event) : Option ι :=
  match e.2 with
  | .act host (.run idx) =>
    (s.serving e.1 host).bind fun sv => (sv.srv.loop.slots[idx]?).bind fun slot =>
      if sv.srv.inp.path = f.path ∧ slot.chnkId = c ∧ sv.pc idx = .start then some e.1 else none
  | _ => none

variable (d : SimpleHashDistributor) (heap : Nat → UInt8) (calls : ι → Pwrite) (f : FilePath) (c : UInt64)

def record (s : State ι × List ι) (e : ι × Event) : State ι × List ι :=
  (step d heap calls s.1 e, s.2 ++ (writer f c s.1 e).toList)

/-- The calls in the order in which their tasks have written the chunk. -/
def order (cl : Cluster) (es : List (ι × Event)) : List ι := (es.foldl (record d heap calls f c) (start cl, [])).2

omit [DecidableEq ι] in
/-- A chunk after the part of a call is written into it. -/
def putPart (old : Option Bytes) (i : ι) : Option Bytes :=
  let w := calls i
  some (pwrite 0 (cut C w.start w.user.length c.toNat - c.toNat * C)
    (part w.start w.user.length w.user c.toNat) (old.getD []))

theorem snd_record (s : State ι × List ι) (es : List (ι × Event)) :
    s.2 <+: (es.foldl (record d heap calls f c) s).2 := by
  induction es generalizing s with
  | nil => exact List.prefix_rfl
  | cons e es ih => exact (List.prefix_append s.2 _).trans (ih (record d heap calls f c s e))

/-- What has been written stays in its place. -/
theorem order_prefix (cl : Cluster) {es es' : List (ι × Event)} (h : es' <+: es) :
    order d heap calls f c cl es' <+: order d heap calls f c cl es := by
  obtain ⟨rest, rfl⟩ := h
  rw [order, order, List.foldl_append]
  exact snd_record d heap calls f c _ rest

end Order

section Run

variable {ι : Type*} (d : SimpleHashDistributor) (f : FilePath) (calls : ι → Pwrite) (c : UInt64)

/-- A chunk file between two steps: the parts of the calls that have written it, in their order. -/
structure Ordered (base : Cluster) (order : List ι) (s : State ι) : Prop where
  routed : Routed d calls s
  tasks : ∀ i, On f calls i → ∀ host sv, s.serving i host = some sv →
    TasksInv d f.path (calls i).start (calls i).user.length sv.srv.inp (calls i).user sv
  nodup : order.Nodup
  mem : ∀ i, i ∈ order ↔ On f calls i ∧ Wrote d f s i c
  chunk : chunkOf d s.cl f c = order.foldl (putPart calls c) (chunkOf d base f c)

variable {d f calls c} {base : Cluster} {order : List ι} {s s' : State ι}

variable (f calls) in
/-- No transfer for a call on the file fails. -/
def Delivered (es : List (ι × Event)) : Prop := ∀ e ∈ es, On f calls e.1 → e.2.fails = false

theorem ordered_start (cl : Cluster) : Ordered d f calls c cl [] (start cl) := by
  refine ⟨routed_start cl, fun _ _ _ _ hsv => ?_, List.nodup_nil, fun i => ?_, rfl⟩
  · cases hsv
  · refine iff_of_false List.not_mem_nil ?_
    rintro ⟨-, sv, hsv, -⟩
    cases hsv

/-- A step that is not about the file. -/
theorem ordered_other (h : Ordered d f calls c base order s) {g : FilePath}
    (hdir : getChunksDir g.path ≠ getChunksDir f.path) (hframe : ∀ k, Frame g.path (s.cl k) (s'.cl k))
    (hrouted : Routed d calls s') (hserving : ∀ i, On f calls i → s'.serving i = s.serving i) :
    Ordered d f calls c base order s' := by
  refine ⟨hrouted, fun i hi host sv hsv => h.tasks i hi host sv (hserving i hi ▸ hsv), h.nodup, fun i => ?_, ?_⟩
  · rw [h.mem]
    refine and_congr_right fun hi => ?_
    rw [Wrote, Wrote, hserving i hi]
  · rw [chunkOf_frame hdir hframe, h.chunk]

variable [DecidableEq ι]

theorem ordered_sendSize (h : Ordered d f calls c base order s) {i : ι} (hi : On f calls i)
    (hunsent : s.size i = none) : Ordered d f calls c base order (sendSize d calls s i) := by
  have hpath : (calls i).file = f := hi
  refine ⟨h.routed.sendSize i, fun j hj host sv hsv => ?_, h.nodup, fun j => ?_, ?_⟩
  · by_cases he : j = i
    · subst he
      obtain ⟨r, hr, rfl⟩ := init_of_sendSize hsv
      exact TasksInv.init (hpath ▸ requests_plans (calls j) d r hr)
    · rw [serving_sendSize_of_ne he] at hsv
      exact h.tasks j hj host sv hsv
  · rw [h.mem]
    refine and_congr_right fun _ => ?_
    by_cases he : j = i
    · subst he
      refine iff_of_false ?_ ?_
      · rintro ⟨sv, hsv, -⟩
        rw [h.routed.unsent j hunsent] at hsv
        cases hsv
      · rintro ⟨sv, hsv, hdone⟩
        obtain ⟨r, -, rfl⟩ := init_of_sendSize hsv
        exact not_done_init r c hdone
    · rw [Wrote, Wrote, serving_sendSize_of_ne he]
  · rw [chunkOf_sendSize hi, h.chunk]

/-- A step of a daemon that leaves its host alone and brings no task to its end. -/
theorem ordered_quiet (h : Ordered d f calls c base order s) {i : ι} (hi : On f calls i) {host : UInt64}
    {sv : Serving} (hsv : s.serving i host = some sv) (sv' : Serving) {new : List Slot}
    (htasks : TasksInv d f.path (calls i).start (calls i).user.length sv'.srv.inp (calls i).user sv')
    (hslots : sv'.srv.loop.slots = sv.srv.loop.slots ++ new) (hpc : sv'.pc = sv.pc)
    (hrouted : Routed d calls s') (hcl : s'.cl = s.cl)
    (hserving : ∀ j k, s'.serving j k = if j = i ∧ k = host then some sv' else s.serving j k) :
    Ordered d f calls c base order s' := by
  refine ⟨hrouted, fun j hj k sv2 hsv2 => ?_, h.nodup, fun j => ?_, by rw [hcl, h.chunk]⟩
  · rw [hserving] at hsv2
    split at hsv2
    · rename_i hjk
      obtain ⟨rfl, rfl⟩ := hjk
      obtain rfl := Option.some.inj hsv2
      exact htasks
    · exact h.tasks j hj k sv2 hsv2
  · rw [h.mem]
    refine and_congr_right fun hj => ?_
    rw [Wrote, Wrote, hserving]
    split
    · rename_i hjk
      obtain ⟨rfl, hk⟩ := hjk
      rw [hk, hsv]
      simp only [Option.some.injEq, exists_eq_left']
      exact (done_append (h.tasks j hj host sv hsv).fresh hslots hpc c).symm
    · rfl

/-- The chunk and its order after a task's call that stores `l` and leaves the task at `pc`. -/
theorem ordered_call (h : Ordered d f calls c base order s) {i : ι} (hi : On f calls i) {host : UInt64}
    {sv : Serving} (hsv : s.serving i host = some sv) {idx : Nat} {slot : Slot} {pc : Pc} {l : Local}
    (hslot : sv.srv.loop.slots[idx]? = some slot) (hhost : target d f.path slot.chnkId = host)
    (hlater : slot.chnkId ≠ 0 → ∃ w, pc = .done w) (hkeeps : ∀ w, sv.pc idx = .done w → pc = .done w)
    (hrouted : Routed d calls s')
    (hcl : s'.cl = s.cl.putStore host f.path { (s.cl host).store f.path with data := l })
    (hserving : ∀ j k, s'.serving j k =
      if j = i ∧ k = host then some ⟨sv.srv.run idx, Function.update sv.pc idx pc⟩ else s.serving j k)
    {new : List ι} (hnodup : (order ++ new).Nodup)
    (hmem : ∀ j, j ∈ new ↔ j = i ∧ c = slot.chnkId ∧ (∃ w, pc = .done w) ∧ ¬ Wrote d f s i c)
    (hchunk : chunkOf d s'.cl f c = new.foldl (putPart calls c) (chunkOf d s.cl f c)) :
    Ordered d f calls c base (order ++ new) s' := by
  refine ⟨hrouted, fun j hj k sv2 hsv2 => ?_, hnodup, fun j => ?_, ?_⟩
  · rw [hserving] at hsv2
    split at hsv2
    · rename_i hjk
      obtain ⟨rfl, rfl⟩ := hjk
      obtain rfl := Option.some.inj hsv2
      have hinp : (sv.srv.run idx).inp = sv.srv.inp := by
        rw [Srv.run]
        split <;> rfl
      dsimp only
      rw [hinp]
      exact (h.tasks j hj k sv hsv).call hslot hlater hkeeps
    · exact h.tasks j hj k sv2 hsv2
  · rw [List.mem_append, h.mem, hmem, wrote_call hsv hslot hhost hkeeps hserving]
    constructor
    · rintro (⟨hj, hold⟩ | ⟨rfl, hc, hw, -⟩)
      · exact ⟨hj, .inl hold⟩
      · exact ⟨hi, .inr ⟨rfl, hc, hw⟩⟩
    · rintro ⟨hj, hold | ⟨rfl, hc, hw⟩⟩
      · exact .inl ⟨hj, hold⟩
      · by_cases hold : Wrote d f s j c
        · exact .inl ⟨hj, hold⟩
        · exact .inr ⟨rfl, hc, hw, hold⟩
  · rw [hchunk, h.chunk, List.foldl_append]

theorem ordered_act_run (h : Ordered d f calls c base order s) (hc : c ≠ 0) (heap : Nat → UInt8) {i : ι}
    (hi : On f calls i) {host : UInt64} {sv : Serving} (hsv : s.serving i host = some sv) (idx : Nat) :
    Ordered d f calls c base (order ++ (writer f c s (i, .act host (.run idx))).toList)
      (step d heap calls s (i, .act host (.run idx))) := by
  have hrouted : Routed d calls (step d heap calls s (i, .act host (.run idx))) := h.routed.step _
  have htasks := h.tasks i hi host sv hsv
  obtain ⟨hreq, hhost⟩ := h.routed.serving i host sv hsv
  have hplans := requests_plans (calls i) d _ hreq
  rw [show (calls i).file = f from hi] at hplans
  have hserving : ∀ j k, (step d heap calls s (i, .act host (.run idx))).serving j k =
      if j = i ∧ k = host then some (sv.run heap (s.cl host) idx).1 else s.serving j k :=
    fun j k => serving_act hsv
  have hcl : (step d heap calls s (i, .act host (.run idx))).cl =
      Function.update s.cl host (sv.run heap (s.cl host) idx).2 := by
    simp only [StoredWrites.step, hsv, Serving.act]
  have hwriter : ∀ slot, sv.srv.loop.slots[idx]? = some slot → (writer f c s (i, .act host (.run idx))).toList =
      if slot.chnkId = c ∧ sv.pc idx = .start then [i] else [] := by
    intro slot hslot
    simp only [writer, hsv, hslot, Option.bind_some, hplans.path_eq, true_and]
    split <;> rfl
  generalize hnew : (writer f c s (i, .act host (.run idx))).toList = new at *
  generalize step d heap calls s (i, .act host (.run idx)) = s' at *
  rw [Serving.run] at hserving hcl
  cases hslot : sv.srv.loop.slots[idx]? with
  | none =>
    simp only [hslot] at hserving hcl
    rw [Function.update_eq_self] at hcl
    have hnil : new = [] := by
      rw [← hnew]
      simp only [writer, hsv, hslot, Option.bind_some, Option.bind_none, Option.toList_none]
    rw [hnil, List.append_nil]
    exact ordered_quiet h hi hsv sv htasks (List.append_nil _).symm rfl hrouted hcl hserving
  | some slot =>
    simp only [hslot] at hserving hcl
    rw [hplans.path_eq] at hcl
    have hnew := hwriter slot hslot
    obtain ⟨dir, hdir⟩ := exists_chunkDir (s.cl host).rootPath f
    obtain ⟨b, hb, hhome, hid, heffect⟩ := htasks.taskOut hplans rfl heap hdir hslot
    have hof : UInt64.ofNat b = slot.chnkId := by rw [← hid, UInt64.ofNat_toNat]
    have htarget : target d f.path slot.chnkId = host := by
      rw [← hof]
      exact hhome.trans hhost
    have hold : ∀ {e : UInt64}, target d f.path e = host →
        chunkOf d s.cl f e = ((s.cl host).store f.path).data.stored dir e := by
      intro e he
      rw [chunkOf, he, hdir]
      rfl
    generalize sv.taskOut heap (s.cl host) slot (sv.pc idx) = out at *
    have hput : s'.cl = s.cl.putStore host f.path { (s.cl host).store f.path with data := out.2 } := hcl
    -- what is stored of another chunk, or by a task that is done, is as before
    have hsame : out.2.stored dir c = ((s.cl host).store f.path).data.stored dir c →
        chunkOf d s'.cl f c = chunkOf d s.cl f c := by
      intro hstored
      rw [hput, chunkOf_putStore]
      split
      · rename_i hk
        rw [hdir, Option.bind_some, hstored, hold hk]
      · rfl
    obtain ⟨w, hw, rfl⟩ | ⟨h0, hunfinished, hfs⟩ | ⟨h0, hstart, heffect⟩ := heffect
    · have hnil : new = [] := by
        rw [hnew, if_neg]
        rintro ⟨-, hstart⟩
        cases hw.symm.trans hstart
      have hwrote : c = slot.chnkId → Wrote d f s i c := by
        rintro rfl
        exact ⟨sv, by rw [htarget, hsv], idx, slot, hslot, rfl,
          Option.isSome_iff_exists.mpr ⟨w, eventual_eq_some.mpr hw⟩⟩
      refine ordered_call h hi hsv hslot htarget (fun _ => ⟨w, rfl⟩) (fun w' hw' => hw.symm.trans hw') hrouted hput
        hserving ?_ (fun j => ?_) ?_
      · rw [hnil, List.append_nil]
        exact h.nodup
      · rw [hnil]
        exact iff_of_false List.not_mem_nil fun hj => hj.2.2.2 (hwrote hj.2.1)
      · rw [hnil]
        exact hsame rfl
    · have hne : c ≠ slot.chnkId := fun he => hc (he.trans h0)
      have hnil : new = [] := by
        rw [hnew, if_neg fun hs => hne hs.1.symm]
      refine ordered_call h hi hsv hslot htarget (fun hne0 => absurd h0 hne0) (fun w hw => absurd hw (hunfinished w))
        hrouted hput hserving ?_ (fun j => ?_) ?_
      · rw [hnil, List.append_nil]
        exact h.nodup
      · rw [hnil]
        exact iff_of_false List.not_mem_nil fun hj => hne hj.2.1
      · rw [hnil]
        refine hsame ?_
        simp only [Local.stored, if_neg hc, chunkFile, hfs]
    · cases heffect with
      | goesOn pc hnot hzero hstands => exact absurd hzero h0
      | stores l hclean hstored hkept =>
        -- a task that has not been run has written nothing
        have hwrote : c = slot.chnkId → ¬ Wrote d f s i c := by
          rintro rfl ⟨sv2, hsv2, idx', slot', hslot', hchnk, hdone⟩
          rw [htarget, hsv] at hsv2
          obtain rfl := Option.some.inj hsv2
          obtain ⟨vis, rest, hsrv⟩ := htasks.srv
          obtain rfl : idx' = idx := slot_unique hsrv.split hsrv.loop hslot' hslot hchnk
          obtain ⟨w, hw⟩ := Option.isSome_iff_exists.mp hdone
          cases hstart.symm.trans (eventual_eq_some.mp hw)
        have hlist : new = if c = slot.chnkId then [i] else [] := by
          rw [hnew]
          exact if_congr ⟨fun hs => hs.1.symm, fun hs => ⟨hs.symm, hstart⟩⟩ rfl rfl
        refine ordered_call h hi hsv hslot htarget (fun _ => ⟨_, rfl⟩) (fun w hw => absurd (hstart.symm.trans hw)
          Pc.noConfusion) hrouted hput hserving ?_ (fun j => ?_) ?_
        · rw [hlist]
          split
          · rename_i he
            refine List.nodup_append.mpr ⟨h.nodup, List.nodup_singleton i, fun a ha b hb hab => ?_⟩
            rw [List.mem_singleton.mp hb] at hab
            exact hwrote he ((h.mem i).mp (hab ▸ ha)).2
          · rw [List.append_nil]
            exact h.nodup
        · rw [hlist]
          split
          · rename_i he
            rw [List.mem_singleton]
            exact ⟨fun hj => ⟨hj, he, ⟨_, rfl⟩, hwrote he⟩, And.left⟩
          · rename_i he
            exact iff_of_false List.not_mem_nil fun hj => he hj.2.1
        · rw [hlist]
          split
          · rename_i he
            subst he
            rw [hput, chunkOf_putStore, if_pos htarget, hdir, Option.bind_some, hstored, if_pos rfl, ← hold htarget,
              List.foldl_cons, List.foldl_nil, putPart, hid]
          · rename_i he
            refine hsame ?_
            rw [hstored, if_neg he]

omit [DecidableEq ι] in
/-- A daemon that serves a request for another file writes nothing of this one. -/
theorem writer_none {i : ι} (e : Event)
    (hpath : ∀ host sv, s.serving i host = some sv → sv.srv.inp.path ≠ f.path) :
    writer f c s (i, e) = none := by
  cases e with
  | updateSize => rfl
  | act host a =>
    cases a with
    | visit transferred => rfl
    | wait => rfl
    | run idx =>
      cases hsv : s.serving i host with
      | none => simp only [writer, hsv, Option.bind_none]
      | some sv =>
        simp only [writer, hsv, Option.bind_some, hpath host sv hsv, false_and, if_false]
        cases sv.srv.loop.slots[idx]? <;> rfl

theorem ordered_step (h : Ordered d f calls c base order s) (hc : c ≠ 0) (heap : Nat → UInt8)
    (hapart : ∀ i, ¬ On f calls i → getChunksDir (calls i).file.path ≠ getChunksDir f.path) (e : ι × Event)
    (hok : On f calls e.1 → e.2.fails = false) :
    Ordered d f calls c base (order ++ (writer f c s e).toList) (step d heap calls s e) := by
  have hframe := step_frame h.routed heap e
  have hrouted : Routed d calls (step d heap calls s e) := h.routed.step e
  obtain ⟨i, e⟩ := e
  dsimp only at hok hframe
  by_cases hi : On f calls i
  · cases e with
    | updateSize =>
      rw [show (writer f c s (i, .updateSize)).toList = [] from rfl, List.append_nil]
      change Ordered d f calls c base order (if (s.size i).isSome then s else sendSize d calls s i)
      split
      · exact h
      · rename_i hsome
        exact ordered_sendSize h hi (Option.not_isSome_iff_eq_none.mp hsome)
    | act host a =>
      cases hsv : s.serving i host with
      | none =>
        have hnil : writer f c s (i, .act host a) = none := by
          cases a with
          | visit transferred => rfl
          | wait => rfl
          | run idx => simp only [writer, hsv, Option.bind_none]
        rw [hnil, Option.toList_none, List.append_nil]
        simp only [StoredWrites.step, hsv]
        exact h
      | some sv =>
        have htasks := h.tasks i hi host sv hsv
        have hn := length_pos (calls i)
        have hstop := stop_lt (calls i)
        have hplans := requests_plans (calls i) d _ (h.routed.serving i host sv hsv).1
        rw [show (calls i).file = f from hi] at hplans
        rw [Pwrite.stop] at hstop
        have hserving : ∀ j k, (step d heap calls s (i, .act host a)).serving j k =
            if j = i ∧ k = host then some (sv.act heap d.strHash (calls i).user (s.cl host) a).1
            else s.serving j k := fun j k => serving_act hsv
        have hcl : ∀ out, (sv.act heap d.strHash (calls i).user (s.cl host) a) = (out, s.cl host) →
            (step d heap calls s (i, .act host a)).cl = s.cl := by
          intro out hout
          simp only [StoredWrites.step, hsv, hout, Function.update_eq_self]
        cases a with
        | run idx => exact ordered_act_run h hc heap hi hsv idx
        | wait =>
          rw [show (writer f c s (i, .act host .wait)).toList = [] from rfl, List.append_nil]
          have hloop : sv.wait.srv.loop.slots = sv.srv.loop.slots ++ [] ∧ sv.wait.pc = sv.pc ∧
              sv.wait.srv.inp = sv.srv.inp := by
            rw [Serving.wait, List.append_nil]
            split <;> exact ⟨rfl, rfl, rfl⟩
          refine ordered_quiet h hi hsv sv.wait ?_ hloop.1 hloop.2.1 hrouted (hcl _ rfl) hserving
          rw [hloop.2.2]
          exact htasks.wait
        | visit transferred =>
          obtain rfl : transferred = true := by
            cases transferred with
            | false => exact absurd (hok hi) Bool.noConfusion
            | true => rfl
          rw [show (writer f c s (i, .act host (.visit true))).toList = [] from rfl, List.append_nil]
          obtain ⟨-, ⟨new, hnew⟩, -⟩ := visit_spec (calls i).user d.strHash true sv.srv
          refine ordered_quiet h hi hsv { sv with srv := sv.srv.visit d.strHash (calls i).user true } ?_ hnew rfl
            hrouted (hcl _ rfl) hserving
          rw [inp_visit]
          exact htasks.visit hplans rfl hn (by omega) (by omega)
  · have hnil := writer_none (c := c) e fun host sv hsv hpath => by
      have hplans := requests_plans (calls i) d _ (h.routed.serving i host sv hsv).1
      exact hapart i hi (by rw [← hplans.path_eq, hpath])
    rw [hnil, Option.toList_none, List.append_nil]
    exact ordered_other h (hapart i hi) hframe hrouted fun j hj =>
      (step_of_ne d calls s heap (i, e) fun he : j = i => hi (he ▸ hj)).1

variable (d) in
theorem ordered_run (hc : c ≠ 0) (heap : Nat → UInt8)
    (hapart : ∀ i, ¬ On f calls i → getChunksDir (calls i).file.path ≠ getChunksDir f.path) (cl : Cluster)
    (es : List (ι × Event)) (hok : Delivered f calls es) :
    Ordered d f calls c cl (ChunkOrder.order d heap calls f c cl es) (es.foldl (step d heap calls) (start cl)) := by
  have hrun : ∀ (s : State ι × List ι), Ordered d f calls c cl s.2 s.1 →
      Ordered d f calls c cl (es.foldl (record d heap calls f c) s).2 (es.foldl (step d heap calls) s.1) := by
    induction es with
    | nil => exact fun _ hs => hs
    | cons e es ih =>
      exact fun s hs => ih (fun e' he' => hok e' (List.mem_cons_of_mem e he')) (record d heap calls f c s e)
        (ordered_step hs hc heap hapart e (hok e List.mem_cons_self))
  exact hrun (start cl, []) (ordered_start cl)

end Run

section Result

variable {ι : Type*} {d : SimpleHashDistributor} {f : FilePath} {calls : ι → Pwrite} {c : UInt64}
  {base cl : Cluster} {order : List ι} {s : State ι}

variable (calls c) in
/-- The call has a part of the chunk to write. -/
def Touches (i : ι) : Prop := c.toNat ∈ blocks C (calls i).start (calls i).user.length

/-- A call that has begun to write has sent its requests, and one that has written has a part to write. -/
theorem Ordered.of_mem (h : Ordered d f calls c base order s) {i : ι} (hi : i ∈ order) :
    On f calls i ∧ Touches calls c i ∧ s.size i ≠ none := by
  obtain ⟨hon, sv, hsv, idx, slot, hslot, rfl, -⟩ := (h.mem i).mp hi
  obtain ⟨vis, rest, hsrv⟩ := (h.tasks i hon _ sv hsv).srv
  obtain ⟨b, hb, -, hid, -⟩ := SrvInv.slot_spec hsrv (fun _ => 0) hslot
  refine ⟨hon, ?_, fun hnone => ?_⟩
  · rw [Touches, hid]
    exact hb
  · rw [h.routed.unsent i hnone] at hsv
    cases hsv

/-- A call that has returned has written its part. -/
theorem Ordered.mem_of_returned (h : Ordered d f calls c base order s) {i : ι} (hi : On f calls i)
    (htouch : Touches calls c i) (hsome : (result d calls s i).isSome) : i ∈ order := by
  rw [h.mem]
  refine ⟨hi, ?_⟩
  have hpath : (calls i).file = f := hi
  have hhome : home d f.path c.toNat = target d f.path c := by rw [home, UInt64.ofNat_toNat]
  obtain ⟨r, hr, hhost⟩ := List.mem_map.mp (((requests_hosts (calls i) d).2 (target d f.path c)).mpr
    ⟨c.toNat, htouch, hpath ▸ hhome⟩)
  rw [result] at hsome
  cases hsize : s.size i with
  | none =>
    rw [hsize] at hsome
    cases hsome
  | some out =>
    obtain rfl := h.routed.size i out hsize
    rw [hsize, Option.bind_some] at hsome
    split at hsome
    · rename_i hall
      have hreply := hall r hr
      rw [replyOf] at hreply
      cases hsv : s.serving i r.hostId with
      | none =>
        rw [hsv] at hreply
        cases hreply
      | some sv =>
        rw [hsv, Option.bind_some] at hreply
        have htasks := h.tasks i hi _ sv hsv
        obtain ⟨hinp, hsame⟩ := h.routed.serving i _ sv hsv
        obtain ⟨hnil, hall⟩ := htasks.reply (Option.isSome_iff_ne_none.mp hreply)
        obtain ⟨vis, rest, hsrv⟩ := htasks.srv
        have hrest : rest = [] := List.map_eq_nil_iff.mp (hsrv.rest_eq.symm.trans hnil)
        subst hrest
        have hchunk : c.toNat ∈ chunksAt d f.path (calls i).start (calls i).user.length sv.srv.inp.hostId := by
          rw [mem_chunksAt, hsame, hhost]
          exact ⟨htouch, hhome⟩
        obtain ⟨idx, slot, hidx, hid⟩ := exists_slot hsrv.loop hsrv.split hchunk
        rw [UInt64.ofNat_toNat] at hid
        exact ⟨sv, hhost ▸ hsv, idx, slot, hidx, hid, hall idx (List.getElem?_eq_some_iff.mp hidx).1⟩
    · cases hsome

/-- What a task of a read finds of the chunk. -/
theorem Ordered.read (h : Ordered d f calls c base order s) (hc : c ≠ 0) {size off : Nat} (fits : off + size ≤ C) :
    readFileAbt (s.cl (target d f.path c)).rootPath f.path ((s.cl (target d f.path c)).store f.path).data c size off =
      some (fileRead (order.foldl (putPart calls c) (chunkOf d base f c)) size off) := by
  obtain ⟨dir, hdir⟩ := exists_chunkDir (s.cl (target d f.path c)).rootPath f
  rw [← h.chunk, readFileAbt_chunkFile hdir _ hc fits, chunkOf, hdir, Option.bind_some, Local.stored, if_neg hc]

variable [DecidableEq ι]

variable (d) (heap : Nat → UInt8) (calls) (f) (c) (cl) in
/-- A chunk that calls in flight write and read as if one call was made after the other, in an order
that grows with the run: a call that has returned is in it, one that has not begun is not, and
every task of a read finds what the calls so far leave. -/
structure Linearizes (order : List (ι × Event) → List ι) : Prop where
  extends_order : ∀ es es', es' <+: es → order es' <+: order es
  nodup : ∀ es, Delivered f calls es → (order es).Nodup
  begun : ∀ es, Delivered f calls es → ∀ i ∈ order es, On f calls i ∧ Touches calls c i ∧
    (es.foldl (step d heap calls) (start cl)).size i ≠ none
  returned : ∀ es, Delivered f calls es → ∀ i, On f calls i → Touches calls c i →
    (result d calls (es.foldl (step d heap calls) (start cl)) i).isSome → i ∈ order es
  chunk : ∀ es, Delivered f calls es → chunkOf d (es.foldl (step d heap calls) (start cl)).cl f c =
    (order es).foldl (putPart calls c) (chunkOf d cl f c)
  read : ∀ es, Delivered f calls es → ∀ size off, off + size ≤ C →
    let h := (es.foldl (step d heap calls) (start cl)).cl (target d f.path c)
    readFileAbt h.rootPath f.path (h.store f.path).data c size off =
      some (fileRead ((order es).foldl (putPart calls c) (chunkOf d cl f c)) size off)

/-- Calls on a file that overlap or not, in any interleaving, write each chunk but the first in one order. -/
theorem chunks_linearize (hc : c ≠ 0) (heap : Nat → UInt8)
    (hapart : ∀ i, ¬ On f calls i → getChunksDir (calls i).file.path ≠ getChunksDir f.path) :
    Linearizes d f calls c cl heap (ChunkOrder.order d heap calls f c cl) where
  extends_order _ _ h := order_prefix d heap calls f c cl h
  nodup es hok := (ordered_run d hc heap hapart cl es hok).nodup
  begun es hok _ hi := (ordered_run d hc heap hapart cl es hok).of_mem hi
  returned es hok _ hi htouch hsome := (ordered_run d hc heap hapart cl es hok).mem_of_returned hi htouch hsome
  chunk es hok := (ordered_run d hc heap hapart cl es hok).chunk
  read es hok _ _ fits := (ordered_run d hc heap hapart cl es hok).read hc fits

/-- Two calls on one byte of the second chunk. -/
def racingCalls (i : Bool) : Pwrite where
  file := plainFile
  user := [if i then 8 else 9]
  offset := (twoCalls true).offset
  user_ne := List.cons_ne_nil _ _
  offset_nonneg := (twoCalls true).offset_nonneg
  end_le := by
    change (twoCalls true).offset.toInt + ((1 : Nat) : Int) ≤ _
    decide

theorem chunks_linearize_racing : Linearizes twoHosts plainFile racingCalls 1 createdTwo (fun _ => 0)
    (ChunkOrder.order twoHosts (fun _ => 0) racingCalls plainFile 1 createdTwo) :=
  chunks_linearize (by decide) _ fun _ hi => absurd rfl hi

/-- The call that begins last is the first to write. -/
example : ChunkOrder.order twoHosts (fun _ => 0) racingCalls plainFile 1 createdTwo
    [(false, .updateSize), (true, .updateSize), (false, .act 1 (.visit true)), (true, .act 1 (.visit true)),
      (true, .act 1 (.run 0)), (false, .act 1 (.run 0))] = [true, false] := by
  decide +kernel

end Result

end GaoFS.ChunkOrder
