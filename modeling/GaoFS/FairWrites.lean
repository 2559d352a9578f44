import GaoFS.ConcurrentWrites
import GaoFS.Library.Rounds

namespace GaoFS.FairWrites

open Arithmetic Chunks Replies ForwardData SrvData ChunkStorage DataOps MetadataDB ForwardRemove
open StoredWrites WritesInFlight FileContents ConcurrentWrites
open WriteRun hiding start
open FirstChunkRace (Pc call Write)
open Library.NumberText Library.Blocks Library.ByteFile Library.Runs Library.Rounds

section Tasks

/-- How many calls into the store a task has before it at most. -/
def callsLeft : Pc → Nat
  | .start => 3
  | .checking | .getting => 2
  | .putting | .updating _ _ => 1
  | .done _ | .aborted => 0

theorem callsLeft_le (pc : Pc) : callsLeft pc ≤ 3 := by
  cases pc <;> simp [callsLeft]

theorem callsLeft_call (w : Write) (record : Option Bytes) (pc : Pc) :
    callsLeft (call w record pc).1 ≤ callsLeft pc - 1 := by
  cases pc with
  | start => cases record <;> exact le_rfl
  | checking =>
    cases record with
    | none => exact le_rfl
    | some raw => exact Nat.zero_le _
  | getting =>
    cases record with
    | none => exact Nat.zero_le _
    | some raw =>
      simp only [call]
      split
      · exact le_rfl
      · exact Nat.zero_le _
      · exact Nat.zero_le _
  | _ => exact Nat.zero_le _

theorem callsLeft_taskCall {rootPath : Bytes} {path : Path} {l : Local} {chnkId : UInt64} {buf : Bytes} {off : Nat}
    {pc : Pc} (hpc : chnkId ≠ 0 → pc = .start ∨ ∃ w, pc = .done w) :
    callsLeft (taskCall rootPath path l chnkId buf off pc).1 ≤ callsLeft pc - 1 := by
  rw [taskCall.eq_def]
  split
  · split
    · exact callsLeft_call _ _ _
    · exact Nat.zero_le _
  · rename_i h0
    obtain rfl | ⟨w, rfl⟩ := hpc h0
    · dsimp only
      split <;> exact Nat.zero_le _
    · exact le_rfl

end Tasks

section Serving

variable {d : SimpleHashDistributor} {path : Path} {o n : Nat} {r : DataIn} {user : Bytes} {sv sv' : Serving}

/-- The daemon has answered within `k` rounds: it has chunks to visit, or its tasks have calls left. -/
def Near (k : Nat) (sv : Serving) : Prop :=
  sv.srv.reply.isSome ∨ sv.srv.rest.length + 4 ≤ k ∨
    0 < k ∧ sv.srv.rest = [] ∧ ∀ idx < sv.srv.loop.slots.length, callsLeft (sv.pc idx) < k

/-- Nothing gets further away. -/
structure Advances (sv sv' : Serving) : Prop where
  reply : sv.srv.reply.isSome → sv'.srv.reply.isSome
  rest : sv'.srv.rest.length ≤ sv.srv.rest.length
  slots : sv.srv.rest = [] → sv'.srv.loop.slots = sv.srv.loop.slots
  calls : ∀ idx, callsLeft (sv'.pc idx) ≤ callsLeft (sv.pc idx)

theorem Advances.refl (sv : Serving) : Advances sv sv := ⟨id, le_rfl, fun _ => rfl, fun _ => le_rfl⟩

theorem Advances.rest_nil (h : Advances sv sv') (hrest : sv.srv.rest = []) : sv'.srv.rest = [] := by
  have hle := h.rest
  rw [hrest] at hle
  exact List.length_eq_zero_iff.mp (Nat.le_zero.mp hle)

theorem Near.advances {k : Nat} (h : Near k sv) (hadv : Advances sv sv') : Near k sv' := by
  obtain hreply | hrest | ⟨hpos, hrest, hcalls⟩ := h
  · exact .inl (hadv.reply hreply)
  · exact .inr (.inl ((Nat.add_le_add_right hadv.rest 4).trans hrest))
  · refine .inr (.inr ⟨hpos, hadv.rest_nil hrest, fun idx hidx => ?_⟩)
    rw [hadv.slots hrest] at hidx
    exact (hadv.calls idx).trans_lt (hcalls idx hidx)

/-- A loop that has not ended has one visit less before it. -/
theorem visit_advances (h : ServingInv d path o n r user sv) (hr : Plans d path o n r) (hu : user.length = n)
    (hn : 0 < n) (hon : o + n < 2 ^ 64) :
    Advances sv { sv with srv := sv.srv.visit d.strHash user true } ∧
      (sv.srv.visit d.strHash user true).rest.length ≤ sv.srv.rest.length - 1 := by
  obtain ⟨vis, rest, hsrv⟩ := h.srv
  cases rest with
  | nil =>
    have hnil : sv.srv.rest = [] := hsrv.rest_eq
    have hsame : sv.srv.visit d.strHash user true = sv.srv := by simp only [Srv.visit, hnil]
    rw [hsame]
    refine ⟨Advances.refl sv, ?_⟩
    rw [hnil]
    exact le_rfl
  | cons c rest =>
    have hnext := hsrv.visit hr hu hn hon
    have hrest : sv.srv.rest.length = rest.length + 1 := by rw [hsrv.rest_eq, List.length_map, List.length_cons]
    have hrest' : (sv.srv.visit d.strHash user true).rest.length = rest.length := by
      rw [hnext.rest_eq, List.length_map]
    refine ⟨⟨fun hreply => ?_, ?_, fun hnil => ?_, fun _ => le_rfl⟩, by omega⟩
    · obtain ⟨out, hout⟩ := Option.isSome_iff_exists.mp hreply
      exact absurd (hsrv.reply out hout).1 (List.cons_ne_nil c rest)
    · dsimp only
      omega
    · rw [hnil] at hrest
      cases hrest

/-- A task that makes a call has one less before it. -/
theorem run_advances (h : ServingInv d path o n r user sv) (heap : Nat → UInt8) (host : Host) (idx : Nat) :
    Advances sv (sv.run heap host idx).1 ∧ (idx < sv.srv.loop.slots.length →
      callsLeft ((sv.run heap host idx).1.pc idx) ≤ callsLeft (sv.pc idx) - 1) := by
  rw [Serving.run]
  cases hslot : sv.srv.loop.slots[idx]? with
  | none =>
    refine ⟨Advances.refl sv, fun hlt => ?_⟩
    exact absurd (List.getElem?_eq_none_iff.mp hslot) (Nat.not_le.mpr hlt)
  | some slot =>
    have hcall : callsLeft (sv.taskOut heap host slot (sv.pc idx)).1 ≤ callsLeft (sv.pc idx) - 1 :=
      callsLeft_taskCall (h.later idx slot hslot)
    have hsame : (sv.srv.run idx).reply = sv.srv.reply ∧ (sv.srv.run idx).rest = sv.srv.rest ∧
        (sv.srv.run idx).loop = sv.srv.loop := by
      rw [Srv.run]
      split <;> exact ⟨rfl, rfl, rfl⟩
    obtain ⟨hreply, hrest, hloop⟩ := hsame
    refine ⟨⟨fun hsome => ?_, ?_, fun _ => ?_, fun i => ?_⟩, fun _ => ?_⟩
    · dsimp only
      rw [hreply]
      exact hsome
    · dsimp only
      rw [hrest]
    · dsimp only
      rw [hloop]
    · dsimp only
      rw [Function.update_apply]
      split
      · rename_i hi
        rw [hi]
        exact hcall.trans (Nat.sub_le _ _)
      · exact le_rfl
    · dsimp only
      rw [Function.update_self]
      exact hcall

theorem wait_advances (sv : Serving) : Advances sv sv.wait := by
  rw [Serving.wait]
  split
  · exact ⟨fun _ => rfl, le_rfl, fun _ => rfl, fun _ => le_rfl⟩
  · exact Advances.refl sv

/-- The wait ends when no task has a call left, if none has died. -/
theorem replied_wait (h : Near 1 sv) (halive : ∀ idx < sv.srv.loop.slots.length, sv.pc idx ≠ .aborted) :
    sv.wait.srv.reply.isSome := by
  by_cases hreply : sv.srv.reply.isSome = true
  · exact (wait_advances sv).reply hreply
  obtain hsome | hrest | ⟨-, hrest, hcalls⟩ := h
  · exact absurd hsome hreply
  · omega
  · rw [Serving.wait, if_pos]
    · rfl
    refine ⟨hrest, Option.not_isSome_iff_eq_none.mp hreply, fun idx hidx => ?_⟩
    have hdone := hcalls idx hidx
    cases hpc : sv.pc idx with
    | done w =>
      rw [eventual_eq_some.mpr hpc]
      rfl
    | aborted => exact absurd hpc (halive idx hidx)
    | _ =>
      rw [hpc] at hdone
      simp [callsLeft] at hdone

/-- A daemon has no more visits before it than the request has chunks. -/
theorem near_serving (h : ServingInv d path o n r user sv) : Near ((blocks C o n).length + 4) sv := by
  obtain ⟨vis, rest, hsrv⟩ := h.srv
  refine .inr (.inl ?_)
  rw [hsrv.rest_eq, List.length_map, hsrv.split, List.length_append]
  omega

theorem length_slots_le (h : ServingInv d path o n r user sv) (hr : Plans d path o n r) :
    sv.srv.loop.slots.length ≤ r.chunkN.toNat := by
  obtain ⟨vis, rest, hsrv⟩ := h.srv
  have hlen : sv.srv.loop.slots.length = (held d path r.hostId vis).length := by
    rw [← List.length_map Slot.piece, hsrv.loop.slots, length_pieces]
  rw [hlen, hr.chunkN, chunksAt, hsrv.split, List.filter_append, List.length_append]
  exact Nat.le_add_right _ _

end Serving

section System

variable {ι : Type*} [DecidableEq ι] {d : SimpleHashDistributor} {heap : Nat → UInt8} {f : FilePath}
  {calls : ι → Pwrite} {content final : Bytes} {base cl : Cluster} {s : State ι} {i : ι}

variable (d calls i) in
/-- Each party of a call gets its turn in the steps: the metadata host, and on each of its data hosts
the loop, every task and the wait. -/
structure Turns (es : List (ι × Event)) : Prop where
  updateSize : (i, .updateSize) ∈ es
  visit : ∀ r ∈ (calls i).requests d (calls i).sizeOut, (i, .act r.hostId (.visit true)) ∈ es
  run : ∀ r ∈ (calls i).requests d (calls i).sizeOut, ∀ idx < r.chunkN.toNat, (i, .act r.hostId (.run idx)) ∈ es
  wait : ∀ r ∈ (calls i).requests d (calls i).sizeOut, (i, .act r.hostId .wait) ∈ es

variable (i) in
/-- What is so at the daemon of a host. -/
def At (host : UInt64) (Q : Serving → Prop) (s : State ι) : Prop := ∃ sv, s.serving i host = some sv ∧ Q sv

omit [DecidableEq ι] in
theorem plans_of_serving (h : Working d f calls content final base s) (hi : On f calls i) {host : UInt64}
    {sv : Serving} (hsv : s.serving i host = some sv) :
    Plans d f.path (calls i).start (calls i).user.length sv.srv.inp := by
  have hplans := requests_plans (calls i) d _ (h.routed.serving i host sv hsv).1
  rwa [show (calls i).file = f from hi] at hplans

variable (heap) in
omit [DecidableEq ι] in
theorem act_advances (h : Working d f calls content final base s) (hi : On f calls i) {host : UInt64}
    {sv : Serving} (hsv : s.serving i host = some sv) {a : Act} (ha : a ≠ .visit false) :
    Advances sv (sv.act heap d.strHash (calls i).user (s.cl host) a).1 := by
  have hinv := h.serving i hi host sv hsv
  have hstop := stop_lt (calls i)
  rw [Pwrite.stop] at hstop
  cases a with
  | run idx => exact (run_advances hinv heap (s.cl host) idx).1
  | wait => exact wait_advances sv
  | visit transferred =>
    cases transferred with
    | false => exact absurd rfl ha
    | true => exact (visit_advances hinv (plans_of_serving h hi hsv) rfl (length_pos (calls i)) (by omega)).1

/-- No step takes a daemon of the call back. -/
theorem at_step (h : Working d f calls content final base s) (hi : On f calls i) {host : UInt64}
    {Q : Serving → Prop} (hkeep : ∀ sv sv', Advances sv sv' → Q sv → Q sv') (hat : At i host Q s)
    {e : ι × Event} (hok : On f calls e.1 → e.2.fails = false) : At i host Q (step d heap calls s e) := by
  obtain ⟨sv, hsv, hq⟩ := hat
  obtain ⟨j, e⟩ := e
  by_cases hj : i = j
  · subst hj
    cases e with
    | updateSize =>
      have hsent : (s.size i).isSome = true := by
        by_contra hno
        have hnone := h.routed.unsent i (Option.not_isSome_iff_eq_none.mp hno) host
        rw [hsv] at hnone
        cases hnone
      refine ⟨sv, ?_, hq⟩
      change (if (s.size i).isSome then s else sendSize d calls s i).serving i host = some sv
      rw [if_pos hsent, hsv]
    | act k a =>
      by_cases hk : host = k
      · subst hk
        have ha : a ≠ .visit false := by
          rintro rfl
          cases hok hi
        refine ⟨_, ?_, hkeep sv _ (act_advances heap h hi hsv ha) hq⟩
        rw [serving_act hsv, if_pos ⟨rfl, rfl⟩]
      · refine ⟨sv, ?_, hq⟩
        cases hsv' : s.serving i k with
        | none =>
          simp only [StoredWrites.step, hsv']
          exact hsv
        | some sv' => rw [serving_act hsv', if_neg fun hboth => hk hboth.2, hsv]
  · exact ⟨sv, by rw [(step_of_ne d calls s heap (j, e) hj).1, hsv], hq⟩

/-- What an act of the daemon itself brings about. -/
theorem at_act {host : UInt64} {P Q : Serving → Prop} {a : Act} (hat : At i host P s)
    (hact : ∀ sv, s.serving i host = some sv → P sv → Q (sv.act heap d.strHash (calls i).user (s.cl host) a).1) :
    At i host Q (step d heap calls s (i, .act host a)) := by
  obtain ⟨sv, hsv, hp⟩ := hat
  refine ⟨_, ?_, hact sv hsv hp⟩
  rw [serving_act hsv, if_pos ⟨rfl, rfl⟩]

omit [DecidableEq ι] in
theorem alive_of_working (h : Working d f calls content final base s) (hi : On f calls i) {host : UInt64}
    {sv : Serving} (hsv : s.serving i host = some sv) : ∀ idx < sv.srv.loop.slots.length, sv.pc idx ≠ .aborted := by
  intro idx hidx hdead
  have hslot := List.getElem?_eq_getElem hidx
  by_cases h0 : (sv.srv.loop.slots[idx]).chnkId = 0
  · obtain ⟨vis, rest, hsrv⟩ := (h.serving i hi host sv hsv).srv
    obtain ⟨c, -, hhome, hid, -⟩ := SrvInv.slot_spec hsrv (fun _ => 0) hslot
    obtain rfl : c = 0 := by rw [← hid, h0]; rfl
    have hhost : target d f.path 0 = host := hhome.trans (h.routed.serving i host sv hsv).2
    subst hhost
    have hstands := h.stands i hi sv idx _ hsv hslot h0
    rw [hdead] at hstands
    exact hstands
  · obtain hstart | ⟨w, hw⟩ := (h.serving i hi host sv hsv).later idx _ hslot h0
    · rw [hdead] at hstart
      cases hstart
    · rw [hdead] at hw
      cases hw

section Round

variable {es : List (ι × Event)} {r : DataIn} {k : Nat}

omit [DecidableEq ι] in
theorem At.mono {host : UInt64} {P Q : Serving → Prop} (h : At i host P s) (himp : ∀ sv, P sv → Q sv) :
    At i host Q s := by
  obtain ⟨sv, hsv, hp⟩ := h
  exact ⟨sv, hsv, himp sv hp⟩

/-- The loop of a daemon comes one chunk further in a round. -/
theorem visit_round (h : Working d f calls content final base s) (hsep : Separate d cl f calls)
    (hmerge : Merges f calls content final) (hi : On f calls i) (hturns : Turns d calls i es)
    (hok : ∀ e ∈ es, On f calls e.1 → e.2.fails = false) (hr : r ∈ (calls i).requests d (calls i).sizeOut)
    (hat : At i r.hostId (fun sv => sv.srv.rest.length ≤ k + 1) s) :
    At i r.hostId (fun sv => sv.srv.rest.length ≤ k) (es.foldl (step d heap calls) s) := by
  have hkeep : ∀ m, ∀ sv sv', Advances sv sv' → sv.srv.rest.length ≤ m → sv'.srv.rest.length ≤ m :=
    fun m sv sv' hadv hle => hadv.rest.trans hle
  refine reached (I := fun s => Working d f calls content final base s ∧
    At i r.hostId (fun sv => sv.srv.rest.length ≤ k + 1) s) ?_ ?_ (hturns.visit r hr) ?_ ⟨h, hat⟩
  · rintro s e he ⟨h, hat⟩
    exact ⟨working_step h hsep hmerge heap e (hok e he), at_step h hi (hkeep _) hat (hok e he)⟩
  · rintro s e he ⟨h, -⟩ hq
    exact at_step h hi (hkeep _) hq (hok e he)
  · rintro s ⟨h, hat⟩
    refine at_act hat fun sv hsv hle => ?_
    have hstop := stop_lt (calls i)
    rw [Pwrite.stop] at hstop
    have hvisit := (visit_advances (h.serving i hi _ sv hsv) (plans_of_serving h hi hsv) rfl
      (length_pos (calls i)) (by omega)).2
    exact hvisit.trans (Nat.sub_le_iff_le_add.mpr hle)

variable (heap) in
/-- Each task of a daemon, whose loop has ended, comes one call further in a round. -/
theorem run_round (h : Working d f calls content final base s) (hsep : Separate d cl f calls)
    (hmerge : Merges f calls content final) (hi : On f calls i) (hturns : Turns d calls i es)
    (hok : ∀ e ∈ es, On f calls e.1 → e.2.fails = false) (hr : r ∈ (calls i).requests d (calls i).sizeOut)
    {idx : Nat} (hidx : idx < r.chunkN.toNat)
    (hat : At i r.hostId (fun sv => sv.srv.rest = [] ∧ idx < sv.srv.loop.slots.length ∧
      callsLeft (sv.pc idx) ≤ k + 1) s) :
    At i r.hostId (fun sv => callsLeft (sv.pc idx) ≤ k) (es.foldl (step d heap calls) s) := by
  refine reached (I := fun s => Working d f calls content final base s ∧
    At i r.hostId (fun sv => sv.srv.rest = [] ∧ idx < sv.srv.loop.slots.length ∧
      callsLeft (sv.pc idx) ≤ k + 1) s) ?_ ?_ (hturns.run r hr idx hidx) ?_ ⟨h, hat⟩
  · rintro s e he ⟨h, hat⟩
    refine ⟨working_step h hsep hmerge heap e (hok e he), at_step h hi ?_ hat (hok e he)⟩
    rintro sv sv' hadv ⟨hrest, hlt, hcalls⟩
    exact ⟨hadv.rest_nil hrest, by rwa [hadv.slots hrest], (hadv.calls idx).trans hcalls⟩
  · rintro s e he ⟨h, -⟩ hq
    exact at_step h hi (fun sv sv' hadv hle => (hadv.calls idx).trans hle) hq (hok e he)
  · rintro s ⟨h, hat⟩
    refine at_act hat fun sv hsv hcalls => ?_
    obtain ⟨-, hlt, hle⟩ := hcalls
    have hrun := (run_advances (h.serving i hi _ sv hsv) heap (s.cl r.hostId) idx).2 hlt
    exact hrun.trans (Nat.sub_le_iff_le_add.mpr hle)

/-- A daemon whose tasks are all done answers in a round. -/
theorem wait_round (h : Working d f calls content final base s) (hsep : Separate d cl f calls)
    (hmerge : Merges f calls content final) (hi : On f calls i) (hturns : Turns d calls i es)
    (hok : ∀ e ∈ es, On f calls e.1 → e.2.fails = false) (hr : r ∈ (calls i).requests d (calls i).sizeOut)
    (hat : At i r.hostId (Near 1) s) :
    At i r.hostId (fun sv => sv.srv.reply.isSome = true) (es.foldl (step d heap calls) s) := by
  refine reached (I := fun s => Working d f calls content final base s ∧ At i r.hostId (Near 1) s) ?_ ?_
    (hturns.wait r hr) ?_ ⟨h, hat⟩
  · rintro s e he ⟨h, hat⟩
    exact ⟨working_step h hsep hmerge heap e (hok e he),
      at_step h hi (fun sv sv' hadv hnear => hnear.advances hadv) hat (hok e he)⟩
  · rintro s e he ⟨h, -⟩ hq
    exact at_step h hi (fun sv sv' hadv hreply => hadv.reply hreply) hq (hok e he)
  · rintro s ⟨h, hat⟩
    exact at_act hat fun sv hsv hnear => replied_wait hnear (alive_of_working h hi hsv)

variable (heap) in
theorem at_run {Q : Serving → Prop} (h : Working d f calls content final base s) (hsep : Separate d cl f calls)
    (hmerge : Merges f calls content final) (hi : On f calls i)
    (hok : ∀ e ∈ es, On f calls e.1 → e.2.fails = false)
    {host : UInt64} (hkeep : ∀ sv sv', Advances sv sv' → Q sv → Q sv') (hat : At i host Q s) :
    At i host Q (es.foldl (step d heap calls) s) :=
  (kept (I := fun s => Working d f calls content final base s)
    (fun _ e he h => working_step h hsep hmerge heap e (hok e he))
    (fun _ e he h hq => at_step h hi hkeep hq (hok e he)) h hat).2

/-- A round brings a daemon of the call nearer to its answer. -/
theorem near_round (h : Working d f calls content final base s) (hsep : Separate d cl f calls)
    (hmerge : Merges f calls content final) (hi : On f calls i) (hturns : Turns d calls i es)
    (hok : ∀ e ∈ es, On f calls e.1 → e.2.fails = false) (hr : r ∈ (calls i).requests d (calls i).sizeOut)
    (hat : At i r.hostId (Near (k + 1)) s) : At i r.hostId (Near k) (es.foldl (step d heap calls) s) := by
  obtain ⟨sv, hsv, hnear⟩ := hat
  by_cases hreply : sv.srv.reply.isSome = true
  · have hafter := at_run heap (Q := fun sv => sv.srv.reply.isSome = true) h hsep hmerge hi hok
      (fun _ _ hadv => hadv.reply) ⟨sv, hsv, hreply⟩
    exact hafter.mono fun _ => .inl
  by_cases hrest : sv.srv.rest = []
  · have hcalls : ∀ idx < sv.srv.loop.slots.length, callsLeft (sv.pc idx) < k + 1 := by
      intro idx hidx
      obtain hsome | hlen | ⟨-, -, hcalls⟩ := hnear
      · exact absurd hsome hreply
      · have hle := callsLeft_le (sv.pc idx)
        omega
      · exact hcalls idx hidx
    cases k with
    | zero => exact (wait_round h hsep hmerge hi hturns hok hr ⟨sv, hsv, hnear⟩).mono fun _ => .inl
    | succ k =>
      have hinp : sv.srv.inp = r := by
        obtain ⟨hmem, hhost⟩ := h.routed.serving i _ sv hsv
        exact List.inj_on_of_nodup_map (requests_hosts (calls i) d).1 hmem hr hhost
      have hchunks := length_slots_le (h.serving i hi _ sv hsv) (plans_of_serving h hi hsv)
      rw [hinp] at hchunks
      obtain ⟨sv', hsv', hrest', hslots'⟩ := at_run heap
        (Q := fun sv' => sv'.srv.rest = [] ∧ sv'.srv.loop.slots.length = sv.srv.loop.slots.length) h hsep hmerge
        hi hok (fun _ _ hadv hq => ⟨hadv.rest_nil hq.1, by rw [hadv.slots hq.1, hq.2]⟩) ⟨sv, hsv, hrest, rfl⟩
      refine ⟨sv', hsv', .inr (.inr ⟨Nat.succ_pos k, hrest', fun idx hidx => ?_⟩)⟩
      rw [hslots'] at hidx
      obtain ⟨sv'', hsv'', hle⟩ := run_round heap (k := k) h hsep hmerge hi hturns hok hr
        (hidx.trans_le hchunks) ⟨sv, hsv, hrest, hidx, Nat.le_of_lt_succ (hcalls idx hidx)⟩
      obtain rfl := Option.some.inj (hsv'.symm.trans hsv'')
      exact Nat.lt_succ_of_le hle
  · have hlen : sv.srv.rest.length + 4 ≤ k + 1 := by
      obtain hsome | hlen | ⟨-, hnil, -⟩ := hnear
      · exact absurd hsome hreply
      · exact hlen
      · exact absurd hnil hrest
    have hpos := List.length_pos_of_ne_nil hrest
    refine (visit_round (k := k - 4) h hsep hmerge hi hturns hok hr ⟨sv, hsv, by omega⟩).mono fun sv' hle => ?_
    exact .inr (.inl (by omega))

theorem sent_step (hsent : (s.size i).isSome) (e : ι × Event) : ((step d heap calls s e).size i).isSome := by
  obtain ⟨j, e⟩ := e
  by_cases hj : i = j
  · subst hj
    cases e with
    | updateSize =>
      change ((if (s.size i).isSome then s else sendSize d calls s i).size i).isSome = true
      rw [if_pos hsent]
      exact hsent
    | act k a =>
      rw [StoredWrites.step]
      dsimp only
      split <;> exact hsent
  · rw [(step_of_ne d calls s heap (j, e) hj).2]
    exact hsent

variable (heap s) in
/-- The requests of a call are out at the latest after one round. -/
theorem sent_round (hturns : Turns d calls i es) : ((es.foldl (step d heap calls) s).size i).isSome := by
  refine reached (I := fun _ => True) (Q := fun s : State ι => (s.size i).isSome = true) (fun _ _ _ _ => trivial)
    (fun s e _ _ hsent => sent_step hsent e) hturns.updateSize (fun s _ => ?_) trivial
  change ((if (s.size i).isSome then s else sendSize d calls s i).size i).isSome = true
  split
  · rename_i hsome
    exact hsome
  · rw [size_sendSize, Function.update_self]
    rfl

end Round

omit [DecidableEq ι] in
/-- A call has returned once all of its daemons have answered. -/
theorem returned_of_replies (h : Working d f calls content final base s) (hsent : (s.size i).isSome)
    (hreplies : ∀ r ∈ (calls i).requests d (calls i).sizeOut, At i r.hostId (Near 0) s) :
    (result d calls s i).isSome := by
  obtain ⟨out, hout⟩ := Option.isSome_iff_exists.mp hsent
  obtain rfl := h.routed.size i out hout
  rw [result, hout, Option.bind_some, if_pos]
  · rfl
  · intro r hr
    obtain ⟨sv, hsv, hreply | hrest | ⟨hpos, -⟩⟩ := hreplies r hr
    · rw [replyOf, hsv]
      exact hreply
    · omega
    · exact absurd hpos (Nat.lt_irrefl 0)

/-- One round to send the requests, one for each chunk, and four for the tasks and the wait. -/
def roundsOf (w : Pwrite) : Nat := (blocks C w.start w.user.length).length + 5

theorem returned_of_rounds (h : Working d f calls content final base s) (hsep : Separate d cl f calls)
    (hmerge : Merges f calls content final) (hi : On f calls i) {rounds : List (List (ι × Event))}
    (hturns : ∀ es ∈ rounds, Turns d calls i es)
    (hok : ∀ es ∈ rounds, ∀ e ∈ es, On f calls e.1 → e.2.fails = false)
    (hlen : roundsOf (calls i) ≤ rounds.length) :
    (result d calls (rounds.flatten.foldl (step d heap calls) s) i).isSome := by
  cases rounds with
  | nil =>
    rw [roundsOf, List.length_nil] at hlen
    omega
  | cons es rounds =>
    obtain ⟨hfirst, hturns⟩ := List.forall_mem_cons.mp hturns
    obtain ⟨hokFirst, hok⟩ := List.forall_mem_cons.mp hok
    rw [List.length_cons, roundsOf] at hlen
    rw [List.flatten_cons, List.foldl_append]
    have hnext := working_run_all h hsep hmerge heap es hokFirst
    have hsent := sent_round heap s hfirst
    have hnear : ∀ r ∈ (calls i).requests d (calls i).sizeOut,
        At i r.hostId (Near ((blocks C (calls i).start (calls i).user.length).length + 4))
          (es.foldl (step d heap calls) s) := by
      intro r hr
      obtain ⟨sv, hsv⟩ := hnext.routed.sent i (Option.isSome_iff_ne_none.mp hsent) r hr
      exact ⟨sv, hsv, near_serving (hnext.serving i hi _ sv hsv)⟩
    have hreplies : ∀ r ∈ (calls i).requests d (calls i).sizeOut,
        At i r.hostId (Near 0) (rounds.flatten.foldl (step d heap calls) (es.foldl (step d heap calls) s)) := by
      refine countdown (I := fun s => Working d f calls content final base s)
        (N := fun k s => ∀ r ∈ (calls i).requests d (calls i).sizeOut, At i r.hostId (Near k) s)
        (R := fun es => Turns d calls i es ∧ ∀ e ∈ es, On f calls e.1 → e.2.fails = false) ?_ ?_ ?_
        (fun es hes => ⟨hturns es hes, hok es hes⟩) (Nat.le_of_succ_le_succ hlen) hnext hnear
      · exact fun s es hround h => working_run_all h hsep hmerge heap es hround.2
      · exact fun k s es hround h hnear r hr => near_round h hsep hmerge hi hround.1 hround.2 hr (hnear r hr)
      · exact fun s es hround h hnear r hr => at_run heap h hsep hmerge hi hround.2
          (fun _ _ hadv hnear => hnear.advances hadv) (hnear r hr)
    have hlast := working_run_all hnext hsep hmerge heap rounds.flatten fun e he => by
      obtain ⟨es', hes', he'⟩ := List.mem_flatten.mp he
      exact hok es' hes' e he'
    exact returned_of_replies hlast (invariant_foldl (I := fun s : State ι => (s.size i).isSome = true)
      (fun _ e hsent => sent_step hsent e) rounds.flatten hsent) hreplies

/-- Any number of calls are in flight, and whenever all parties get their turns often enough, whatever the
order of the turns, the calls on a file return their lengths, and the file has the contents that they
leave one after the other. -/
theorem fair_pwrites_return (heap : Nat → UInt8) (h : Contents d cl f content) (hsep : Separate d cl f calls)
    {order : List ι} (hnodup : order.Nodup) (hmem : ∀ i, i ∈ order ↔ On f calls i)
    (rounds : List (List (ι × Event)))
    (hturns : ∀ i, On f calls i → ∀ es ∈ rounds, Turns d calls i es)
    (hok : ∀ es ∈ rounds, ∀ e ∈ es, On f calls e.1 → e.2.fails = false)
    (hlen : ∀ i, On f calls i → roundsOf (calls i) ≤ rounds.length) :
    let s := rounds.flatten.foldl (step d heap calls) (start cl)
    (∀ i, On f calls i → result d calls s i = some (Int64.ofNat (calls i).user.length)) ∧
      Contents d s.cl f (after calls order content) := by
  intro s
  have hmerge := merges_after hsep hnodup hmem content
  have hstart := working_start h hsep hmerge
  have hworking : Working d f calls content (after calls order content) cl s :=
    working_run_all hstart hsep hmerge heap rounds.flatten fun e he => by
      obtain ⟨es, hes, he'⟩ := List.mem_flatten.mp he
      exact hok es hes e he'
  have hreturned : ∀ i, On f calls i → (result d calls s i).isSome := fun i hi =>
    returned_of_rounds hstart hsep hmerge hi (hturns i hi) hok (hlen i hi)
  exact ⟨fun i hi => result_eq hworking hi (hreturned i hi),
    contents_of_returned hworking hmerge h.length_lt hreturned⟩

end System

section Example

/-- The parties of the two calls take turns, the second call's first. -/
def oneRound : List (Bool × Event) :=
  [(true, .act 1 .wait), (true, .act 1 (.run 0)), (false, .act 0 (.run 0)), (true, .act 1 (.visit true)),
    (true, .updateSize), (false, .updateSize), (false, .act 0 (.visit true)), (false, .act 0 .wait)]

theorem turns_oneRound (i : Bool) : Turns twoHosts twoCalls i oneRound := by
  cases i <;> exact ⟨by decide, by decide +kernel, by decide +kernel, by decide +kernel⟩

theorem fair_pwrites_return_rounds :
    let s := (List.replicate 6 oneRound).flatten.foldl (step twoHosts (fun _ => 0) twoCalls) (start createdTwo)
    (∀ i, On plainFile twoCalls i →
      result twoHosts twoCalls s i = some (Int64.ofNat (twoCalls i).user.length)) ∧
      Contents twoHosts s.cl plainFile (after twoCalls [false, true] []) := by
  have heach : ∀ es ∈ List.replicate 6 oneRound, es = oneRound := fun es hes => List.eq_of_mem_replicate hes
  refine fair_pwrites_return (fun _ => 0) contents_createdTwo separate_twoCalls (by decide) (fun i => ?_) _
    (fun i _ es hes => ?_) (fun es hes e he _ => ?_) (fun i _ => ?_)
  · cases i <;> exact iff_of_true (by decide) rfl
  · rw [heach es hes]
    exact turns_oneRound i
  · rw [heach es hes] at he
    exact (by decide : ∀ e ∈ oneRound, e.2.fails = false) e he
  · rw [List.length_replicate]
    cases i <;> decide +kernel

end Example

end GaoFS.FairWrites
