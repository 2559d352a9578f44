import GaoFS.WriteWait

namespace GaoFS.WriteHandler

open Arithmetic Chunks Replies ForwardData SrvData Library.NumberText

/-- The calls that `rpc_srv_write` depends on. The pull and the start of a task belong to
one of the chunks of this host, the `idx`-th. -/
inductive Call where
  | getInput
  | bulkCreate
  | bulkAccess
  | bulkTransfer (idx : Nat) (slot : Slot)
  | writeNonblock (idx : Nat) (slot : Slot)
  deriving DecidableEq

inductive Event where
  | call (c : Call) (success : Bool)
  | respond (out : DataOut)
  deriving DecidableEq

/-- Which calls succeed, and what the tasks bring that could be started. -/
structure Margo where
  getInput : Bool
  bulkCreate : Bool
  bulkAccess : Bool
  actualCount : UInt32
  bulkTransfer : Nat → Bool
  writeNonblock : Nat → Bool
  taskSize : Nat → Option Int64
  junk : Nat → Int64

/-- The branch with a pull of its own. -/
abbrev FirstOffset (inp : DataIn) (slot : Slot) : Prop :=
  slot.chnkId = inp.chunkStart ∧ 0 < inp.offset

def Margo.waitForTasks (m : Margo) (inp : DataIn) (l : Loop) : DataOut :=
  let taskSizes := (List.range inp.chunkN.toNat).map fun idx =>
    if idx < l.slots.length then m.taskSize idx else none
  (WriteWait.waitForTasks m.junk taskSizes).1

/-- The loop over the chunk ids with what comes behind it. Only the first pull ends the
handler when it fails, the second one is logged. -/
def serve (strHash : Bytes → UInt64) (m : Margo) (inp : DataIn) :
    Loop → List UInt64 → Option (List Event)
  | l, [] => some [.respond (m.waitForTasks inp l)]
  | l, chnkIdFile :: rest =>
    match visit strHash inp l chnkIdFile with
    | none => none
    | some l' =>
      let idx := l.slots.length
      match l'.slots[idx]? with
      | none => serve strHash m inp l' rest
      | some slot =>
        let pulled := Event.call (.bulkTransfer idx slot) (m.bulkTransfer idx)
        let started := Event.call (.writeNonblock idx slot) (m.writeNonblock idx)
        if FirstOffset inp slot ∧ m.bulkTransfer idx = false then
          some [pulled, .respond ⟨EBUSY, 0⟩]
        else if m.writeNonblock idx = false then
          some [pulled, started, .respond ⟨ EIO, 0⟩]
        else (serve strHash m inp l' rest).map fun events => pulled :: started :: events

/-- `rpc_srv_write`. The answer to a buffer that cannot be accessed does not end it, and
`none` is a daemon that traps. -/
def rpcSrvWrite (strHash : Bytes → UInt64) (m : Margo) (inp : DataIn) : Option (List Event) :=
  if m.getInput = false then some [.call .getInput false, .respond ⟨ EIO, 0⟩]
  else if m.bulkCreate = false then
    some [.call .getInput true, .call .bulkCreate false, .respond ⟨ EIO, 0⟩]
  else
    let accessed := m.bulkAccess && m.actualCount == 1
    let refused := if accessed = false then [.respond ⟨ EIO, 0⟩] else []
    (serve strHash m inp (Loop.init inp) (chnkIds inp.chunkStart inp.chunkEnd)).map fun events =>
      .call .getInput true :: .call .bulkCreate true :: .call .bulkAccess accessed :: refused ++ events

def Event.response : Event → Option DataOut
  | .respond out => some out
  | _ => none

/-- What the handler owes to its client. -/
structure Answered (events : List Event) : Prop where
  once : (events.filterMap Event.response).length = 1
  reported : ∀ c, .call c false ∈ events → ∀ out, .respond out ∈ events → out.err ≠ 0
  pulled : ∀ idx slot, .call (.writeNonblock idx slot) true ∈ events →
    [.call (.bulkTransfer idx slot) true, .call (.writeNonblock idx slot) true].Sublist events

/-- A request as a client sends it: it has hosts, and its last chunk id is not the last
number of the type. -/
structure Sent (inp : DataIn) : Prop where
  hosts : inp.hostSize.toUInt32 ≠ 0
  chunkEnd : inp.chunkEnd.toNat < 2 ^ 64 - 1

theorem sent_of_plans {d : SimpleHashDistributor} {path : Path} {o n : Nat} {inp : DataIn}
    (h : Plans d path o n inp) (hon : o + n < 2 ^ 64) : Sent inp := by
  refine ⟨by rw [h.hostSize]; exact d.hostsSize_ne, ?_⟩
  have hdiv : (o + n - 1) / C ≤ (2 ^ 64 - 1) / C := Nat.div_le_div_right (by omega)
  rw [h.chunkEnd]
  exact hdiv.trans_lt (by decide)

/-- The chunks of this host. -/
def taken (strHash : Bytes → UInt64) (inp : DataIn) : List Slot :=
  (((chnkIds inp.chunkStart inp.chunkEnd).foldlM (visit strHash inp) (Loop.init inp)).map
    Loop.slots).getD []

section Loop

variable {strHash : Bytes → UInt64} {m : Margo} {inp : DataIn}

theorem slots_takeChunk (l : Loop) (chnkIdFile : UInt64) :
    ∃ slot, (takeChunk inp l chnkIdFile).slots = l.slots ++ [slot] := by
  rw [takeChunk]
  split
  · exact ⟨_, rfl⟩
  · exact ⟨_, rfl⟩

theorem visit_cases (strHash : Bytes → UInt64) (h : Sent inp) (l : Loop) (chnkIdFile : UInt64) :
    ∃ l', visit strHash inp l chnkIdFile = some l' ∧
      (l'.slots = l.slots ∨ ∃ slot, l'.slots = l.slots ++ [slot]) := by
  rw [visit, locateDataSized, dif_pos h.hosts, Option.map_some]
  split
  · split
    · exact ⟨l, rfl, .inl rfl⟩
    · exact ⟨_, rfl, .inr (slots_takeChunk l chnkIdFile)⟩
  · exact ⟨l, rfl, .inl rfl⟩

variable (m inp) in
/-- What the handler does for its chunks from the `idx`-th on, with `out` as the result of
the tasks. -/
def answer (out : DataOut) : Nat → List Slot → List Event
  | _, [] => [.respond out]
  | idx, slot :: rest =>
    let pulled := Event.call (.bulkTransfer idx slot) (m.bulkTransfer idx)
    let started := Event.call (.writeNonblock idx slot) (m.writeNonblock idx)
    if FirstOffset inp slot ∧ m.bulkTransfer idx = false then [pulled, .respond ⟨EBUSY, 0⟩]
    else if m.writeNonblock idx = false then [pulled, started, .respond ⟨ EIO, 0⟩]
    else pulled :: started :: answer out (idx + 1) rest

theorem serve_eq (strHash : Bytes → UInt64) (m : Margo) (h : Sent inp) (l : Loop) (ids : List UInt64) :
    ∃ last slots, ids.foldlM (visit strHash inp) l = some last ∧ last.slots = l.slots ++ slots ∧
      serve strHash m inp l ids = some (answer m inp (m.waitForTasks inp last) l.slots.length slots) := by
  induction ids generalizing l with
  | nil => exact ⟨l, [], rfl, (List.append_nil _).symm, rfl⟩
  | cons id rest ih =>
    obtain ⟨l', hvisit, hslots⟩ := visit_cases strHash h l id
    obtain ⟨last, slots, hlast, happend, hserve⟩ := ih l'
    have hfold : (id :: rest).foldlM (visit strHash inp) l = some last := by
      rw [List.foldlM_cons, hvisit]
      exact hlast
    cases hslots with
    | inl hsame =>
      have hnone : l'.slots[l.slots.length]? = none := by
        rw [hsame]
        exact List.getElem?_eq_none le_rfl
      refine ⟨last, slots, hfold, by rw [happend, hsame], ?_⟩
      simp only [serve, hvisit, hnone]
      rw [hserve, hsame]
    | inr hpush =>
      obtain ⟨slot, hpush⟩ := hpush
      have hsome : l'.slots[l.slots.length]? = some slot := by
        rw [hpush]
        exact List.getElem?_concat_length
      have hlength : l'.slots.length = l.slots.length + 1 := by
        rw [hpush, List.length_append, List.length_singleton]
      refine ⟨last, slot :: slots, hfold, ?_, ?_⟩
      · rw [happend, hpush, List.append_assoc]
        rfl
      · simp only [serve, hvisit, hsome, hserve, hlength, answer, Option.map_some]
        split
        · rfl
        · split
          · rfl
          · rfl

end Loop

section Answer

variable {m : Margo} {inp : DataIn} {out : DataOut} {idx : Nat} {slots : List Slot}

variable (m inp) in
/-- The handler ends at this chunk. -/
def Ends (idx : Nat) (slot : Slot) : Prop :=
  m.writeNonblock idx = false ∨ FirstOffset inp slot ∧ m.bulkTransfer idx = false

variable (m inp) in
/-- Every failed pull is one at which the handler ends, or which it does not come to. -/
def Heeded (idx : Nat) (slots : List Slot) : Prop :=
  ∀ k slot, slots[k]? = some slot → m.bulkTransfer (idx + k) = false →
    ∃ j ≤ k, ∃ s, slots[j]? = some s ∧ Ends m inp (idx + j) s

theorem answer_ends {slot : Slot} (h : Ends m inp idx slot) (out : DataOut) (rest : List Slot) :
    answer m inp out idx (slot :: rest) =
        [.call (.bulkTransfer idx slot) false, .respond ⟨EBUSY, 0⟩] ∨
      answer m inp out idx (slot :: rest) =
        [.call (.bulkTransfer idx slot) (m.bulkTransfer idx), .call (.writeNonblock idx slot) false,
          .respond ⟨ EIO, 0⟩] := by
  simp only [answer]
  by_cases hpull : FirstOffset inp slot ∧ m.bulkTransfer idx = false
  · rw [if_pos hpull, hpull.2]
    exact .inl rfl
  · have hstart : m.writeNonblock idx = false := h.resolve_right hpull
    rw [if_neg hpull, if_pos hstart, hstart]
    exact .inr rfl

theorem answer_on {slot : Slot} (h : ¬ Ends m inp idx slot) (out : DataOut) (rest : List Slot) :
    answer m inp out idx (slot :: rest) =
      .call (.bulkTransfer idx slot) (m.bulkTransfer idx) :: .call (.writeNonblock idx slot) true ::
        answer m inp out (idx + 1) rest := by
  obtain ⟨hstart, hpull⟩ := not_or.mp h
  simp only [answer]
  rw [if_neg hpull, if_neg hstart, Bool.eq_true_of_not_eq_false hstart]

theorem Heeded.tail {slot : Slot} {rest : List Slot} (h : Heeded m inp idx (slot :: rest))
    (hon : ¬ Ends m inp idx slot) : Heeded m inp (idx + 1) rest := by
  intro k s hs hfail
  have hk : idx + 1 + k = idx + (k + 1) := by omega
  rw [hk] at hfail
  obtain ⟨j, hj, t, ht, hends⟩ := h (k + 1) s hs hfail
  cases j with
  | zero =>
    obtain rfl : slot = t := Option.some.inj ht
    exact absurd hends hon
  | succ j =>
    refine ⟨j, Nat.le_of_succ_le_succ hj, t, ht, ?_⟩
    rw [Nat.add_right_comm]
    exact hends

theorem once_answer (out : DataOut) (idx : Nat) (slots : List Slot) :
    ((answer m inp out idx slots).filterMap Event.response).length = 1 := by
  induction slots generalizing idx with
  | nil => rfl
  | cons slot rest ih =>
    by_cases h : Ends m inp idx slot
    · obtain he | he := answer_ends h out rest <;> rw [he] <;> rfl
    · rw [answer_on h]
      exact ih (idx + 1)

theorem Heeded.head {slot : Slot} {rest : List Slot} (h : Heeded m inp idx (slot :: rest))
    (hon : ¬ Ends m inp idx slot) : m.bulkTransfer idx = true := by
  apply Bool.eq_true_of_not_eq_false
  intro hfail
  obtain ⟨j, hj, s, hs, hends⟩ := h 0 slot rfl hfail
  obtain rfl := Nat.le_zero.mp hj
  obtain rfl : slot = s := Option.some.inj hs
  exact hon hends

theorem reported_answer (h : Heeded m inp idx slots) {c : Call}
    (hc : .call c false ∈ answer m inp out idx slots) {r : DataOut}
    (hr : .respond r ∈ answer m inp out idx slots) : r.err ≠ 0 := by
  induction slots generalizing idx with
  | nil => simp [answer] at hc
  | cons slot rest ih =>
    by_cases hends : Ends m inp idx slot
    · obtain he | he := answer_ends hends out rest
      · obtain rfl : r = ⟨EBUSY, 0⟩ := by simpa [he] using hr
        decide
      · obtain rfl : r = ⟨ EIO, 0⟩ := by simpa [he] using hr
        decide
    · rw [answer_on hends, h.head hends] at hc
      rw [answer_on hends] at hr
      exact ih (h.tail hends) (by simpa using hc) (by simpa using hr)

theorem pulled_answer (h : Heeded m inp idx slots) {i : Nat} {s : Slot}
    (hs : .call (.writeNonblock i s) true ∈ answer m inp out idx slots) :
    [.call (.bulkTransfer i s) true, .call (.writeNonblock i s) true].Sublist
      (answer m inp out idx slots) := by
  induction slots generalizing idx with
  | nil => simp [answer] at hs
  | cons slot rest ih =>
    by_cases hends : Ends m inp idx slot
    · obtain he | he := answer_ends hends out rest <;> simp [he] at hs
    · rw [answer_on hends, h.head hends] at hs ⊢
      simp only [List.mem_cons, Event.call.injEq, reduceCtorEq, false_or, and_true,
        Call.writeNonblock.injEq] at hs
      obtain ⟨rfl, rfl⟩ | hs := hs
      · apply List.Sublist.cons_cons
        apply List.Sublist.cons_cons
        exact List.nil_sublist _
      · apply List.Sublist.cons
        apply List.Sublist.cons
        exact ih (h.tail hends) hs

theorem eq_bulkTransfer {i : Nat} {s : Slot} {success : Bool}
    (h : .call (.bulkTransfer i s) success ∈ answer m inp out idx slots) :
    success = m.bulkTransfer i := by
  induction slots generalizing idx with
  | nil => simp [answer] at h
  | cons slot rest ih =>
    by_cases hends : Ends m inp idx slot
    · obtain he | he := answer_ends hends out rest
      · have hfail : m.bulkTransfer idx = false := by
          by_contra hok
          simp only [answer] at he
          rw [if_neg fun hpull => hok hpull.2] at he
          split at he <;> simp at he
        obtain ⟨⟨rfl, rfl⟩, rfl⟩ : (i = idx ∧ s = slot) ∧ success = false := by simpa [he] using h
        exact hfail.symm
      · obtain ⟨⟨rfl, rfl⟩, rfl⟩ : (i = idx ∧ s = slot) ∧ success = m.bulkTransfer idx := by
          simpa [he] using h
        rfl
    · rw [answer_on hends] at h
      simp only [List.mem_cons, Event.call.injEq, reduceCtorEq, false_and, false_or,
        Call.bulkTransfer.injEq] at h
      obtain ⟨⟨rfl, rfl⟩, rfl⟩ | h := h
      · rfl
      · exact ih h

/-- A chunk that the handler comes to, and at which it does not end, gets its task. -/
theorem started_of_on (out : DataOut) {k : Nat} {slot : Slot} (hk : slots[k]? = some slot)
    (hon : ∀ j ≤ k, ∀ s, slots[j]? = some s → ¬ Ends m inp (idx + j) s) :
    .call (.writeNonblock (idx + k) slot) true ∈ answer m inp out idx slots := by
  induction slots generalizing idx k with
  | nil => simp at hk
  | cons head rest ih =>
    have hhead : ¬ Ends m inp idx head := hon 0 (Nat.zero_le k) head rfl
    rw [answer_on hhead]
    cases k with
    | zero =>
      obtain rfl : head = slot := Option.some.inj hk
      simp
    | succ k =>
      have hrest : .call (.writeNonblock (idx + 1 + k) slot) true ∈ answer m inp out (idx + 1) rest :=
        ih hk fun j hj s hs => by
          rw [Nat.add_right_comm]
          exact hon (j + 1) (Nat.succ_le_succ hj) s hs
      rw [Nat.add_right_comm] at hrest
      exact List.mem_cons_of_mem _ (List.mem_cons_of_mem _ hrest)

theorem heeded_of_pulled
    (h : ∀ i s, .call (.writeNonblock i s) true ∈ answer m inp out idx slots →
      .call (.bulkTransfer i s) true ∈ answer m inp out idx slots) : Heeded m inp idx slots := by
  intro k slot hk hfail
  by_contra hno
  have hstart := started_of_on out hk fun j hj s hs hends => hno ⟨j, hj, s, hs, hends⟩
  exact absurd ((eq_bulkTransfer (h _ _ hstart)).trans hfail) (by decide)

theorem answered_answer_iff : Answered (answer m inp out idx slots) ↔ Heeded m inp idx slots := by
  constructor
  · intro h
    apply heeded_of_pulled
    intro i s hs
    exact (h.pulled i s hs).subset List.mem_cons_self
  · intro h
    exact ⟨once_answer out idx slots, fun c hc r hr => reported_answer h hc hr,
      fun i s hs => pulled_answer h hs⟩

end Answer

section Result

theorem taken_eq {strHash : Bytes → UInt64} {inp : DataIn} {last : Loop}
    (h : (chnkIds inp.chunkStart inp.chunkEnd).foldlM (visit strHash inp) (Loop.init inp) = some last) :
    taken strHash inp = last.slots := by
  rw [taken, h]
  rfl

/-- A call in front that succeeds and belongs to no chunk changes nothing. -/
theorem answered_cons_iff {c : Call} {events : List Event}
    (hc : ∀ idx slot, c ≠ .bulkTransfer idx slot ∧ c ≠ .writeNonblock idx slot) :
    Answered (.call c true :: events) ↔ Answered events := by
  constructor
  · rintro ⟨once, reported, pulled⟩
    refine ⟨once, fun b hb r hr => ?_, fun idx slot hs => ?_⟩
    · exact reported b (List.mem_cons_of_mem _ hb) r (List.mem_cons_of_mem _ hr)
    · have hsub := pulled idx slot (List.mem_cons_of_mem _ hs)
      cases hsub with
      | cons _ hsub => exact hsub
      | cons_cons => exact absurd rfl (hc idx slot).1
  · rintro ⟨once, reported, pulled⟩
    refine ⟨once, fun b hb r hr => ?_, fun idx slot hs => ?_⟩
    · exact reported b (by simpa using hb) r (by simpa using hr)
    · obtain he | hs := List.mem_cons.mp hs
      · exact absurd (Event.call.inj he).1.symm (hc idx slot).2
      · exact (pulled idx slot hs).cons _

/-- The handler does what it owes exactly if it ends before the loop, or has access to its
buffer and every pull that fails is one it heeds. -/
theorem answered_iff (strHash : Bytes → UInt64) (m : Margo) {inp : DataIn} (h : Sent inp) :
    (∃ events, rpcSrvWrite strHash m inp = some events ∧ Answered events) ↔
      m.getInput = false ∨ m.bulkCreate = false ∨
        (m.bulkAccess = true ∧ m.actualCount = 1) ∧ Heeded m inp 0 (taken strHash inp) := by
  obtain ⟨last, slots, hlast, hslots, hserve⟩ :=
    serve_eq strHash m h (Loop.init inp) (chnkIds inp.chunkStart inp.chunkEnd)
  rw [Loop.init, List.nil_append] at hslots
  rw [taken_eq hlast, hslots, rpcSrvWrite]
  by_cases hinput : m.getInput = false
  · rw [if_pos hinput]
    refine iff_of_true ⟨_, rfl, rfl, ?_, ?_⟩ (.inl hinput)
    · intro c _ out hout
      obtain rfl : out = ⟨ EIO, 0⟩ := by simpa using hout
      decide
    · simp
  by_cases hcreate : m.bulkCreate = false
  · rw [if_neg hinput, if_pos hcreate]
    refine iff_of_true ⟨_, rfl, rfl, ?_, ?_⟩ (.inr (.inl hcreate))
    · intro c _ out hout
      obtain rfl : out = ⟨ EIO, 0⟩ := by simpa using hout
      decide
    · simp
  rw [if_neg hinput, if_neg hcreate, hserve, or_iff_right hinput, or_iff_right hcreate]
  simp only [Option.map_some, Option.some.injEq, exists_eq_left']
  by_cases haccess : m.bulkAccess = true ∧ m.actualCount = 1
  · have haccessed : (m.bulkAccess && m.actualCount == 1) = true := by
      rw [haccess.1, haccess.2]
      rfl
    rw [haccessed, if_neg (by decide), and_iff_right haccess]
    simp only [List.cons_append, List.nil_append]
    rw [answered_cons_iff (by simp), answered_cons_iff (by simp), answered_cons_iff (by simp)]
    exact answered_answer_iff
  · have haccessed : (m.bulkAccess && m.actualCount == 1) = false := by
      simpa using haccess
    rw [haccessed, if_pos rfl]
    refine iff_of_false (fun hno => ?_) fun hno => haccess hno.1
    have htwo := hno.once
    simp only [List.filterMap_cons, Event.response, List.cons_append, List.nil_append,
      List.length_cons] at htwo
    rw [once_answer] at htwo
    exact absurd htwo (by decide)

/-- Everything succeeds but the pull of the chunk `idx`, and tasks write what they find. -/
def failedPull (idx : Nat) : Margo where
  getInput := true
  bulkCreate := true
  bulkAccess := true
  actualCount := 1
  bulkTransfer := fun i => i != idx
  writeNonblock := fun _ => true
  taskSize := fun _ => some 5
  junk := fun _ => 0

/-- Five bytes at the beginning of a file of a single host. -/
def fiveBytes : DataIn where
  path := [47, 102]
  offset := 0
  hostId := 0
  hostSize := 1
  chunkN := 1
  chunkStart := 0
  chunkEnd := 0
  totalChunkSize := 5
  bulkSize := 5

/-- Inside of the chunk the failed pull ends the handler. -/
theorem answered_fiveBytes :
    Sent { fiveBytes with offset := 3 } ∧ ∃ events,
      rpcSrvWrite twoHosts.strHash (failedPull 0) { fiveBytes with offset := 3 } = some events ∧ Answered events := by
  have hsent : Sent { fiveBytes with offset := 3 } := ⟨by decide, by decide⟩
  have htaken : taken twoHosts.strHash { fiveBytes with offset := 3 } = [⟨0, 0, 0, 0, 5, 3⟩] := by decide +kernel
  refine ⟨hsent, (answered_iff twoHosts.strHash (failedPull 0) hsent).mpr (.inr (.inr ?_))⟩
  refine ⟨by decide, fun k slot _ _ => ⟨0, Nat.zero_le k, ⟨0, 0, 0, 0, 5, 3⟩, ?_, .inr ⟨by decide, by decide⟩⟩⟩
  rw [htaken]
  rfl

/-- The pull fails, and what the buffer held before is stored as the five bytes. -/
theorem unfilled_buffer_stored :
    Sent fiveBytes ∧ ¬ ∃ events, rpcSrvWrite twoHosts.strHash (failedPull 0) fiveBytes = some events ∧
      Answered events := by
  refine ⟨⟨by decide, by decide⟩, ?_⟩
  have hrun : rpcSrvWrite twoHosts.strHash (failedPull 0) fiveBytes =
      some [.call .getInput true, .call .bulkCreate true, .call .bulkAccess true,
        .call (.bulkTransfer 0 ⟨0, 0, 0, 0, 5, 0⟩) false,
        .call (.writeNonblock 0 ⟨0, 0, 0, 0, 5, 0⟩) true, .respond ⟨0, 5⟩] := by decide +kernel
  rintro ⟨events, hevents, h⟩
  rw [hrun] at hevents
  obtain rfl := Option.some.inj hevents
  have herr := h.reported (.bulkTransfer 0 ⟨0, 0, 0, 0, 5, 0⟩) (by decide) ⟨0, 5⟩ (by decide)
  exact herr rfl

end Result

end GaoFS.WriteHandler
