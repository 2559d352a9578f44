import GaoFS.ChunkStorage

namespace GaoFS.ChunkIo

open Chunks Replies ChunkStorage Library.NumberText Library.ByteFile

def EINTR : Int32 := 4
def EAGAIN : Int32 := 11
def EINVAL : Int32 := 22

/-- `EWOULDBLOCK` is `EAGAIN`. -/
abbrev Retryable (errno : Int32) : Prop := errno = EINTR ∨ errno = EAGAIN

/-- Conversion to `size_t`. -/
def sizeT (x : Int) : Nat := (x % 2 ^ 64).toNat

/-- Conversion to `ssize_t`. -/
def ssizeT (x : Int) : Int := (x + 2 ^ 63) % 2 ^ 64 - 2 ^ 63

/-- What the kernel does with a call: it moves no more than `limit` bytes, or it fails. -/
inductive Reply where
  | transfers (limit : Nat)
  | fails (errno : Int32)
  deriving DecidableEq

/-- A call at a place in the caller's buffer, with its result. -/
structure Call where
  bufOff : Int
  count : Nat
  fileOff : Int
  ret : Int
  errno : Int32
  deriving DecidableEq

/-- A call that neither succeeds nor asks to be made again. -/
def Call.failure (c : Call) : Option Int32 :=
  if c.ret < 0 ∧ ¬ Retryable c.errno then some c.errno else none

/-- A run of one of the loops. `state` is what it leaves behind: the memory of the process
behind a read, the chunk file behind a write. -/
structure Run (σ : Type*) where
  outcome : Except Failure Int
  state : σ
  calls : List Call

def Run.after {σ : Type*} (c : Call) (r : Run σ) : Run σ := { r with calls := c :: r.calls }

/-- Memory around the buffer, which begins at 0. -/
abbrev Memory := Int → UInt8

def store (mem : Memory) (bufOff : Int) (data : Bytes) : Memory := fun i =>
  if bufOff ≤ i then data[(i - bufOff).toNat]?.getD (mem i) else mem i

/-- `pread64`. It finds nothing only at the end of the file or if it is asked for nothing. -/
def sysPread (content : Bytes) (count : Nat) (fileOff : Int) : Reply → Int × Int32 × Bytes
  | .fails errno => (-1, errno, [])
  | .transfers limit =>
    if fileOff < 0 then (-1, EINVAL, [])
    else
      let data := pread fileOff.toNat (min count (max limit 1)) content
      (data.length, 0, data)

def sysPwrite (content data : Bytes) (fileOff : Int) : Reply → Int × Int32 × Bytes
  | .fails errno => (-1, errno, content)
  | .transfers limit =>
    if fileOff < 0 then (-1, EINVAL, content)
    else ((data.take limit).length, 0, pwrite 0 fileOff.toNat (data.take limit) content)

section Loops

variable (content : Bytes) (size offset : Nat)

/-- The loop of `read_chunk`. `read` is a `size_t`, `readTotal` an `ssize_t`, and behind
`replies` the kernel does all it is asked for. -/
def readLoop : Nat → Int → Memory → List Reply → Option (Run Memory)
  | 0, _, _, _ => none
  | fuel + 1, readTotal, mem, replies =>
    let count := sizeT (size - readTotal)
    let (ret, errno, data) :=
      sysPread content count (offset + readTotal) (replies.headD (.transfers count))
    let call : Call := ⟨readTotal, count, offset + readTotal, ret, errno⟩
    let mem := store mem readTotal data
    let read := sizeT ret
    let loopWhile := fun readTotal : Int =>
      if sizeT readTotal ≠ size then (readLoop fuel readTotal mem replies.tail).map (Run.after call)
      else some ⟨.ok readTotal, mem, [call]⟩
    if read = 0 then some ⟨.ok readTotal, mem, [call]⟩
    else if read < 0 then
      if Retryable errno then loopWhile readTotal
      else some ⟨.error (.chunkStorageException errno), mem, [call]⟩
    else loopWhile (ssizeT (readTotal + read))

/-- The loop of `write_chunk`. Here `wrote` is an `ssize_t`, `wroteTotal` a `size_t`. -/
def writeLoop (buf : Bytes) : Nat → Nat → Bytes → List Reply → Option (Run Bytes)
  | 0, _, _, _ => none
  | fuel + 1, wroteTotal, content, replies =>
    let count := sizeT (size - wroteTotal)
    let (wrote, errno, content) :=
      sysPwrite content ((buf.drop wroteTotal).take count) (offset + wroteTotal)
        (replies.headD (.transfers count))
    let call : Call := ⟨wroteTotal, count, offset + wroteTotal, wrote, errno⟩
    let loopWhile := fun wroteTotal : Nat =>
      if wroteTotal ≠ size then
        (writeLoop buf fuel wroteTotal content replies.tail).map (Run.after call)
      else some ⟨.ok wroteTotal, content, [call]⟩
    if wrote < 0 then
      if Retryable errno then loopWhile wroteTotal
      else some ⟨.error (.chunkStorageException errno), content, [call]⟩
    else loopWhile (sizeT (wroteTotal + wrote))

/-- `read_chunk`, whose `open` fails with `openErr` or gives a file. -/
def readChunk (fuel : Nat) (openErr : Option Int32) (mem : Memory) (replies : List Reply) :
    Option (Run Memory) :=
  match openErr with
  | some errno => some ⟨.error (.chunkStorageException errno), mem, []⟩
  | none => readLoop content size offset fuel 0 mem replies

def writeChunk (buf : Bytes) (fuel : Nat) (openErr : Option Int32) (replies : List Reply) :
    Option (Run Bytes) :=
  match openErr with
  | some errno => some ⟨.error (.chunkStorageException errno), content, []⟩
  | none => writeLoop buf.length offset buf fuel 0 content replies

end Loops

/-- The first failure that is not to be tried again. -/
def firstFailure (openErr : Option Int32) (calls : List Call) : Option Int32 :=
  openErr.or (calls.findSome? Call.failure)

structure Inside (size offset : Nat) (c : Call) : Prop where
  lo : 0 ≤ c.bufOff
  hi : c.bufOff + c.count ≤ size
  fileOff : c.fileOff = offset + c.bufOff

/-- The positions of the buffer that a call has written. -/
def Call.written (c : Call) : List Nat := List.range' c.bufOff.toNat c.ret.toNat

section Correct

variable (content : Bytes) (size offset : Nat) (openErr : Option Int32)

structure Reads (r : Run Memory) : Prop where
  inside : ∀ c ∈ r.calls, Inside size offset c
  thrown : ∀ errno, firstFailure openErr r.calls = some errno →
    r.outcome = .error (.chunkStorageException errno)
  returned : firstFailure openErr r.calls = none →
    r.outcome = .ok ((pread offset size content).length : Nat) ∧
      ∀ i < (pread offset size content).length,
        (pread offset size content)[i]? = some (r.state i)

structure Writes (buf : Bytes) (r : Run Bytes) : Prop where
  inside : ∀ c ∈ r.calls, Inside buf.length offset c
  thrown : ∀ errno, firstFailure openErr r.calls = some errno →
    r.outcome = .error (.chunkStorageException errno)
  returned : firstFailure openErr r.calls = none →
    r.outcome = .ok buf.length ∧ r.calls.flatMap Call.written = List.range buf.length ∧
      r.state = pwrite 0 offset buf content

end Correct

section Calls

variable {size offset done : Nat} {errno : Int32}

/-- The call that a loop should make when it is through with `done` bytes. -/
def callAt (size offset done : Nat) (ret : Int) (errno : Int32) : Call :=
  ⟨done, size - done, offset + done, ret, errno⟩

theorem inside_callAt (offset : Nat) (errno : Int32) (h : done ≤ size) (ret : Int) :
    Inside size offset (callAt size offset done ret errno) := by
  refine ⟨Int.natCast_nonneg done, ?_, rfl⟩
  dsimp only [callAt]
  omega

theorem failure_moved (n : Nat) : (callAt size offset done n errno).failure = none :=
  if_neg fun h => absurd h.1 (Int.not_lt.mpr (Int.natCast_nonneg n))

theorem failure_retryable (h : Retryable errno) (ret : Int) :
    (callAt size offset done ret errno).failure = none :=
  if_neg fun hno => hno.2 h

theorem failure_for_good (h : ¬ Retryable errno) : (callAt size offset done (-1) errno).failure = some errno :=
  if_pos ⟨(by decide : (-1 : Int) < 0), h⟩

/-- A loop that throws at its first failure and returns has met none. -/
theorem no_failure_of_ok {σ : Type*} {r : Run σ} {n : Int}
    (hthrown : ∀ errno, r.calls.findSome? Call.failure = some errno →
      r.outcome = .error (.chunkStorageException errno))
    (hok : r.outcome = .ok n) : r.calls.findSome? Call.failure = none := by
  cases hfind : r.calls.findSome? Call.failure with
  | none => rfl
  | some errno =>
    have herror := hthrown errno hfind
    rw [hok] at herror
    cases herror

theorem sizeT_natCast {n : Nat} (h : n ≤ C) : sizeT n = n := by
  simp only [sizeT, C] at *
  omega

theorem ssizeT_natCast {n : Nat} (h : n ≤ C) : ssizeT n = n := by
  simp only [ssizeT, C] at *
  omega

theorem sizeT_sub (hdone : done ≤ size) (hsize : size ≤ C) : sizeT ((size : Int) - done) = size - done := by
  rw [← Int.natCast_sub hdone]
  exact sizeT_natCast (by omega)

end Calls

section Writing

variable {buf content : Bytes} {offset : Nat}

/-- What a loop that has written `done` bytes so far still does. -/
structure WritesOn (buf content : Bytes) (offset done : Nat) (r : Run Bytes) : Prop where
  inside : ∀ c ∈ r.calls, Inside buf.length offset c
  thrown : ∀ errno, r.calls.findSome? Call.failure = some errno →
    r.outcome = .error (.chunkStorageException errno)
  returned : r.calls.findSome? Call.failure = none →
    r.outcome = .ok buf.length ∧
      r.calls.flatMap Call.written = List.range' done (buf.length - done) ∧
      r.state = pwrite 0 offset buf content

theorem WritesOn.after {done n : Nat} {r : Run Bytes} {c : Call}
    (h : WritesOn buf content offset (done + n) r) (hc : Inside buf.length offset c)
    (hfailure : c.failure = none) (hwritten : c.written = List.range' done n)
    (hn : done + n ≤ buf.length) : WritesOn buf content offset done (r.after c) := by
  have hfind : (c :: r.calls).findSome? Call.failure = r.calls.findSome? Call.failure := by
    rw [List.findSome?_cons, hfailure]
  refine ⟨List.forall_mem_cons.mpr ⟨hc, h.inside⟩, fun errno he => ?_, fun hnone => ?_⟩
  · exact h.thrown errno (hfind.symm.trans he)
  · obtain ⟨houtcome, hrest, hstate⟩ := h.returned (hfind.symm.trans hnone)
    refine ⟨houtcome, ?_, hstate⟩
    have hsplit : buf.length - done = n + (buf.length - (done + n)) := by omega
    rw [Run.after, List.flatMap_cons, hrest, hwritten, List.range'_append_1, hsplit]

/-- The loop ends behind a call that has written the last bytes. -/
theorem writesOn_last {done n : Nat} {c : Call} (hc : Inside buf.length offset c)
    (hfailure : c.failure = none) (hwritten : c.written = List.range' done n)
    (hn : done + n = buf.length) :
    WritesOn buf content offset done ⟨.ok buf.length, pwrite 0 offset buf content, [c]⟩ := by
  have hnone : [c].findSome? Call.failure = none := by rw [List.findSome?_cons, hfailure]; rfl
  refine ⟨List.forall_mem_singleton.mpr hc, fun errno he => ?_, fun _ => ⟨rfl, ?_, rfl⟩⟩
  · rw [hnone] at he
    cases he
  · rw [List.flatMap_singleton, hwritten, ← hn, Nat.add_sub_cancel_left]

theorem writeLoop_nil (fuel done : Nat) (content : Bytes) :
    writeLoop buf.length offset buf fuel done content [] =
      writeLoop buf.length offset buf fuel done content
        [.transfers (sizeT ((buf.length : Int) - done))] := by
  cases fuel with
  | zero => rfl
  | succ fuel => rfl

theorem writeLoop_transfers (content : Bytes) (fuel : Nat) {done : Nat} (hdone : done ≤ buf.length)
    (hfit : offset + buf.length ≤ C) (limit : Nat) (rest : List Reply) :
    let n := min limit (buf.length - done)
    let c := callAt buf.length offset done n 0
    let state := pwrite 0 offset (buf.take (done + n)) content
    writeLoop buf.length offset buf (fuel + 1) done (pwrite 0 offset (buf.take done) content)
        (.transfers limit :: rest) =
      if done + n ≠ buf.length then
        (writeLoop buf.length offset buf fuel (done + n) state rest).map (Run.after c)
      else some ⟨.ok (done + n : Nat), state, [c]⟩ := by
  intro n c state
  have hcount : sizeT ((buf.length : Int) - done) = buf.length - done := sizeT_sub hdone (by omega)
  have htake : ((buf.drop done).take (buf.length - done)).take limit = (buf.drop done).take n := by
    rw [List.take_take]
  have hlength : ((buf.drop done).take n).length = n := by
    rw [List.length_take, List.length_drop]
    omega
  have htaken : (buf.take done).length = done := List.length_take_of_le hdone
  have hstate : pwrite 0 (offset + done) ((buf.drop done).take n)
      (pwrite 0 offset (buf.take done) content) = state := by
    have hall := pwrite_pwrite 0 offset (buf.take done) ((buf.drop done).take n) content
    rw [htaken, ← List.take_add] at hall
    exact hall
  have hnext : sizeT ((done : Int) + n) = done + n := sizeT_natCast (n := done + n) (by omega)
  have hoff : ¬ (offset : Int) + done < 0 := by omega
  have hwrote : ¬ (n : Int) < 0 := by omega
  have hfileOff : ((offset : Int) + done).toNat = offset + done := by omega
  simp only [writeLoop, List.headD_cons, List.tail_cons, hcount, sysPwrite, if_neg hoff, htake,
    hlength, hfileOff, hstate, if_neg hwrote, hnext]
  rfl

theorem writeLoop_fails (content : Bytes) (fuel : Nat) {done : Nat} (hdone : done ≤ buf.length)
    (hfit : offset + buf.length ≤ C) (errno : Int32) (rest : List Reply) :
    writeLoop buf.length offset buf (fuel + 1) done content (.fails errno :: rest) =
      if Retryable errno then
        if done ≠ buf.length then
          (writeLoop buf.length offset buf fuel done content rest).map
            (Run.after (callAt buf.length offset done (-1) errno))
        else some ⟨.ok done, content, [callAt buf.length offset done (-1) errno]⟩
      else
        some ⟨.error (.chunkStorageException errno), content,
          [callAt buf.length offset done (-1) errno]⟩ := by
  have hcount : sizeT ((buf.length : Int) - done) = buf.length - done := sizeT_sub hdone (by omega)
  simp only [writeLoop, List.headD_cons, List.tail_cons, hcount, sysPwrite, if_pos (by decide : (-1 : Int) < 0)]
  rfl

/-- A call that transfers something leaves the rest to the loop behind it. -/
theorem writesOn_transfers {done : Nat} (hdone : done ≤ buf.length) (hfit : offset + buf.length ≤ C)
    (limit : Nat) (rest : List Reply)
    (hon : done + min limit (buf.length - done) ≠ buf.length →
      ∃ fuel r, writeLoop buf.length offset buf fuel (done + min limit (buf.length - done))
          (pwrite 0 offset (buf.take (done + min limit (buf.length - done))) content) rest = some r ∧
        WritesOn buf content offset (done + min limit (buf.length - done)) r) :
    ∃ fuel r, writeLoop buf.length offset buf fuel done (pwrite 0 offset (buf.take done) content)
        (.transfers limit :: rest) = some r ∧ WritesOn buf content offset done r := by
  generalize hn : min limit (buf.length - done) = n at hon
  have hle : done + n ≤ buf.length := by omega
  have hc := inside_callAt offset 0 hdone n
  by_cases hend : done + n = buf.length
  · have hstep := writeLoop_transfers content 0 hdone hfit limit rest
    simp only [hn, hend, ne_eq, not_true_eq_false, if_false, List.take_length] at hstep
    exact ⟨1, _, hstep, writesOn_last hc (failure_moved n) rfl hend⟩
  · obtain ⟨fuel, r, hr, hwrites⟩ := hon hend
    have hstep := writeLoop_transfers content fuel hdone hfit limit rest
    simp only [hn, ne_eq, hend, not_false_eq_true, if_true, hr, Option.map_some] at hstep
    exact ⟨fuel + 1, _, hstep, hwrites.after hc (failure_moved n) rfl hle⟩

/-- Whatever the kernel does, the loop goes on to the end or to the first failure. -/
theorem writeLoop_writesOn (content : Bytes) (hfit : offset + buf.length ≤ C) {done : Nat}
    (hdone : done ≤ buf.length) (replies : List Reply) :
    ∃ fuel r, writeLoop buf.length offset buf fuel done (pwrite 0 offset (buf.take done) content) replies =
      some r ∧ WritesOn buf content offset done r := by
  induction replies generalizing done with
  | nil =>
    have hcount : sizeT ((buf.length : Int) - done) = buf.length - done := sizeT_sub hdone (by omega)
    simp only [writeLoop_nil, hcount]
    apply writesOn_transfers hdone hfit
    intro hne
    exact absurd (by omega) hne
  | cons reply rest ih =>
    cases reply with
    | transfers limit =>
      apply writesOn_transfers hdone hfit
      intro hne
      exact ih (by omega)
    | fails errno =>
      have hc := inside_callAt offset errno hdone (-1)
      by_cases hretry : Retryable errno
      · have hfailure : (callAt buf.length offset done (-1) errno).failure = none :=
          failure_retryable hretry (-1)
        by_cases hend : done = buf.length
        · have hstep := writeLoop_fails (pwrite 0 offset (buf.take done) content) 0 hdone hfit errno rest
          simp only [if_pos hretry, hend, ne_eq, not_true_eq_false, if_false, List.take_length] at hstep
          rw [hend] at hc hfailure ⊢
          rw [List.take_length]
          exact ⟨1, _, hstep, writesOn_last hc hfailure rfl (Nat.add_zero _)⟩
        · obtain ⟨fuel, r, hr, hwrites⟩ := ih hdone
          have hstep := writeLoop_fails (pwrite 0 offset (buf.take done) content) fuel hdone hfit errno rest
          simp only [if_pos hretry, ne_eq, hend, not_false_eq_true, if_true, hr, Option.map_some] at hstep
          exact ⟨fuel + 1, _, hstep, WritesOn.after (n := 0) hwrites hc hfailure rfl hdone⟩
      · have hfailure : (callAt buf.length offset done (-1) errno).failure = some errno :=
          failure_for_good hretry
        have hstep := writeLoop_fails (pwrite 0 offset (buf.take done) content) 0 hdone hfit errno rest
        rw [if_neg hretry] at hstep
        refine ⟨1, _, hstep, List.forall_mem_singleton.mpr hc, fun e he => ?_, fun hnone => ?_⟩
        · rw [List.findSome?_cons, hfailure] at he
          rw [Option.some.inj he]
        · rw [List.findSome?_cons, hfailure] at hnone
          cases hnone

end Writing

section Reading

variable {content : Bytes} {size offset : Nat} {mem : Memory}

/-- No call fails but ones that are to be made again, each when more bytes have been read
than calls have failed: `got` is by how much. The read stops at the end of the file or
when it has all it was asked for. -/
def Harmless (size available : Nat) : Nat → List Reply → Prop
  | _, [] => True
  | got, .fails errno :: rest => Retryable errno ∧ 0 < got ∧ Harmless size available (got - 1) rest
  | got, .transfers limit :: rest =>
    let n := min (max limit 1) (min size available - got)
    n = 0 ∨ got + n = size ∨ Harmless size available (got + n) rest

variable (content offset) in
/-- The first `got` bytes of the buffer are those of the file. -/
def Held (mem : Memory) (got : Nat) : Prop := ∀ i < got, content[offset + i]? = some (mem i)

/-- What a loop that goes well comes to. -/
structure ReadsOn (content : Bytes) (size offset : Nat) (r : Run Memory) : Prop where
  inside : ∀ c ∈ r.calls, Inside size offset c
  failure : ∀ c ∈ r.calls, c.failure = none
  outcome : r.outcome = .ok (min size (content.length - offset) : Nat)
  held : Held content offset r.state (min size (content.length - offset))

theorem store_nil (mem : Memory) (bufOff : Int) : store mem bufOff [] = mem := by
  funext i
  simp [store]

theorem Held.store {got n : Nat} (h : Held content offset mem got)
    (hn : got + n ≤ content.length - offset) :
    Held content offset (store mem got (pread (offset + got) n content)) (got + n) := by
  intro i hi
  rw [ChunkIo.store]
  by_cases hlo : (got : Int) ≤ i
  · have hread : (pread (offset + got) n content)[((i : Int) - got).toNat]? = content[offset + i]? := by
      rw [getElem?_pread, if_pos (by omega)]
      congr 1
      omega
    have hlt : offset + i < content.length := by omega
    rw [if_pos hlo, hread, List.getElem?_eq_getElem hlt]
    rfl
  · rw [if_neg hlo]
    exact h i (by omega)

theorem readLoop_nil (fuel : Nat) (got : Int) :
    readLoop content size offset fuel got mem [] =
      readLoop content size offset fuel got mem [.transfers (sizeT (size - got))] := by
  cases fuel with
  | zero => rfl
  | succ fuel => rfl

/-- The kernel stops at its own limit, at the end of the request or at the end of the file. -/
theorem min_moved (size got limit offset length : Nat) :
    min (min (size - got) limit) (length - (offset + got)) =
      min limit (min size (length - offset) - got) := by
  rw [min_comm (size - got), min_assoc, ← Nat.sub_sub, Nat.sub_min_sub_right]

theorem readLoop_transfers (mem : Memory) (fuel : Nat) {got n limit : Nat}
    (hgot : got ≤ min size (content.length - offset)) (hfit : offset + size ≤ C)
    (hn : min (max limit 1) (min size (content.length - offset) - got) = n) (rest : List Reply) :
    readLoop content size offset (fuel + 1) got mem (.transfers limit :: rest) =
      if n = 0 then
        some ⟨.ok got, store mem got (pread (offset + got) n content), [callAt size offset got n 0]⟩
      else if got + n ≠ size then
        (readLoop content size offset fuel (got + n : Nat)
          (store mem got (pread (offset + got) n content)) rest).map
            (Run.after (callAt size offset got n 0))
      else
        some ⟨.ok (got + n : Nat), store mem got (pread (offset + got) n content),
          [callAt size offset got n 0]⟩ := by
  have hcount : sizeT ((size : Int) - got) = size - got := sizeT_sub (by omega) (by omega)
  have hoff : ¬ (offset : Int) + got < 0 := by omega
  have hfileOff : ((offset : Int) + got).toNat = offset + got := by omega
  have hlength : (pread (offset + got) (min (size - got) (max limit 1)) content).length = n := by
    rw [length_pread, min_moved, hn]
  have hdata : pread (offset + got) (min (size - got) (max limit 1)) content =
      pread (offset + got) n content := by
    have htake := List.take_length (l := pread (offset + got) (min (size - got) (max limit 1)) content)
    rw [hlength] at htake
    rw [← htake, pread, pread, List.take_take]
    congr 1
    omega
  have hle : got + n ≤ C := by omega
  have hret : sizeT (n : Int) = n := sizeT_natCast (by omega)
  have hnext : ssizeT ((got : Int) + n) = (got + n : Nat) := ssizeT_natCast hle
  have hsize : sizeT ((got + n : Nat) : Int) = got + n := sizeT_natCast hle
  simp only [readLoop, List.headD_cons, List.tail_cons, hcount, sysPread, if_neg hoff, hfileOff,
    hlength, hret, Nat.not_lt_zero, if_false, hnext, hsize]
  rw [hdata]
  rfl

/-- A call that fails is taken for one that has moved the buffer back by a byte. -/
theorem readLoop_fails (content : Bytes) (mem : Memory) (fuel : Nat) {got : Nat} (hgot : got ≤ size)
    (hfit : offset + size ≤ C) (errno : Int32) (rest : List Reply) :
    readLoop content size offset (fuel + 1) got mem (.fails errno :: rest) =
      (readLoop content size offset fuel (got - 1) mem rest).map
        (Run.after (callAt size offset got (-1) errno)) := by
  have hcount : sizeT ((size : Int) - got) = size - got := sizeT_sub (by omega) (by omega)
  have hread : sizeT (-1) ≠ 0 := by decide
  have hback : ssizeT ((got : Int) + sizeT (-1)) = got - 1 := by
    simp only [ssizeT, sizeT, C] at *
    omega
  have hnext : sizeT ((got : Int) - 1) ≠ size := by
    simp only [sizeT, C] at *
    omega
  simp only [readLoop, List.headD_cons, List.tail_cons, hcount, sysPread, store_nil, if_neg hread,
    Nat.not_lt_zero, if_false, hback, ne_eq, hnext, not_false_eq_true, if_true]
  rfl

theorem ReadsOn.after {r : Run Memory} {c : Call} (h : ReadsOn content size offset r)
    (hc : Inside size offset c) (hfailure : c.failure = none) :
    ReadsOn content size offset (r.after c) :=
  ⟨List.forall_mem_cons.mpr ⟨hc, h.inside⟩, List.forall_mem_cons.mpr ⟨hfailure, h.failure⟩,
    h.outcome, h.held⟩

/-- The buffer then holds what the file has in the range of the request. -/
theorem ReadsOn.delivers {r : Run Memory} (h : ReadsOn content size offset r) :
    r.outcome = .ok ((pread offset size content).length : Nat) ∧
      ∀ i < (pread offset size content).length,
        (pread offset size content)[i]? = some (r.state i) := by
  constructor
  · rw [length_pread]
    exact h.outcome
  · intro i hi
    rw [length_pread] at hi
    rw [getElem?_pread, if_pos (by omega)]
    exact h.held i hi

/-- A call that transfers something leaves the rest to the loop behind it. -/
theorem readsOn_transfers {got n limit : Nat} (hgot : got ≤ min size (content.length - offset))
    (hfit : offset + size ≤ C)
    (hn : min (max limit 1) (min size (content.length - offset) - got) = n)
    (hheld : Held content offset mem got) (rest : List Reply)
    (hon : n ≠ 0 → got + n ≠ size → ∀ mem', Held content offset mem' (got + n) →
      ∃ fuel r, readLoop content size offset fuel (got + n : Nat) mem' rest = some r ∧
        ReadsOn content size offset r) :
    ∃ fuel r, readLoop content size offset fuel got mem (.transfers limit :: rest) = some r ∧
      ReadsOn content size offset r := by
  have hc := inside_callAt offset 0 (hgot.trans (min_le_left _ _)) n
  have hheld' := hheld.store (n := n) (by omega)
  by_cases hzero : n = 0
  · have hstep := readLoop_transfers mem 0 hgot hfit hn rest
    have hend : got = min size (content.length - offset) := by omega
    rw [if_pos hzero] at hstep
    refine ⟨1, _, hstep, List.forall_mem_singleton.mpr hc,
      List.forall_mem_singleton.mpr (failure_moved n), by rw [← hend], ?_⟩
    rw [← hend]
    exact fun i hi => hheld' i (by omega)
  by_cases hlast : got + n = size
  · have hstep := readLoop_transfers mem 0 hgot hfit hn rest
    have hend : got + n = min size (content.length - offset) := by omega
    rw [if_neg hzero, if_neg (not_not.mpr hlast)] at hstep
    refine ⟨1, _, hstep, List.forall_mem_singleton.mpr hc,
      List.forall_mem_singleton.mpr (failure_moved n), by rw [← hend], ?_⟩
    rw [← hend]
    exact hheld'
  · obtain ⟨fuel, r, hr, hreads⟩ := hon hzero hlast _ hheld'
    have hstep := readLoop_transfers mem fuel hgot hfit hn rest
    rw [if_neg hzero, if_pos hlast, hr] at hstep
    exact ⟨fuel + 1, _, hstep, hreads.after hc (failure_moved n)⟩

theorem readLoop_readsOn (mem : Memory) (hfit : offset + size ≤ C) {got : Nat}
    (hgot : got ≤ min size (content.length - offset)) (hheld : Held content offset mem got)
    {replies : List Reply} (h : Harmless size (content.length - offset) got replies) :
    ∃ fuel r, readLoop content size offset fuel got mem replies = some r ∧
      ReadsOn content size offset r := by
  induction replies generalizing got mem with
  | nil =>
    -- The first call takes all there is, a second one may have to find the end of the file.
    have hcount : ∀ k : Nat, k ≤ size → sizeT ((size : Int) - k) = size - k :=
      fun k hk => sizeT_sub hk (by omega)
    simp only [readLoop_nil, hcount got (by omega)]
    refine readsOn_transfers hgot hfit rfl hheld [] fun _ hlast mem' hheld' => ?_
    generalize hn : min (max (size - got) 1) (min size (content.length - offset) - got) = n at *
    simp only [readLoop_nil, hcount (got + n) (by omega)]
    refine readsOn_transfers (by omega) hfit rfl hheld' [] fun hmore _ _ _ => ?_
    exact absurd (by omega) hmore
  | cons reply rest ih =>
    cases reply with
    | transfers limit =>
      refine readsOn_transfers hgot hfit rfl hheld rest fun hzero hlast mem' hheld' => ?_
      exact ih mem' (by omega) hheld' ((h.resolve_left hzero).resolve_left hlast)
    | fails errno =>
      obtain ⟨hretry, hpos, hrest⟩ := h
      obtain ⟨k, rfl⟩ : ∃ k, got = k + 1 := ⟨got - 1, by omega⟩
      have hback : ((k + 1 : Nat) : Int) - 1 = (k : Nat) := by omega
      obtain ⟨fuel, r, hr, hreads⟩ := ih mem (by omega : k ≤ min size (content.length - offset))
        (fun i hi => hheld i (by omega)) hrest
      have hstep := readLoop_fails content mem fuel (hgot.trans (min_le_left _ _)) hfit
        errno rest
      rw [hback] at hstep
      have hc := inside_callAt offset errno (hgot.trans (min_le_left _ _)) (-1)
      exact ⟨fuel + 1, r.after _, hstep.trans (by rw [hr]; rfl),
        hreads.after hc (failure_retryable hretry (-1))⟩

/-- The loop never throws. -/
theorem outcome_readLoop {fuel : Nat} {readTotal : Int} {replies : List Reply} {r : Run Memory}
    (h : readLoop content size offset fuel readTotal mem replies = some r) :
    ∃ n, r.outcome = .ok n := by
  induction fuel generalizing readTotal mem replies r with
  | zero => cases h
  | succ fuel ih =>
    simp only [readLoop, Nat.not_lt_zero, if_false] at h
    split at h
    · cases h
      exact ⟨_, rfl⟩
    · split at h
      · obtain ⟨r', hr', rfl⟩ := Option.map_eq_some_iff.mp h
        obtain ⟨n, hn⟩ := ih hr'
        exact ⟨n, hn⟩
      · cases h
        exact ⟨_, rfl⟩

theorem exists_call_readLoop {fuel : Nat} {readTotal : Int} {replies : List Reply} {r : Run Memory}
    (h : readLoop content size offset fuel readTotal mem replies = some r) :
    ∃ c ∈ r.calls, c.bufOff = readTotal := by
  cases fuel with
  | zero => cases h
  | succ fuel =>
    simp only [readLoop, Nat.not_lt_zero, if_false] at h
    split at h
    · cases h
      exact ⟨_, List.mem_singleton_self _, rfl⟩
    · split at h
      · obtain ⟨r', _, rfl⟩ := Option.map_eq_some_iff.mp h
        exact ⟨_, List.mem_cons_self, rfl⟩
      · cases h
        exact ⟨_, List.mem_singleton_self _, rfl⟩

theorem harmless_of_readLoop (hfit : offset + size ≤ C) {fuel got : Nat}
    (hgot : got ≤ min size (content.length - offset)) {replies : List Reply} {r : Run Memory}
    (h : readLoop content size offset fuel got mem replies = some r)
    (hinside : ∀ c ∈ r.calls, 0 ≤ c.bufOff) (hfailure : ∀ c ∈ r.calls, c.failure = none) :
    Harmless size (content.length - offset) got replies := by
  induction replies generalizing fuel got mem r with
  | nil => exact trivial
  | cons reply rest ih =>
    cases fuel with
    | zero => cases h
    | succ fuel =>
      cases reply with
      | transfers limit =>
        rw [readLoop_transfers mem fuel hgot hfit rfl rest] at h
        split at h
        · exact .inl ‹_›
        split at h
        · obtain ⟨r', hr', rfl⟩ := Option.map_eq_some_iff.mp h
          exact .inr (.inr (ih (by omega) hr' (List.forall_mem_cons.mp hinside).2
            (List.forall_mem_cons.mp hfailure).2))
        · exact .inr (.inl (not_not.mp ‹_›))
      | fails errno =>
        rw [readLoop_fails content mem fuel (by omega) hfit errno rest] at h
        obtain ⟨r', hr', rfl⟩ := Option.map_eq_some_iff.mp h
        obtain ⟨hhead, hrest⟩ := List.forall_mem_cons.mp hfailure
        have hretry : Retryable errno := by
          by_contra hno
          rw [failure_for_good hno] at hhead
          cases hhead
        obtain ⟨c, hc, hoff⟩ := exists_call_readLoop hr'
        have hpos : 0 ≤ (got : Int) - 1 := hoff ▸ (List.forall_mem_cons.mp hinside).2 c hc
        obtain ⟨k, rfl⟩ : ∃ k, got = k + 1 := ⟨got - 1, by omega⟩
        have hback : ((k + 1 : Nat) : Int) - 1 = (k : Nat) := by omega
        rw [hback] at hr'
        exact ⟨hretry, Nat.succ_pos k, ih (by omega) hr' (List.forall_mem_cons.mp hinside).2 hrest⟩

end Reading

section Result

variable (content : Bytes) (offset : Nat) (openErr : Option Int32) (replies : List Reply)

/-- What `read_chunk` owes to its caller: it comes to an end, and rightly. -/
def ReadsCorrectly (size : Nat) (mem : Memory) : Prop :=
  ∃ fuel r, readChunk content size offset fuel openErr mem replies = some r ∧
    Reads content size offset openErr r

def WritesCorrectly (buf : Bytes) : Prop :=
  ∃ fuel r, writeChunk content offset buf fuel openErr replies = some r ∧
    Writes content offset openErr buf r

variable {offset}

theorem writesCorrectly {buf : Bytes} (hfit : offset + buf.length ≤ C) :
    WritesCorrectly content offset openErr replies buf := by
  cases openErr with
  | some e =>
    refine ⟨0, _, rfl, List.forall_mem_nil _, fun errno he => ?_, fun hnone => ?_⟩
    · rw [firstFailure, Option.some_or] at he
      rw [Option.some.inj he]
    · rw [firstFailure, Option.some_or] at hnone
      cases hnone
  | none =>
    obtain ⟨fuel, r, hr, hwrites⟩ :=
      writeLoop_writesOn content hfit (Nat.zero_le buf.length) replies
    refine ⟨fuel, r, hr, hwrites.inside, hwrites.thrown, fun hnone => ?_⟩
    obtain ⟨houtcome, hwritten, hstate⟩ := hwrites.returned hnone
    exact ⟨houtcome, by rw [hwritten, Nat.sub_zero, List.range_eq_range'], hstate⟩

theorem readsCorrectly_iff {size : Nat} (hfit : offset + size ≤ C) (mem : Memory) :
    ReadsCorrectly content offset openErr replies size mem ↔
      openErr ≠ none ∨ Harmless size (content.length - offset) 0 replies := by
  cases openErr with
  | some e =>
    refine iff_of_true ⟨0, _, rfl, List.forall_mem_nil _, fun errno he => ?_, fun hnone => ?_⟩
      (.inl (Option.some_ne_none e))
    · rw [firstFailure, Option.some_or] at he
      rw [Option.some.inj he]
    · rw [firstFailure, Option.some_or] at hnone
      cases hnone
  | none =>
    rw [or_iff_right (not_not.mpr rfl)]
    constructor
    · rintro ⟨fuel, r, hr, hreads⟩
      obtain ⟨n, hn⟩ := outcome_readLoop hr
      have hnone := no_failure_of_ok hreads.thrown hn
      exact harmless_of_readLoop hfit (Nat.zero_le _) hr (fun c hc => (hreads.inside c hc).lo)
        (List.findSome?_eq_none_iff.mp hnone)
    · intro h
      obtain ⟨fuel, r, hr, hreads⟩ := readLoop_readsOn mem hfit (Nat.zero_le _)
        (fun i hi => absurd hi (Nat.not_lt_zero i)) h
      have hnone : r.calls.findSome? Call.failure = none := List.findSome?_eq_none_iff.mpr hreads.failure
      refine ⟨fuel, r, hr, hreads.inside, fun errno he => ?_, fun _ => hreads.delivers⟩
      rw [firstFailure, Option.none_or, hnone] at he
      cases he

section Storage

variable {rootPath dir : Bytes} {filePath : Path} {fs : Fs} {chunkId : UInt64}

/-- Where the kernel does no harm the read delivers what the chunk store has. -/
theorem readChunk_delivers (hdir : chunkDir rootPath filePath = some dir)
    (hfile : chunkFile fs dir chunkId = some content) {size : Nat} (hfit : offset + size ≤ C)
    (mem : Memory) (h : Harmless size (content.length - offset) 0 replies) :
    ∃ fuel r bytes, readChunk content size offset fuel none mem replies = some r ∧
      ChunkStorage.readChunk rootPath filePath fs chunkId size offset = some (.ok bytes) ∧
      r.outcome = .ok (bytes.length : Nat) ∧ ∀ i < bytes.length, bytes[i]? = some (r.state i) := by
  obtain ⟨fuel, r, hr, hreads⟩ := readLoop_readsOn mem hfit (Nat.zero_le _)
    (fun i hi => absurd hi (Nat.not_lt_zero i)) h
  refine ⟨fuel, r, pread offset size content, hr, ?_, hreads.delivers⟩
  rw [ChunkStorage.readChunk, if_pos hfit, hdir, Option.map_some, hfile]

/-- A write that returns leaves the file of the chunk store behind. -/
theorem writeChunk_stores (hdir : chunkDir rootPath filePath = some dir) {buf : Bytes}
    (hfit : offset + buf.length ≤ C) :
    ∃ fuel r, writeChunk ((chunkFile fs dir chunkId).getD []) offset buf fuel none replies = some r ∧
      (r.outcome = .ok buf.length →
        ChunkStorage.writeChunk rootPath filePath fs chunkId buf offset =
          some (.ok buf.length, putChunkFile fs dir chunkId r.state)) := by
  obtain ⟨fuel, r, hr, hwrites⟩ :=
    writeLoop_writesOn ((chunkFile fs dir chunkId).getD []) hfit (Nat.zero_le buf.length) replies
  refine ⟨fuel, r, hr, fun hok => ?_⟩
  have hnone := no_failure_of_ok hwrites.thrown hok
  rw [ChunkStorage.writeChunk, if_pos hfit, hdir, Option.map_some, (hwrites.returned hnone).2.2]

end Storage

/-- Both loops are right exactly if no failure does harm to the read. -/
theorem readsAndWrites_iff {size : Nat} (hfit : offset + size ≤ C) (mem : Memory)
    (content' : Bytes) {offset' : Nat} {buf : Bytes} (hfit' : offset' + buf.length ≤ C)
    (openErr' : Option Int32) (replies' : List Reply) :
    ReadsCorrectly content offset openErr replies size mem ∧
        WritesCorrectly content' offset' openErr' replies' buf ↔
      openErr ≠ none ∨ Harmless size (content.length - offset) 0 replies :=
  (and_iff_left (writesCorrectly content' openErr' replies' hfit')).trans
    (readsCorrectly_iff content openErr replies hfit mem)

/-- The second of two calls is interrupted, and the byte before it is read once more. -/
theorem interrupted_read :
    ReadsCorrectly [1, 2, 3] 0 none [.transfers 2, .fails EINTR] 3 (fun _ => 0) ∧
      WritesCorrectly [] 5 none [.fails EINTR, .transfers 1] [7, 8] :=
  (readsAndWrites_iff [1, 2, 3] none [.transfers 2, .fails EINTR] (by decide) (fun _ => 0) [] (by decide) none
    [.fails EINTR, .transfers 1]).mpr
    (.inr (.inr (.inr ⟨.inl rfl, by decide, trivial⟩)))

/-- A disk that gives an error is never heard of. -/
theorem first_read_fails : ¬ ReadsCorrectly [1, 2, 3] 0 none [.fails Replies.EIO] 3 fun _ => 0 := by
  rw [readsCorrectly_iff [1, 2, 3] none [.fails Replies.EIO] (by decide)]
  rintro (hne | ⟨hretry, _⟩)
  · exact hne rfl
  · exact absurd hretry (by decide)

end Result

end GaoFS.ChunkIo
