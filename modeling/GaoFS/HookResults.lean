import GaoFS.Descriptors

namespace GaoFS.HookResults

open FileMap Descriptors

variable {ρ : Type*}

/-- The system calls that move bytes. -/
inductive SyscallNumber where
  | read
  | pread64
  | readv
  | preadv
  | write
  | pwrite64
  | writev
  | pwritev
  deriving DecidableEq

/-- The functions of the client behind them. Buffers and vectors are addresses. -/
inductive GaofsCall where
  | read (fd : Int32) (buf count : UInt64)
  | preadWs (fd : Int32) (buf count : UInt64) (offset : Int64)
  | readv (fd : Int32) (iov : UInt64) (iovcnt : Int32)
  | preadv (fd : Int32) (iov : UInt64) (iovcnt : Int32) (offset : Int64)
  | write (fd : Int32) (buf count : UInt64)
  | pwriteWs (fd : Int32) (buf count : UInt64) (offset : Int64)
  | writev (fd : Int32) (iov : UInt64) (iovcnt : Int32)
  | pwritev (fd : Int32) (iov : UInt64) (iovcnt : Int32) (offset : Int64)

/-- What the functions return, with the errno behind it, and what the kernel returns. -/
structure Client (ρ : Type*) where
  fileMap : OpenFileMap ρ
  gaofs : GaofsCall → Int64 × Int32
  noIntercept : SyscallNumber → List UInt64 → Int64

section Hooks

variable (c : Client ρ)

/-- Both branches return an `int`. -/
def transfer (fd : Int32) (call : GaofsCall) (kernel : Int64) : Int32 :=
  if c.fileMap.exist fd then withErrno (c.gaofs call).2 (c.gaofs call).1.toInt32 else kernel.toInt32

def hookRead (fd : UInt32) (buf count : UInt64) : Int32 :=
  transfer c fd.toInt32 (.read fd.toInt32 buf count) (c.noIntercept .read [fd.toUInt64, buf, count])

def hookPread (fd : UInt32) (buf count : UInt64) (pos : Int64) : Int32 :=
  transfer c fd.toInt32 (.preadWs fd.toInt32 buf count pos)
    (c.noIntercept .pread64 [fd.toUInt64, buf, count, pos.toUInt64])

def hookReadv (fd iov iovcnt : UInt64) : Int32 :=
  transfer c fd.toUInt32.toInt32 (.readv fd.toUInt32.toInt32 iov iovcnt.toUInt32.toInt32)
    (c.noIntercept .readv [fd, iov, iovcnt])

def hookPreadv (fd iov iovcnt posL _posH : UInt64) : Int32 :=
  transfer c fd.toUInt32.toInt32 (.preadv fd.toUInt32.toInt32 iov iovcnt.toUInt32.toInt32 posL.toInt64)
    (c.noIntercept .preadv [fd, iov, iovcnt, posL])

def hookWrite (fd : UInt32) (buf count : UInt64) : Int32 :=
  transfer c fd.toInt32 (.write fd.toInt32 buf count) (c.noIntercept .write [fd.toUInt64, buf, count])

def hookPwrite (fd : UInt32) (buf count : UInt64) (pos : Int64) : Int32 :=
  transfer c fd.toInt32 (.pwriteWs fd.toInt32 buf count pos)
    (c.noIntercept .pwrite64 [fd.toUInt64, buf, count, pos.toUInt64])

def hookWritev (fd iov iovcnt : UInt64) : Int32 :=
  transfer c fd.toUInt32.toInt32 (.writev fd.toUInt32.toInt32 iov iovcnt.toUInt32.toInt32)
    (c.noIntercept .writev [fd, iov, iovcnt])

def hookPwritev (fd iov iovcnt posL _posH : UInt64) : Int32 :=
  transfer c fd.toUInt32.toInt32 (.pwritev fd.toUInt32.toInt32 iov iovcnt.toUInt32.toInt32 posL.toInt64)
    (c.noIntercept .pwritev [fd, iov, iovcnt, posL])

/-- The arguments of a system call are `long`. -/
structure Args where
  arg0 : Int64
  arg1 : Int64
  arg2 : Int64
  arg3 : Int64
  arg4 : Int64

/-- What `hook` stores in `*result`, a `long` again. -/
def hook (n : SyscallNumber) (a : Args) : Int64 :=
  let fd := a.arg0.toUInt64
  let address := a.arg1.toUInt64
  let count := a.arg2.toUInt64
  match n with
  | .read => (hookRead c fd.toUInt32 address count).toInt64
  | .pread64 => (hookPread c fd.toUInt32 address count a.arg3).toInt64
  | .readv => (hookReadv c fd address count).toInt64
  | .preadv => (hookPreadv c fd address count a.arg3.toUInt64 a.arg4.toUInt64).toInt64
  | .write => (hookWrite c fd.toUInt32 address count).toInt64
  | .pwrite64 => (hookPwrite c fd.toUInt32 address count a.arg3).toInt64
  | .writev => (hookWritev c fd address count).toInt64
  | .pwritev => (hookPwritev c fd address count a.arg3.toUInt64 a.arg4.toUInt64).toInt64

end Hooks

section Issued

variable (a : Args)

/-- The descriptor of a call, the lower half of its argument. -/
def Args.fd : Int32 := a.arg0.toUInt64.toUInt32.toInt32

def Args.iovcnt : Int32 := a.arg2.toUInt64.toUInt32.toInt32

/-- The function that a system call on a GaoFS descriptor ends up in. -/
def issued : SyscallNumber → GaofsCall
  | .read => .read a.fd a.arg1.toUInt64 a.arg2.toUInt64
  | .pread64 => .preadWs a.fd a.arg1.toUInt64 a.arg2.toUInt64 a.arg3
  | .readv => .readv a.fd a.arg1.toUInt64 a.iovcnt
  | .preadv => .preadv a.fd a.arg1.toUInt64 a.iovcnt a.arg3
  | .write => .write a.fd a.arg1.toUInt64 a.arg2.toUInt64
  | .pwrite64 => .pwriteWs a.fd a.arg1.toUInt64 a.arg2.toUInt64 a.arg3
  | .writev => .writev a.fd a.arg1.toUInt64 a.iovcnt
  | .pwritev => .pwritev a.fd a.arg1.toUInt64 a.iovcnt a.arg3

end Issued

section Results

variable {c : Client ρ} {a : Args}

theorem hook_issued (h : c.fileMap.exist a.fd = true) (n : SyscallNumber) :
    hook c n a = (withErrno (c.gaofs (issued a n)).2 (c.gaofs (issued a n)).1.toInt32).toInt64 := by
  have htransfer : ∀ call kernel, transfer c a.fd call kernel =
      withErrno (c.gaofs call).2 (c.gaofs call).1.toInt32 := fun call kernel => if_pos h
  cases n <;> exact congrArg Int32.toInt64 (htransfer _ _)

/-- An `int` does not hold more. -/
theorem lt_of_toInt64_eq {x : Int32} {r : Int64} (h : x.toInt64 = r) : r < 2 ^ 31 := by
  have hlt := x.toInt_lt
  rw [← h, Int64.lt_iff_toInt_lt, Int32.toInt_toInt64]
  exact hlt

theorem toInt_toInt32 {r : Int64} (hr : 0 ≤ r) (hlt : r < 2 ^ 31) : r.toInt32.toInt = r.toInt := by
  have hnonneg : 0 ≤ r.toInt := Int64.le_iff_toInt_le.mp hr
  have hsmall : r.toInt < 2 ^ 31 := Int64.lt_iff_toInt_lt.mp hlt
  rw [Int64.toInt_toInt32]
  exact Int.bmod_eq_of_le (by omega) (by omega)

theorem toInt64_withErrno (errno : Int32) {r : Int64} (hr : 0 ≤ r) (hlt : r < 2 ^ 31) :
    (withErrno errno r.toInt32).toInt64 = r := by
  have hkept := toInt_toInt32 hr hlt
  have hnonneg : 0 ≤ r.toInt32 := by
    rw [Int32.le_iff_toInt_le, hkept]
    exact Int64.le_iff_toInt_le.mp hr
  rw [withErrno_of_nonneg hnonneg]
  apply Int64.toInt_inj.mp
  rw [Int32.toInt_toInt64, hkept]

/-- The count comes through on all eight ways exactly if an `int` can hold it. -/
theorem hook_result_iff (h : c.fileMap.exist a.fd = true) (n : SyscallNumber)
    (hr : 0 ≤ (c.gaofs (issued a n)).1) :
    hook c n a = (c.gaofs (issued a n)).1 ↔ (c.gaofs (issued a n)).1 < 2 ^ 31 := by
  rw [hook_issued h]
  constructor
  · exact lt_of_toInt64_eq
  · exact toInt64_withErrno _ hr

/-- One file, whose every transfer returns `ret` and leaves `EIO` from before in `errno`. -/
def returning (ret : Int64) : Client Unit where
  fileMap := OpenFileMap.start.insert 10000 ()
  gaofs := fun _ => (ret, 5)
  noIntercept := fun _ _ => 0

def onFile : Args := ⟨10000, 0, 0, 0, 0⟩

theorem hook_result_three : hook (returning 3) .read onFile = 3 ↔ (3 : Int64) < 2 ^ 31 :=
  hook_result_iff (c := returning 3) (a := onFile) (by decide) .read (by decide)

/-- A transfer of 2 GiB is reported as an error, one of 4 GiB as none at all. -/
theorem large_transfer : hook (returning (2 ^ 31)) .read onFile ≠ 2 ^ 31 ∧
    hook (returning (2 ^ 31)) .read onFile = -5 ∧
    hook (returning (2 ^ 32)) .pwritev onFile = 0 := by decide

end Results

end GaoFS.HookResults
