import Mathlib.Tactic

/-!
# The wrappers of `read` and `write`, `task1-syscalls/task-1_1.c` and `task-1_2.c`

Both libraries replace the wrappers of the C library. The first calls the function
`syscall`, which turns a raw result between -4095 and -1 into -1 and `errno`. The second
has the system call in assembly, checks the descriptor itself and returns the raw result.

* `Librw1.read`, `Librw1.write`, `Librw2.read`, `Librw2.write` — the wrappers;
* `Reports` — a raw result is reported the way the C library does;
* `Librw1.reports` — the first library does so;
* `Librw2.reports_iff` — when the second does.
-/

namespace SysProg.Syscalls

def ePerm : BitVec 32 := 1
def eBadf : BitVec 32 := 9
def eInval : BitVec 32 := 22

def oRdonly : BitVec 32 := 0
def oWronly : BitVec 32 := 1
def oRdwr : BitVec 32 := 2
def oAccmode : BitVec 32 := 3

def sysRead : BitVec 64 := 0
def sysWrite : BitVec 64 := 1

/-! ## Descriptors -/

def accessMode (flags : BitVec 32) : BitVec 32 :=
  flags &&& oAccmode

/-- The descriptor is open and can be read. -/
def Readable : Option (BitVec 32) → Prop
  | none => False
  | some flags => accessMode flags = oRdonly ∨ accessMode flags = oRdwr

/-- The descriptor is open and can be written. -/
def Writable : Option (BitVec 32) → Prop
  | none => False
  | some flags => accessMode flags = oWronly ∨ accessMode flags = oRdwr

/-- The descriptor is open with the access mode `O_RDONLY`. -/
def ReadOnly : Option (BitVec 32) → Prop
  | none => False
  | some flags => accessMode flags = oRdonly

theorem ReadOnly.not_writable {flags : Option (BitVec 32)} (h : ReadOnly flags) : ¬ Writable flags := by
  rcases flags with _ | flags
  · exact fun h => h
  · change accessMode flags = oRdonly at h
    simp only [Writable, h]
    decide

/-- The kernel: the flags of the open descriptors, and what the instruction `syscall` leaves
in `rax` for the call number and three arguments. It refuses a descriptor that is not open
for what is asked. -/
structure Kernel where
  flags : BitVec 32 → Option (BitVec 32)
  syscall : BitVec 64 → BitVec 32 → BitVec 64 → BitVec 64 → BitVec 64
  read_refused : ∀ fd buffer count, ¬ Readable (flags fd) →
    (syscall sysRead fd buffer count).toInt = -eBadf.toInt
  write_refused : ∀ fd buffer count, ¬ Writable (flags fd) →
    (syscall sysWrite fd buffer count).toInt = -eBadf.toInt

/-- What a function returns, and `errno` after it. -/
structure Result where
  value : BitVec 64
  errno : BitVec 32
deriving DecidableEq, Repr

/-- `fcntl(fd, F_GETFL)`, with `errno` before and after. -/
def fcntl (kernel : Kernel) (fd errno : BitVec 32) : BitVec 32 × BitVec 32 :=
  match kernel.flags fd with
  | some flags => (flags, errno)
  | none => (-1, eBadf)

/-! ## The first library -/

namespace Librw1

/-- `syscall` of the C library. -/
def syscall (kernel : Kernel) (number : BitVec 64) (fd : BitVec 32) (buf count : BitVec 64)
    (errno : BitVec 32) : Result :=
  let rax := kernel.syscall number fd buf count
  if -4095 ≤ rax.toInt ∧ rax.toInt ≤ -1 then ⟨-1, BitVec.ofInt 32 (-rax.toInt)⟩ else ⟨rax, errno⟩

def read (kernel : Kernel) (fd : BitVec 32) (buf count : BitVec 64) (errno : BitVec 32) : Result :=
  if count = 0 then ⟨0, errno⟩ else syscall kernel sysRead fd buf count errno

def write (kernel : Kernel) (fd : BitVec 32) (buf count : BitVec 64) (errno : BitVec 32) : Result :=
  if count = 0 then ⟨0, errno⟩ else syscall kernel sysWrite fd buf count errno

end Librw1

/-! ## The second library -/

namespace Librw2

/-- `read_syscall`: the arguments are in the registers already. -/
def readSyscall (kernel : Kernel) (fd : BitVec 32) (buffer count : BitVec 64) : BitVec 64 :=
  kernel.syscall sysRead fd buffer count

def read (kernel : Kernel) (fd : BitVec 32) (buffer count : BitVec 64) (errno : BitVec 32) :
    Result :=
  if count = 0 then ⟨0, errno⟩
  else if fd.toInt < 0 then ⟨-1, eBadf⟩
  else if buffer = 0 then ⟨-1, eInval⟩
  else
    let (flags, errno) := fcntl kernel fd errno
    if flags &&& oWronly ≠ 0 then ⟨-1, eBadf⟩
    else ⟨readSyscall kernel fd buffer count, errno⟩

/-- `write_syscall` -/
def writeSyscall (kernel : Kernel) (fd : BitVec 32) (buffer count : BitVec 64) : BitVec 64 :=
  kernel.syscall sysWrite fd buffer count

def write (kernel : Kernel) (fd : BitVec 32) (buffer count : BitVec 64) (errno : BitVec 32) :
    Result :=
  if count = 0 then ⟨0, errno⟩
  else if fd.toInt < 0 then ⟨-1, eBadf⟩
  else if buffer = 0 then ⟨-1, eInval⟩
  else
    let (flags, errno) := fcntl kernel fd errno
    if flags &&& oRdwr = 0 ∧ flags &&& oWronly = 0 then ⟨-1, eBadf⟩
    else ⟨writeSyscall kernel fd buffer count, errno⟩

end Librw2

/-! ## Reporting a raw result -/

/-- The raw result `r` is reported: it is returned if it is not negative, and else the
wrapper returns -1 and leaves the error in `errno`. -/
def Reports (r : BitVec 64) (result : Result) : Prop :=
  (0 ≤ r.toInt → result.value = r) ∧
    (r.toInt < 0 → result.value = -1 ∧ result.errno.toInt = -r.toInt)

section Reports

variable {r : BitVec 64} {errno : BitVec 32}

/-- The wrapper's own refusal reports the error that the kernel has for the descriptor. -/
theorem reports_refused (h : r.toInt = -eBadf.toInt) : Reports r ⟨-1, eBadf⟩ := by
  have hebadf : eBadf.toInt = 9 := rfl
  constructor
  · intro hpos
    omega
  · intro _
    refine ⟨rfl, ?_⟩
    change eBadf.toInt = -r.toInt
    omega

/-- A raw result that is passed on is reported only if it is no error, or if it is -1 and
`errno` happens to hold the error already. -/
theorem reports_raw_iff : Reports r ⟨r, errno⟩ ↔ 0 ≤ r.toInt ∨ r = -1 ∧ errno = ePerm := by
  constructor
  · intro h
    rcases Int.lt_or_le r.toInt 0 with hneg | hpos
    · rcases h.2 hneg with ⟨hvalue, herrno⟩
      refine .inr ⟨hvalue, ?_⟩
      apply BitVec.eq_of_toInt_eq
      change r = -1 at hvalue
      rw [herrno, hvalue]
      rfl
    · exact .inl hpos
  · rintro (hpos | ⟨rfl, rfl⟩)
    · exact ⟨fun _ => rfl, fun hneg => absurd hneg (by omega)⟩
    · exact ⟨fun _ => rfl, fun _ => ⟨rfl, rfl⟩⟩

/-- A wrapper that refuses a descriptor of which the kernel reports the same, and passes every
other raw result on. -/
theorem reports_iff_of_cases {refused : Prop} {errno' : BitVec 32} {result : Result}
    (hcases : (refused ∧ result = ⟨-1, eBadf⟩) ∨ (¬ refused ∧ result = ⟨r, errno'⟩))
    (hrefused : refused → r.toInt = -eBadf.toInt) (herrno : r = -1 → errno' = errno) :
    Reports r result ↔ 0 ≤ r.toInt ∨ refused ∨ r = -1 ∧ errno = ePerm := by
  rcases hcases with ⟨h, rfl⟩ | ⟨h, rfl⟩
  · constructor
    · intro _
      exact .inr (.inl h)
    · intro _
      exact reports_refused (hrefused h)
  · rw [reports_raw_iff]
    constructor
    · rintro (hpos | ⟨hraw, hperm⟩)
      · exact .inl hpos
      · exact .inr (.inr ⟨hraw, herrno hraw ▸ hperm⟩)
    · rintro (hpos | h' | ⟨hraw, hperm⟩)
      · exact .inl hpos
      · exact absurd h' h
      · exact .inr ⟨hraw, (herrno hraw).trans hperm⟩

end Reports

variable {kernel : Kernel} {fd : BitVec 32} {buffer count : BitVec 64}

/-- The C library's `syscall` reports what the kernel can return. -/
theorem Librw1.syscall_reports {number : BitVec 64} (errno : BitVec 32)
    (h : -4095 ≤ (kernel.syscall number fd buffer count).toInt) :
    Reports (kernel.syscall number fd buffer count)
      (Librw1.syscall kernel number fd buffer count errno) := by
  unfold Librw1.syscall
  generalize kernel.syscall number fd buffer count = r at h ⊢
  constructor
  · intro hpos
    rw [if_neg (by omega)]
  · intro hneg
    rw [if_pos (by omega)]
    refine ⟨rfl, ?_⟩
    change (BitVec.ofInt 32 (-r.toInt)).toInt = -r.toInt
    rw [BitVec.toInt_ofInt]
    exact Int.bmod_eq_of_le (by omega) (by omega)

theorem Librw1.reports (errno : BitVec 32) (hcount : count ≠ 0)
    (hread : -4095 ≤ (kernel.syscall sysRead fd buffer count).toInt)
    (hwrite : -4095 ≤ (kernel.syscall sysWrite fd buffer count).toInt) :
    Reports (kernel.syscall sysRead fd buffer count) (Librw1.read kernel fd buffer count errno) ∧
    Reports (kernel.syscall sysWrite fd buffer count) (Librw1.write kernel fd buffer count errno) := by
  unfold Librw1.read Librw1.write
  rw [if_neg hcount, if_neg hcount]
  exact ⟨syscall_reports errno hread, syscall_reports errno hwrite⟩

/-! ## The checks of the second library -/

theorem accessMode_cases (flags : BitVec 32) :
    accessMode flags = oRdonly ∨ accessMode flags = oWronly ∨ accessMode flags = oRdwr ∨
      accessMode flags = oAccmode := by
  have hlt : (accessMode flags).toNat < 4 := by
    unfold accessMode
    rw [BitVec.toNat_and]
    exact lt_of_le_of_lt Nat.and_le_right (by decide)
  have heq : ∀ k : ℕ, (accessMode flags).toNat = k → accessMode flags = BitVec.ofNat 32 k := by
    intro k hk
    rw [← hk, BitVec.ofNat_toNat, BitVec.setWidth_eq]
  obtain h | h | h | h : (accessMode flags).toNat = 0 ∨ (accessMode flags).toNat = 1 ∨
      (accessMode flags).toNat = 2 ∨ (accessMode flags).toNat = 3 := by omega
  · exact .inl (heq 0 h)
  · exact .inr (.inl (heq 1 h))
  · exact .inr (.inr (.inl (heq 2 h)))
  · exact .inr (.inr (.inr (heq 3 h)))

theorem and_oWronly (flags : BitVec 32) : flags &&& oWronly = accessMode flags &&& oWronly := by
  unfold accessMode
  rw [BitVec.and_assoc]
  rfl

theorem and_oRdwr (flags : BitVec 32) : flags &&& oRdwr = accessMode flags &&& oRdwr := by
  unfold accessMode
  rw [BitVec.and_assoc]
  rfl

section Checks

variable (errno : BitVec 32) (hfd : 0 ≤ fd.toInt) (hbuffer : buffer ≠ 0) (hcount : count ≠ 0)
include hfd hbuffer hcount

/-- `read` passes the call on exactly when the descriptor can be read: the bit of
`O_WRONLY` is set in the -1 of a bad descriptor, too. -/
theorem Librw2.read_cases :
    (¬ Readable (kernel.flags fd) ∧ Librw2.read kernel fd buffer count errno = ⟨-1, eBadf⟩) ∨
    (Readable (kernel.flags fd) ∧
      Librw2.read kernel fd buffer count errno = ⟨kernel.syscall sysRead fd buffer count, errno⟩) := by
  unfold Librw2.read
  rw [if_neg hcount, if_neg (by omega), if_neg hbuffer]
  unfold fcntl
  rcases hflags : kernel.flags fd with _ | flags
  · exact .inl ⟨fun h => h, rfl⟩
  · simp only [and_oWronly flags, Readable]
    rcases accessMode_cases flags with h | h | h | h
    · rw [h]
      exact .inr ⟨.inl rfl, rfl⟩
    · rw [h]
      exact .inl ⟨by decide, rfl⟩
    · rw [h]
      exact .inr ⟨.inr rfl, rfl⟩
    · rw [h]
      exact .inl ⟨by decide, rfl⟩

/-- `write` refuses a descriptor that is only open for reading. The -1 of a bad descriptor
has the bits of both other modes, so that the call is passed on. -/
theorem Librw2.write_cases :
    (ReadOnly (kernel.flags fd) ∧ Librw2.write kernel fd buffer count errno = ⟨-1, eBadf⟩) ∨
    (¬ ReadOnly (kernel.flags fd) ∧ Librw2.write kernel fd buffer count errno =
      ⟨kernel.syscall sysWrite fd buffer count, (fcntl kernel fd errno).2⟩) := by
  unfold Librw2.write
  rw [if_neg hcount, if_neg (by omega), if_neg hbuffer]
  unfold fcntl
  rcases hflags : kernel.flags fd with _ | flags
  · exact .inr ⟨fun h => h, rfl⟩
  · simp only [and_oWronly flags, and_oRdwr flags, ReadOnly]
    rcases accessMode_cases flags with h | h | h | h
    · rw [h]
      exact .inl ⟨rfl, rfl⟩
    · rw [h]
      exact .inr ⟨by decide, rfl⟩
    · rw [h]
      exact .inr ⟨by decide, rfl⟩
    · rw [h]
      exact .inr ⟨by decide, rfl⟩

/-- `read` reports the raw result if and only if it is no error, or the descriptor cannot be
read, or the error is the one that `errno` holds before the call and -1 is its number. -/
theorem Librw2.read_reports_iff :
    Reports (kernel.syscall sysRead fd buffer count) (Librw2.read kernel fd buffer count errno) ↔
      0 ≤ (kernel.syscall sysRead fd buffer count).toInt ∨ ¬ Readable (kernel.flags fd) ∨
        kernel.syscall sysRead fd buffer count = -1 ∧ errno = ePerm := by
  apply reports_iff_of_cases
  · rcases Librw2.read_cases errno hfd hbuffer hcount with h | ⟨hmode, heq⟩
    · exact .inl h
    · exact .inr ⟨not_not.mpr hmode, heq⟩
  · exact kernel.read_refused fd buffer count
  · intro _
    rfl

/-- `write` reports the raw result if and only if it is no error, or the descriptor is only
open for reading, or the error is the one that `errno` holds before the call and -1 is its
number. -/
theorem Librw2.write_reports_iff :
    Reports (kernel.syscall sysWrite fd buffer count) (Librw2.write kernel fd buffer count errno) ↔
      0 ≤ (kernel.syscall sysWrite fd buffer count).toInt ∨ ReadOnly (kernel.flags fd) ∨
        kernel.syscall sysWrite fd buffer count = -1 ∧ errno = ePerm := by
  apply reports_iff_of_cases (Librw2.write_cases errno hfd hbuffer hcount)
  · intro hmode
    exact kernel.write_refused fd buffer count hmode.not_writable
  · intro hraw
    unfold fcntl
    rcases hflags : kernel.flags fd with _ | flags
    · -- a bad descriptor is refused with another error
      have hrefused := kernel.write_refused fd buffer count (by rw [hflags]; exact fun h => h)
      rw [hraw] at hrefused
      exact absurd hrefused (by decide)
    · rfl

/-- The wrappers report a raw result that is no error, and the refusal of a descriptor that
their own check finds: for `read` one that cannot be read, for `write` one with the access
mode `O_RDONLY`. Every other error is returned as it is; only where it is -1 and `errno`
holds `EPERM` already does that look like a report. -/
theorem Librw2.reports_iff :
    (Reports (kernel.syscall sysRead fd buffer count) (Librw2.read kernel fd buffer count errno) ↔
      0 ≤ (kernel.syscall sysRead fd buffer count).toInt ∨ ¬ Readable (kernel.flags fd) ∨
        kernel.syscall sysRead fd buffer count = -1 ∧ errno = ePerm) ∧
    (Reports (kernel.syscall sysWrite fd buffer count) (Librw2.write kernel fd buffer count errno) ↔
      0 ≤ (kernel.syscall sysWrite fd buffer count).toInt ∨ ReadOnly (kernel.flags fd) ∨
        kernel.syscall sysWrite fd buffer count = -1 ∧ errno = ePerm) :=
  ⟨Librw2.read_reports_iff errno hfd hbuffer hcount, Librw2.write_reports_iff errno hfd hbuffer hcount⟩

end Checks

/-- Descriptor 3 is a directory opened with `O_RDONLY`, so that reading it fails with
`EISDIR`; no other descriptor is open. -/
def directoryKernel : Kernel where
  flags fd := if fd = 3 then some oRdonly else none
  syscall number fd _ _ := if number = sysRead ∧ fd = 3 then -21 else -9
  read_refused := by
    intro fd buffer count h
    have hfd : fd ≠ 3 := by
      rintro rfl
      exact h (.inl rfl)
    rw [if_neg fun hand => hfd hand.2]
    rfl
  write_refused := by
    intro fd buffer count _
    rw [if_neg fun hand => absurd hand.1 (by decide)]
    rfl

/-- Writing to a descriptor that is open for reading is reported as `EBADF`. -/
theorem Librw2.reports_readOnly :
    Reports (directoryKernel.syscall sysWrite 3 4096 3) (Librw2.write directoryKernel 3 4096 3 0) :=
  (Librw2.reports_iff 0 (by decide) (by decide) (by decide)).2.mpr (.inr (.inl rfl))

/-- Reading the directory returns -21, writing to a descriptor that is not open returns -9. -/
theorem Librw2.raw_errors :
    ¬ Reports (directoryKernel.syscall sysRead 3 4096 8) (Librw2.read directoryKernel 3 4096 8 0) ∧
    ¬ Reports (directoryKernel.syscall sysWrite 77 4096 8) (Librw2.write directoryKernel 77 4096 8 0) := by
  constructor
  · intro h
    have hvalue := (h.2 (by decide)).1
    exact absurd hvalue (by decide)
  · intro h
    have hvalue := (h.2 (by decide)).1
    exact absurd hvalue (by decide)

end SysProg.Syscalls
