import RuShell.Lexer
import RuShell.Lib.Decimal

/-!
# The builtin `snoop`

`snoop` of `c-shell/src/snoop.c` runs or attaches to a process under `ptrace` and counts
its system calls.  `trace_loop` resumes the process and waits for its next stop, over and
over; it tells entries of system calls from exits by a flag that it toggles at each stop
of that kind.  The counts are in a table that grows by a slot for every new number.

A round of the loop is what the three calls of `ptrace` and `waitpid` in it report.  A
`long` has 64 bits and an `int` 32, and both wrap around.  Times are whatever the clock
gives, and durations whatever their difference is: of the sums of `double`s nothing is
used but the order in which they are taken.

## Main definitions

* `SyscallStat`, `Stats`, `getStatSlot` — the table.
* `Round`, `traceLoop` — the loop, with the signals that it passes on.
* `compareStats`, `printSummary` — the table as it is printed.
-/

namespace RuShell
namespace Snoop

open Lib (decimal)

/-- `MAX_SYSCALLS` -/
def maxSyscalls : ℕ := 512

/-- What is left of an integer in a signed type of `w` bits. -/
def wrap (w : ℕ) (z : ℤ) : ℤ := z.bmod (2 ^ w)

theorem wrap_of_fits {w : ℕ} {z : ℤ} (hw : 0 < w) (hlow : -2 ^ (w - 1) ≤ z)
    (hhigh : z < 2 ^ (w - 1)) : wrap w z = z := by
  obtain ⟨k, rfl⟩ : ∃ k, w = k + 1 := ⟨w - 1, by omega⟩
  rw [Nat.add_sub_cancel] at hlow hhigh
  unfold wrap
  apply Int.bmod_eq_of_le
  · rw [pow_succ]
    push_cast
    omega
  · rw [pow_succ]
    push_cast
    omega

/-- `syscall_stat` -/
structure SyscallStat (δ : Type) where
  sysNo : ℤ
  calls : ℤ
  totalTime : δ
  firstOrder : ℤ
  deriving DecidableEq, Repr

/-- `stats`, `stat_count` and `order_counter`; the count is the length of the table. -/
structure Stats (δ : Type) where
  slots : List (SyscallStat δ) := []
  orderCounter : ℤ := 0
  deriving DecidableEq, Repr

variable {τ δ : Type} [Zero δ] [Add δ]

/-! ### The table -/

/-- `get_stat_slot`: the index of the slot, and the table with it. -/
def getStatSlot (s : Stats δ) (sysNo : ℤ) : Option (ℕ × Stats δ) :=
  match s.slots.findIdx? fun st => st.sysNo == sysNo with
  | some i => some (i, s)
  | none =>
    if maxSyscalls ≤ s.slots.length then none
    else some (s.slots.length,
      { slots := s.slots ++ [⟨sysNo, 0, 0, s.orderCounter⟩]
        orderCounter := wrap 32 (s.orderCounter + 1) })

/-- `slot->calls++; slot->total_time += d;` -/
def SyscallStat.bump (d : δ) (st : SyscallStat δ) : SyscallStat δ :=
  { st with calls := wrap 64 (st.calls + 1), totalTime := st.totalTime + d }

/-- What an exit stop does to the table. -/
def record (s : Stats δ) (sysNo : ℤ) (d : δ) : Stats δ :=
  match getStatSlot s sysNo with
  | none => s
  | some (i, s) => { s with slots := s.slots.modify i (SyscallStat.bump d) }

/-! ### The loop -/

/-- `SIGTRAP` -/
def sigtrap : ℕ := 5

/-- What a round of the loop finds. -/
inductive Round (τ : Type)
  /-- `ptrace(PTRACE_SYSCALL, …) == -1` -/
  | resumeFailed
  /-- `waitpid(pid, &status, 0) == -1` -/
  | waitFailed
  /-- `WIFEXITED(status) || WIFSIGNALED(status)` -/
  | terminated
  /-- `WIFSTOPPED(status)`, with `WSTOPSIG(status)`, what `PTRACE_GETREGS` gives for
  `orig_rax` and what the clock shows. -/
  | stopped (stopsig : ℕ) (origRax : Option ℤ) (now : τ)
  /-- Any other status. -/
  | other

/-- The variables of `trace_loop`, the table, and the signals that have been passed to
`PTRACE_SYSCALL`. -/
structure Trace (τ δ : Type) where
  inSyscall : Bool := false
  curSysNo : ℤ := -1
  entryTime : τ
  sig : ℕ := 0
  stats : Stats δ := {}
  passed : List ℕ := []

variable (timespecDiff : τ → τ → δ)

/-- A stop of the process; `none` where the loop is left. -/
def onStop (s : Trace τ δ) (stopsig : ℕ) (origRax : Option ℤ) (now : τ) : Option (Trace τ δ) :=
  if stopsig = sigtrap ||| 0x80 then
    match origRax with
    | none => none
    | some origRax =>
      if !s.inSyscall then
        some { s with curSysNo := origRax, entryTime := now, inSyscall := true }
      else
        some { s with
          stats := record s.stats s.curSysNo (timespecDiff s.entryTime now), inSyscall := false }
  else if stopsig ≠ sigtrap then some { s with sig := stopsig }
  else some s

/-- `trace_loop` -/
def traceLoop : List (Round τ) → Trace τ δ → Trace τ δ
  | [], s => s
  | .resumeFailed :: _, s => { s with passed := s.passed ++ [s.sig] }
  | .waitFailed :: _, s => { s with passed := s.passed ++ [s.sig], sig := 0 }
  | .terminated :: _, s => { s with passed := s.passed ++ [s.sig], sig := 0 }
  | .other :: rounds, s => traceLoop rounds { s with passed := s.passed ++ [s.sig], sig := 0 }
  | .stopped stopsig origRax now :: rounds, s =>
    let s := { s with passed := s.passed ++ [s.sig], sig := 0 }
    match onStop timespecDiff s stopsig origRax now with
    | none => s
    | some s => traceLoop rounds s

/-! ### The summary -/

/-- `compare_stats` -/
def compareStats (sa sb : SyscallStat δ) : ℤ :=
  if sa.calls ≠ sb.calls then wrap 32 (wrap 64 (sb.calls - sa.calls))
  else wrap 32 (sa.firstOrder - sb.firstOrder)

/-- The numbers that `syscall_name` knows. -/
def syscallNames : List (ℤ × String) :=
  [(0, "read"), (1, "write"), (2, "open"), (3, "close"), (4, "stat"), (5, "fstat"), (6, "lstat"),
    (8, "lseek"), (9, "mmap"), (10, "mprotect"), (11, "munmap"), (12, "brk"),
    (13, "rt_sigaction"), (14, "rt_sigprocmask"), (21, "access"), (22, "pipe"), (32, "dup"),
    (33, "dup2"), (39, "getpid"), (41, "socket"), (56, "clone"), (57, "fork"), (59, "execve"),
    (60, "exit"), (61, "wait4"), (62, "kill"), (78, "getdents"), (79, "getcwd"),
    (89, "readlink"), (97, "getrlimit"), (102, "getuid"), (158, "arch_prctl"), (186, "gettid"),
    (218, "set_tid_address"), (231, "exit_group"), (232, "epoll_wait"), (257, "openat"),
    (262, "newfstatat"), (273, "set_robust_list"), (302, "prlimit64"), (318, "getrandom"),
    (35, "nanosleep"), (230, "clock_nanosleep"), (217, "getdents64"), (334, "rseq"),
    (17, "pread64"), (16, "ioctl"), (63, "uname")]

/-- `syscall_name` -/
def syscallName (num : ℤ) : Option String := syscallNames.lookup num

/-- A text on the left of a field of at least `n` characters. -/
def padded (n : ℕ) (s : Str) : Str := s ++ List.replicate (n - s.length) ' '

/-- One row of the summary; `fixed` is `%.3f`. -/
def summaryRow (fixed : δ → Str) (st : SyscallStat δ) : Str :=
  let name := match syscallName st.sysNo with
    | some name => name.toList
    | none => ("syscall_".toList ++ decimal st.sysNo).take 63
  padded 12 name ++ "  ".toList ++ padded 6 (decimal st.calls) ++ "  ".toList ++
    fixed st.totalTime ++ "s\n".toList

/-- `print_summary`, where `qsort` sorts a table with a comparison. -/
def printSummary
    (qsort : List (SyscallStat δ) → (SyscallStat δ → SyscallStat δ → ℤ) → List (SyscallStat δ))
    (fixed : δ → Str) (s : Stats δ) : Str :=
  "syscall       calls   time\n".toList ++
    (qsort s.slots compareStats).flatMap (summaryRow fixed)

end Snoop
end RuShell
