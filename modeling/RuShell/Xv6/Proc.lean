import Mathlib.Data.List.Basic
import Mathlib.Tactic
import RuShell.Lib.Scan

/-!
# Processes and the process table of the kernel

The part of `xv6/kernel/proc.c` and `proc.h` that the schedulers read and write,
on one hart.  The table `proc[NPROC]` is a list of slots; the pointers of the
source into it are indices.  `uint` counters wrap at `2 ^ 32`, and a tick count
stored in the `int` field `enter_time` is the signed reading of the counter.

The functions here are the bodies that run with interrupts off, either because a
lock is held or because they are called from a trap, so each of them is one
atomic change of the kernel.

## Main definitions

* `Proc`, `Kernel` — a slot, and the whole state with the hart's `Mode`.
* `Policy` — the three compile-time schedulers.
* `allocproc`, `freeproc`, `sleepPrepare`, `wakeup`, `kkillSlot`, `updateProcTime`,
  `boostPriority` — the functions of `proc.c` under the same names.
* `scanQueue`, `scanMlfq`, `scanFifo`, `scanRr` — the selection loops of
  `scheduler`.
-/

namespace RuShell
namespace Xv6

open Lib

/-- `enum procstate` -/
inductive ProcState
  | unused | used | sleeping | runnable | running | zombie
  deriving DecidableEq, Repr, Inhabited

/-- What a process can wait for: the address of a slot (its own, in `kwait`), of
`ticks`, or any other kernel address. -/
inductive Chan
  | proc (i : ℕ)
  | ticks
  | addr (n : ℕ)
  deriving DecidableEq, Repr

/-- `struct proc`: the fields that the scheduler, the traps and `wait` use. -/
structure Proc where
  state : ProcState := .unused
  /-- If non-zero, sleeping on `chan`. -/
  chan : Option Chan := none
  killed : Bool := false
  xstate : ℤ := 0
  pid : ℕ := 0
  /-- The slot of the parent. -/
  parent : Option ℕ := none
  /-- Current priority queue. -/
  queue : ℕ := 0
  /-- Ticks consumed in the current time slice. -/
  ticksInSlice : ℕ := 0
  /-- Tick when the process entered the current queue or state. -/
  enterTime : ℤ := 0
  ctime : ℕ := 0
  ttime : ℕ := 0
  rtime : ℕ := 0
  wtime : ℕ := 0
  stime : ℕ := 0
  firstRunTime : ℕ := 0
  hasRun : Bool := false
  deriving DecidableEq, Repr, Inhabited

/-- The scheduler the kernel is compiled with. -/
inductive Policy
  /-- Round robin, the default. -/
  | rr
  /-- `SCHED_FIFO` -/
  | fifo
  /-- `SCHED_MLFQ` -/
  | mlfq
  deriving DecidableEq, Repr

/-- What the hart is doing. -/
inductive Mode
  /-- In `scheduler`, about to scan from the slot `start`. -/
  | scheduler (start : ℕ)
  /-- The process in slot `i` has the CPU. -/
  | running (i : ℕ)
  /-- The process in slot `i` has the CPU and is in the `kexit` that `usertrap`
  calls after a timer interrupt, with interrupts still off. -/
  | exiting (i : ℕ)
  deriving DecidableEq, Repr

/-- The kernel. -/
structure Kernel where
  /-- The process table. -/
  proc : List Proc
  /-- The tick counter, a `uint`. -/
  ticks : ℕ
  /-- `nextpid` -/
  nextpid : ℕ
  /-- The hart. -/
  mode : Mode
  deriving DecidableEq, Repr

/-- `NPROC` -/
def nproc : ℕ := 64

/-- The slot of `initproc`. -/
def initproc : ℕ := 0

/-- `x++` on a `uint`. -/
def uintSucc (x : ℕ) : ℕ := (x + 1) % 2 ^ 32

/-- A `uint` tick count stored in an `int`. -/
def asInt (x : ℕ) : ℤ := Int.bmod x (2 ^ 32)

/-- `myproc()` -/
def Kernel.myproc (k : Kernel) : Option ℕ :=
  match k.mode with
  | .scheduler _ => none
  | .running i => some i
  | .exiting i => some i

/-- Change the slot `i`. -/
def Kernel.modify (k : Kernel) (i : ℕ) (f : Proc → Proc) : Kernel :=
  { k with proc := k.proc.modify i f }

/-- Change every slot. -/
def Kernel.mapProcs (k : Kernel) (f : Proc → Proc) : Kernel :=
  { k with proc := k.proc.map f }

/-! ### Allocation -/

/-- What `freeproc` leaves in a slot; `parent` is not touched. -/
def freeproc (p : Proc) : Proc := { parent := p.parent }

/-- The fields `allocproc` sets in a free slot. -/
def initProc (k : Kernel) (p : Proc) : Proc :=
  { p with
    pid := k.nextpid, state := .used,
    queue := 0, ticksInSlice := 0, enterTime := asInt k.ticks,
    ctime := k.ticks, ttime := 0, rtime := 0, wtime := 0, stime := 0,
    firstRunTime := 0, hasRun := false }

/-- The first slot that passes a test. -/
def Kernel.firstSlot (k : Kernel) (test : Proc → Bool) : Option ℕ :=
  let i := k.proc.findIdx test
  if i < k.proc.length then some i else none

/-- The first free slot. -/
def freeSlot (k : Kernel) : Option ℕ := k.firstSlot (·.state = .unused)

/-- `allocproc`: take the first free slot.  `mem` says whether its page
allocations succeed; if one fails the slot is freed again, but the pid is gone. -/
def allocproc (k : Kernel) (mem : Bool) : Kernel × Option ℕ :=
  match freeSlot k with
  | none => (k, none)
  | some i =>
    if mem then ({ k.modify i (initProc k) with nextpid := k.nextpid + 1 }, some i)
    else ({ k.modify i freeproc with nextpid := k.nextpid + 1 }, none)

/-! ### Sleeping and waking -/

/-- `sleep_prepare(chan)` by the process in slot `i`. -/
def sleepPrepare (k : Kernel) (i : ℕ) (c : Chan) : Kernel :=
  k.modify i fun p => { p with chan := some c }

/-- Where the hart goes when the process in slot `i` calls `sched`. -/
def Kernel.swtch (pol : Policy) (k : Kernel) (i : ℕ) : Kernel :=
  { k with mode := .scheduler (if pol = .rr then i + 1 else 0) }

/-- `SLEEPING`, as `sleep` sets it. -/
def putToSleep (pol : Policy) (p : Proc) : Proc :=
  { p with state := .sleeping, ticksInSlice := if pol = .mlfq then 0 else p.ticksInSlice }

/-- `RUNNABLE` again after sleeping, as `wakeup` and `kkill` set it. -/
def wakeProc (pol : Policy) (ticks : ℕ) (p : Proc) : Proc :=
  { p with
    state := .runnable,
    enterTime := if pol = .mlfq then asInt ticks else p.enterTime,
    ticksInSlice := if pol = .mlfq then 0 else p.ticksInSlice }

/-- The body of the loop of `wakeup`. -/
def wakeupSlot (pol : Policy) (ticks : ℕ) (c : Chan) (p : Proc) : Proc :=
  if p.chan = some c then
    let p := { p with chan := none }
    if p.state = .sleeping then wakeProc pol ticks p else p
  else p

/-- `wakeup(chan)`; every caller holds a spinlock or is an interrupt handler, so
the loop is not interrupted. -/
def wakeup (pol : Policy) (c : Chan) (k : Kernel) : Kernel :=
  k.mapProcs (wakeupSlot pol k.ticks c)

/-- What `kkill` does to the slot whose pid it has found. -/
def kkillSlot (pol : Policy) (ticks : ℕ) (p : Proc) : Proc :=
  let p := { p with killed := true }
  if p.state = .sleeping then wakeProc pol ticks p else p

/-! ### Ticks -/

/-- The body of the loop of `update_proc_time`. -/
def updateProcTimeSlot (pol : Policy) (ticks : ℕ) (p : Proc) : Proc :=
  match p.state with
  | .running =>
    { p with
      rtime := uintSucc p.rtime,
      ticksInSlice := if pol = .mlfq then p.ticksInSlice + 1 else p.ticksInSlice,
      hasRun := true,
      firstRunTime := if p.hasRun then p.firstRunTime else ticks }
  | .runnable => { p with wtime := uintSucc p.wtime }
  | .sleeping => { p with stime := uintSucc p.stime }
  | _ => p

/-- `update_proc_time` -/
def updateProcTime (pol : Policy) (k : Kernel) : Kernel :=
  k.mapProcs (updateProcTimeSlot pol k.ticks)

/-- The body of the loop of `boost_priority`. -/
def boostSlot (ticks : ℕ) (p : Proc) : Proc :=
  if p.state = .unused then p
  else { p with queue := 0, ticksInSlice := 0, enterTime := asInt ticks }

/-- `boost_priority`, empty unless `SCHED_MLFQ` is defined. -/
def boostPriority (pol : Policy) (k : Kernel) : Kernel :=
  if pol = .mlfq then k.mapProcs (boostSlot k.ticks) else k

/-- `higher_priority_proc_runnable` -/
def higherPriorityProcRunnable (k : Kernel) (currentQueue : ℕ) : Bool :=
  k.proc.any fun p => p.state = .runnable && p.queue < currentQueue

/-! ### Selection

The MLFQ and the FIFO `scheduler` walk over the table with the loop `firstMin`:
`best_p` is the best slot so far. -/

/-- The test of the MLFQ scheduler, for the queue `q`. -/
def inQueue (q : ℕ) (p : Proc) : Bool := p.state = .runnable && p.queue = q

/-- One pass of the MLFQ scheduler over the table, for the queue `q`. -/
def scanQueue (q : ℕ) (procs : List Proc) : Option ℕ :=
  (firstMin (inQueue q) Proc.enterTime procs 0 none).map Prod.fst

/-- The loop over the queues, from the highest priority down. -/
def scanMlfq (procs : List Proc) : Option ℕ :=
  (List.range 4).findSome? fun q => scanQueue q procs

/-- The pass of the FIFO scheduler. -/
def scanFifo (procs : List Proc) : Option ℕ :=
  (firstMin (fun p => p.state = .runnable) Proc.ctime procs 0 none).map Prod.fst

/-- The round-robin scheduler runs the next runnable slot from `start` on. -/
def scanRr (procs : List Proc) (start : ℕ) : Option ℕ :=
  let i := start + (procs.drop start).findIdx (·.state = .runnable)
  if i < procs.length then some i else none

/-- The slot the scheduler switches to. -/
def select (pol : Policy) (procs : List Proc) (start : ℕ) : Option ℕ :=
  match pol with
  | .rr => scanRr procs start
  | .fifo => scanFifo procs
  | .mlfq => scanMlfq procs

end Xv6
end RuShell
