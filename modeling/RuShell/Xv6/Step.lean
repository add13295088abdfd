import RuShell.Xv6.Proc

/-!
# The steps of the kernel on one hart

What can happen next in a running kernel.  A process that has the CPU makes
system calls; a device interrupt wakes sleepers; the timer interrupts whatever
runs; and the scheduler, when the hart is in it, picks the next process.  Every
step is one stretch of code that runs with interrupts off, so a run of the
kernel is a sequence of steps in any order the modes allow.

The timer is handled by `clockintr` followed by the check that `usertrap` and
`kerneltrap` make before they return.  Both make the same check; `usertrap`
first sends a killed process to `kexit`.

## Main definitions

* `clockintr`, `sliceCheck`, `usertrap`, `kerneltrap` — a timer interrupt.
* `kexit`, `kwait` — leaving, and collecting the children that have left.
* `Event`, `step` — the steps.
* `boot` — the table right after `userinit`.
-/

namespace RuShell
namespace Xv6

/-! ### The timer interrupt -/

/-- `slice_limit` -/
def sliceLimits : List ℕ := [1, 4, 8, 16]

/-- `slice_limit[queue]` -/
def sliceLimit (queue : ℕ) : ℕ := sliceLimits.getD queue 0

/-- `clockintr` on the only hart. -/
def clockintr (pol : Policy) (k : Kernel) : Kernel :=
  let k := { k with ticks := uintSucc k.ticks }
  let k := wakeup pol .ticks k
  let k := updateProcTime pol k
  if k.ticks % 48 = 0 then boostPriority pol k else k

/-- `yield` by the process in slot `i`, called from a timer interrupt. -/
def yield (pol : Policy) (k : Kernel) (i : ℕ) : Kernel :=
  (k.modify i fun p =>
    { p with
      state := .runnable,
      enterTime := if pol = .mlfq then asInt k.ticks else p.enterTime }).swtch pol i

/-- The process used up its slice: one queue down, and a fresh slice. -/
def demote (ticks : ℕ) (p : Proc) : Proc :=
  { p with
    queue := if p.queue < 3 then p.queue + 1 else p.queue,
    ticksInSlice := 0,
    enterTime := asInt ticks }

/-- What a trap handler does after a timer interrupt, before it returns to the
process in slot `i`. -/
def sliceCheck (pol : Policy) (k : Kernel) (i : ℕ) : Kernel :=
  match pol with
  | .rr => yield pol k i
  | .fifo => k
  | .mlfq =>
    match k.proc[i]? with
    | none => k
    | some p =>
      if p.state = .running then
        if sliceLimit p.queue ≤ p.ticksInSlice then
          yield pol (k.modify i (demote k.ticks)) i
        else if higherPriorityProcRunnable k p.queue then
          yield pol (k.modify i fun p => { p with enterTime := asInt k.ticks }) i
        else k
      else k

/-- `killed(p)` -/
def isKilled (k : Kernel) (i : ℕ) : Bool := (k.proc[i]?.map Proc.killed).getD false

/-- A timer interrupt taken in user mode: a killed process starts to exit. -/
def usertrap (pol : Policy) (k : Kernel) (i : ℕ) : Kernel :=
  let k := clockintr pol k
  if isKilled k i then { k with mode := .exiting i } else sliceCheck pol k i

/-- A timer interrupt taken in the kernel while slot `i` has the CPU. -/
def kerneltrap (pol : Policy) (k : Kernel) (i : ℕ) : Kernel :=
  sliceCheck pol (clockintr pol k) i

/-! ### Leaving and collecting -/

/-- `reparent(p)` for the slots; the wakeups of `initproc` follow it. -/
def reparentSlot (i : ℕ) (p : Proc) : Proc :=
  if p.parent = some i then { p with parent := some initproc } else p

/-- `reparent(p)` -/
def reparent (pol : Policy) (k : Kernel) (i : ℕ) : Kernel :=
  let orphans := k.proc.any fun p => p.parent = some i
  let k := k.mapProcs (reparentSlot i)
  if orphans then wakeup pol (.proc initproc) k else k

/-- The end of `kexit`, from `acquire(&wait_lock)` on. -/
def kexit (pol : Policy) (k : Kernel) (i : ℕ) (status : ℤ) : Kernel :=
  let parent := (k.proc[i]?.bind Proc.parent)
  let k := reparent pol k i
  let k := match parent with
    | none => k
    | some q => wakeup pol (.proc q) k
  (k.modify i fun p => { p with ttime := k.ticks, xstate := status, state := .zombie }).swtch
    pol i

/-- The first slot that holds a child of `i` that has exited. -/
def zombieChild (k : Kernel) (i : ℕ) : Option ℕ :=
  k.firstSlot fun p => p.parent = some i && p.state = .zombie

/-- One scan of `kwait` and `kwaitx`: free an exited child, or register to wait
for one.  `copied` says whether the copies to user space succeed. -/
def kwait (k : Kernel) (i : ℕ) (copied : Bool) : Kernel :=
  match zombieChild k i with
  | some j => if copied then k.modify j fun p => freeproc { p with parent := none } else k
  | none =>
    if (k.proc.any fun p => p.parent = some i) && !isKilled k i then sleepPrepare k i (.proc i)
    else k

/-! ### Steps -/

/-- One step of the kernel. -/
inductive Event
  /-- The scheduler scans the table and switches, or waits for an interrupt. -/
  | schedule
  /-- A timer interrupt, in user mode or in the kernel. -/
  | tick (user : Bool)
  /-- `wakeup(chan)`, by the process that runs or by a device interrupt. -/
  | wakeup (c : Chan)
  /-- `sleep_prepare(chan)` -/
  | sleepPrepare (c : Chan)
  /-- `sleep()` -/
  | sleep
  /-- `kfork` up to the release of the child's lock; `mem` and `copy` say
  whether the allocations and the copy of the memory succeed. -/
  | kforkBegin (mem copy : Bool)
  /-- The end of `kfork`: the child in slot `j` becomes runnable. -/
  | kforkEnd (j : ℕ)
  /-- `kexit(status)` -/
  | kexit (status : ℤ)
  /-- One scan of `kwait` or `kwaitx`. -/
  | kwait (copied : Bool)
  /-- `kkill`, at the slot `j` whose pid it was given. -/
  | kkill (j : ℕ)
  /-- `setkilled(myproc())` -/
  | setkilled
  deriving DecidableEq, Repr

/-- `kfork` by the process in slot `i`, up to the release of the child's lock.
The source sets the parent a little later; until then the field is zero and no
test of the source tells the difference. -/
def kforkBegin (k : Kernel) (i : ℕ) (mem copy : Bool) : Kernel :=
  match allocproc k mem with
  | (k, none) => k
  | (k, some j) =>
    if copy then k.modify j fun p => { p with parent := some i } else k.modify j freeproc

/-- The end of `kfork` by the process in slot `i`. -/
def kforkEnd (k : Kernel) (i j : ℕ) : Option Kernel :=
  match k.proc[j]? with
  | none => none
  | some p =>
    if p.state = .used ∧ p.parent = some i then
      some (k.modify j fun p => { p with state := .runnable })
    else none

/-- `sleep()` by the process in slot `i`: it only sleeps if nobody has woken its
channel since `sleep_prepare`. -/
def sleep (pol : Policy) (k : Kernel) (i : ℕ) : Kernel :=
  match k.proc[i]?.bind Proc.chan with
  | none => k
  | some _ => (k.modify i (putToSleep pol)).swtch pol i

/-- One turn of the loop of `scheduler`. -/
def schedule (pol : Policy) (k : Kernel) (start : ℕ) : Kernel :=
  match select pol k.proc start with
  | some j => { k.modify j fun p => { p with state := .running } with mode := .running j }
  | none => { k with mode := .scheduler 0 }

/-- The step function; `none` where the mode of the hart does not allow the
event.  Interrupts are taken while a process runs and at the top of the loop of
`scheduler`, not while a killed process leaves from a timer interrupt. -/
def step (pol : Policy) (k : Kernel) (e : Event) : Option Kernel :=
  match k.mode, e with
  | .scheduler start, .schedule => some (schedule pol k start)
  | .scheduler 0, .tick _ => some { clockintr pol k with mode := .scheduler 0 }
  | .scheduler 0, .wakeup c => some (wakeup pol c k)
  | .running i, .tick true => some (usertrap pol k i)
  | .running i, .tick false => some (kerneltrap pol k i)
  | .running _, .wakeup c => some (wakeup pol c k)
  | .running i, .sleepPrepare c => some (sleepPrepare k i c)
  | .running i, .sleep => some (sleep pol k i)
  | .running i, .kforkBegin mem copy => some (kforkBegin k i mem copy)
  | .running i, .kforkEnd j => kforkEnd k i j
  -- `panic("init exiting")`
  | .running i, .kexit status => if i = initproc then none else some (kexit pol k i status)
  | .running i, .kwait copied => some (kwait k i copied)
  | .running _, .kkill j => some (k.modify j (kkillSlot pol k.ticks))
  | .running i, .setkilled => some (k.modify i fun p => { p with killed := true })
  | .exiting _, .wakeup c => some (wakeup pol c k)
  | .exiting i, .sleepPrepare c => some (sleepPrepare k i c)
  | .exiting i, .sleep => some (sleep pol k i)
  | .exiting i, .kexit status => if i = initproc then none else some (kexit pol k i status)
  | _, _ => none

/-- The kernel when `main` calls `scheduler`: one process, made by `userinit`. -/
def boot : Kernel where
  proc := { pid := 1, state := .runnable } :: List.replicate (nproc - 1) {}
  ticks := 0
  nextpid := 2
  mode := .scheduler 0

end Xv6
end RuShell
