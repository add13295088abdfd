import RuShell.Xv6.Step

/-!
# What a step does to one slot of the table

Every property of the schedulers that is about single processes needs to know
what a step of the kernel can do to one slot.  `SlotStep` lists it, once: the
slot is left alone, its process is dispatched, a tick is charged to it, it gives
up the CPU, it is woken, created, freed, and so on, each with the condition under
which the source does it and the exact new contents of the slot.  Invariants of
the table are then proved by going through this list.

## Main definitions

* `tickSlot` — what `clockintr` does to a slot.
* `StepCase` — the steps one by one.
* `SlotStep` — the list.

## Main results

* `step_cases` — every step is one of them.
* `step_slot` — a step does to every slot one of the things listed.
* `step_frame` — the tick counter and the size of the table.
-/

namespace RuShell
namespace Xv6

/-! ### The table after the basic updates -/

@[simp] theorem Kernel.modify_ticks (k : Kernel) (i : ℕ) (f : Proc → Proc) :
    (k.modify i f).ticks = k.ticks := rfl

@[simp] theorem Kernel.swtch_ticks (pol : Policy) (k : Kernel) (i : ℕ) :
    (k.swtch pol i).ticks = k.ticks := rfl

@[simp] theorem Kernel.swtch_proc (pol : Policy) (k : Kernel) (i : ℕ) :
    (k.swtch pol i).proc = k.proc := rfl

@[simp] theorem Kernel.swtch_myproc (pol : Policy) (k : Kernel) (i : ℕ) :
    (k.swtch pol i).myproc = none := rfl

@[simp] theorem Kernel.modify_myproc (k : Kernel) (i : ℕ) (f : Proc → Proc) :
    (k.modify i f).myproc = k.myproc := rfl

@[simp] theorem Kernel.length_modify (k : Kernel) (i : ℕ) (f : Proc → Proc) :
    (k.modify i f).proc.length = k.proc.length := by
  simp [Kernel.modify]

@[simp] theorem Kernel.length_mapProcs (k : Kernel) (f : Proc → Proc) :
    (k.mapProcs f).proc.length = k.proc.length := by
  simp [Kernel.mapProcs]

variable {k : Kernel}

theorem Kernel.slot_modify_self {i : ℕ} {p : Proc} (f : Proc → Proc) (hp : k.proc[i]? = some p) :
    (k.modify i f).proc[i]? = some (f p) := by
  simp [Kernel.modify, hp]

theorem Kernel.slot_modify_ne {i j : ℕ} {p : Proc} (f : Proc → Proc) (hp : k.proc[i]? = some p)
    (hij : j ≠ i) : (k.modify j f).proc[i]? = some p := by
  simp [Kernel.modify, hp, hij]

theorem Kernel.slot_mapProcs {i : ℕ} {p : Proc} (f : Proc → Proc) (hp : k.proc[i]? = some p) :
    (k.mapProcs f).proc[i]? = some (f p) := by
  simp [Kernel.mapProcs, hp]

theorem Kernel.modify_modify (k : Kernel) (i : ℕ) (f g : Proc → Proc) :
    (k.modify i f).modify i g = k.modify i fun p => g (f p) := by
  simp [Kernel.modify, List.modify_modify_eq, Function.comp_def]

/-! ### A tick -/

/-- What `clockintr` does to a slot; `ticks` is the new count. -/
def tickSlot (pol : Policy) (ticks : ℕ) (p : Proc) : Proc :=
  let p := updateProcTimeSlot pol ticks (wakeupSlot pol ticks .ticks p)
  if ticks % 48 = 0 ∧ pol = .mlfq then boostSlot ticks p else p

/-- `clockintr` advances the counter and treats every slot alike. -/
theorem clockintr_eq (pol : Policy) (k : Kernel) :
    clockintr pol k =
      { k with
        ticks := uintSucc k.ticks
        proc := k.proc.map (tickSlot pol (uintSucc k.ticks)) } := by
  by_cases hb : uintSucc k.ticks % 48 = 0 <;> by_cases hp : pol = .mlfq <;>
    simp [clockintr, boostPriority, updateProcTime, wakeup, Kernel.mapProcs, tickSlot, hb, hp,
      Function.comp_def]

theorem wakeupSlot_killed (pol : Policy) (ticks : ℕ) (c : Chan) (p : Proc) :
    (wakeupSlot pol ticks c p).killed = p.killed := by
  unfold wakeupSlot
  split
  · simp only [wakeProc]
    split <;> rfl
  · rfl

@[simp] theorem tickSlot_killed (pol : Policy) (ticks : ℕ) (p : Proc) :
    (tickSlot pol ticks p).killed = p.killed := by
  have hupd : ∀ q : Proc, (updateProcTimeSlot pol ticks q).killed = q.killed := by
    intro q
    unfold updateProcTimeSlot
    split <;> rfl
  unfold tickSlot boostSlot
  simp only
  split
  · split <;> simp [hupd, wakeupSlot_killed]
  · simp [hupd, wakeupSlot_killed]

/-! ### The list -/

/-- The wakeups a step makes, one channel after the other, as one slot sees them. -/
def notify (pol : Policy) (ticks : ℕ) (cs : List Chan) (p : Proc) : Proc :=
  cs.foldl (fun p c => wakeupSlot pol ticks c p) p

/-- What `yield` leaves in the slot of its caller. -/
def yieldSlot (pol : Policy) (ticks : ℕ) (p : Proc) : Proc :=
  { p with
    state := .runnable,
    enterTime := if pol = .mlfq then asInt ticks else p.enterTime }

/-- The events that are timer interrupts. -/
def Event.isTick : Event → Bool
  | .tick _ => true
  | _ => false

/-- What the step `e` from `k` to `k'` can do to the slot `i`, which held `p`.
Whether the slot has the CPU is said by `myproc`. -/
inductive SlotStep (pol : Policy) (k : Kernel) (e : Event) (k' : Kernel) (i : ℕ) (p : Proc) :
    Proc → Prop
  /-- Nothing. -/
  | kept : e.isTick = false → (k'.myproc = some i ↔ k.myproc = some i) →
      SlotStep pol k e k' i p p
  /-- `scheduler` switches to it. -/
  | dispatched (start : ℕ) : e.isTick = false → k.mode = .scheduler start →
      select pol k.proc start = some i → k'.mode = .running i →
      SlotStep pol k e k' i p { p with state := .running }
  /-- A tick, while it does not have the CPU. -/
  | ticked : e.isTick = true → k.myproc ≠ some i → k'.myproc ≠ some i →
      SlotStep pol k e k' i p (tickSlot pol (uintSucc k.ticks) p)
  /-- A tick in user mode finds it killed. -/
  | tickedKilled : e = .tick true → k.mode = .running i → k'.mode = .exiting i →
      p.killed = true → SlotStep pol k e k' i p (tickSlot pol (uintSucc k.ticks) p)
  /-- A tick after which it keeps the CPU. -/
  | tickedOn {q : Proc} : e.isTick = true → q = tickSlot pol (uintSucc k.ticks) p →
      k.mode = .running i → k'.mode = .running i →
      (e = .tick true → p.killed = false) → pol ≠ .rr →
      (pol = .mlfq → q.state = .running →
        q.ticksInSlice < sliceLimit q.queue ∧ higherPriorityProcRunnable k' q.queue = false) →
      SlotStep pol k e k' i p q
  /-- A tick that uses up its slice. -/
  | demoted {q : Proc} : e.isTick = true → q = tickSlot pol (uintSucc k.ticks) p →
      k.mode = .running i → k'.myproc = none → pol = .mlfq →
      (e = .tick true → p.killed = false) →
      q.state = .running → sliceLimit q.queue ≤ q.ticksInSlice →
      SlotStep pol k e k' i p
        (yieldSlot pol (uintSucc k.ticks) (demote (uintSucc k.ticks) q))
  /-- A tick that finds a process of a higher priority. -/
  | preempted {q : Proc} : e.isTick = true → q = tickSlot pol (uintSucc k.ticks) p →
      k.mode = .running i → k'.myproc = none → pol = .mlfq →
      (e = .tick true → p.killed = false) →
      q.state = .running → q.ticksInSlice < sliceLimit q.queue →
      higherPriorityProcRunnable (clockintr pol k) q.queue = true →
      SlotStep pol k e k' i p (yieldSlot pol (uintSucc k.ticks) q)
  /-- A tick of the round-robin kernel. -/
  | rotated {q : Proc} : e.isTick = true → q = tickSlot pol (uintSucc k.ticks) p →
      k.mode = .running i → k'.myproc = none → pol = .rr →
      (e = .tick true → p.killed = false) →
      SlotStep pol k e k' i p (yieldSlot pol (uintSucc k.ticks) q)
  /-- Wakeups, and a new parent if its own exits. -/
  | notified (q : Option ℕ) (cs : List Chan) : e.isTick = false →
      (k'.myproc = some i ↔ k.myproc = some i) →
      (q ≠ p.parent → (∃ status, e = .kexit status) ∧ k.myproc = p.parent) →
      SlotStep pol k e k' i p (notify pol k.ticks cs { p with parent := q })
  /-- It registers on a channel. -/
  | prepared (c : Chan) : e.isTick = false → k.myproc = some i → k'.myproc = some i →
      SlotStep pol k e k' i p { p with chan := some c }
  /-- It goes to sleep. -/
  | slept : e = .sleep → k.myproc = some i → k'.myproc = none → p.chan ≠ none →
      SlotStep pol k e k' i p (putToSleep pol p)
  /-- `kfork` takes the slot for a child of `j`. -/
  | allocated (j : ℕ) : e.isTick = false → p.state = .unused →
      (k'.myproc = some i ↔ k.myproc = some i) → e = .kforkBegin true true →
      freeSlot k = some i → k'.nextpid = k.nextpid + 1 →
      SlotStep pol k e k' i p { initProc k p with parent := some j }
  /-- `kfork` takes the slot but has to give it back. -/
  | refused : e.isTick = false → p.state = .unused →
      (k'.myproc = some i ↔ k.myproc = some i) → SlotStep pol k e k' i p (freeproc p)
  /-- The new process may run. -/
  | readied : e.isTick = false → p.state = .used →
      (k'.myproc = some i ↔ k.myproc = some i) →
      SlotStep pol k e k' i p { p with state := .runnable }
  /-- It exits. -/
  | exited (q : Option ℕ) (cs : List Chan) (status : ℤ) : e = .kexit status →
      k.myproc = some i → k'.myproc = none →
      SlotStep pol k e k' i p
        { notify pol k.ticks cs { p with parent := q } with
          ttime := k.ticks, xstate := status, state := .zombie }
  /-- Its parent collects it. -/
  | reaped : e.isTick = false → p.state = .zombie →
      (k'.myproc = some i ↔ k.myproc = some i) →
      (∃ j, e = .kwait true ∧ k.myproc = some j ∧ zombieChild k j = some i) →
      SlotStep pol k e k' i p (freeproc { p with parent := none })
  /-- It is the target of `kkill`. -/
  | targeted : e.isTick = false → (k'.myproc = some i ↔ k.myproc = some i) →
      SlotStep pol k e k' i p (kkillSlot pol k.ticks p)
  /-- It is marked as killed for a fault of its own. -/
  | faulted : e.isTick = false → k.myproc = some i → k'.myproc = some i →
      SlotStep pol k e k' i p { p with killed := true }

/-! ### The steps one by one -/

/-- What a step is: the code that runs, and the mode in which it may run. -/
inductive StepCase (pol : Policy) (k : Kernel) : Event → Kernel → Prop
  | schedule {start : ℕ} : k.mode = .scheduler start →
      StepCase pol k .schedule (schedule pol k start)
  | idleTick (user : Bool) : k.mode = .scheduler 0 →
      StepCase pol k (.tick user) { clockintr pol k with mode := .scheduler 0 }
  /-- A tick in user mode finds the process killed. -/
  | killedTick {j : ℕ} : k.mode = .running j → isKilled (clockintr pol k) j = true →
      StepCase pol k (.tick true) { clockintr pol k with mode := .exiting j }
  | tick {j : ℕ} (user : Bool) : k.mode = .running j →
      (user = true → isKilled (clockintr pol k) j = false) →
      StepCase pol k (.tick user) (sliceCheck pol (clockintr pol k) j)
  | wakeup (c : Chan) : (∀ n, k.mode ≠ .scheduler (n + 1)) →
      StepCase pol k (.wakeup c) (wakeup pol c k)
  | sleepPrepare {j : ℕ} (c : Chan) : k.myproc = some j →
      StepCase pol k (.sleepPrepare c) (sleepPrepare k j c)
  | sleep {j : ℕ} : k.myproc = some j → StepCase pol k .sleep (sleep pol k j)
  | kforkBegin {j : ℕ} (mem copy : Bool) : k.mode = .running j →
      StepCase pol k (.kforkBegin mem copy) (kforkBegin k j mem copy)
  | kforkEnd {j l : ℕ} {q : Proc} : k.mode = .running j → k.proc[l]? = some q →
      q.state = .used → q.parent = some j →
      StepCase pol k (.kforkEnd l) (k.modify l fun p => { p with state := .runnable })
  | kexit {j : ℕ} (status : ℤ) : k.myproc = some j → j ≠ initproc →
      StepCase pol k (.kexit status) (kexit pol k j status)
  | kwait {j : ℕ} (copied : Bool) : k.mode = .running j →
      StepCase pol k (.kwait copied) (kwait k j copied)
  | kkill {j : ℕ} (l : ℕ) : k.mode = .running j →
      StepCase pol k (.kkill l) (k.modify l (kkillSlot pol k.ticks))
  | setkilled {j : ℕ} : k.mode = .running j →
      StepCase pol k .setkilled (k.modify j fun p => { p with killed := true })

theorem myproc_of_running {j : ℕ} (hk : k.mode = .running j) : k.myproc = some j := by
  rw [Kernel.myproc, hk]

theorem myproc_of_exiting {j : ℕ} (hk : k.mode = .exiting j) : k.myproc = some j := by
  rw [Kernel.myproc, hk]

/-- **Every step is one of them.**  The other lemmas about `step` go through this list. -/
theorem step_cases {pol : Policy} {k' : Kernel} {e : Event} (h : step pol k e = some k') :
    StepCase pol k e k' := by
  unfold step at h
  cases hk : k.mode with
  | scheduler start =>
    rw [hk] at h
    cases e with
    | schedule => exact Option.some.inj h ▸ .schedule hk
    | tick user =>
      cases start with
      | zero => exact Option.some.inj h ▸ .idleTick user hk
      | succ start => cases h
    | wakeup c =>
      cases start with
      | zero => exact Option.some.inj h ▸ .wakeup c (by simp [hk])
      | succ start => cases h
    | _ => cases h
  | running j =>
    rw [hk] at h
    cases e with
    | schedule => cases h
    | tick user =>
      cases user with
      | true =>
        obtain rfl := Option.some.inj h
        unfold usertrap
        by_cases hkill : isKilled (clockintr pol k) j = true
        · exact if_pos hkill ▸ .killedTick hk hkill
        · exact if_neg hkill ▸ .tick true hk fun _ => Bool.eq_false_iff.mpr hkill
      | false => exact Option.some.inj h ▸ .tick false hk (by simp)
    | wakeup c => exact Option.some.inj h ▸ .wakeup c (by simp [hk])
    | sleepPrepare c => exact Option.some.inj h ▸ .sleepPrepare c (myproc_of_running hk)
    | sleep => exact Option.some.inj h ▸ .sleep (myproc_of_running hk)
    | kforkBegin mem copy => exact Option.some.inj h ▸ .kforkBegin mem copy hk
    | kforkEnd l =>
      change kforkEnd k j l = some k' at h
      unfold kforkEnd at h
      split at h
      · cases h
      · rename_i q hq
        split at h
        · rename_i hused
          exact Option.some.inj h ▸ .kforkEnd hk hq hused.1 hused.2
        · cases h
    | kexit status =>
      dsimp only at h
      split at h
      · cases h
      · exact Option.some.inj h ▸ .kexit status (myproc_of_running hk) ‹_›
    | kwait copied => exact Option.some.inj h ▸ .kwait copied hk
    | kkill l => exact Option.some.inj h ▸ .kkill l hk
    | setkilled => exact Option.some.inj h ▸ .setkilled hk
  | exiting j =>
    rw [hk] at h
    cases e with
    | wakeup c => exact Option.some.inj h ▸ .wakeup c (by simp [hk])
    | sleepPrepare c => exact Option.some.inj h ▸ .sleepPrepare c (myproc_of_exiting hk)
    | sleep => exact Option.some.inj h ▸ .sleep (myproc_of_exiting hk)
    | kexit status =>
      dsimp only at h
      split at h
      · cases h
      · exact Option.some.inj h ▸ .kexit status (myproc_of_exiting hk) ‹_›
    | _ => cases h

/-! ### Every step is in the list

One lemma for each group of functions; they are put together in `step_slot`. -/

section Steps

variable {pol : Policy} {k k' : Kernel} {e : Event} {i j : ℕ} {p : Proc}

/-- The slot `i` after the step has some contents that the list allows. -/
def Listed (pol : Policy) (k : Kernel) (e : Event) (k' : Kernel) (i : ℕ) (p : Proc) : Prop :=
  ∃ p', k'.proc[i]? = some p' ∧ SlotStep pol k e k' i p p'

/-- A change of the slot `j` alone leaves the other slots as they were. -/
theorem Listed.of_modify (f : Proc → Proc) (hp : k.proc[i]? = some p) (ht : e.isTick = false)
    (hproc : k'.proc = (k.modify j f).proc) (hcpu : k'.myproc = some i ↔ k.myproc = some i)
    (hself : j = i → SlotStep pol k e k' i p (f p)) : Listed pol k e k' i p := by
  by_cases hji : j = i
  · subst hji
    exact ⟨f p, by rw [hproc]; exact Kernel.slot_modify_self f hp, hself rfl⟩
  · exact ⟨p, by rw [hproc]; exact Kernel.slot_modify_ne f hp hji, .kept ht hcpu⟩

theorem yield_eq (pol : Policy) (k : Kernel) (j : ℕ) :
    yield pol k j = (k.modify j (yieldSlot pol k.ticks)).swtch pol j := rfl

theorem sliceCheck_cases (pol : Policy) {k : Kernel} {j : ℕ} {q : Proc}
    (hq : k.proc[j]? = some q) :
    (sliceCheck pol k j = k ∧ pol ≠ .rr ∧
      (pol = .mlfq → q.state = .running →
        q.ticksInSlice < sliceLimit q.queue ∧ higherPriorityProcRunnable k q.queue = false)) ∨
    (pol = .mlfq ∧ q.state = .running ∧ sliceLimit q.queue ≤ q.ticksInSlice ∧
      sliceCheck pol k j =
        (k.modify j fun q => yieldSlot pol k.ticks (demote k.ticks q)).swtch pol j) ∨
    (pol = .mlfq ∧ q.state = .running ∧ q.ticksInSlice < sliceLimit q.queue ∧
      higherPriorityProcRunnable k q.queue = true ∧
      sliceCheck pol k j = (k.modify j (yieldSlot pol k.ticks)).swtch pol j) ∨
    (pol = .rr ∧ sliceCheck pol k j = (k.modify j (yieldSlot pol k.ticks)).swtch pol j) := by
  cases pol with
  | rr => exact .inr (.inr (.inr ⟨rfl, rfl⟩))
  | fifo => exact .inl ⟨rfl, by decide, by intro h; cases h⟩
  | mlfq =>
    by_cases hrun : q.state = .running
    · by_cases hlim : sliceLimit q.queue ≤ q.ticksInSlice
      · refine .inr (.inl ⟨rfl, hrun, hlim, ?_⟩)
        simp only [sliceCheck, hq, if_pos hrun, if_pos hlim, yield_eq, Kernel.modify_modify,
          Kernel.modify_ticks]
      · by_cases hhi : higherPriorityProcRunnable k q.queue = true
        · refine .inr (.inr (.inl ⟨rfl, hrun, by omega, hhi, ?_⟩))
          -- `yield` sets `enter_time` once more
          have htwice : (fun q : Proc => yieldSlot .mlfq k.ticks
              { q with enterTime := asInt k.ticks }) = yieldSlot .mlfq k.ticks := by
            funext q
            simp [yieldSlot]
          simp only [sliceCheck, hq, if_pos hrun, if_neg hlim, if_pos hhi, yield_eq,
            Kernel.modify_modify, Kernel.modify_ticks, htwice]
        · refine .inl ⟨?_, by decide, fun _ _ => ⟨by omega, by simpa using hhi⟩⟩
          simp only [sliceCheck, hq, if_pos hrun, if_neg hlim, if_neg hhi]
    · refine .inl ⟨?_, by decide, fun _ h => absurd h hrun⟩
      simp only [sliceCheck, hq, if_neg hrun]

/-- The check does nothing, or it changes the slot of the running process and
goes to the scheduler. -/
theorem sliceCheck_shape (pol : Policy) (k : Kernel) (j : ℕ) :
    sliceCheck pol k j = k ∨ ∃ f, sliceCheck pol k j = (k.modify j f).swtch pol j := by
  cases hq : k.proc[j]? with
  | none =>
    cases pol with
    | rr => exact .inr ⟨_, rfl⟩
    | fifo => exact .inl rfl
    | mlfq => exact .inl (by simp only [sliceCheck, hq])
  | some q =>
    rcases sliceCheck_cases pol hq with
      ⟨h, -⟩ | ⟨-, -, -, h⟩ | ⟨-, -, -, -, h⟩ | ⟨-, h⟩
    · exact .inl h
    all_goals exact .inr ⟨_, h⟩

/-- `kexit` first makes wakeups and hands the children over, then turns the slot
into a zombie. -/
theorem kexit_eq (pol : Policy) (k : Kernel) (i : ℕ) (status : ℤ) : ∃ cs,
    kexit pol k i status =
      ((k.mapProcs fun p => notify pol k.ticks cs (reparentSlot i p)).modify i fun p =>
        { p with ttime := k.ticks, xstate := status, state := .zombie }).swtch pol i := by
  have hwake : ∀ (cs : List Chan) (c : Chan),
      wakeup pol c (k.mapProcs fun p => notify pol k.ticks cs (reparentSlot i p)) =
        k.mapProcs fun p => notify pol k.ticks (cs ++ [c]) (reparentSlot i p) := by
    intro cs c
    simp [wakeup, Kernel.mapProcs, notify, Function.comp_def]
  have hrep : ∃ cs, reparent pol k i =
      k.mapProcs fun p => notify pol k.ticks cs (reparentSlot i p) := by
    simp only [reparent]
    split
    · exact ⟨[.proc initproc], hwake [] _⟩
    · exact ⟨[], rfl⟩
  obtain ⟨cs, hcs⟩ := hrep
  cases hpar : k.proc[i]?.bind Proc.parent with
  | none =>
    refine ⟨cs, ?_⟩
    simp only [kexit, hpar, hcs]
    rfl
  | some q =>
    refine ⟨cs ++ [.proc q], ?_⟩
    simp only [kexit, hpar, hcs]
    rw [hwake cs (.proc q)]
    rfl

theorem clockintr_slot (hp : k.proc[i]? = some p) :
    (clockintr pol k).proc[i]? = some (tickSlot pol (uintSucc k.ticks) p) := by
  rw [clockintr_eq, List.getElem?_map, hp]
  rfl

theorem clockintr_ticks : (clockintr pol k).ticks = uintSucc k.ticks := by
  rw [clockintr_eq]

theorem clockintr_mode : (clockintr pol k).mode = k.mode := by
  rw [clockintr_eq]

theorem isKilled_clockintr (hp : k.proc[i]? = some p) :
    isKilled (clockintr pol k) i = p.killed := by
  rw [isKilled, clockintr_slot hp]
  simp

/-- A tick while `j` runs, unless the trap handler finds it killed. -/
theorem listed_sliceCheck (hk : k.mode = .running j) (he : e.isTick = true)
    (hkill : e = .tick true → isKilled (clockintr pol k) j = false) (hp : k.proc[i]? = some p) :
    Listed pol k e (sliceCheck pol (clockintr pol k) j) i p := by
  have hslot : (clockintr pol k).proc[i]? = some (tickSlot pol (uintSucc k.ticks) p) :=
    clockintr_slot hp
  by_cases hji : j = i
  · subst hji
    have hkilled : e = .tick true → p.killed = false := by
      intro h
      rw [← hkill h, isKilled_clockintr hp]
    rcases sliceCheck_cases pol hslot with ⟨h, hrr, hon⟩ | ⟨hpol, hrun, hlim, h⟩ |
      ⟨hpol, hrun, hlim, hhi, h⟩ | ⟨hpol, h⟩ <;> rw [h]
    · exact ⟨_, hslot, .tickedOn he rfl hk (by rw [clockintr_mode, hk]) hkilled hrr hon⟩
    all_goals
      refine ⟨_, Kernel.slot_modify_self _ hslot, ?_⟩
      rw [clockintr_ticks]
    · exact .demoted he rfl hk rfl hpol hkilled hrun hlim
    · exact .preempted he rfl hk rfl hpol hkilled hrun hlim hhi
    · exact .rotated he rfl hk rfl hpol hkilled
  · have hcpu : k.myproc ≠ some i := by
      rw [myproc_of_running hk]
      simpa using hji
    rcases sliceCheck_shape pol (clockintr pol k) j with h | ⟨f, h⟩ <;> rw [h]
    · refine ⟨_, hslot, .ticked he hcpu ?_⟩
      rw [Kernel.myproc, clockintr_mode]
      exact hcpu
    · exact ⟨_, Kernel.slot_modify_ne f hslot hji, .ticked he hcpu (by simp)⟩

theorem firstSlot_spec {test : Proc → Bool} (h : k.firstSlot test = some j)
    (hp : k.proc[j]? = some p) : test p = true := by
  simp only [Kernel.firstSlot] at h
  split at h
  · rename_i hlt
    injection h with h
    subst h
    have hfound := List.findIdx_getElem (w := hlt)
    rw [List.getElem?_eq_getElem hlt] at hp
    injection hp with hp
    rw [hp] at hfound
    exact hfound
  · cases h

theorem listed_kforkBegin (mem copy : Bool) (hp : k.proc[i]? = some p) :
    Listed pol k (.kforkBegin mem copy) (kforkBegin k j mem copy) i p := by
  unfold kforkBegin allocproc
  cases hfree : freeSlot k with
  | none => exact ⟨p, hp, .kept rfl Iff.rfl⟩
  | some l =>
    have hunused : l = i → p.state = .unused := by
      rintro rfl
      simpa using firstSlot_spec hfree hp
    cases mem with
    | false =>
      exact .of_modify freeproc hp rfl rfl Iff.rfl fun hl => .refused rfl (hunused hl) Iff.rfl
    | true =>
      cases copy with
      | true =>
        refine .of_modify (fun p => { initProc k p with parent := some j }) hp rfl ?_ Iff.rfl
          fun hl => .allocated j rfl (hunused hl) Iff.rfl rfl (hl ▸ hfree) rfl
        simp [Kernel.modify, List.modify_modify_eq, Function.comp_def]
      | false =>
        refine .of_modify freeproc hp rfl ?_ Iff.rfl fun hl => .refused rfl (hunused hl) Iff.rfl
        simp only [Kernel.modify, if_true, Bool.false_eq_true, if_false, List.modify_modify_eq]
        rfl

theorem listed_kwait (copied : Bool) (hk : k.mode = .running j) (hp : k.proc[i]? = some p) :
    Listed pol k (.kwait copied) (kwait k j copied) i p := by
  have hcpu := myproc_of_running hk
  unfold kwait
  cases hz : zombieChild k j with
  | none =>
    simp only
    split
    · refine .of_modify (fun p => { p with chan := some (.proc j) }) hp rfl rfl Iff.rfl ?_
      rintro rfl
      exact .prepared _ rfl hcpu hcpu
    · exact ⟨p, hp, .kept rfl Iff.rfl⟩
  | some l =>
    cases copied with
    | false => exact ⟨p, hp, .kept rfl Iff.rfl⟩
    | true =>
      refine .of_modify _ hp rfl rfl Iff.rfl ?_
      rintro rfl
      have hchild := firstSlot_spec hz hp
      simp only [Bool.and_eq_true, decide_eq_true_eq] at hchild
      exact .reaped rfl hchild.2 Iff.rfl ⟨j, rfl, hcpu, hz⟩

theorem listed_sleep (hk : k.myproc = some j) (hp : k.proc[i]? = some p) :
    Listed pol k .sleep (sleep pol k j) i p := by
  unfold sleep
  cases hc : k.proc[j]?.bind Proc.chan with
  | none => exact ⟨p, hp, .kept rfl Iff.rfl⟩
  | some c =>
    by_cases hji : j = i
    · subst hji
      refine ⟨_, Kernel.slot_modify_self _ hp, .slept rfl hk rfl ?_⟩
      rw [hp, Option.bind_some] at hc
      simp [hc]
    · refine ⟨_, Kernel.slot_modify_ne _ hp hji, .kept rfl ?_⟩
      simp [hk, hji]

theorem listed_kexit (status : ℤ) (hk : k.myproc = some j) (hp : k.proc[i]? = some p) :
    Listed pol k (.kexit status) (kexit pol k j status) i p := by
  obtain ⟨cs, h⟩ := kexit_eq pol k j status
  have hslot := Kernel.slot_mapProcs (fun p => notify pol k.ticks cs (reparentSlot j p)) hp
  obtain ⟨q, hq, hkeep⟩ : ∃ q, reparentSlot j p = { p with parent := q } ∧
      (q ≠ p.parent → p.parent = some j) := by
    unfold reparentSlot
    split
    · exact ⟨_, rfl, fun _ => ‹_›⟩
    · exact ⟨p.parent, rfl, fun h => absurd rfl h⟩
  simp only [hq] at hslot
  rw [h]
  by_cases hji : j = i
  · subst hji
    exact ⟨_, Kernel.slot_modify_self _ hslot, .exited q cs status rfl hk rfl⟩
  · refine ⟨_, Kernel.slot_modify_ne _ hslot hji,
      .notified q cs rfl (by simp [hk, hji]) fun hq => ⟨⟨status, rfl⟩, ?_⟩⟩
    rw [hk, hkeep hq]

/-- **Every step is in the list**, for every slot. -/
theorem step_slot (h : step pol k e = some k') (hp : k.proc[i]? = some p) :
    Listed pol k e k' i p := by
  cases step_cases h with
  | @schedule start hk =>
    unfold schedule
    cases hsel : select pol k.proc start with
    | none => exact ⟨p, hp, .kept rfl (by simp [Kernel.myproc, hk])⟩
    | some j =>
      by_cases hji : j = i
      · subst hji
        exact ⟨_, Kernel.slot_modify_self _ hp, .dispatched start rfl hk hsel rfl⟩
      · exact ⟨_, Kernel.slot_modify_ne _ hp hji, .kept rfl (by simp [Kernel.myproc, hk, hji])⟩
  | idleTick user hk =>
    exact ⟨_, clockintr_slot hp,
      .ticked rfl (by simp [Kernel.myproc, hk]) (by simp [Kernel.myproc])⟩
  | @killedTick j hk hkill =>
    refine ⟨_, clockintr_slot hp, ?_⟩
    by_cases hji : j = i
    · subst hji
      rw [isKilled_clockintr hp] at hkill
      exact .tickedKilled rfl hk rfl hkill
    · exact .ticked rfl (by simpa [myproc_of_running hk] using hji)
        (by simpa [Kernel.myproc] using hji)
  | tick user hk hkill => exact listed_sliceCheck hk rfl (by simpa using hkill) hp
  | wakeup c hk =>
    exact ⟨_, Kernel.slot_mapProcs _ hp, .notified p.parent [c] rfl Iff.rfl fun h => absurd rfl h⟩
  | sleepPrepare c hcpu =>
    refine .of_modify _ hp rfl rfl Iff.rfl ?_
    rintro rfl
    exact .prepared c rfl hcpu hcpu
  | sleep hcpu => exact listed_sleep hcpu hp
  | kforkBegin mem copy hk => exact listed_kforkBegin mem copy hp
  | kforkEnd hk hq hused hparent =>
    refine .of_modify _ hp rfl rfl Iff.rfl ?_
    rintro rfl
    rw [hp] at hq
    obtain rfl := Option.some.inj hq
    exact .readied rfl hused Iff.rfl
  | kexit status hcpu hinit => exact listed_kexit status hcpu hp
  | kwait copied hk => exact listed_kwait copied hk hp
  | kkill l hk => exact .of_modify _ hp rfl rfl Iff.rfl fun _ => .targeted rfl Iff.rfl
  | setkilled hk =>
    refine .of_modify _ hp rfl rfl Iff.rfl ?_
    rintro rfl
    exact .faulted rfl (myproc_of_running hk) (myproc_of_running hk)

theorem sliceCheck_frame (pol : Policy) (k : Kernel) (j : ℕ) :
    (sliceCheck pol k j).proc.length = k.proc.length ∧ (sliceCheck pol k j).ticks = k.ticks := by
  rcases sliceCheck_shape pol k j with h | ⟨f, h⟩ <;> rw [h]
  · exact ⟨rfl, rfl⟩
  · exact ⟨k.length_modify j f, rfl⟩

theorem kforkBegin_frame (k : Kernel) (j : ℕ) (mem copy : Bool) :
    (kforkBegin k j mem copy).proc.length = k.proc.length ∧
      (kforkBegin k j mem copy).ticks = k.ticks := by
  unfold kforkBegin allocproc
  cases freeSlot k with
  | none => exact ⟨rfl, rfl⟩
  | some l => cases mem <;> cases copy <;> simp [Kernel.modify]

theorem kwait_frame (k : Kernel) (j : ℕ) (copied : Bool) :
    (kwait k j copied).proc.length = k.proc.length ∧ (kwait k j copied).ticks = k.ticks := by
  unfold kwait
  split
  · split
    · exact ⟨k.length_modify _ _, rfl⟩
    · exact ⟨rfl, rfl⟩
  · split
    · exact ⟨k.length_modify _ _, rfl⟩
    · exact ⟨rfl, rfl⟩

theorem sleep_frame (pol : Policy) (k : Kernel) (j : ℕ) :
    (sleep pol k j).proc.length = k.proc.length ∧ (sleep pol k j).ticks = k.ticks := by
  unfold sleep
  split
  · exact ⟨rfl, rfl⟩
  · exact ⟨k.length_modify _ _, rfl⟩

theorem kexit_frame (pol : Policy) (k : Kernel) (j : ℕ) (status : ℤ) :
    (kexit pol k j status).proc.length = k.proc.length ∧
      (kexit pol k j status).ticks = k.ticks := by
  obtain ⟨cs, h⟩ := kexit_eq pol k j status
  rw [h]
  exact ⟨by simp, rfl⟩

/-- The table keeps its size, and only timer interrupts move the tick counter. -/
theorem step_frame (h : step pol k e = some k') :
    k'.proc.length = k.proc.length ∧
      k'.ticks = if e.isTick then uintSucc k.ticks else k.ticks := by
  cases step_cases h with
  | schedule hk =>
    unfold schedule
    split
    · exact ⟨k.length_modify _ _, rfl⟩
    · exact ⟨rfl, rfl⟩
  | idleTick user hk | killedTick hk hkill => simp [clockintr_eq, Event.isTick]
  | tick user hk hkill => simp [sliceCheck_frame, clockintr_eq, Event.isTick]
  | wakeup c hk => exact ⟨k.length_mapProcs _, rfl⟩
  | sleep hcpu => exact sleep_frame pol k _
  | kforkBegin mem copy hk => exact kforkBegin_frame k _ mem copy
  | kexit status hcpu hinit => exact kexit_frame pol k _ status
  | kwait copied hk => exact kwait_frame k _ copied
  | _ => exact ⟨k.length_modify _ _, rfl⟩

theorem kforkBegin_mode (k : Kernel) (j : ℕ) (mem copy : Bool) :
    (kforkBegin k j mem copy).mode = k.mode := by
  unfold kforkBegin allocproc
  cases freeSlot k with
  | none => rfl
  | some l => cases mem <;> cases copy <;> rfl

theorem kwait_mode (k : Kernel) (j : ℕ) (copied : Bool) : (kwait k j copied).mode = k.mode := by
  unfold kwait
  split <;> split <;> rfl

theorem sleep_mode (pol : Policy) (k : Kernel) (j : ℕ) :
    (sleep pol k j).mode = k.mode ∨ (sleep pol k j).myproc = none := by
  unfold sleep
  split
  · exact .inl rfl
  · exact .inr rfl

theorem kexit_myproc (pol : Policy) (k : Kernel) (j : ℕ) (status : ℤ) :
    (kexit pol k j status).myproc = none := by
  obtain ⟨cs, h⟩ := kexit_eq pol k j status
  rw [h]
  rfl

/-- Who has the CPU after a step: the one who had it before, or nobody, or the
process that `scheduler` has picked, or a killed process that leaves. -/
theorem step_cpu (h : step pol k e = some k') :
    k'.mode = k.mode ∨ k'.myproc = none ∨
    (∃ start j, k.mode = .scheduler start ∧ e = .schedule ∧
      select pol k.proc start = some j ∧
      k' = { k.modify j fun p => { p with state := .running } with mode := .running j }) ∨
    (∃ j, k.mode = .running j ∧ e = .tick true ∧ k'.mode = .exiting j) := by
  cases step_cases h with
  | @schedule start hk =>
    unfold schedule
    cases hsel : select pol k.proc start with
    | none => exact .inr (.inl rfl)
    | some j => exact .inr (.inr (.inl ⟨start, j, hk, rfl, hsel, rfl⟩))
  | idleTick user hk => exact .inr (.inl rfl)
  | @killedTick j hk hkill => exact .inr (.inr (.inr ⟨j, hk, rfl, rfl⟩))
  | @tick j user hk hkill =>
    rcases sliceCheck_shape pol (clockintr pol k) j with h | ⟨f, h⟩ <;> rw [h]
    · exact .inl clockintr_mode
    · exact .inr (.inl rfl)
  | sleep hcpu => exact (sleep_mode pol k _).imp_right .inl
  | kforkBegin mem copy hk => exact .inl (kforkBegin_mode k _ mem copy)
  | kexit status hcpu hinit => exact .inr (.inl (kexit_myproc pol k _ status))
  | kwait copied hk => exact .inl (kwait_mode k _ copied)
  | _ => exact .inl rfl

end Steps

/-! ### The process that has the CPU -/

/-- A wakeup changes the channel of a slot, and wakes a sleeper. -/
theorem wakeupSlot_cases (pol : Policy) (ticks : ℕ) (c : Chan) (p : Proc) : ∃ ch,
    wakeupSlot pol ticks c p = { p with chan := ch } ∨
    p.state = .sleeping ∧
      wakeupSlot pol ticks c p = wakeProc pol ticks { p with chan := ch } := by
  unfold wakeupSlot
  by_cases hc : p.chan = some c
  · rw [if_pos hc]
    by_cases hs : p.state = .sleeping
    · exact ⟨none, .inr ⟨hs, by simp [hs]⟩⟩
    · exact ⟨none, .inl (by simp [hs])⟩
  · rw [if_neg hc]
    exact ⟨p.chan, .inl rfl⟩

/-- The same for several wakeups: only one of them can find the slot asleep. -/
theorem notify_cases (pol : Policy) (ticks : ℕ) (cs : List Chan) (p : Proc) : ∃ ch,
    notify pol ticks cs p = { p with chan := ch } ∨
    p.state = .sleeping ∧ notify pol ticks cs p = wakeProc pol ticks { p with chan := ch } := by
  induction cs generalizing p with
  | nil => exact ⟨p.chan, .inl rfl⟩
  | cons c cs ih =>
    have hcons : notify pol ticks (c :: cs) p = notify pol ticks cs (wakeupSlot pol ticks c p) :=
      rfl
    rw [hcons]
    obtain ⟨ch, h | ⟨hs, h⟩⟩ := wakeupSlot_cases pol ticks c p <;> rw [h]
    · exact ih { p with chan := ch }
    · obtain ⟨ch', h' | ⟨hs', -⟩⟩ := ih (wakeProc pol ticks { p with chan := ch })
      · exact ⟨ch', .inr ⟨hs, h'⟩⟩
      · cases hs'

theorem notify_running_iff (pol : Policy) (ticks : ℕ) (cs : List Chan) (p : Proc) :
    (notify pol ticks cs p).state = .running ↔ p.state = .running := by
  obtain ⟨ch, h | ⟨hs, h⟩⟩ := notify_cases pol ticks cs p
  · rw [h]
  · rw [h, hs]
    simp [wakeProc]

theorem tickSlot_running_iff (pol : Policy) (ticks : ℕ) (p : Proc) :
    (tickSlot pol ticks p).state = .running ↔ p.state = .running := by
  have hupd : ∀ q : Proc, (updateProcTimeSlot pol ticks q).state = q.state := by
    intro q
    unfold updateProcTimeSlot
    split <;> rfl
  have hboost : ∀ q : Proc, (boostSlot ticks q).state = q.state := by
    intro q
    unfold boostSlot
    split <;> rfl
  have hwake := notify_running_iff pol ticks [.ticks] p
  unfold tickSlot
  simp only
  split
  · rw [hboost, hupd]
    exact hwake
  · rw [hupd]
    exact hwake

/-- `RUNNING` marks the process that has the CPU, and no other. -/
def Owned (k : Kernel) : Prop :=
  ∀ i p, k.proc[i]? = some p → (p.state = .running ↔ k.myproc = some i)

theorem SlotStep.owned {pol : Policy} {k' : Kernel} {e : Event} {i : ℕ} {p p' : Proc}
    (h : SlotStep pol k e k' i p p') (hown : p.state = .running ↔ k.myproc = some i) :
    p'.state = .running ↔ k'.myproc = some i := by
  cases h with
  | kept _ hcpu => rw [hown, hcpu]
  | dispatched start _ _ _ hk' => simp [myproc_of_running hk']
  | ticked _ hcpu hcpu' => simp [tickSlot_running_iff, hown, hcpu, hcpu']
  | tickedKilled _ hk hk' _ =>
    simp [tickSlot_running_iff, hown, Kernel.myproc, hk, hk']
  | tickedOn _ hq hk hk' _ _ _ =>
    subst hq
    simp [tickSlot_running_iff, hown, myproc_of_running hk, myproc_of_running hk']
  | demoted _ _ _ hk' _ _ _ _ | preempted _ _ _ hk' _ _ _ _ _ | rotated _ _ _ hk' _ _ =>
    simp [yieldSlot, hk']
  | notified q cs _ hcpu => rw [notify_running_iff, hcpu, ← hown]
  | prepared c _ hcpu hcpu' | faulted _ hcpu hcpu' => simp [hown, hcpu, hcpu']
  | slept _ _ hcpu' _ => simp [putToSleep, hcpu']
  | allocated j _ hu hcpu => simp [initProc, hcpu, ← hown, hu]
  | refused _ hu hcpu => simp [freeproc, hcpu, ← hown, hu]
  | readied _ hu hcpu => simp [hcpu, ← hown, hu]
  | exited q cs status _ _ hcpu' => simp [hcpu']
  | reaped _ hz hcpu => simp [freeproc, hcpu, ← hown, hz]
  | targeted _ hcpu =>
    rw [hcpu, ← hown]
    unfold kkillSlot
    simp only
    split
    · rename_i hs
      simp [wakeProc, hs]
    · exact Iff.rfl

/-- Every slot of the new table comes from the slot of the old one. -/
theorem step_slot_back {pol : Policy} {k' : Kernel} {e : Event} {i : ℕ} {p' : Proc}
    (h : step pol k e = some k') (hp' : k'.proc[i]? = some p') :
    ∃ p, k.proc[i]? = some p ∧ SlotStep pol k e k' i p p' := by
  have hlt : i < k.proc.length := by
    rw [← (step_frame h).1]
    exact (List.getElem?_eq_some_iff.mp hp').1
  have hp := List.getElem?_eq_getElem hlt
  obtain ⟨q, hq, hslot⟩ := step_slot h hp
  rw [hp'] at hq
  injection hq with hq
  subst hq
  exact ⟨_, hp, hslot⟩

theorem step_owned {pol : Policy} {k' : Kernel} {e : Event} (h : step pol k e = some k')
    (hown : Owned k) : Owned k' := by
  intro i p' hp'
  obtain ⟨p, hp, hslot⟩ := step_slot_back h hp'
  exact hslot.owned (hown i p hp)

end Xv6
end RuShell
