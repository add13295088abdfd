import RuShell.Xv6.Select

/-!
# First come, first served

The kernel compiled with `SCHED_FIFO`.  No timer interrupt takes the CPU from a
process, and `scheduler` picks the runnable process with the smallest `ctime`, the
first one in the table if there are several.  `ctime` is a tick count, so this is
the process that was created first only if processes that are created within one
tick are in the table in this order.  They are not if a slot in front of one of
them has become free in the meantime.

## Main definitions

* `Event.InOrder` — a new process comes after all the others, by `ctime` and slot.
* `Ordered` — the invariant: this order is the order of the pids.

## Main results

* `SlotStep.created` — which process a step can create.
* `fifo_keeps_cpu` — a process has the CPU until it sleeps or exits.
* `fifo_first_come` — **every dispatch picks the process that was created first**.
* `slot_reused` — within one tick, a process is overtaken by a younger one.
-/

namespace RuShell
namespace Xv6

open Lib

/-! ### Creation -/

/-- What was in the slot before is the same process, unless the slot is free. -/
def Old (p p' : Proc) : Prop :=
  p'.state ≠ .unused → p.state ≠ .unused ∧ p'.pid = p.pid ∧ p'.ctime = p.ctime

section

variable {pol : Policy} {k k' : Kernel} {e : Event} {i : ℕ} {p p' p'' : Proc} {ticks : ℕ}

theorem Old.trans (h : Old p p') (h' : Old p' p'') : Old p p'' := by
  intro hs
  obtain ⟨hs', hpid', hctime'⟩ := h' hs
  obtain ⟨hs, hpid, hctime⟩ := h hs'
  exact ⟨hs, by rw [hpid', hpid], by rw [hctime', hctime]⟩

/-- A change of other fields. -/
theorem Old.of_same (hs : p'.state = p.state) (hpid : p'.pid = p.pid)
    (hctime : p'.ctime = p.ctime) : Old p p' :=
  fun h => ⟨by rw [← hs]; exact h, hpid, hctime⟩

theorem Old.of_ne (hs : p.state ≠ .unused) (hpid : p'.pid = p.pid)
    (hctime : p'.ctime = p.ctime) : Old p p' :=
  fun _ => ⟨hs, hpid, hctime⟩

theorem old_wakeupSlot (c : Chan) : Old p (wakeupSlot pol ticks c p) := by
  obtain ⟨ch, h | ⟨hs, h⟩⟩ := wakeupSlot_cases pol ticks c p <;> rw [h]
  · exact .of_same rfl rfl rfl
  · exact .of_ne (by rw [hs]; decide) rfl rfl

theorem old_notify (cs : List Chan) : Old p (notify pol ticks cs p) := by
  obtain ⟨ch, h | ⟨hs, h⟩⟩ := notify_cases pol ticks cs p <;> rw [h]
  · exact .of_same rfl rfl rfl
  · exact .of_ne (by rw [hs]; decide) rfl rfl

theorem old_kkillSlot : Old p (kkillSlot pol ticks p) := by
  unfold kkillSlot
  simp only
  split
  · rename_i hs
    exact .of_ne (by rw [hs]; decide) rfl rfl
  · exact .of_same rfl rfl rfl

theorem old_tickSlot : Old p (tickSlot pol ticks p) := by
  have hupd : ∀ q, Old q (updateProcTimeSlot pol ticks q) := by
    intro q
    unfold updateProcTimeSlot
    split <;> exact .of_same rfl rfl rfl
  have hboost : ∀ q, Old q (boostSlot ticks q) := by
    intro q
    unfold boostSlot
    split <;> exact .of_same rfl rfl rfl
  have h := (old_wakeupSlot .ticks).trans (hupd (wakeupSlot pol ticks .ticks p))
  unfold tickSlot
  simp only
  split
  · exact h.trans (hboost _)
  · exact h

/-- **What a step puts into a slot**: the process that was there, or one that `kfork` has
made in the first free slot. -/
theorem SlotStep.created (h : SlotStep .fifo k e k' i p p') (hp : k.proc[i]? = some p)
    (hown : p.state = .running ↔ k.myproc = some i) :
    Old p p' ∨ e = .kforkBegin true true ∧ freeSlot k = some i ∧ p'.pid = k.nextpid ∧
      p'.ctime = k.ticks ∧ k'.nextpid = k.nextpid + 1 := by
  have hcpu : k.myproc = some i → p.state ≠ .unused := by
    intro h
    rw [hown.mpr h]
    decide
  cases h with
  | kept _ _ | prepared c _ _ _ | faulted _ _ _ => exact .inl (.of_same rfl rfl rfl)
  | dispatched start _ _ hsel _ =>
    exact .inl (.of_ne (by rw [runnable_of_select hsel hp]; decide) rfl rfl)
  | ticked _ _ _ | tickedKilled _ _ _ _ => exact .inl old_tickSlot
  | tickedOn _ hq _ _ _ _ _ => exact .inl (hq ▸ old_tickSlot)
  | demoted _ _ _ _ hpol _ _ _ | preempted _ _ _ _ hpol _ _ _ _ | rotated _ _ _ _ hpol _ =>
    cases hpol
  | notified q cs _ _ _ => exact .inl (old_notify (p := { p with parent := q }) cs)
  | slept _ h _ _ => exact .inl (.of_ne (hcpu h) rfl rfl)
  | allocated j _ _ _ he hfree hnext => exact .inr ⟨he, hfree, rfl, rfl, hnext⟩
  | refused _ _ _ | reaped _ _ _ _ => exact .inl fun h => absurd rfl h
  | readied _ hu _ => exact .inl (.of_ne (by rw [hu]; decide) rfl rfl)
  | exited q cs status _ h _ =>
    obtain ⟨ch, heq | ⟨-, heq⟩⟩ := notify_cases .fifo k.ticks cs { p with parent := q } <;> rw [heq]
    all_goals exact .inl (.of_ne (hcpu h) rfl rfl)
  | targeted _ _ => exact .inl old_kkillSlot

/-- Pids are not given out twice. -/
theorem step_nextpid (h : step pol k e = some k') : k.nextpid ≤ k'.nextpid := by
  cases step_cases h with
  | schedule hk =>
    unfold schedule
    split <;> exact le_rfl
  | idleTick user hk | killedTick hk hkill => rw [clockintr_eq]
  | @tick j user hk hkill =>
    rcases sliceCheck_shape pol (clockintr pol k) j with h | ⟨f, h⟩ <;> rw [h, clockintr_eq]
    exact le_rfl
  | sleep hcpu =>
    unfold sleep
    split <;> exact le_rfl
  | kforkBegin mem copy hk =>
    unfold kforkBegin allocproc
    cases freeSlot k with
    | none => exact le_rfl
    | some l => cases mem <;> cases copy <;> exact Nat.le_succ _
  | @kexit j status hcpu hinit =>
    obtain ⟨cs, h⟩ := kexit_eq pol k j status
    exact h ▸ le_rfl
  | kwait copied hk =>
    unfold kwait
    split <;> split <;> exact le_rfl
  | _ => exact le_rfl

/-! ### The order of creation -/

/-- A new process comes after all the others: they were created in an earlier tick,
or in the same one and are in front of it in the table. -/
def Event.InOrder (k : Kernel) : Event → Prop
  | .kforkBegin _ _ => ∀ j ∈ freeSlot k, ∀ i, (hi : i < k.proc.length) →
      k.proc[i].state ≠ .unused →
        k.proc[i].ctime < k.ticks ∨ k.proc[i].ctime = k.ticks ∧ i < j
  | _ => True

instance (k : Kernel) : (e : Event) → Decidable (e.InOrder k)
  | .kforkBegin _ _ => inferInstanceAs (Decidable (∀ j ∈ freeSlot k, ∀ i, (hi : i < k.proc.length) →
      k.proc[i].state ≠ .unused →
        k.proc[i].ctime < k.ticks ∨ k.proc[i].ctime = k.ticks ∧ i < j))
  | .schedule | .tick _ | .wakeup _ | .sleepPrepare _ | .sleep | .kforkEnd _ | .kexit _
  | .kwait _ | .kkill _ | .setkilled => isTrue trivial

/-- The steps of the FIFO kernel in which new processes come last. -/
def InOrderStep (k : Kernel) (e : Event) (k' : Kernel) : Prop :=
  e.InOrder k ∧ Step .fifo k e k'

/-- The order in which `scheduler` looks at the processes is the one of the pids. -/
structure Ordered (k : Kernel) : Prop where
  owned : Owned k
  inTable : ∀ i, k.myproc = some i → ∃ p, k.proc[i]? = some p
  fresh : ∀ (i : ℕ) (p : Proc), k.proc[i]? = some p → p.state ≠ .unused → p.pid < k.nextpid
  sorted : ∀ (i j : ℕ) (p q : Proc), k.proc[i]? = some p → k.proc[j]? = some q →
    p.state ≠ .unused → q.state ≠ .unused →
    p.ctime < q.ctime ∨ p.ctime = q.ctime ∧ i < j → p.pid < q.pid

/-- What a step in which new processes come last can put into a slot. -/
theorem InOrderStep.created (h : InOrderStep k e k') (hord : Ordered k) :
    k.nextpid ≤ k'.nextpid ∧
    ∀ (i : ℕ) (p' : Proc), k'.proc[i]? = some p' → p'.state ≠ .unused →
      (∃ p, k.proc[i]? = some p ∧ p.state ≠ .unused ∧ p'.pid = p.pid ∧ p'.ctime = p.ctime) ∨
      p'.pid = k.nextpid ∧ k'.nextpid = k.nextpid + 1 ∧ freeSlot k = some i ∧
        ∀ (j : ℕ) (q : Proc), k.proc[j]? = some q → q.state ≠ .unused →
          q.ctime < p'.ctime ∨ q.ctime = p'.ctime ∧ j < i := by
  obtain ⟨horder, hstep⟩ := h
  refine ⟨step_nextpid hstep, fun i p' hp' hs => ?_⟩
  obtain ⟨p, hp, hslot⟩ := step_slot_back hstep hp'
  rcases hslot.created hp (hord.owned i p hp) with hold | ⟨rfl, hfree, hpid, hctime, hnext⟩
  · exact .inl ⟨p, hp, hold hs⟩
  · refine .inr ⟨hpid, hnext, hfree, fun l q hq hqs => ?_⟩
    obtain ⟨hl, rfl⟩ := List.getElem?_eq_some_iff.mp hq
    rw [hctime]
    exact horder i hfree l hl hqs

theorem Ordered.step (hord : Ordered k) (h : InOrderStep k e k') : Ordered k' := by
  obtain ⟨hle, hslots⟩ := h.created hord
  refine ⟨step_owned h.2 hord.owned, step_inTable h.2 hord.inTable, ?_, ?_⟩
  · intro i p' hp' hs
    rcases hslots i p' hp' hs with ⟨p, hp, hps, hpid, -⟩ | ⟨hpid, hnext, -⟩
    · rw [hpid]
      exact lt_of_lt_of_le (hord.fresh i p hp hps) hle
    · rw [hpid, hnext]
      exact Nat.lt_succ_self _
  · intro i j p' q' hp' hq' hs hs' hlt
    rcases hslots i p' hp' hs with ⟨p, hp, hps, hpid, hctime⟩ | ⟨hpid, hnext, hfree, hlast⟩
    · rcases hslots j q' hq' hs' with ⟨q, hq, hqs, hpid', hctime'⟩ | ⟨hpid', -⟩
      · -- both were there before
        rw [hpid, hpid']
        rw [hctime, hctime'] at hlt
        exact hord.sorted i j p q hp hq hps hqs hlt
      · rw [hpid, hpid']
        exact hord.fresh i p hp hps
    · exfalso
      rcases hslots j q' hq' hs' with ⟨q, hq, hqs, -, hctime'⟩ | ⟨-, -, hfree', -⟩
      · -- the new one does not come first
        rw [hctime'] at hlt
        have hbefore := hlast j q hq hqs
        omega
      · rw [hfree] at hfree'
        injection hfree' with hij
        subst hij
        rw [hp'] at hq'
        injection hq' with hpq
        subst hpq
        omega

theorem Ordered.boot : Ordered boot := by
  refine ⟨boot_owned, nofun, ?_, ?_⟩
  · intro i p hp hs
    rcases boot_proc hp with ⟨-, rfl⟩ | rfl
    · exact Nat.lt_succ_self 1
    · exact absurd rfl hs
  · intro i j p q hp hq hs hs' hlt
    rcases boot_proc hp with ⟨rfl, rfl⟩ | rfl
    · rcases boot_proc hq with ⟨rfl, rfl⟩ | rfl
      · omega
      · exact absurd rfl hs'
    · exact absurd rfl hs

theorem ordered_of_run {es : List Event} (h : Run InOrderStep boot es k) : Ordered k :=
  h.invariant (fun _ _ _ hord hstep => hord.step hstep) .boot

/-! ### The scheduler -/

/-- **A process has the CPU until it sleeps or exits.** -/
theorem fifo_keeps_cpu (hstep : Step .fifo k e k') (hp : k.proc[i]? = some p)
    (hcpu : k.myproc = some i) :
    k'.myproc = some i ∨ k'.myproc = none ∧ (e = .sleep ∨ ∃ status, e = .kexit status) := by
  obtain ⟨p', -, hslot⟩ := step_slot hstep hp
  cases hslot with
  | kept _ h | notified _ _ _ h | allocated _ _ _ h | refused _ _ h | readied _ _ h
  | reaped _ _ h | targeted _ h => exact .inl (h.mpr hcpu)
  | dispatched start _ hm _ _ =>
    rw [Kernel.myproc, hm] at hcpu
    cases hcpu
  | ticked _ h _ => exact absurd hcpu h
  | tickedKilled _ _ h _ => exact .inl (by rw [Kernel.myproc, h])
  | tickedOn _ _ _ h _ _ _ => exact .inl (myproc_of_running h)
  | demoted _ _ _ _ hpol _ _ _ | preempted _ _ _ _ hpol _ _ _ _ | rotated _ _ _ _ hpol _ =>
    cases hpol
  | prepared _ _ _ h | faulted _ _ h => exact .inl h
  | slept he _ h _ => exact .inr ⟨h, .inl he⟩
  | exited _ _ status he _ h => exact .inr ⟨h, .inr ⟨status, he⟩⟩

/-- What `scheduler` picks in an ordered table. -/
theorem Ordered.scanFifo (hord : Ordered k) {j : ℕ} (h : scanFifo k.proc = some j) :
    ∃ p, k.proc[j]? = some p ∧ p.state = .runnable ∧
      ∀ (i : ℕ) (q : Proc), k.proc[i]? = some q → q.state = .runnable → p.pid ≤ q.pid := by
  obtain ⟨p, hp, hok, hmin⟩ := scanFifo_eq_some h
  have hrun : p.state = .runnable := of_decide_eq_true hok
  refine ⟨p, hp, hrun, fun i q hq hqrun => ?_⟩
  by_cases hij : j = i
  · subst hij
    rw [hp] at hq
    injection hq with hq
    rw [hq]
  · have hlt : p.ctime < q.ctime ∨ p.ctime = q.ctime ∧ j < i := by
      have := hmin i q hq (decide_eq_true hqrun)
      omega
    exact (hord.sorted j i p q hp hq (by rw [hrun]; decide) (by rw [hqrun]; decide) hlt).le

/-- **First come, first served**, in every run in which new processes come last: a
process that has the CPU keeps it until it sleeps or exits, and every dispatch
picks the runnable process with the smallest pid. -/
theorem fifo_first_come {es : List Event} (hrun : Run InOrderStep boot es k)
    (hstep : Step .fifo k e k') :
    (∀ i, k.myproc = some i →
      k'.myproc = some i ∨ k'.myproc = none ∧ (e = .sleep ∨ ∃ status, e = .kexit status)) ∧
    (∀ j, k.myproc = none → k'.myproc = some j → ∃ p, k.proc[j]? = some p ∧
      p.state = .runnable ∧
      ∀ (i : ℕ) (q : Proc), k.proc[i]? = some q → q.state = .runnable → p.pid ≤ q.pid) := by
  have hord := ordered_of_run hrun
  constructor
  · intro i hcpu
    obtain ⟨p, hp⟩ := hord.inTable i hcpu
    exact fifo_keeps_cpu hstep hp hcpu
  · intro j hnone hcpu
    rcases step_cpu hstep with hm | hm | ⟨start, l, -, -, hsel, rfl⟩ | ⟨l, hm, -, -⟩
    · rw [Kernel.myproc, hm] at hcpu
      rw [Kernel.myproc, hcpu] at hnone
      cases hnone
    · rw [hm] at hcpu
      cases hcpu
    · injection hcpu with hcpu
      subst hcpu
      exact hord.scanFifo hsel
    · rw [myproc_of_running hm] at hnone
      cases hnone

end

/-! ### Two runs -/

/-- The first process makes two children and waits for them. -/
def twoChildren : List Event :=
  [.schedule, .kforkBegin true true, .kforkEnd 1, .kforkBegin true true, .kforkEnd 2,
    .kwait true, .sleep]

theorem fifo_first_come_two : ∃ k k', Run InOrderStep boot twoChildren k ∧
    Step .fifo k .schedule k' ∧ k'.myproc = some 1 ∧ ∃ p, k.proc[1]? = some p ∧
      p.state = .runnable ∧
      ∀ (i : ℕ) (q : Proc), k.proc[i]? = some q → q.state = .runnable → p.pid ≤ q.pid := by
  have h : ((twoChildren.foldlM (fun (k : Kernel) (e : Event) =>
      if e.InOrder k then step .fifo k e else none) boot).map
      fun k => (k.myproc, (step .fifo k .schedule).map Kernel.myproc)) =
      some (none, some (some 1)) := by
    decide +kernel
  obtain ⟨k, hk, hnext⟩ := Option.map_eq_some_iff.mp h
  obtain ⟨hnone, hsome⟩ := Prod.mk.inj hnext
  obtain ⟨k', hstep, hcpu⟩ := Option.map_eq_some_iff.mp hsome
  have hrun : Run InOrderStep boot twoChildren k := run_of_foldlM hk
  exact ⟨k, k', hrun, hstep, hcpu, (fifo_first_come hrun hstep).2 1 hnone hcpu⟩

/-- The first child exits and is collected, and a third one is made in its slot, all
within one tick. -/
def reuse : List Event :=
  twoChildren ++ [.schedule, .kexit 0, .schedule, .kwait true, .kforkBegin true true, .kforkEnd 1,
    .kwait true, .sleep]

/-- **A younger process overtakes an older one**: the scheduler picks the third child,
which is in the slot of the first one, before the second. -/
theorem slot_reused : ∃ k k' p q, Run (Step .fifo) boot reuse k ∧ Step .fifo k .schedule k' ∧
    k'.mode = .running 1 ∧ k.proc[1]? = some p ∧ k.proc[2]? = some q ∧
    p.state = .runnable ∧ q.state = .runnable ∧ p.pid = 4 ∧ q.pid = 3 := by
  have h : ((reuse.foldlM (step .fifo) boot).map fun k =>
      ((step .fifo k .schedule).map Kernel.mode, k.proc[1]?.map fun p => (p.state, p.pid),
        k.proc[2]?.map fun q => (q.state, q.pid))) =
      some (some (.running 1), some (.runnable, 4), some (.runnable, 3)) := by
    decide +kernel
  obtain ⟨k, hk, hall⟩ := Option.map_eq_some_iff.mp h
  simp only [Prod.mk.injEq, Option.map_eq_some_iff] at hall
  obtain ⟨⟨k', hstep, hmode⟩, ⟨p, hp, hps, hpid⟩, ⟨q, hq, hqs, hqid⟩⟩ := hall
  exact ⟨k, k', p, q, (run_iff_foldlM (step .fifo) boot k reuse).mpr hk, hstep, hmode, hp, hq,
    hps, hqs, hpid, hqid⟩

end Xv6
end RuShell
