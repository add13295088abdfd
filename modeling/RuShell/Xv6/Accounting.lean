import RuShell.Xv6.Select

/-!
# Every tick is charged once

`update_proc_time` adds one to `rtime`, `wtime` or `stime` of every process that
is running, runnable or asleep when a tick is handled.  A process is in one of
these states from the moment `kfork` makes it runnable until it becomes a zombie,
whatever the scheduler does with it in between, and a tick that wakes it up first
charges it as runnable.  So the three counters add up to the ticks in between.

The counters and the tick count are `uint`s, so all of this is modulo `2 ^ 32`.

## Main definitions

* `Proc.charged` — the sum of the three counters.
* `Charge` — what a step does to it, by the state of the process.
* `JustReady` — a process has just become runnable for the first time.
* `Account` — the parts of a run that a process was pending, active and a zombie in.

## Main results

* `SlotStep.charge` — `Charge` covers every step, under each of the schedulers.
* `ticks_of_run` — the tick counter counts the timer interrupts.
* `accounting_exact` — **the counters add up to the ticks** between the first
  time the process was runnable and its exit.
-/

namespace RuShell
namespace Xv6

open Lib

/-- The ticks charged to a process. -/
def Proc.charged (p : Proc) : ℕ := p.rtime + p.wtime + p.stime

/-- The states between the first `RUNNABLE` and `ZOMBIE`. -/
def ProcState.Active (s : ProcState) : Prop := s = .runnable ∨ s = .running ∨ s = .sleeping

/-- The timer interrupts among the events. -/
def ticksIn (es : List Event) : ℕ := es.countP Event.isTick

/-! ### What a step charges -/

/-- What the step `e` from `k` does to the state and the counters of a slot. -/
inductive Charge (k : Kernel) (e : Event) (p p' : Proc) : Prop
  /-- There is no process. -/
  | free : p.state = .unused → p'.state = .unused → Charge k e p p'
  | taken : p.state = .unused → p'.state = .used → p'.charged = 0 → Charge k e p p'
  /-- `kfork` is not done with it. -/
  | pending : p.state = .used → p'.state = .used → p'.charged = p.charged → Charge k e p p'
  | readied : p.state = .used → p'.state = .runnable → p'.charged = p.charged → Charge k e p p'
  /-- A tick is charged, and nothing else is. -/
  | charged : p.state.Active → p'.state.Active →
      p'.charged % 2 ^ 32 = (p.charged + if e.isTick then 1 else 0) % 2 ^ 32 → Charge k e p p'
  | exited : p.state.Active → p'.state = .zombie → e.isTick = false → p'.charged = p.charged →
      p'.ttime = k.ticks → Charge k e p p'
  /-- Nobody has collected it yet. -/
  | gone : p.state = .zombie → p'.state = .zombie → p'.charged = p.charged →
      p'.ttime = p.ttime → Charge k e p p'
  | reaped : p.state = .zombie → p'.state = .unused → Charge k e p p'

section

variable {pol : Policy} {k k' : Kernel} {e : Event} {i : ℕ} {p p' : Proc}

/-- A step that is not a tick and leaves the state and the counters alone. -/
theorem Charge.of_same (he : e.isTick = false) (hs : p'.state = p.state)
    (hc : p'.charged = p.charged) (ht : p'.ttime = p.ttime) : Charge k e p p' := by
  have hactive : p.state.Active → Charge k e p p' := by
    intro h
    refine .charged h (by rw [hs]; exact h) ?_
    rw [hc, he]
    rfl
  cases hst : p.state with
  | unused => exact .free hst (by rw [hs, hst])
  | used => exact .pending hst (by rw [hs, hst]) hc
  | sleeping => exact hactive (.inr (.inr hst))
  | runnable => exact hactive (.inl hst)
  | running => exact hactive (.inr (.inl hst))
  | zombie => exact .gone hst (by rw [hs, hst]) hc ht

/-- A step that is not a tick and moves an active process. -/
theorem Charge.of_moved (he : e.isTick = false) (hs : p.state.Active) (hs' : p'.state.Active)
    (hc : p'.charged = p.charged) : Charge k e p p' := by
  refine .charged hs hs' ?_
  rw [hc, he]
  rfl

variable {ticks : ℕ} {es : List Event}

theorem Charge.of_wakeProc {q : Option ℕ} {ch : Option Chan} {killed : Bool}
    (he : e.isTick = false) (hs : p.state = .sleeping)
    (hp' : p' = wakeProc pol ticks { p with parent := q, chan := ch, killed }) :
    Charge k e p p' := by
  subst hp'
  exact .of_moved he (.inr (.inr hs)) (.inl rfl) rfl

theorem updateProcTimeSlot_charged (hp : p.state.Active) :
    (updateProcTimeSlot pol ticks p).charged % 2 ^ 32 = (p.charged + 1) % 2 ^ 32 := by
  unfold updateProcTimeSlot
  rcases hp with hp | hp | hp <;>
  · rw [hp]
    simp only [Proc.charged, uintSucc]
    omega

theorem updateProcTimeSlot_of_not_active (hp : ¬ p.state.Active) :
    updateProcTimeSlot pol ticks p = p := by
  unfold updateProcTimeSlot
  split
  · exact absurd (.inr (.inl ‹_›)) hp
  · exact absurd (.inl ‹_›) hp
  · exact absurd (.inr (.inr ‹_›)) hp
  · rfl

@[simp] theorem updateProcTimeSlot_state :
    (updateProcTimeSlot pol ticks p).state = p.state := by
  unfold updateProcTimeSlot
  split <;> rfl

theorem boostSlot_frame (ticks : ℕ) (p : Proc) :
    (boostSlot ticks p).state = p.state ∧ (boostSlot ticks p).charged = p.charged ∧
      (boostSlot ticks p).ttime = p.ttime := by
  unfold boostSlot
  split <;> exact ⟨rfl, rfl, rfl⟩

/-- A tick is charged to an active process and to no other. -/
theorem tickSlot_charge (he : e.isTick = true) :
    Charge k e p (tickSlot pol ticks p) := by
  -- the slot after the wakeup of those who wait for a tick
  obtain ⟨q, hq, hstate, hcharged, httime⟩ : ∃ q, q = wakeupSlot pol ticks .ticks p ∧
      (q.state = p.state ∨ p.state = .sleeping ∧ q.state = .runnable) ∧
      q.charged = p.charged ∧ q.ttime = p.ttime := by
    refine ⟨_, rfl, ?_⟩
    obtain ⟨ch, h | ⟨hs, h⟩⟩ := wakeupSlot_cases pol ticks .ticks p <;> rw [h]
    · exact ⟨.inl rfl, rfl, rfl⟩
    · exact ⟨.inr ⟨hs, rfl⟩, rfl, rfl⟩
  -- a boost moves it between the queues only
  obtain ⟨hst, hch, htt⟩ : (tickSlot pol ticks p).state = q.state ∧
      (tickSlot pol ticks p).charged = (updateProcTimeSlot pol ticks q).charged ∧
      (tickSlot pol ticks p).ttime = (updateProcTimeSlot pol ticks q).ttime := by
    unfold tickSlot
    rw [← hq]
    simp only
    split
    · obtain ⟨h1, h2, h3⟩ := boostSlot_frame ticks (updateProcTimeSlot pol ticks q)
      exact ⟨by rw [h1, updateProcTimeSlot_state], h2, h3⟩
    · exact ⟨updateProcTimeSlot_state, rfl, rfl⟩
  by_cases hactive : q.state.Active
  · have hp : p.state.Active := by
      rcases hstate with h | ⟨h, -⟩
      · rw [← h]
        exact hactive
      · exact .inr (.inr h)
    refine .charged hp (by rw [hst]; exact hactive) ?_
    rw [hch, updateProcTimeSlot_charged hactive, hcharged, he]
    rfl
  · have hsame : q.state = p.state := by
      rcases hstate with h | ⟨-, h⟩
      · exact h
      · exact absurd (.inl h) hactive
    rw [updateProcTimeSlot_of_not_active hactive, hcharged] at hch
    rw [updateProcTimeSlot_of_not_active hactive, httime] at htt
    rw [hsame] at hst hactive
    cases hps : p.state with
    | unused => exact .free hps (by rw [hst, hps])
    | used => exact .pending hps (by rw [hst, hps]) hch
    | zombie => exact .gone hps (by rw [hst, hps]) hch htt
    | sleeping => exact absurd (.inr (.inr hps)) hactive
    | runnable => exact absurd (.inl hps) hactive
    | running => exact absurd (.inr (.inl hps)) hactive

/-- The process that loses the CPU at a tick has been charged for it. -/
theorem Charge.of_yield {q : Proc} (he : e.isTick = true) (hq : q = tickSlot pol ticks p)
    (hrun : p.state = .running) (hs : p'.state = .runnable) (hc : p'.charged = q.charged) :
    Charge k e p p' := by
  have h : Charge k e p (tickSlot pol ticks p) := tickSlot_charge he
  cases h with
  | charged hp _ hcharged => exact .charged hp (.inl hs) (by rw [hc, hq]; exact hcharged)
  | exited _ _ hne => rw [he] at hne; cases hne
  | free h | taken h | pending h | readied h | gone h | reaped h => rw [hrun] at h; cases h

theorem SlotStep.charge (h : SlotStep pol k e k' i p p') (hp : k.proc[i]? = some p)
    (hown : p.state = .running ↔ k.myproc = some i) : Charge k e p p' := by
  have hrunning : k.mode = .running i → p.state = .running :=
    fun hk => hown.mpr (myproc_of_running hk)
  cases h with
  | kept he _ | prepared c he _ _ | faulted he _ _ => exact .of_same he rfl rfl rfl
  | dispatched start he _ hsel _ =>
    exact .of_moved he (.inl (runnable_of_select hsel hp)) (.inr (.inl rfl)) rfl
  | ticked he _ _ => exact tickSlot_charge he
  | tickedKilled he _ _ _ => exact tickSlot_charge (he ▸ rfl)
  | tickedOn he hq _ _ _ _ _ => exact hq ▸ tickSlot_charge he
  | demoted he hq hk _ _ _ _ _ | preempted he hq hk _ _ _ _ _ _ | rotated he hq hk _ _ _ =>
    exact .of_yield he hq (hrunning hk) rfl rfl
  | notified q cs he _ =>
    obtain ⟨ch, h | ⟨hs, h⟩⟩ := notify_cases pol k.ticks cs { p with parent := q }
    · rw [h]
      exact .of_same he rfl rfl rfl
    · exact .of_wakeProc he hs h
  | slept he hcpu _ _ =>
    exact .of_moved (he ▸ rfl) (.inr (.inl (hown.mpr hcpu))) (.inr (.inr rfl)) rfl
  | allocated j _ hu _ => exact .taken hu rfl rfl
  | refused _ hu _ => exact .free hu rfl
  | readied _ hu _ => exact .readied hu rfl rfl
  | exited q cs status he hcpu _ =>
    refine .exited (.inr (.inl (hown.mpr hcpu))) rfl (he ▸ rfl) ?_ rfl
    obtain ⟨ch, h | ⟨_, h⟩⟩ := notify_cases pol k.ticks cs { p with parent := q } <;> rw [h] <;> rfl
  | reaped _ hz _ => exact .reaped hz rfl
  | targeted he _ =>
    unfold kkillSlot
    simp only
    split
    · rename_i hs
      exact .of_wakeProc he hs rfl
    · exact .of_same he rfl rfl rfl

/-! ### Runs -/

/-- The tick counter counts the timer interrupts. -/
theorem ticks_of_run (h : Run (Step pol) k es k') :
    k'.ticks % 2 ^ 32 = (k.ticks + ticksIn es) % 2 ^ 32 := by
  induction h with
  | nil k => rfl
  | cons hstep _ ih =>
    rw [ih, (step_frame hstep).2, ticksIn, ticksIn, List.countP_cons]
    split
    · unfold uintSucc
      omega
    · rfl

/-- After the events `es` the process in slot `i` has just become runnable for the
first time: it is the one of `userinit`, or `kfork` was not done with it before. -/
def JustReady (pol : Policy) (es : List Event) (i : ℕ) (k : Kernel) : Prop :=
  Run (Step pol) boot es k ∧ (∃ p, k.proc[i]? = some p ∧ p.state = .runnable) ∧
    (es = [] ∨ ∃ es₀ e k₀ p₀, es = es₀ ++ [e] ∧ Run (Step pol) boot es₀ k₀ ∧ Step pol k₀ e k ∧
      k₀.proc[i]? = some p₀ ∧ p₀.state = .used)

/-- The steps that are taken while the slot `i` is in certain states. -/
def StepIn (pol : Policy) (i : ℕ) (S : ProcState → Prop) (k : Kernel) (e : Event)
    (k' : Kernel) : Prop :=
  Step pol k e k' ∧ ∃ p, k.proc[i]? = some p ∧ S p.state

/-- The life of the process `p` in slot `i` of `k`: it became runnable in `k₁`, after
`es₁`; it was active during `es₂`; and if it has exited it did so when `k₂` was
reached and has been a zombie during `es₃`. -/
structure Account (pol : Policy) (i : ℕ) (es₁ : List Event) (k₁ : Kernel) (es₂ : List Event)
    (k₂ : Kernel) (es₃ : List Event) (k : Kernel) (p : Proc) : Prop where
  ready : JustReady pol es₁ i k₁
  active : Run (StepIn pol i ProcState.Active) k₁ es₂ k₂
  zombie : Run (StepIn pol i (· = .zombie)) k₂ es₃ k
  not_exited : p.state ≠ .zombie → es₃ = []
  exited : p.state = .zombie → p.ttime = k₂.ticks
  /-- Every tick in between is charged once. -/
  charged : p.charged % 2 ^ 32 = ticksIn es₂ % 2 ^ 32

/-- What the counters of a slot say after the events `es`. -/
structure Accounted (pol : Policy) (es : List Event) (k : Kernel) (i : ℕ) (p : Proc) : Prop where
  pending : p.state = .used → p.charged = 0
  started : p.state ≠ .unused → p.state ≠ .used →
    ∃ es₁ k₁ es₂ k₂ es₃, es = es₁ ++ es₂ ++ es₃ ∧ Account pol i es₁ k₁ es₂ k₂ es₃ k p

theorem ProcState.Active.ne {s : ProcState} (h : s.Active) :
    s ≠ .unused ∧ s ≠ .used ∧ s ≠ .zombie := by
  rcases h with rfl | rfl | rfl <;> decide

theorem Accounted.of_unused (hs : p.state = .unused) :
    Accounted pol es k i p :=
  ⟨fun h => (by rw [hs] at h; cases h), fun h => absurd hs h⟩

theorem Accounted.of_used (hs : p.state = .used) (hc : p.charged = 0) :
    Accounted pol es k i p :=
  ⟨fun _ => hc, fun _ h => absurd hs h⟩

/-- A process that has not been a zombie during any event. -/
theorem Accounted.of_active {es₁ es₂ : List Event} {k₁ : Kernel} (hs : p.state ≠ .used)
    (hready : JustReady pol es₁ i k₁) (hactive : Run (StepIn pol i ProcState.Active) k₁ es₂ k)
    (hexited : p.state = .zombie → p.ttime = k.ticks)
    (hcharged : p.charged % 2 ^ 32 = ticksIn es₂ % 2 ^ 32) :
    Accounted pol (es₁ ++ es₂) k i p :=
  ⟨fun h => absurd h hs, fun _ _ => ⟨es₁, k₁, es₂, k, [], (List.append_nil _).symm,
    ⟨hready, hactive, .nil k, fun _ => rfl, hexited, hcharged⟩⟩⟩

/-- A process that has just become runnable. -/
theorem Accounted.of_justReady (h : JustReady pol es i k) (hs : p.state = .runnable)
    (hc : p.charged = 0) : Accounted pol es k i p := by
  rw [← List.append_nil es]
  apply Accounted.of_active (by rw [hs]; decide) h (.nil k)
  · intro hz
    rw [hs] at hz
    cases hz
  · rw [hc]
    rfl

/-- A process that is still active has spent all of its life in `es₂`. -/
theorem Accounted.life (h : Accounted pol es k i p) (hactive : p.state.Active) :
    ∃ es₁ k₁ es₂, es = es₁ ++ es₂ ∧ JustReady pol es₁ i k₁ ∧
      Run (StepIn pol i ProcState.Active) k₁ es₂ k ∧
      p.charged % 2 ^ 32 = ticksIn es₂ % 2 ^ 32 := by
  obtain ⟨hu, hused, hz⟩ := hactive.ne
  obtain ⟨es₁, k₁, es₂, k₂, es₃, rfl, hacc⟩ := h.started hu hused
  have hnil := hacc.not_exited hz
  subst hnil
  have hzombie := hacc.zombie
  cases hzombie
  exact ⟨es₁, k₁, es₂, List.append_nil _, hacc.ready, hacc.active, hacc.charged⟩

theorem ticksIn_concat (es : List Event) (e : Event) :
    ticksIn (es ++ [e]) = ticksIn es + if e.isTick then 1 else 0 := by
  rw [ticksIn, ticksIn, List.countP_append, List.countP_singleton]

/-- One more step, by the state of the process. -/
theorem Accounted.step (h : Accounted pol es k i p) (hrun : Run (Step pol) boot es k)
    (hstep : Step pol k e k') (hp : k.proc[i]? = some p) (hp' : k'.proc[i]? = some p')
    (hcharge : Charge k e p p') :
    Accounted pol (es ++ [e]) k' i p' := by
  cases hcharge with
  | free _ hs' | reaped _ hs' => exact .of_unused hs'
  | taken _ hs' hc => exact .of_used hs' hc
  | pending hs hs' hc => exact .of_used hs' (by rw [hc, h.pending hs])
  | readied hs hs' hc =>
    have hready : JustReady pol (es ++ [e]) i k' :=
      ⟨hrun.append (.single hstep), ⟨p', hp', hs'⟩, .inr ⟨es, e, k, p, rfl, hrun, hstep, hp, hs⟩⟩
    exact .of_justReady hready hs' (by rw [hc, h.pending hs])
  | charged hs hs' hc =>
    obtain ⟨es₁, k₁, es₂, rfl, hready, hactive, hcharged⟩ := h.life hs
    rw [List.append_assoc]
    apply Accounted.of_active hs'.ne.2.1 hready (hactive.append (.single ⟨hstep, p, hp, hs⟩))
    · exact fun hz => absurd hz hs'.ne.2.2
    · rw [hc, ticksIn_concat, Nat.add_mod, hcharged, ← Nat.add_mod]
  | exited hs hs' he hc ht =>
    obtain ⟨es₁, k₁, es₂, rfl, hready, hactive, hcharged⟩ := h.life hs
    have hne : p'.state ≠ .used := by
      rw [hs']
      decide
    rw [List.append_assoc]
    apply Accounted.of_active hne hready (hactive.append (.single ⟨hstep, p, hp, hs⟩))
    · intro _
      -- `kexit` is not a tick
      rw [ht, (step_frame hstep).2, he]
      rfl
    · rw [hc, hcharged, ticksIn_concat, he]
      rfl
  | gone hs hs' hc ht =>
    obtain ⟨es₁, k₁, es₂, k₂, es₃, rfl, hacc⟩ :=
      h.started (by rw [hs]; decide) (by rw [hs]; decide)
    have hzombie := hacc.zombie.append (.single ⟨hstep, p, hp, hs⟩)
    constructor
    · intro h
      rw [hs'] at h
      cases h
    · intro _ _
      refine ⟨es₁, k₁, es₂, k₂, es₃ ++ [e], List.append_assoc _ _ _, hacc.ready, hacc.active,
        hzombie, fun hz => absurd hs' hz, fun _ => ?_, ?_⟩
      · rw [ht, hacc.exited hs]
      · rw [hc, hacc.charged]

theorem boot_accounted (hp : boot.proc[i]? = some p) : Accounted pol [] boot i p := by
  rcases boot_proc hp with ⟨-, rfl⟩ | rfl
  · exact .of_justReady ⟨.nil boot, ⟨_, hp, rfl⟩, .inl rfl⟩ rfl rfl
  · exact .of_unused rfl

theorem accounted_of_run (hrun : Run (Step pol) boot es k) (hp : k.proc[i]? = some p) :
    Accounted pol es k i p := by
  have hall : Owned k ∧ ∀ i p, k.proc[i]? = some p → Accounted pol es k i p := by
    refine hrun.induction_last (I := fun es k => Owned k ∧ ∀ i p, k.proc[i]? = some p →
      Accounted pol es k i p) ⟨boot_owned, fun i p hp => boot_accounted hp⟩ ?_
    intro es k e k' hrun ⟨hown, hacc⟩ hstep
    refine ⟨step_owned hstep hown, fun i p' hp' => ?_⟩
    obtain ⟨p, hp, hslot⟩ := step_slot_back hstep hp'
    exact (hacc i p hp).step hrun hstep hp hp' (hslot.charge hp (hown i p hp))
  exact hall.2 i p hp

/-- **Tick accounting is exact**, under each of the schedulers.  In every run, at every
moment until a process is freed, its counters add up to the ticks that were handled
while it was active, none before it is runnable for the first time; and when it is
collected, to the difference between the tick counts of its exit and of the moment
in which it became runnable. -/
theorem accounting_exact (hrun : Run (Step pol) boot es k) (hp : k.proc[i]? = some p)
    (hunused : p.state ≠ .unused) :
    (p.state = .used ∧ p.charged = 0) ∨
    ∃ es₁ k₁ es₂ k₂ es₃, es = es₁ ++ es₂ ++ es₃ ∧ Account pol i es₁ k₁ es₂ k₂ es₃ k p ∧
      (p.state = .zombie → (p.charged : ℤ) ≡ p.ttime - k₁.ticks [ZMOD 2 ^ 32]) := by
  have hacc := accounted_of_run hrun hp
  by_cases hused : p.state = .used
  · exact .inl ⟨hused, hacc.pending hused⟩
  · obtain ⟨es₁, k₁, es₂, k₂, es₃, hes, hlife⟩ := hacc.started hunused hused
    refine .inr ⟨es₁, k₁, es₂, k₂, es₃, hes, hlife, fun hz => ?_⟩
    -- the counter moved from `k₁` to `k₂` by the ticks that were charged
    have hticks := ticks_of_run (hlife.active.mono fun _ _ _ h => h.1)
    have hcharged := hlife.charged
    rw [hlife.exited hz]
    unfold Int.ModEq
    omega

/-- A child that waits for one tick, runs, exits and is not collected for another one. -/
def shortLife : List Event :=
  [.schedule, .kforkBegin true true, .kforkEnd 1, .tick true, .schedule, .kexit 0, .tick false]

theorem accounting_exact_child : ∃ k p, k.proc[1]? = some p ∧ p.state = .zombie ∧
    ((p.state = .used ∧ p.charged = 0) ∨
    ∃ es₁ k₁ es₂ k₂ es₃, shortLife = es₁ ++ es₂ ++ es₃ ∧
      Account .mlfq 1 es₁ k₁ es₂ k₂ es₃ k p ∧
      (p.state = .zombie → (p.charged : ℤ) ≡ p.ttime - k₁.ticks [ZMOD 2 ^ 32])) := by
  have hlife : ((shortLife.foldlM (step .mlfq) boot).bind (·.proc[1]?)).map Proc.state =
      some .zombie := by
    decide +kernel
  obtain ⟨p, hbind, hs⟩ := Option.map_eq_some_iff.mp hlife
  obtain ⟨k, hk, hp⟩ := Option.bind_eq_some_iff.mp hbind
  have hrun := (run_iff_foldlM (step .mlfq) boot k shortLife).mpr hk
  exact ⟨k, p, hp, hs, accounting_exact hrun hp (by rw [hs]; decide)⟩

end

end Xv6
end RuShell
