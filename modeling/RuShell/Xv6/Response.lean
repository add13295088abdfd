import RuShell.Xv6.Accounting
import RuShell.Xv6.Waitx

/-!
# The response time that `waitx` reports

`report.md` calls `first_run_time - ctime` the response time.  `first_run_time` is not set
where the scheduler switches to a process, but by `update_proc_time` at the first tick that
finds the process running.  That tick comes after the dispatch, so the sample is late by at
least one; a process that no tick finds running has no sample, and `kwaitx` reports 0.

What really happened to a process is kept beside the kernel, in `Marks`.  No step depends
on them.

## Main definitions

* `Marks` — the tick counts of the first dispatch and of the first tick that found the
  process running.
* `Watched` — the steps of the kernel with the marks of one slot.
* `Noted` — what a step does to the fields that `kwaitx` computes the response time from.
* `waitxResp` — the value that the caller of `kwaitx` finds.

## Main results

* `SlotStep.noted` — `Noted` covers every step, under each of the schedulers.
* `sampled_of_run` — the fields against the marks, in every run.
* `waitx_resp_true` — the reported value is the true one **exactly if** the process was
  dispatched in the tick of its creation and no tick found it running.
-/

namespace RuShell
namespace Xv6

open Lib

/-! ### What really happened -/

/-- The history of the process in a slot. -/
structure Marks where
  /-- The tick count when `scheduler` first switched to it. -/
  dispatched : Option ℕ := none
  /-- The tick count after the first tick that found it running. -/
  sampled : Option ℕ := none
  deriving DecidableEq, Repr

/-- Has the slot a process? -/
def Kernel.inUse (k : Kernel) (j : ℕ) : Bool := (k.proc[j]?.map Proc.state).getD .unused ≠ .unused

/-- The marks of slot `j` after the step `e` from `k` to `k'`. -/
def Marks.next (j : ℕ) (k : Kernel) (e : Event) (k' : Kernel) (m : Marks) : Marks :=
  if k'.inUse j then
    { dispatched :=
        if e = .schedule ∧ k'.mode = .running j then m.dispatched.or (some k.ticks)
        else m.dispatched
      sampled :=
        if e.isTick ∧ k.myproc = some j then m.sampled.or (some k'.ticks) else m.sampled }
  else {}

/-- The steps of the kernel, with the marks of slot `j`. -/
def Watched (pol : Policy) (j : ℕ) (s : Kernel × Marks) (e : Event) (s' : Kernel × Marks) : Prop :=
  Step pol s.1 e s'.1 ∧ s'.2 = s.2.next j s.1 e s'.1

/-- The same as a function. -/
def watch (pol : Policy) (j : ℕ) (s : Kernel × Marks) (e : Event) : Option (Kernel × Marks) :=
  (step pol s.1 e).map fun k' => (k', s.2.next j s.1 e k')

section

variable {pol : Policy} {k k' : Kernel} {e : Event} {i j ticks : ℕ} {p p' : Proc} {m : Marks}
  {es : List Event} {s : Kernel × Marks}

theorem watched_of_watch {s' : Kernel × Marks} (h : watch pol j s e = some s') :
    Watched pol j s e s' := by
  obtain ⟨k', hk', rfl⟩ := Option.map_eq_some_iff.mp h
  exact ⟨hk', rfl⟩

theorem inUse_iff (hp : k.proc[j]? = some p) : k.inUse j = true ↔ p.state ≠ .unused := by
  simp [Kernel.inUse, hp]

/-! ### What a step does to the sample -/

/-- The states of a process that has not had the CPU. -/
def ProcState.Fresh (s : ProcState) : Prop := s = .unused ∨ s = .used ∨ s = .runnable

theorem ProcState.Fresh.ne_running {s : ProcState} (h : s.Fresh) : s ≠ .running := by
  rintro rfl
  rcases h with h | h | h <;> cases h

/-- The fields of the response time are as they were. -/
structure SameSample (p p' : Proc) : Prop where
  ctime : p'.ctime = p.ctime
  hasRun : p'.hasRun = p.hasRun
  firstRunTime : p'.firstRunTime = p.firstRunTime

theorem SameSample.trans {q : Proc} (h : SameSample p q) (h' : SameSample q p') :
    SameSample p p' :=
  ⟨h'.ctime.trans h.ctime, h'.hasRun.trans h.hasRun, h'.firstRunTime.trans h.firstRunTime⟩

/-- What the step `e` from `k` to `k'` does to the state and the sample of slot `j`. -/
inductive Noted (k : Kernel) (e : Event) (k' : Kernel) (j : ℕ) (p p' : Proc) : Prop
  /-- There is no process any more. -/
  | freed : p'.state = .unused → p'.hasRun = false → p'.ctime = 0 → Noted k e k' j p p'
  | allocated : p.state = .unused → p'.state = .used → p'.hasRun = false → p'.ctime = k.ticks →
      ¬ (e = .schedule ∧ k'.mode = .running j) → e.isTick = false → Noted k e k' j p p'
  | dispatched : e = .schedule → k'.mode = .running j → p'.state = .running →
      SameSample p p' → Noted k e k' j p p'
  /-- A tick finds it running. -/
  | sampled : e.isTick = true → k.myproc = some j → p.state = .running → p'.state ≠ .unused →
      p'.hasRun = true → p'.firstRunTime = (if p.hasRun then p.firstRunTime else k'.ticks) →
      p'.ctime = p.ctime → Noted k e k' j p p'
  /-- Nothing else is noted. -/
  | kept : ¬ (e = .schedule ∧ k'.mode = .running j) → ¬ (e.isTick ∧ k.myproc = some j) →
      (p.state.Fresh → p'.state.Fresh) → (p'.state = .unused ↔ p.state = .unused) →
      SameSample p p' → Noted k e k' j p p'

/-- The scheduler runs while there is no process on the CPU. -/
theorem myproc_of_schedule (h : step pol k .schedule = some k') : k.myproc = none := by
  cases step_cases h with
  | schedule hk => rw [Kernel.myproc, hk]

/-- Only the scheduler gives the CPU away. -/
theorem schedule_of_running {start : ℕ} (h : step pol k e = some k')
    (hk : k.mode = .scheduler start) (hk' : k'.mode = .running j) : e = .schedule := by
  rcases step_cpu h with hm | hm | ⟨_, _, _, he, -⟩ | ⟨_, hm, -⟩
  · rw [hm, hk] at hk'
    cases hk'
  · rw [myproc_of_running hk'] at hm
    cases hm
  · exact he
  · rw [hk] at hm
    cases hm

theorem wakeupSlot_sample (pol : Policy) (ticks : ℕ) (c : Chan) (p : Proc) :
    ((wakeupSlot pol ticks c p).state = .running ↔ p.state = .running) ∧
      SameSample p (wakeupSlot pol ticks c p) := by
  obtain ⟨ch, h | ⟨hs, h⟩⟩ := wakeupSlot_cases pol ticks c p <;> rw [h]
  · exact ⟨Iff.rfl, rfl, rfl, rfl⟩
  · refine ⟨⟨fun hrun => ?_, fun hrun => ?_⟩, rfl, rfl, rfl⟩
    · cases hrun
    · rw [hrun] at hs
      cases hs

/-- A boost moves a process between the queues only. -/
theorem boostSlot_sample (ticks : ℕ) (p : Proc) : SameSample p (boostSlot ticks p) := by
  unfold boostSlot
  split <;> exact ⟨rfl, rfl, rfl⟩

/-- `update_proc_time` gives a sample to a running process that has none, and to no other. -/
theorem updateProcTimeSlot_sample (pol : Policy) (ticks : ℕ) (p : Proc) :
    (updateProcTimeSlot pol ticks p).ctime = p.ctime ∧
    (p.state = .running → (updateProcTimeSlot pol ticks p).hasRun = true ∧
      (updateProcTimeSlot pol ticks p).firstRunTime = if p.hasRun then p.firstRunTime else ticks) ∧
    (p.state ≠ .running → SameSample p (updateProcTimeSlot pol ticks p)) := by
  refine ⟨?_, ?_, ?_⟩
  · unfold updateProcTimeSlot
    split <;> rfl
  · intro hrun
    unfold updateProcTimeSlot
    rw [hrun]
    exact ⟨rfl, rfl⟩
  · intro hne
    unfold updateProcTimeSlot
    split
    · exact absurd ‹_› hne
    all_goals exact ⟨rfl, rfl, rfl⟩

/-- The same for a whole tick. -/
theorem tickSlot_sample (pol : Policy) (ticks : ℕ) (p : Proc) :
    (tickSlot pol ticks p).ctime = p.ctime ∧
    (p.state = .running → (tickSlot pol ticks p).hasRun = true ∧
      (tickSlot pol ticks p).firstRunTime = if p.hasRun then p.firstRunTime else ticks) ∧
    (p.state ≠ .running → SameSample p (tickSlot pol ticks p)) := by
  obtain ⟨hstate, hwoken⟩ := wakeupSlot_sample pol ticks .ticks p
  obtain ⟨hctime, hrunning, hother⟩ :=
    updateProcTimeSlot_sample pol ticks (wakeupSlot pol ticks .ticks p)
  have hend : SameSample (updateProcTimeSlot pol ticks (wakeupSlot pol ticks .ticks p))
      (tickSlot pol ticks p) := by
    unfold tickSlot
    simp only
    split
    · exact boostSlot_sample _ _
    · exact ⟨rfl, rfl, rfl⟩
  refine ⟨by rw [hend.ctime, hctime, hwoken.ctime], ?_, ?_⟩
  · intro hrun
    obtain ⟨hhas, hfirst⟩ := hrunning (hstate.mpr hrun)
    rw [hend.hasRun, hend.firstRunTime, hhas, hfirst, hwoken.hasRun, hwoken.firstRunTime]
    exact ⟨rfl, rfl⟩
  · intro hne
    exact hwoken.trans ((hother fun hrun => hne (hstate.mp hrun)).trans hend)

theorem tickSlot_state (pol : Policy) (ticks : ℕ) (p : Proc) :
    (tickSlot pol ticks p).state = p.state ∨
      p.state = .sleeping ∧ (tickSlot pol ticks p).state = .runnable := by
  have hend : (tickSlot pol ticks p).state = (wakeupSlot pol ticks .ticks p).state := by
    unfold tickSlot
    simp only
    split
    · rw [(boostSlot_frame _ _).1, updateProcTimeSlot_state]
    · rw [updateProcTimeSlot_state]
  rw [hend]
  obtain ⟨ch, h | ⟨hs, h⟩⟩ := wakeupSlot_cases pol ticks .ticks p <;> rw [h]
  · exact .inl rfl
  · exact .inr ⟨hs, rfl⟩

/-- A step that leaves the slot, or wakes it up. -/
theorem Noted.of_woken (hcpu : ¬ (e = .schedule ∧ k'.mode = .running j))
    (htick : ¬ (e.isTick ∧ k.myproc = some j))
    (hstate : p'.state = p.state ∨ p.state = .sleeping ∧ p'.state = .runnable)
    (hsame : SameSample p p') : Noted k e k' j p p' := by
  refine .kept hcpu htick (fun hfresh => ?_) ?_ hsame
  · rcases hstate with h | ⟨-, h⟩
    · rw [h]
      exact hfresh
    · exact .inr (.inr h)
  · rcases hstate with h | ⟨hs, h⟩
    · rw [h]
    · rw [hs, h]
      decide

/-- The process on the CPU gives it up. -/
theorem Noted.of_left (hcpu : ¬ (e = .schedule ∧ k'.mode = .running j))
    (htick : ¬ (e.isTick ∧ k.myproc = some j)) (hrun : p.state = .running)
    (hs : p'.state ≠ .unused) (hsame : SameSample p p') : Noted k e k' j p p' := by
  refine .kept hcpu htick (fun hfresh => absurd hrun hfresh.ne_running) ?_ hsame
  rw [hrun]
  exact ⟨fun h => absurd h hs, ProcState.noConfusion⟩

/-- The process on the CPU at a tick. -/
theorem Noted.of_tick (he : e.isTick = true) (hcpu : k.myproc = some j)
    (hrun : p.state = .running) (ht : k'.ticks = uintSucc k.ticks) (hs : p'.state ≠ .unused)
    (hsame : SameSample (tickSlot pol (uintSucc k.ticks) p) p') : Noted k e k' j p p' := by
  obtain ⟨hctime, hsample, -⟩ := tickSlot_sample pol (uintSucc k.ticks) p
  refine .sampled he hcpu hrun hs ?_ ?_ ?_
  · rw [hsame.hasRun, (hsample hrun).1]
  · rw [hsame.firstRunTime, (hsample hrun).2, ht]
  · rw [hsame.ctime, hctime]

/-- **`Noted` covers every step.** -/
theorem SlotStep.noted (h : SlotStep pol k e k' j p p') (hstep : step pol k e = some k')
    (hown : p.state = .running ↔ k.myproc = some j) : Noted k e k' j p p' := by
  have hrunning : k.mode = .running j → p.state = .running :=
    fun hk => hown.mpr (myproc_of_running hk)
  have hticks : e.isTick = true → k'.ticks = uintSucc k.ticks := by
    intro he
    rw [(step_frame hstep).2, if_pos he]
  -- a tick is not a dispatch, nor is a step in which nobody gets the CPU
  have hother : (k'.myproc = some j → k.myproc = some j) →
      ¬ (e = .schedule ∧ k'.mode = .running j) := by
    rintro hcpu ⟨rfl, hk'⟩
    have hnone := myproc_of_schedule hstep
    rw [hcpu (myproc_of_running hk')] at hnone
    cases hnone
  have hnotick : e.isTick = false → ¬ (e.isTick ∧ k.myproc = some j) := by
    rintro he ⟨he', -⟩
    rw [he] at he'
    cases he'
  have hlive : p.state = .running → (tickSlot pol (uintSucc k.ticks) p).state ≠ .unused := by
    intro hrun
    rw [(tickSlot_running_iff pol _ p).mpr hrun]
    decide
  cases h with
  | kept he hcpu => exact .of_woken (hother hcpu.mp) (hnotick he) (.inl rfl) ⟨rfl, rfl, rfl⟩
  | dispatched start _ hk _ hk' =>
    exact .dispatched (schedule_of_running hstep hk hk') hk' rfl ⟨rfl, rfl, rfl⟩
  | ticked he hcpu hcpu' =>
    have hne : p.state ≠ .running := fun hrun => hcpu (hown.mp hrun)
    exact .of_woken (hother fun h => absurd h hcpu') (fun h => hcpu h.2) (tickSlot_state _ _ _)
      ((tickSlot_sample pol _ p).2.2 hne)
  | tickedKilled he hk _ _ =>
    have htick : e.isTick = true := he ▸ rfl
    exact .of_tick htick (myproc_of_running hk) (hrunning hk) (hticks htick) (hlive (hrunning hk))
      ⟨rfl, rfl, rfl⟩
  | tickedOn he hq hk _ _ _ _ =>
    subst hq
    exact .of_tick he (myproc_of_running hk) (hrunning hk) (hticks he) (hlive (hrunning hk))
      ⟨rfl, rfl, rfl⟩
  | demoted he hq hk _ _ _ _ _ | preempted he hq hk _ _ _ _ _ _ | rotated he hq hk _ _ _ =>
    subst hq
    exact .of_tick he (myproc_of_running hk) (hrunning hk) (hticks he) ProcState.noConfusion
      ⟨rfl, rfl, rfl⟩
  | notified q cs he hcpu =>
    obtain ⟨ch, h | ⟨hs, h⟩⟩ := notify_cases pol k.ticks cs { p with parent := q } <;> rw [h]
    · exact .of_woken (hother hcpu.mp) (hnotick he) (.inl rfl) ⟨rfl, rfl, rfl⟩
    · exact .of_woken (hother hcpu.mp) (hnotick he) (.inr ⟨hs, rfl⟩) ⟨rfl, rfl, rfl⟩
  | prepared c he hcpu _ | faulted he hcpu _ =>
    exact .of_woken (hother fun _ => hcpu) (hnotick he) (.inl rfl) ⟨rfl, rfl, rfl⟩
  | slept he hcpu hcpu' _ =>
    exact .of_left (hother fun _ => hcpu) (hnotick (he ▸ rfl)) (hown.mpr hcpu)
      ProcState.noConfusion ⟨rfl, rfl, rfl⟩
  | allocated l he hu hcpu =>
    refine .allocated hu rfl rfl rfl (hother hcpu.mp) he
  | refused _ _ _ | reaped _ _ _ => exact .freed rfl rfl rfl
  | readied he hu hcpu =>
    refine .kept (hother hcpu.mp) (hnotick he) (fun _ => .inr (.inr rfl)) ?_ ⟨rfl, rfl, rfl⟩
    rw [hu]
    exact ⟨ProcState.noConfusion, ProcState.noConfusion⟩
  | exited q cs status he hcpu hcpu' =>
    refine .of_left (hother fun _ => hcpu) (hnotick (he ▸ rfl)) (hown.mpr hcpu)
      ProcState.noConfusion ?_
    obtain ⟨ch, h | ⟨_, h⟩⟩ := notify_cases pol k.ticks cs { p with parent := q } <;> rw [h] <;>
      exact ⟨rfl, rfl, rfl⟩
  | targeted he hcpu =>
    unfold kkillSlot
    simp only
    split
    · rename_i hs
      exact .of_woken (hother hcpu.mp) (hnotick he) (.inr ⟨hs, rfl⟩) ⟨rfl, rfl, rfl⟩
    · exact .of_woken (hother hcpu.mp) (hnotick he) (.inl rfl) ⟨rfl, rfl, rfl⟩

/-! ### The fields against the marks -/

/-- The sample of a process is what really happened at the ticks. -/
structure Sampled (m : Marks) (p : Proc) : Prop where
  free : p.state = .unused → m = {}
  fresh : m.dispatched = none → p.state.Fresh
  hasRun : p.hasRun = m.sampled.isSome
  firstRunTime : ∀ f, m.sampled = some f → p.firstRunTime = f

/-- The order of things, as long as the tick counter does not wrap around. -/
structure InOrder (ticks : ℕ) (m : Marks) (p : Proc) : Prop where
  created : p.ctime ≤ ticks
  dispatched : ∀ d, m.dispatched = some d → p.ctime ≤ d ∧ d ≤ ticks
  sampled : ∀ f, m.sampled = some f → ∃ d, m.dispatched = some d ∧ d < f ∧ f ≤ ticks

/-- A process without a history. -/
theorem sampled_empty (hfresh : p.state.Fresh) (hrun : p.hasRun = false) : Sampled {} p := by
  refine ⟨fun _ => rfl, fun _ => hfresh, hrun, fun f hf => ?_⟩
  cases hf

theorem inOrder_empty (hctime : p.ctime ≤ ticks) : InOrder ticks {} p := by
  refine ⟨hctime, fun d hd => ?_, fun f hf => ?_⟩
  · cases hd
  · cases hf

theorem Marks.next_of_unused (hp' : k'.proc[j]? = some p') (hu : p'.state = .unused) :
    m.next j k e k' = {} := by
  have hfree : ¬ k'.inUse j = true := fun h => (inUse_iff hp').mp h hu
  rw [Marks.next, if_neg hfree]

/-- A step that neither gives the CPU to the process nor interrupts it. -/
theorem Marks.next_of_kept (hp' : k'.proc[j]? = some p')
    (hcpu : ¬ (e = .schedule ∧ k'.mode = .running j)) (htick : ¬ (e.isTick ∧ k.myproc = some j))
    (hfree : p'.state = .unused → m = {}) : m.next j k e k' = m := by
  by_cases hu : p'.state = .unused
  · rw [Marks.next_of_unused hp' hu, hfree hu]
  · rw [Marks.next, if_pos ((inUse_iff hp').mpr hu), if_neg hcpu, if_neg htick]

/-- A process is created where there was none. -/
theorem Marks.next_of_allocated (hp' : k'.proc[j]? = some p')
    (hcpu : ¬ (e = .schedule ∧ k'.mode = .running j)) (he : e.isTick = false) (hm : m = {}) :
    m.next j k e k' = {} := by
  have htick : ¬ (e.isTick ∧ k.myproc = some j) := by
    rintro ⟨he', -⟩
    rw [he] at he'
    cases he'
  rw [Marks.next_of_kept hp' hcpu htick fun _ => hm, hm]

theorem Marks.next_of_dispatched (hp' : k'.proc[j]? = some p') (hrun : p'.state = .running)
    (he : e = .schedule) (hk' : k'.mode = .running j) :
    m.next j k e k' = { m with dispatched := m.dispatched.or (some k.ticks) } := by
  have hu : p'.state ≠ .unused := by
    rw [hrun]
    decide
  have htick : ¬ (e.isTick ∧ k.myproc = some j) := by
    rintro ⟨ht, -⟩
    rw [he] at ht
    cases ht
  rw [Marks.next, if_pos ((inUse_iff hp').mpr hu), if_pos ⟨he, hk'⟩, if_neg htick]

theorem Marks.next_of_tick (hp' : k'.proc[j]? = some p') (hu : p'.state ≠ .unused)
    (he : e.isTick = true) (hcpu : k.myproc = some j) :
    m.next j k e k' = { m with sampled := m.sampled.or (some k'.ticks) } := by
  have hne : ¬ (e = .schedule ∧ k'.mode = .running j) := by
    rintro ⟨rfl, -⟩
    cases he
  rw [Marks.next, if_pos ((inUse_iff hp').mpr hu), if_neg hne, if_pos ⟨he, hcpu⟩]

/-- One step. -/
theorem Sampled.step (h : Sampled m p) (hp' : k'.proc[j]? = some p')
    (hnoted : Noted k e k' j p p') : Sampled (m.next j k e k') p' := by
  cases hnoted with
  | freed hs' hrun' _ =>
    rw [Marks.next_of_unused hp' hs']
    exact sampled_empty (.inl hs') hrun'
  | allocated hs hs' hrun' _ hcpu he =>
    rw [Marks.next_of_allocated hp' hcpu he (h.free hs)]
    exact sampled_empty (.inr (.inl hs')) hrun'
  | dispatched he hk' hs' hsame =>
    rw [Marks.next_of_dispatched hp' hs' he hk']
    refine ⟨fun hu => ?_, fun hnone => ?_, hsame.hasRun.trans h.hasRun, fun f hf => ?_⟩
    · rw [hs'] at hu
      cases hu
    · cases hm : m.dispatched <;> rw [hm] at hnone <;> cases hnone
    · rw [hsame.firstRunTime, h.firstRunTime f hf]
  | sampled he hcpu hs hs' hrun' hfirst _ =>
    rw [Marks.next_of_tick hp' hs' he hcpu]
    refine ⟨fun hu => absurd hu hs', fun hnone => ?_, ?_, fun f hf => ?_⟩
    · exact absurd hs (h.fresh hnone).ne_running
    · rw [hrun']
      cases m.sampled <;> rfl
    · have hold := h.hasRun
      cases hm : m.sampled with
      | none =>
        rw [hm] at hf hold
        rw [hfirst, hold]
        exact Option.some.inj hf
      | some f₀ =>
        rw [hm] at hf hold
        rw [hfirst, hold, ← Option.some.inj hf]
        exact h.firstRunTime f₀ hm
  | kept hcpu htick hfresh hfree hsame =>
    rw [Marks.next_of_kept hp' hcpu htick fun hu => h.free (hfree.mp hu)]
    refine ⟨fun hu => h.free (hfree.mp hu), fun hnone => hfresh (h.fresh hnone),
      hsame.hasRun.trans h.hasRun, fun f hf => ?_⟩
    rw [hsame.firstRunTime, h.firstRunTime f hf]

/-- Nothing is noted, and no earlier than before. -/
theorem InOrder.later {ticks' : ℕ} (h : InOrder ticks m p) (hctime : p'.ctime = p.ctime)
    (hle : ticks ≤ ticks') : InOrder ticks' m p' := by
  refine ⟨hctime.trans_le (h.created.trans hle), ?_, ?_⟩
  · intro d hd
    obtain ⟨hcreated, hnow⟩ := h.dispatched d hd
    exact ⟨hctime.trans_le hcreated, hnow.trans hle⟩
  · intro f hf
    obtain ⟨d, hd, hlt, hnow⟩ := h.sampled f hf
    exact ⟨d, hd, hlt, hnow.trans hle⟩

/-- The process gets the CPU; only the first time counts. -/
theorem InOrder.dispatch (h : InOrder ticks m p) :
    InOrder ticks { m with dispatched := m.dispatched.or (some ticks) } p := by
  cases hd : m.dispatched with
  | some d =>
    have hsame : { m with dispatched := (some d).or (some ticks) } = m := by
      rw [Option.some_or, ← hd]
    rwa [hsame]
  | none =>
    refine ⟨h.created, ?_, ?_⟩
    · intro d hd
      obtain rfl := Option.some.inj hd
      exact ⟨h.created, le_rfl⟩
    · intro f hf
      obtain ⟨d, hd', -⟩ := h.sampled f hf
      rw [hd] at hd'
      cases hd'

/-- A tick finds the process running, after it was dispatched. -/
theorem InOrder.tick {ticks' : ℕ} (h : InOrder ticks m p) (hctime : p'.ctime = p.ctime)
    (hlt : ticks < ticks') (hd : m.dispatched ≠ none) :
    InOrder ticks' { m with sampled := m.sampled.or (some ticks') } p' := by
  have hnext : InOrder ticks' m p' := h.later hctime hlt.le
  cases hf : m.sampled with
  | some f =>
    have hsame : { m with sampled := (some f).or (some ticks') } = m := by
      rw [Option.some_or, ← hf]
    rwa [hsame]
  | none =>
    refine ⟨hnext.created, hnext.dispatched, ?_⟩
    intro f hf
    obtain rfl := Option.some.inj hf
    obtain ⟨d, hd⟩ := Option.ne_none_iff_exists'.mp hd
    exact ⟨d, hd, (h.dispatched d hd).2.trans_lt hlt, le_rfl⟩

/-- One step, if the tick counter does not wrap around in it. -/
theorem InOrder.step (h : InOrder k.ticks m p) (hm : Sampled m p) (hp' : k'.proc[j]? = some p')
    (hnoted : Noted k e k' j p p')
    (hticks : k'.ticks = k.ticks + if e.isTick then 1 else 0) :
    InOrder k'.ticks (m.next j k e k') p' := by
  have hmono : k.ticks ≤ k'.ticks := by
    rw [hticks]
    exact Nat.le_add_right _ _
  cases hnoted with
  | freed hs' _ hctime =>
    rw [Marks.next_of_unused hp' hs']
    exact inOrder_empty (hctime ▸ Nat.zero_le _)
  | allocated hs hs' _ hctime hcpu he =>
    rw [Marks.next_of_allocated hp' hcpu he (hm.free hs)]
    exact inOrder_empty (hctime ▸ hmono)
  | dispatched he hk' hs' hsame =>
    rw [Marks.next_of_dispatched hp' hs' he hk']
    exact h.dispatch.later hsame.ctime hmono
  | sampled he hcpu hs hs' _ _ hctime =>
    rw [Marks.next_of_tick hp' hs' he hcpu]
    refine h.tick hctime ?_ fun hnone => (hm.fresh hnone).ne_running hs
    rw [hticks, if_pos he]
    exact Nat.lt_succ_self _
  | kept hcpu htick _ hfree hsame =>
    rw [Marks.next_of_kept hp' hcpu htick fun hu => hm.free (hfree.mp hu)]
    exact h.later hsame.ctime hmono

/-- What holds along a run: the events have been `es` so far. -/
structure Kept (j : ℕ) (es : List Event) (s : Kernel × Marks) : Prop where
  owned : Owned s.1
  sampled : ∀ p, s.1.proc[j]? = some p → Sampled s.2 p
  inOrder : ticksIn es < 2 ^ 32 →
    s.1.ticks = ticksIn es ∧ ∀ p, s.1.proc[j]? = some p → InOrder s.1.ticks s.2 p

theorem kept_boot (j : ℕ) : Kept j [] (boot, {}) := by
  refine ⟨boot_owned, fun p hp => ?_, fun _ => ⟨rfl, fun p hp => ?_⟩⟩
  · rcases boot_proc hp with ⟨-, rfl⟩ | rfl
    · exact sampled_empty (.inr (.inr rfl)) rfl
    · exact sampled_empty (.inl rfl) rfl
  · rcases boot_proc hp with ⟨-, rfl⟩ | rfl <;> exact inOrder_empty le_rfl

theorem Kept.watched {s' : Kernel × Marks} (h : Kept j es s)
    (hstep : Watched pol j s e s') : Kept j (es ++ [e]) s' := by
  obtain ⟨k, m⟩ := s
  obtain ⟨k', m'⟩ := s'
  obtain ⟨hstep, hm'⟩ : step pol k e = some k' ∧ m' = m.next j k e k' := hstep
  subst hm'
  refine ⟨step_owned hstep h.owned, fun p' hp' => ?_, fun hlt => ?_⟩
  · obtain ⟨p, hp, hslot⟩ := step_slot_back hstep hp'
    exact (h.sampled p hp).step hp' (hslot.noted hstep (h.owned j p hp))
  · rw [ticksIn_concat] at hlt ⊢
    obtain ⟨hticks, horder⟩ := h.inOrder (by omega)
    change k.ticks = ticksIn es at hticks
    have hticks' : k'.ticks = k.ticks + if e.isTick then 1 else 0 := by
      rw [(step_frame hstep).2]
      split
      · rename_i he
        rw [if_pos he] at hlt
        rw [uintSucc, Nat.mod_eq_of_lt (by omega)]
      · rfl
    refine ⟨hticks'.trans (by rw [hticks]), fun p' hp' => ?_⟩
    obtain ⟨p, hp, hslot⟩ := step_slot_back hstep hp'
    exact (horder p hp).step (h.sampled p hp) hp' (hslot.noted hstep (h.owned j p hp)) hticks'

/-- **The sample is what really happened at the ticks**, in every run. -/
theorem sampled_of_run
    (h : Run (Watched pol j) (boot, {}) es s) : Kept j es s :=
  h.induction_last (kept_boot j) fun _ _ _ _ _ hkept hstep => hkept.watched hstep

/-! ### What `waitx` reports -/

/-- A memory in which every copy is written down. -/
def record (mem : List (ℕ × ℤ)) (addr : ℕ) (value : ℤ) : List (ℕ × ℤ) × Bool :=
  ((addr, value) :: mem, true)

/-- The value at `resp_addr` after one scan of `kwaitx` by the process in slot `i` that
collects a child. -/
def waitxResp (k : Kernel) (i : ℕ) : Option ℤ :=
  match kwaitxScan record k i ⟨1, 2, 3, 4⟩ [] {} with
  | .ok (.returns _ _ mem, _) => mem.lookup 4
  | _ => none

theorem waitxResp_eq (hj : zombieChild k i = some j) (hp : k.proc[j]? = some p) :
    waitxResp k i = some (resp p) := by
  have hidle : (({} : Cpu Lock)).Sound := ⟨rfl, fun h => absurd rfl h⟩
  obtain ⟨⟨r, c⟩, hr, heq, -⟩ :=
    kwaitxScan_some record hj hp hidle rfl ⟨1, 2, 3, 4⟩ []
  have hcopies : copies record ⟨1, 2, 3, 4⟩ p [] =
      ([(4, resp p), (3, (p.rtime : ℤ)), (2, (p.wtime : ℤ)), (1, p.xstate)], true) := rfl
  rw [hcopies] at heq
  change r = .returns _ _ _ at heq
  rw [waitxResp, hr, heq]
  rfl

/-- The process has left, so it has had the CPU. -/
theorem Sampled.dispatched_of_zombie (h : Sampled m p) (hz : p.state = .zombie) :
    ∃ d, m.dispatched = some d := by
  cases hd : m.dispatched with
  | some d => exact ⟨d, rfl⟩
  | none => rcases h.fresh hd with h | h | h <;> rw [hz] at h <;> cases h

theorem resp_of_not_sampled (h : Sampled m p) (hnone : m.sampled = none) : resp p = 0 := by
  have hrun := h.hasRun
  rw [hnone] at hrun
  rw [resp, hrun]
  rfl

/-- As an `int`, a `uint` is no smaller `uint`. -/
theorem asInt_ne {x y : ℕ} (hx : x < 2 ^ 32) (hlt : y < x) : asInt x ≠ y := by
  intro heq
  have hmod : Int.bmod x (2 ^ 32) % ((2 ^ 32 : ℕ) : ℤ) = x % ((2 ^ 32 : ℕ) : ℤ) := Int.bmod_emod
  unfold asInt at heq
  rw [heq] at hmod
  omega

/-- A sample is later than the dispatch. -/
theorem resp_of_sampled {d f : ℕ} (h : Sampled m p) (hord : InOrder ticks m p)
    (hticks : ticks < 2 ^ 32) (hd : m.dispatched = some d) (hf : m.sampled = some f) :
    resp p ≠ d - p.ctime := by
  obtain ⟨d', hd', hlt, hle⟩ := hord.sampled f hf
  obtain rfl : d = d' := Option.some.inj (hd.symm.trans hd')
  have hcreated := (hord.dispatched d hd).1
  have hrun := h.hasRun
  rw [hf] at hrun
  have htest : (p.hasRun && decide (p.ctime ≤ p.firstRunTime)) = true := by
    rw [hrun, h.firstRunTime f hf, decide_eq_true (by omega)]
    rfl
  rw [resp, if_pos htest, h.firstRunTime f hf, ← Nat.cast_sub hcreated]
  exact asInt_ne (by omega) (by omega)

/-- **When `waitx` reports the true response time.**  In every run on one hart, under each
of the schedulers, a child that `kwaitx` collects has been dispatched; if that was in the
tick of its creation and no tick found it running, the reported value is the tick count of
the dispatch minus `ctime`.  As long as the tick counter has not wrapped around it is so in
no other case. -/
theorem waitx_resp_true (hrun : Run (Watched pol j) (boot, {}) es (k, m))
    (hj : zombieChild k i = some j) (hp : k.proc[j]? = some p) :
    ∃ d, m.dispatched = some d ∧
      (d = p.ctime ∧ m.sampled = none → waitxResp k i = some ((d : ℤ) - p.ctime)) ∧
      (ticksIn es < 2 ^ 32 → waitxResp k i = some ((d : ℤ) - p.ctime) →
        d = p.ctime ∧ m.sampled = none) := by
  have hkept := sampled_of_run hrun
  have hsampled := hkept.sampled p hp
  have hz : p.state = .zombie := by
    have htest := firstSlot_spec hj hp
    simp only [Bool.and_eq_true, decide_eq_true_eq] at htest
    exact htest.2
  obtain ⟨d, hd⟩ := hsampled.dispatched_of_zombie hz
  rw [waitxResp_eq hj hp]
  refine ⟨d, hd, ?_, ?_⟩
  · rintro ⟨rfl, hnone⟩
    rw [resp_of_not_sampled hsampled hnone, sub_self]
  · intro hlt hresp
    have hresp := Option.some.inj hresp
    obtain ⟨hticks, horder⟩ := hkept.inOrder hlt
    cases hf : m.sampled with
    | some f =>
      exact absurd hresp (resp_of_sampled hsampled (horder p hp) (hticks ▸ hlt) hd hf)
    | none =>
      rw [resp_of_not_sampled hsampled hf] at hresp
      exact ⟨by omega, rfl⟩

/-- What can be seen of the child in slot 1 of the first process. -/
def seen (s : Kernel × Marks) : Marks × Option ℕ × Option ℕ × Option ℤ :=
  (s.2, zombieChild s.1 0, s.1.proc[1]?.map Proc.ctime, waitxResp s.1 0)

theorem exists_of_seen (pol : Policy) (es : List Event) {c : ℕ} {r : ℤ}
    (h : (es.foldlM (watch pol 1) (boot, {})).map seen = some (m, some 1, some c, some r)) :
    ∃ k p, Run (Watched pol 1) (boot, {}) es (k, m) ∧ zombieChild k 0 = some 1 ∧
      k.proc[1]? = some p ∧ p.ctime = c ∧ waitxResp k 0 = some r := by
  obtain ⟨⟨k, m'⟩, hfold, hseen⟩ := Option.map_eq_some_iff.mp h
  simp only [seen, Prod.mk.injEq, Option.map_eq_some_iff] at hseen
  obtain ⟨rfl, hchild, ⟨p, hp, hctime⟩, hresp⟩ := hseen
  refine ⟨k, p, ?_, hchild, hp, hctime, hresp⟩
  exact ((run_iff_foldlM _ _ _ _).mpr hfold).mono fun _ _ _ => watched_of_watch

/-- The first process waits for its child, which exits before the next tick. -/
def briefChild : List Event :=
  [.schedule, .kforkBegin true true, .kforkEnd 1, .kwait true, .sleep, .schedule, .kexit 0,
    .schedule]

theorem waitx_resp_true_briefChild :
    ∃ k p, Run (Watched .mlfq 1) (boot, {}) briefChild (k, ⟨some 0, none⟩) ∧
      zombieChild k 0 = some 1 ∧ k.proc[1]? = some p ∧
      waitxResp k 0 = some ((0 : ℤ) - p.ctime) := by
  obtain ⟨k, p, hrun, hchild, hp, hctime, -⟩ :=
    exists_of_seen .mlfq briefChild (m := ⟨some 0, none⟩) (c := 0) (r := 0) (by decide +kernel)
  obtain ⟨d, hd, htrue, -⟩ := waitx_resp_true hrun hchild hp
  obtain rfl : 0 = d := Option.some.inj hd
  exact ⟨k, p, hrun, hchild, hp, htrue ⟨hctime.symm, rfl⟩⟩

/-- The child runs until a tick comes. -/
def busyChild : List Event :=
  [.schedule, .kforkBegin true true, .kforkEnd 1, .kwait true, .sleep, .schedule, .tick true,
    .schedule, .schedule, .kexit 0, .schedule]

/-- The child waits for a tick, and exits before the next. -/
def lateChild : List Event :=
  [.schedule, .kforkBegin true true, .kforkEnd 1, .tick true, .schedule, .kexit 0, .schedule]

/-- **Two children with wrong response times.**  Both are created at tick 0.  The first is
dispatched at once, and 1 is reported; the second is dispatched at tick 1, and 0 is
reported. -/
theorem waitx_resp_off :
    (∃ k p, Run (Watched .rr 1) (boot, {}) busyChild (k, ⟨some 0, some 1⟩) ∧
      zombieChild k 0 = some 1 ∧ k.proc[1]? = some p ∧ p.ctime = 0 ∧ waitxResp k 0 = some 1) ∧
    ∃ k p, Run (Watched .rr 1) (boot, {}) lateChild (k, ⟨some 1, none⟩) ∧
      zombieChild k 0 = some 1 ∧ k.proc[1]? = some p ∧ p.ctime = 0 ∧ waitxResp k 0 = some 0 :=
  ⟨exists_of_seen .rr busyChild (by decide +kernel),
    exists_of_seen .rr lateChild (by decide +kernel)⟩

end

end Xv6
end RuShell
