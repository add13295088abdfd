import RuShell.Xv6.Mlfq

/-!
# When a process changes its queue

The MLFQ kernel keeps the ticks a process has used of its slice in
`ticks_in_slice`; the counter is advanced in `update_proc_time`, tested in the
two trap handlers and reset in six places.  Here a history is run alongside the
kernel: for every slot, the number of ticks its process has spent `RUNNING` since
its last slice reset, counted from the outside, by looking at the states of the
process before and after each step.  The field agrees with the history, and so
the queue of a process changes exactly when the history says it should.

## Main definitions

* `sliceReset`, `ranTicks` — the history.
* `Counted` — the steps of the kernel with the history.
* `SliceEnds` — a tick that completes a slice.
* `DemotionLaw` — how the place of a process changes in a step.

## Main results

* `counted_ticksInSlice` — the field is the history.
* `demotion_law` — **the law holds in every run.**
-/

namespace RuShell
namespace Xv6

open Lib

/-! ### The history -/

/-- Does a step give the process in a slot a fresh slice?  `n` is the number of
ticks the process has spent `RUNNING` before the step. -/
def sliceReset (e : Event) (k' : Kernel) (n : ℕ) (p p' : Proc) : Bool :=
  -- allocation
  p.state = .unused && p'.state = .used ||
  -- sleep
  p.state ≠ .sleeping && p'.state = .sleeping ||
  -- `wakeup`, or `kkill` of a sleeping process
  p.state = .sleeping && p'.state = .runnable ||
  -- boost
  e.isTick && k'.ticks % 48 = 0 ||
  -- it leaves the CPU at a tick that completes its slice
  e.isTick && p.state = .running && p'.state = .runnable && sliceLimit p.queue ≤ n + 1

/-- The ticks spent `RUNNING` since the last reset, after one more step. -/
def ranTicks (e : Event) (k' : Kernel) (n : ℕ) (p p' : Proc) : ℕ :=
  if sliceReset e k' n p p' then 0
  else if e.isTick && p.state = .running then n + 1
  else n

/-- The history of every slot after one more step. -/
def history (k : Kernel) (ran : ℕ → ℕ) (e : Event) (k' : Kernel) (i : ℕ) : ℕ :=
  match k.proc[i]?, k'.proc[i]? with
  | some p, some p' => ranTicks e k' (ran i) p p'
  | _, _ => 0

/-- A step of the kernel, with the history. -/
def Counted (s : Kernel × (ℕ → ℕ)) (e : Event) (t : Kernel × (ℕ → ℕ)) : Prop :=
  Step .mlfq s.1 e t.1 ∧ t.2 = history s.1 s.2 e t.1

/-! ### The law -/

/-- A tick that completes the slice of the process in slot `i`, unless the tick is
a boost or the trap handler finds the process killed. -/
def SliceEnds (e : Event) (k' : Kernel) (i n : ℕ) (p : Proc) : Prop :=
  e.isTick = true ∧ p.state = .running ∧ n + 1 = sliceLimit p.queue ∧
    k'.ticks % 48 ≠ 0 ∧ k'.mode ≠ .exiting i

/-- How the place of a process changes in a step from `k` to `k'`.  The slot `i`
holds the process before and after, so `p` and `p'` are not free slots; `n` is
the history before the step and `n'` after it. -/
structure DemotionLaw (e : Event) (k' : Kernel) (i n n' : ℕ) (p p' : Proc) : Prop where
  /-- The queue number grows by one, at the end of a slice. -/
  increase : p.queue < p'.queue → p'.queue = p.queue + 1 ∧ SliceEnds e k' i n p
  /-- At the end of a slice it does grow, up to 3, and a fresh slice starts. -/
  sliceEnds : SliceEnds e k' i n p → p'.queue = min (p.queue + 1) 3 ∧ n' = 0
  /-- Preempted before the end of its slice, the process keeps queue and count. -/
  preempted : e.isTick = true → p.state = .running → p'.state = .runnable →
    n + 1 < sliceLimit p.queue → p'.queue = p.queue ∧ n' = n + 1
  /-- The queue number only gets smaller at a boost, and then it is 0. -/
  decrease : p'.queue < p.queue → e.isTick = true ∧ k'.ticks % 48 = 0 ∧ p'.queue = 0

/-! ### The field is the history -/

section

variable {k k' : Kernel} {e : Event} {i n : ℕ} {p p' : Proc}

/-- One step: if the history was right before, it is right after. -/
theorem Sched.ranTicks_eq (h : Sched k e k' i p p') (hp : k.proc[i]? = some p)
    (hn : p.state ≠ .unused → n = p.ticksInSlice) (hlive : p'.state ≠ .unused) :
    ranTicks e k' n p p' = p'.ticksInSlice := by
  cases h with
  | kept hrun hboost hst hplace =>
    rw [hst] at hlive
    rw [hplace.2.1, ← hn hlive]
    cases he : e.isTick with
    | false => cases hs : p.state <;> simp_all [ranTicks, sliceReset]
    | true =>
      have hnot := hrun he
      have hnb : k'.ticks % 48 ≠ 0 := fun h => hlive (hboost he h)
      cases hs : p.state <;> simp_all [ranTicks, sliceReset]
  | boosted he hb _ _ _ hs _ => simp [ranTicks, sliceReset, he, hb, hs]
  | woken hs hr _ hz _ _ => simp [ranTicks, sliceReset, hs, hr, hz]
  | ran he hb _ hr hr' _ hs _ _ =>
    simp [ranTicks, sliceReset, he, hb, hr, hr', hs, hn (by simp [hr])]
  | demoted he _ _ hr hr' _ hlim _ hs _ =>
    have hnow := hn (by simp [hr])
    simp [ranTicks, sliceReset, he, hr, hr', hs, hnow, hlim]
  | preempted he hb _ hr hr' _ hlim _ _ hs _ =>
    have hnow := hn (by simp [hr])
    simp [ranTicks, sliceReset, he, hb, hr, hr', hs, hnow, hlim]
  | slept he hr _ hs _ hz _ => simp [ranTicks, sliceReset, hr, hs, hz]
  | dispatched he _ hscan _ hr' hplace =>
    obtain ⟨r, hr, hrun, -⟩ := scanMlfq_isNext hscan
    rw [hp] at hr
    injection hr with hr
    subst hr
    simp [ranTicks, sliceReset, he, hrun, hr', hplace.2.1, hn (by simp [hrun])]
  | allocated he hu hu' _ hs _ => simp [ranTicks, sliceReset, hu, hu', hs]
  | freed _ _ hu _ _ => exact absurd hu hlive
  | readied he hu hr hplace =>
    simp [ranTicks, sliceReset, he, hu, hr, hplace.2.1, hn (by simp [hu])]
  | exited he hr _ hz hplace =>
    simp [ranTicks, sliceReset, he, hr, hz, hplace.2.1, hn (by simp [hr])]

/-- The history of a live process is its `ticks_in_slice`. -/
def Agrees (s : Kernel × (ℕ → ℕ)) : Prop :=
  ∀ (i : ℕ) (p : Proc), s.1.proc[i]? = some p → p.state ≠ .unused → s.2 i = p.ticksInSlice

theorem Counted.agrees {s t : Kernel × (ℕ → ℕ)} (h : Counted s e t) (hinv : MlfqInv s.1)
    (hs : Agrees s) : Agrees t := by
  intro i p' hp' hlive
  obtain ⟨p, hp, hsched⟩ := step_sched h.1 hinv.owned hp'
  rw [h.2]
  simp only [history, hp, hp']
  exact hsched.ranTicks_eq hp (hs i p hp) hlive

/-- **In every run the counter is the true run length.** -/
theorem counted_ticksInSlice {es : List Event} {s : Kernel × (ℕ → ℕ)}
    (h : Run Counted (boot, fun _ => 0) es s) : MlfqInv s.1 ∧ Agrees s := by
  refine h.invariant (I := fun s => MlfqInv s.1 ∧ Agrees s) ?_ ⟨.boot, ?_⟩
  · intro s e t hs hstep
    exact ⟨hs.1.step hstep.1, hstep.agrees hs.1 hs.2⟩
  · intro i p hp _
    exact (boot_slot hp).2.2.symm

/-! ### The law holds -/

theorem Sched.demotionLaw (h : Sched k e k' i p p') (hp : k.proc[i]? = some p)
    (hb : Bounded k i p) (hn : n = p.ticksInSlice) (hlive : p.state ≠ .unused)
    (hlive' : p'.state ≠ .unused) : DemotionLaw e k' i n (ranTicks e k' n p p') p p' := by
  rw [h.ranTicks_eq hp (fun _ => hn) hlive']
  subst hn
  -- `demoted` and `boosted` are the only cases in which the queue changes
  have hle := hb.queue_le
  cases h with
  | kept hrun _ _ hplace =>
    refine ⟨by rw [hplace.1]; omega, fun h => absurd h.2.1 (hrun h.1), ?_, by rw [hplace.1]; omega⟩
    intro he hr
    exact absurd hr (hrun he)
  | boosted he hboost _ hst hq _ _ =>
    refine ⟨by omega, fun h => absurd hboost h.2.2.2.1, ?_, fun _ => ⟨he, hboost, hq⟩⟩
    intro _ hr hr' _
    rcases hst with hst | ⟨hst, -⟩ <;> simp [hr, hr'] at hst
  | woken hs _ hq _ _ _ =>
    refine ⟨by omega, ?_, ?_, by omega⟩
    · intro h
      simp [hs, SliceEnds] at h
    · intro _ hr
      simp [hs] at hr
  | ran he _ _ _ hr' hq hs _ hend =>
    refine ⟨by omega, fun h => ?_, fun _ _ hr => by simp [hr'] at hr, by omega⟩
    rcases hend with ⟨hexit, -⟩ | ⟨-, hlim⟩
    · exact absurd hexit h.2.2.2.2
    · have := h.2.2.1
      omega
  | demoted he hnb hk hr hr' hcpu hlim hq hs _ =>
    have hlt := hb.slice_lt (by simp [hr]) (by simp [hk])
    have hends : SliceEnds e k' i p.ticksInSlice p := by
      refine ⟨he, hr, by omega, hnb, fun h => ?_⟩
      simp [Kernel.myproc, h] at hcpu
    split at hq
    · refine ⟨fun _ => ⟨hq, hends⟩, fun _ => ⟨by omega, hs⟩, fun _ _ _ h => by omega, by omega⟩
    · refine ⟨by omega, fun _ => ⟨by omega, hs⟩, fun _ _ _ h => by omega, by omega⟩
  | preempted _ _ _ _ _ _ hlim _ hq hs _ =>
    refine ⟨by omega, fun h => ?_, fun _ _ _ _ => ⟨hq, hs⟩, by omega⟩
    have := h.2.2.1
    omega
  | slept he _ _ _ hq _ _ =>
    exact ⟨by omega, fun h => by simp [he, SliceEnds] at h, by simp [he], by omega⟩
  | dispatched he _ _ _ _ hplace | readied he _ _ hplace | exited he _ _ _ hplace =>
    have hq := hplace.1
    exact ⟨by omega, fun h => by simp [he, SliceEnds] at h, by simp [he], by omega⟩
  | allocated _ hu _ _ _ _ => exact absurd hu hlive
  | freed _ _ hu _ _ => exact absurd hu hlive'

/-- **The demotion law.**  In every run of the MLFQ kernel the place of a process
stays in its bounds, `ticks_in_slice` is the number of ticks the process has
spent `RUNNING` since its last slice reset, and its queue changes as
`DemotionLaw` says. -/
theorem demotion_law {es : List Event} {s : Kernel × (ℕ → ℕ)}
    (hrun : Run Counted (boot, fun _ => 0) es s) :
    (∀ (i : ℕ) (p : Proc), s.1.proc[i]? = some p →
      p.queue ≤ 3 ∧ p.ticksInSlice ≤ sliceLimit p.queue ∧
      (p.state = .runnable ∨ p.state = .sleeping → p.ticksInSlice < sliceLimit p.queue) ∧
      (p.state ≠ .unused → p.ticksInSlice = s.2 i)) ∧
    (∀ (e : Event) (t : Kernel × (ℕ → ℕ)), Counted s e t →
      ∀ (i : ℕ) (p p' : Proc), s.1.proc[i]? = some p → t.1.proc[i]? = some p' →
        p.state ≠ .unused → p'.state ≠ .unused → DemotionLaw e t.1 i (s.2 i) (t.2 i) p p') := by
  obtain ⟨hinv, hagrees⟩ := counted_ticksInSlice hrun
  constructor
  · intro i p hp
    have hb := hinv.bounded i p hp
    refine ⟨hb.queue_le, hb.slice_le, fun hst => ?_, fun hlive => (hagrees i p hp hlive).symm⟩
    refine hb.slice_lt (by rcases hst with h | h <;> simp [h]) fun hk => ?_
    have hr := (hinv.owned i p hp).mpr (by rw [Kernel.myproc, hk])
    rcases hst with h | h <;> simp [h] at hr
  · intro e t hstep i p p' hp hp' hlive hlive'
    obtain ⟨q, hq, hsched⟩ := step_sched hstep.1 hinv.owned hp'
    rw [hp] at hq
    injection hq with hq
    subst hq
    have ht : t.2 i = ranTicks e t.1 (s.2 i) p p' := by
      rw [hstep.2]
      simp only [history, hp, hp']
    rw [ht]
    exact hsched.demotionLaw hp (hinv.bounded i p hp) (hagrees i p hp hlive) hlive hlive'

/-- The first process uses up its slice of one tick and falls to queue 1. -/
theorem demotion_law_first_tick : ∃ s t p p',
    Run Counted (boot, fun _ => 0) [.schedule] s ∧ Counted s (.tick true) t ∧
      s.1.proc[0]? = some p ∧ t.1.proc[0]? = some p' ∧
      DemotionLaw (.tick true) t.1 0 (s.2 0) (t.2 0) p p' ∧ p'.queue = 1 := by
  obtain ⟨k₁, hk₁⟩ : ∃ k, step .mlfq boot .schedule = some k :=
    Option.isSome_iff_exists.mp (by decide +kernel)
  obtain ⟨k₂, hk₂⟩ : ∃ k, step .mlfq k₁ (.tick true) = some k := by
    refine Option.isSome_iff_exists.mp ?_
    rw [← Option.get_of_eq_some (by decide +kernel) hk₁]
    decide +kernel
  have hp : ((step .mlfq boot .schedule).bind (·.proc[0]?)).map
      (fun p => (p.state, p.queue)) = some (.running, 0) := by
    decide +kernel
  have hp' : (((step .mlfq boot .schedule).bind (step .mlfq · (.tick true))).bind
      (·.proc[0]?)).map (fun p => (p.state, p.queue)) = some (.runnable, 1) := by
    decide +kernel
  simp only [hk₁, hk₂, Option.bind_some] at hp hp'
  obtain ⟨p, hp, hpst⟩ := Option.map_eq_some_iff.mp hp
  obtain ⟨p', hp', hpst'⟩ := Option.map_eq_some_iff.mp hp'
  simp only [Prod.mk.injEq] at hpst hpst'
  have hrun : Run Counted (boot, fun _ => 0) [.schedule]
      (k₁, history boot (fun _ => 0) .schedule k₁) := .single ⟨hk₁, rfl⟩
  have hstep : Counted (k₁, history boot (fun _ => 0) .schedule k₁) (.tick true)
      (k₂, history k₁ (history boot (fun _ => 0) .schedule k₁) (.tick true) k₂) := ⟨hk₂, rfl⟩
  exact ⟨_, _, p, p', hrun, hstep, hp, hp',
    (demotion_law hrun).2 _ _ hstep 0 p p' hp hp' (by simp [hpst.1]) (by simp [hpst'.1]),
    hpst'.2⟩

end

end Xv6
end RuShell
