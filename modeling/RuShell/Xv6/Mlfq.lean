import RuShell.Xv6.Select

/-!
# The multi-level feedback queue

The kernel compiled with `SCHED_MLFQ`.  `Sched` restates what a step does to a
slot in terms of the four fields the scheduler works with; the invariants of the
queues follow from it.

## Main definitions

* `Sched` — what a step does to the state, queue, slice and entry time of a slot.
* `Bounded` — the bounds on the queue and the slice of a process.
* `IsNext` — the process the queue discipline picks.
* `Settles` — a timer interrupt has been dealt with.

## Main results

* `SlotStep.sched` — `Sched` covers every step.
* `scanMlfq_isNext` — the scan of `scheduler` finds the process `IsNext` describes.
* `strict_priority` — **every dispatch follows the queue discipline**, and when a
  timer interrupt has been dealt with no process waits in a higher queue than the
  one that runs.
-/

namespace RuShell
namespace Xv6

open Lib

/-! ### What a step does to the scheduling fields -/

/-- The slot keeps its queue, slice and entry time. -/
def SamePlace (p p' : Proc) : Prop :=
  p'.queue = p.queue ∧ p'.ticksInSlice = p.ticksInSlice ∧ p'.enterTime = p.enterTime

/-- What the step `e` from `k` to `k'` does to the scheduling fields of a slot. -/
inductive Sched (k : Kernel) (e : Event) (k' : Kernel) (i : ℕ) (p p' : Proc) : Prop
  | kept : (e.isTick = true → p.state ≠ .running) →
      (e.isTick = true → k'.ticks % 48 = 0 → p.state = .unused) →
      p'.state = p.state → SamePlace p p' → Sched k e k' i p p'
  | boosted : e.isTick = true → k'.ticks % 48 = 0 → p.state ≠ .unused →
      (p'.state = p.state ∨ p.state = .sleeping ∧ p'.state = .runnable) →
      p'.queue = 0 → p'.ticksInSlice = 0 → p'.enterTime = asInt k'.ticks → Sched k e k' i p p'
  | woken : p.state = .sleeping → p'.state = .runnable → p'.queue = p.queue →
      p'.ticksInSlice = 0 → p'.enterTime = asInt k'.ticks →
      (e.isTick = true → k'.ticks % 48 ≠ 0) → Sched k e k' i p p'
  | ran : e.isTick = true → k'.ticks % 48 ≠ 0 → k.mode = .running i → p.state = .running →
      p'.state = .running → p'.queue = p.queue → p'.ticksInSlice = p.ticksInSlice + 1 →
      p'.enterTime = p.enterTime →
      (k'.mode = .exiting i ∧ e = .tick true ∧ p.killed = true ∨
        k'.mode = .running i ∧ p'.ticksInSlice < sliceLimit p.queue) → Sched k e k' i p p'
  | demoted : e.isTick = true → k'.ticks % 48 ≠ 0 → k.mode = .running i →
      p.state = .running → p'.state = .runnable → k'.myproc = none →
      sliceLimit p.queue ≤ p.ticksInSlice + 1 →
      p'.queue = (if p.queue < 3 then p.queue + 1 else p.queue) → p'.ticksInSlice = 0 →
      p'.enterTime = asInt k'.ticks → Sched k e k' i p p'
  | preempted : e.isTick = true → k'.ticks % 48 ≠ 0 → k.mode = .running i →
      p.state = .running → p'.state = .runnable → k'.myproc = none →
      p.ticksInSlice + 1 < sliceLimit p.queue →
      higherPriorityProcRunnable (clockintr .mlfq k) p.queue = true →
      p'.queue = p.queue → p'.ticksInSlice = p.ticksInSlice + 1 →
      p'.enterTime = asInt k'.ticks → Sched k e k' i p p'
  | slept : e.isTick = false → p.state = .running → k'.myproc = none → p'.state = .sleeping →
      p'.queue = p.queue → p'.ticksInSlice = 0 → p'.enterTime = p.enterTime → Sched k e k' i p p'
  | dispatched : e.isTick = false → k.myproc = none → scanMlfq k.proc = some i →
      k'.mode = .running i → p'.state = .running → SamePlace p p' → Sched k e k' i p p'
  | allocated : e.isTick = false → p.state = .unused → p'.state = .used → p'.queue = 0 →
      p'.ticksInSlice = 0 → p'.enterTime = asInt k'.ticks → Sched k e k' i p p'
  | freed : e.isTick = false → (p.state = .unused ∨ p.state = .zombie) → p'.state = .unused →
      p'.queue = 0 → p'.ticksInSlice = 0 → Sched k e k' i p p'
  | readied : e.isTick = false → p.state = .used → p'.state = .runnable → SamePlace p p' →
      Sched k e k' i p p'
  | exited : e.isTick = false → p.state = .running → k'.myproc = none → p'.state = .zombie →
      SamePlace p p' → Sched k e k' i p p'

variable {ticks : ℕ} {procs : List Proc}

/-- What a tick does to the fields of a slot that is not boosted by it. -/
theorem tickSlot_sched (hb : ticks % 48 ≠ 0) (p : Proc) :
    (p.state = .sleeping ∧ (tickSlot .mlfq ticks p).state = .runnable ∧
      (tickSlot .mlfq ticks p).queue = p.queue ∧ (tickSlot .mlfq ticks p).ticksInSlice = 0 ∧
      (tickSlot .mlfq ticks p).enterTime = asInt ticks) ∨
    ((tickSlot .mlfq ticks p).state = p.state ∧ (tickSlot .mlfq ticks p).queue = p.queue ∧
      (tickSlot .mlfq ticks p).ticksInSlice =
        (if p.state = .running then p.ticksInSlice + 1 else p.ticksInSlice) ∧
      (tickSlot .mlfq ticks p).enterTime = p.enterTime) := by
  simp only [tickSlot, hb, false_and, if_false]
  obtain ⟨ch, h | ⟨hs, h⟩⟩ := wakeupSlot_cases .mlfq ticks .ticks p <;> rw [h]
  · right
    unfold updateProcTimeSlot
    cases hst : p.state <;> simp
  · left
    simp [hs, wakeProc, updateProcTimeSlot]

theorem tickSlot_boosted (hb : ticks % 48 = 0) {p : Proc} (hp : p.state ≠ .unused) :
    ((tickSlot .mlfq ticks p).state = p.state ∨
      p.state = .sleeping ∧ (tickSlot .mlfq ticks p).state = .runnable) ∧
    (tickSlot .mlfq ticks p).queue = 0 ∧ (tickSlot .mlfq ticks p).ticksInSlice = 0 ∧
      (tickSlot .mlfq ticks p).enterTime = asInt ticks := by
  simp only [tickSlot, hb, true_and, if_true]
  obtain ⟨ch, h | ⟨hs, h⟩⟩ := wakeupSlot_cases .mlfq ticks .ticks p <;> rw [h]
  · cases hst : p.state <;> simp_all [updateProcTimeSlot, boostSlot]
  · simp [hs, wakeProc, updateProcTimeSlot, boostSlot]

theorem tickSlot_unused (ticks : ℕ) {p : Proc} (hp : p.state = .unused) :
    (tickSlot .mlfq ticks p).state = p.state ∧ SamePlace p (tickSlot .mlfq ticks p) := by
  unfold tickSlot
  obtain ⟨ch, h | ⟨hs, h⟩⟩ := wakeupSlot_cases .mlfq ticks .ticks p
  · rw [h]
    simp [updateProcTimeSlot, boostSlot, hp, SamePlace]
  · rw [hp] at hs
    cases hs

section

variable {k k' : Kernel} {e : Event} {i : ℕ} {p p' : Proc}

/-- A tick that leaves the slot in the hands it was in. -/
theorem sched_tickSlot (he : e.isTick = true) (ht : k'.ticks = ticks)
    (hon : p.state = .running → ticks % 48 ≠ 0 → k.mode = .running i ∧
      (k'.mode = .exiting i ∧ e = .tick true ∧ p.killed = true ∨
        k'.mode = .running i ∧ p.ticksInSlice + 1 < sliceLimit p.queue)) :
    Sched k e k' i p (tickSlot .mlfq ticks p) := by
  by_cases hu : p.state = .unused
  · have hsame := tickSlot_unused ticks hu
    exact .kept (fun _ => by simp [hu]) (fun _ _ => hu) hsame.1 hsame.2
  · by_cases hb : ticks % 48 = 0
    · obtain ⟨hst, hq, hs, hent⟩ := tickSlot_boosted hb hu
      exact .boosted he (by rw [ht, hb]) hu hst hq hs (by rw [ht, hent])
    · rcases tickSlot_sched hb p with ⟨hsl, hst, hq, hs, hent⟩ | ⟨hst, hq, hs, hent⟩
      · exact .woken hsl hst hq hs (by rw [ht, hent]) (fun _ => by rw [ht]; exact hb)
      · by_cases hrun : p.state = .running
        · rw [if_pos hrun] at hs
          obtain ⟨hk, hk'⟩ := hon hrun hb
          rw [← hs] at hk'
          exact .ran he (by rw [ht]; exact hb) hk hrun (by rw [hst, hrun]) hq hs hent hk'
        · rw [if_neg hrun] at hs
          exact .kept (fun _ => hrun) (fun _ h => absurd (ht ▸ h) hb) hst ⟨hq, hs, hent⟩

/-- At a boost a process has a whole slice left in the highest queue, so neither
branch of the check takes the CPU from it. -/
theorem not_boosted_of_sliceCheck (hrun : p.state = .running)
    (h : sliceLimit (tickSlot .mlfq ticks p).queue ≤ (tickSlot .mlfq ticks p).ticksInSlice ∨
      higherPriorityProcRunnable k (tickSlot .mlfq ticks p).queue = true) : ticks % 48 ≠ 0 := by
  intro hb
  obtain ⟨-, hq, hs, -⟩ := tickSlot_boosted hb (p := p) (by simp [hrun])
  rw [hq, hs] at h
  rcases h with h | h
  · simp [sliceLimit, sliceLimits] at h
  · simp [higherPriorityProcRunnable] at h

theorem tickSlot_running (hb : ticks % 48 ≠ 0) (hrun : p.state = .running) :
    (tickSlot .mlfq ticks p).queue = p.queue ∧
      (tickSlot .mlfq ticks p).ticksInSlice = p.ticksInSlice + 1 := by
  rcases tickSlot_sched hb p with ⟨hsl, -⟩ | ⟨-, hq, hs, -⟩
  · rw [hrun] at hsl
    cases hsl
  · rw [if_pos hrun] at hs
    exact ⟨hq, hs⟩

/-- **The scheduling fields change as `Sched` says.** -/
theorem SlotStep.sched (h : SlotStep .mlfq k e k' i p p')
    (hown : p.state = .running ↔ k.myproc = some i)
    (ht : k'.ticks = if e.isTick then uintSucc k.ticks else k.ticks) : Sched k e k' i p p' := by
  cases h with
  | kept he _ | prepared c he _ _ | faulted he _ _ =>
    exact .kept (by simp [he]) (by simp [he]) rfl ⟨rfl, rfl, rfl⟩
  | dispatched start he hk hsel hk' =>
    exact .dispatched he (by rw [Kernel.myproc, hk]) hsel hk' rfl ⟨rfl, rfl, rfl⟩
  | ticked he hcpu _ =>
    rw [if_pos he] at ht
    exact sched_tickSlot he ht fun hrun _ => absurd (hown.mp hrun) hcpu
  | tickedKilled he hk hk' hkill =>
    subst he
    exact sched_tickSlot rfl ht fun _ _ => ⟨hk, .inl ⟨hk', rfl, hkill⟩⟩
  | tickedOn he hq hk hk' _ _ hon =>
    subst hq
    rw [if_pos he] at ht
    refine sched_tickSlot he ht fun hrun hb => ⟨hk, .inr ⟨hk', ?_⟩⟩
    have hlim := (hon rfl ((tickSlot_running_iff _ _ _).mpr hrun)).1
    rwa [(tickSlot_running hb hrun).1, (tickSlot_running hb hrun).2] at hlim
  | demoted he hq hk hk' _ _ hrun hlim =>
    subst hq
    rw [if_pos he] at ht
    have hrun := (tickSlot_running_iff _ _ _).mp hrun
    have hb := not_boosted_of_sliceCheck (k := k) hrun (.inl hlim)
    obtain ⟨hqu, hsl⟩ := tickSlot_running hb hrun
    rw [hqu, hsl] at hlim
    refine .demoted he (by rw [ht]; exact hb) hk hrun rfl hk' hlim ?_ rfl
      (by simp [yieldSlot, ht])
    simp [yieldSlot, demote, hqu]
  | preempted he hq hk hk' _ _ hrun hlim hhi =>
    subst hq
    rw [if_pos he] at ht
    have hrun := (tickSlot_running_iff _ _ _).mp hrun
    have hb := not_boosted_of_sliceCheck hrun (.inr hhi)
    obtain ⟨hqu, hsl⟩ := tickSlot_running hb hrun
    rw [hqu] at hhi
    rw [hqu, hsl] at hlim
    exact .preempted he (by rw [ht]; exact hb) hk hrun rfl hk' hlim hhi
      (by simp [yieldSlot, hqu]) (by simp [yieldSlot, hsl]) (by simp [yieldSlot, ht])
  | rotated _ _ _ _ hrr _ => cases hrr
  | notified q cs he _ =>
    simp only [he, Bool.false_eq_true, if_false] at ht
    obtain ⟨ch, h | ⟨hs, h⟩⟩ := notify_cases .mlfq k.ticks cs { p with parent := q } <;> rw [h]
    · exact .kept (by simp [he]) (by simp [he]) rfl ⟨rfl, rfl, rfl⟩
    · exact .woken hs rfl rfl rfl (by simp [wakeProc, ht]) (by simp [he])
  | slept he hcpu hcpu' _ =>
    subst he
    exact .slept rfl (hown.mpr hcpu) hcpu' rfl rfl rfl rfl
  | allocated j he hu _ =>
    simp only [he, Bool.false_eq_true, if_false] at ht
    exact .allocated he hu rfl rfl rfl (by simp [initProc, ht])
  | refused he hu _ => exact .freed he (.inl hu) rfl rfl rfl
  | readied he hu _ => exact .readied he hu rfl ⟨rfl, rfl, rfl⟩
  | exited q cs status he hcpu hcpu' =>
    subst he
    have hrun := hown.mpr hcpu
    obtain ⟨ch, h | ⟨hs, h⟩⟩ := notify_cases .mlfq k.ticks cs { p with parent := q }
    · rw [h]
      exact .exited rfl hrun hcpu' rfl ⟨rfl, rfl, rfl⟩
    · rw [show p.state = .sleeping from hs] at hrun
      cases hrun
  | reaped he hz _ => exact .freed he (.inr hz) rfl rfl rfl
  | targeted he _ =>
    simp only [he, Bool.false_eq_true, if_false] at ht
    by_cases hs : p.state = .sleeping
    · have heq : kkillSlot .mlfq k.ticks p = wakeProc .mlfq k.ticks { p with killed := true } := by
        simp [kkillSlot, hs]
      rw [heq]
      exact .woken hs rfl rfl rfl (by simp [wakeProc, ht]) (by simp [he])
    · have heq : kkillSlot .mlfq k.ticks p = { p with killed := true } := by
        simp [kkillSlot, hs]
      rw [heq]
      exact .kept (by simp [he]) (by simp [he]) rfl ⟨rfl, rfl, rfl⟩

end

/-! ### Runs -/

theorem sliceLimit_pos {q : ℕ} (h : q ≤ 3) : 0 < sliceLimit q := by
  interval_cases q <;> decide

/-- The bounds on the place of the process in slot `i`. -/
structure Bounded (k : Kernel) (i : ℕ) (p : Proc) : Prop where
  queue_le : p.queue ≤ 3
  slice_le : p.ticksInSlice ≤ sliceLimit p.queue
  /-- Only a process that has just been caught by the timer can have used up its
  slice. -/
  slice_lt : p.state ≠ .zombie → k.mode ≠ .exiting i → p.ticksInSlice < sliceLimit p.queue

/-- The invariant of the MLFQ kernel. -/
structure MlfqInv (k : Kernel) : Prop where
  owned : Owned k
  inTable : ∀ i, k.myproc = some i → ∃ p, k.proc[i]? = some p
  bounded : ∀ i p, k.proc[i]? = some p → Bounded k i p

theorem Bounded.of_zero {k : Kernel} {i : ℕ} {p : Proc} (hq : p.queue ≤ 3)
    (hs : p.ticksInSlice = 0) : Bounded k i p := by
  have hpos := sliceLimit_pos hq
  exact ⟨hq, by omega, fun _ _ => by omega⟩

/-! ### Selection -/

/-- The queue discipline: `p`, in slot `j`, is runnable, and every other runnable
process is in a lower queue, or entered the same queue later, or at the same tick
but has a higher slot. -/
def IsNext (procs : List Proc) (j : ℕ) (p : Proc) : Prop :=
  procs[j]? = some p ∧ p.state = .runnable ∧
    ∀ (i : ℕ) (q : Proc), procs[i]? = some q → q.state = .runnable →
      p.queue < q.queue ∨
      p.queue = q.queue ∧ (p.enterTime < q.enterTime ∨ p.enterTime = q.enterTime ∧ j ≤ i)

theorem scanQueue_eq_none {q i : ℕ} {p : Proc}
    (h : scanQueue q procs = none) (hp : procs[i]? = some p) (hrun : p.state = .runnable) :
    p.queue ≠ q := by
  intro hq
  unfold scanQueue at h
  have hspec := firstMin_spec (inQueue q) Proc.enterTime procs
  rw [Option.map_eq_none_iff.mp h] at hspec
  have hfail := hspec i p hp
  rw [inQueue_iff.mpr ⟨hrun, hq⟩] at hfail
  cases hfail

/-- The scan of `scheduler` finds the process the queue discipline picks. -/
theorem scanMlfq_isNext {j : ℕ} (h : scanMlfq procs = some j) :
    ∃ p, IsNext procs j p := by
  obtain ⟨q, -, hscan, hempty⟩ := findSome?_range h
  obtain ⟨p, hp, hok, hmin⟩ := scanQueue_eq_some hscan
  obtain ⟨hrun, hq⟩ := inQueue_iff.mp hok
  refine ⟨p, hp, hrun, fun i r hr hrrun => ?_⟩
  -- a runnable process in a higher queue would have been found before
  rcases lt_trichotomy r.queue q with hlt | heq | hgt
  · exact absurd rfl (scanQueue_eq_none (hempty _ hlt) hr hrrun)
  · exact .inr ⟨by rw [hq, heq], hmin i r hr (inQueue_iff.mpr ⟨hrrun, heq⟩)⟩
  · exact .inl (by rw [hq]; exact hgt)

theorem scanMlfq_eq_none {i : ℕ} {p : Proc} (h : scanMlfq procs = none)
    (hp : procs[i]? = some p) (hq : p.queue ≤ 3) : p.state ≠ .runnable := by
  intro hrun
  have hscan := List.findSome?_eq_none_iff.mp h p.queue (List.mem_range.mpr (by omega))
  exact scanQueue_eq_none hscan hp hrun rfl

/-! ### The invariant -/

section

variable {k k' : Kernel} {e : Event} {i : ℕ} {p p' : Proc}

theorem Sched.bounded (h : Sched k e k' i p p') (hstep : step .mlfq k e = some k')
    (hp : k.proc[i]? = some p) (hown : p.state = .running ↔ k.myproc = some i)
    (hown' : p'.state = .running ↔ k'.myproc = some i) (hb : Bounded k i p) :
    Bounded k' i p' := by
  cases h with
  | kept htick _ hst hplace =>
    obtain ⟨hq, hs, -⟩ := hplace
    refine ⟨by rw [hq]; exact hb.queue_le, by rw [hq, hs]; exact hb.slice_le, fun hz hk' => ?_⟩
    rw [hq, hs]
    refine hb.slice_lt (by rwa [hst] at hz) fun hk => hk' ?_
    -- a process on its way out keeps the CPU for the same purpose
    have hcpu : k.myproc = some i := by rw [Kernel.myproc, hk]
    have hrun := hown.mpr hcpu
    have hcpu' := hown'.mp (by rw [hst, hrun])
    rcases step_cpu hstep with hm | hm | ⟨_, _, hm, -⟩ | ⟨_, hm, -⟩
    · rw [hm, hk]
    · rw [hm] at hcpu'
      cases hcpu'
    · rw [hk] at hm
      cases hm
    · rw [hk] at hm
      cases hm
  | boosted _ _ _ _ hq hs _ | allocated _ _ _ hq hs _ | freed _ _ _ hq hs =>
    exact .of_zero (by omega) hs
  | woken _ _ hq hs _ _ | slept _ _ _ _ hq hs _ => exact .of_zero (by rw [hq]; exact hb.queue_le) hs
  | ran _ _ hk hrun hrun' hq hs _ hend =>
    have hlt := hb.slice_lt (by simp [hrun]) (by simp [hk])
    refine ⟨by rw [hq]; exact hb.queue_le, by rw [hq, hs]; omega, fun _ hk' => ?_⟩
    rcases hend with ⟨hexit, -⟩ | ⟨-, hlim⟩
    · exact absurd hexit hk'
    · rwa [hq]
  | demoted _ _ _ _ _ _ _ hq hs _ =>
    have hle := hb.queue_le
    refine .of_zero ?_ hs
    rw [hq]
    split <;> omega
  | preempted _ _ _ _ _ _ hlim _ hq hs _ =>
    exact ⟨by rw [hq]; exact hb.queue_le, by rw [hq, hs]; omega, fun _ _ => by rw [hq, hs]; omega⟩
  | dispatched _ hk hscan _ _ hplace =>
    obtain ⟨hq, hs, -⟩ := hplace
    obtain ⟨r, hr, hrun, -⟩ := scanMlfq_isNext hscan
    rw [hp] at hr
    injection hr with hr
    subst hr
    have hlt := hb.slice_lt (by simp [hrun]) (by intro h; simp [Kernel.myproc, h] at hk)
    exact ⟨by rw [hq]; exact hb.queue_le, by rw [hq, hs]; omega, fun _ _ => by rw [hq, hs]; omega⟩
  | readied _ hu _ hplace =>
    obtain ⟨hq, hs, -⟩ := hplace
    have hlt := hb.slice_lt (by simp [hu]) fun hk => by
      have := hown.mpr (by rw [Kernel.myproc, hk])
      rw [hu] at this
      cases this
    exact ⟨by rw [hq]; exact hb.queue_le, by rw [hq, hs]; omega, fun _ _ => by rw [hq, hs]; omega⟩
  | exited _ _ _ hz hplace =>
    obtain ⟨hq, hs, -⟩ := hplace
    exact ⟨by rw [hq]; exact hb.queue_le, by rw [hq, hs]; exact hb.slice_le, fun h => absurd hz h⟩

theorem step_sched (hstep : step .mlfq k e = some k') (hown : Owned k)
    (hp' : k'.proc[i]? = some p') : ∃ p, k.proc[i]? = some p ∧ Sched k e k' i p p' := by
  obtain ⟨p, hp, hslot⟩ := step_slot_back hstep hp'
  exact ⟨p, hp, hslot.sched (hown i p hp) (step_frame hstep).2⟩

theorem MlfqInv.step (hinv : MlfqInv k) (hstep : step .mlfq k e = some k') : MlfqInv k' := by
  have hown := step_owned hstep hinv.owned
  refine ⟨hown, step_inTable hstep hinv.inTable, fun i p' hp' => ?_⟩
  obtain ⟨p, hp, hsched⟩ := step_sched hstep hinv.owned hp'
  exact hsched.bounded hstep hp (hinv.owned i p hp) (hown i p' hp') (hinv.bounded i p hp)

theorem MlfqInv.boot : MlfqInv boot := by
  constructor
  · exact boot_owned
  · intro i hi
    cases hi
  · intro i p hp
    obtain ⟨-, hq, hs⟩ := boot_slot hp
    exact .of_zero (by omega) hs

theorem mlfqInv_of_run {es : List Event} (h : Run (Step .mlfq) boot es k) : MlfqInv k :=
  h.invariant (fun _ _ _ hinv hstep => hinv.step hstep) .boot

/-! ### Strict priority -/

/-- A process runs its own code, in user mode or in the kernel, and can be
interrupted. -/
def Kernel.inProcess (k : Kernel) : Prop := ∃ i, k.mode = .running i

/-- From the end of the interrupt handler, in `k`, to the first state in which a
process runs again: at once, or when the scheduler has found one. -/
def Settles (k k' : Kernel) : Prop :=
  (∃ es, Run (fun k e k' => Step .mlfq k e k' ∧ ¬ k.inProcess) k es k') ∧ k'.inProcess

/-- No runnable process is in a higher queue than the running one. -/
def NoHigher (k : Kernel) : Prop :=
  ∀ (i : ℕ) (p : Proc) (j : ℕ) (q : Proc), k.proc[i]? = some p → p.state = .running →
    k.proc[j]? = some q → q.state = .runnable → p.queue ≤ q.queue

/-- A process that keeps the CPU after a tick has passed the check for processes
of a higher priority. -/
theorem noHigher_of_tick {u : Bool} (hown : Owned k) (h : step .mlfq k (.tick u) = some k')
    (hin : k'.inProcess) : NoHigher k' := by
  intro i p j q hp hrun hq hqrun
  obtain ⟨l, hl⟩ := hin
  have hcpu := (step_owned h hown i p hp).mp hrun
  rw [myproc_of_running hl] at hcpu
  injection hcpu with hcpu
  subst hcpu
  obtain ⟨p₀, -, hslot⟩ := step_slot_back h hp
  have hmyproc := myproc_of_running hl
  cases hslot with
  | ticked _ _ hcpu' => exact absurd hmyproc hcpu'
  | tickedKilled _ _ hk' _ =>
    rw [hl] at hk'
    cases hk'
  | tickedOn _ _ _ _ _ _ hon =>
    have hfalse := (hon rfl hrun).2
    by_contra hlt
    have htrue : higherPriorityProcRunnable k' p.queue = true := by
      refine List.any_eq_true.mpr ⟨q, List.mem_of_getElem? hq, ?_⟩
      simp only [Bool.and_eq_true, decide_eq_true_eq]
      exact ⟨hqrun, by omega⟩
    rw [hfalse] at htrue
    cases htrue
  | demoted _ _ _ hk' | preempted _ _ _ hk' | rotated _ _ _ hk' => simp [hmyproc] at hk'
  | kept he | dispatched _ he | notified _ _ he | prepared _ he | slept he | allocated _ he
  | refused he | readied he | exited _ _ _ he | reaped he | targeted he | faulted he => cases he

/-- Only a dispatch gives the CPU to a process, and it picks the right one. -/
theorem noHigher_of_dispatch (hown : Owned k) (h : step .mlfq k e = some k')
    (hnot : ¬ k.inProcess) (hin : k'.inProcess) : NoHigher k' := by
  intro i p j q hp hrun hq hqrun
  obtain ⟨l, hl⟩ := hin
  have hcpu := (step_owned h hown i p hp).mp hrun
  rw [myproc_of_running hl] at hcpu
  injection hcpu with hcpu
  subst hcpu
  rcases step_cpu h with hm | hm | ⟨start, j', -, -, hsel, rfl⟩ | ⟨_, -, -, hm⟩
  · exact absurd ⟨l, by rw [← hm, hl]⟩ hnot
  · rw [myproc_of_running hl] at hm
    cases hm
  · injection hl with hl
    subst hl
    obtain ⟨r, hr, hrrun, hmin⟩ := scanMlfq_isNext hsel
    have hpr : p.queue = r.queue := by
      have hr' := Kernel.slot_modify_self (fun p => { p with state := .running }) hr
      rw [hp] at hr'
      injection hr' with hr'
      rw [hr']
    have hjne : j' ≠ j := by
      intro hjj
      subst hjj
      rw [hp] at hq
      injection hq with hq
      rw [← hq, hrun] at hqrun
      cases hqrun
    obtain ⟨q₀, hq₀⟩ : ∃ q₀, k.proc[j]? = some q₀ := by
      have hlt := (List.getElem?_eq_some_iff.mp hq).1
      rw [(step_frame h).1] at hlt
      exact ⟨_, List.getElem?_eq_getElem hlt⟩
    have hq' := Kernel.slot_modify_ne (fun p => { p with state := .running }) hq₀ hjne
    rw [hq] at hq'
    injection hq' with hq'
    subst hq'
    rw [hpr]
    rcases hmin j q hq₀ hqrun with hlt | ⟨heq, -⟩ <;> omega
  · rw [hl] at hm
    cases hm

/-- **Strict priority.**  In every run of the MLFQ kernel, a dispatch switches to
the process the queue discipline picks, and it fails only when nothing is
runnable; and after every timer interrupt, once a process runs again, no runnable
process is in a higher queue than it. -/
theorem strict_priority {es : List Event} (hrun : Run (Step .mlfq) boot es k) :
    (∀ k', Step .mlfq k .schedule k' →
      (∃ j p, IsNext k.proc j p ∧
        k' = { k.modify j fun p => { p with state := .running } with mode := .running j }) ∨
      (∀ (i : ℕ) (p : Proc), k.proc[i]? = some p → p.state ≠ .runnable) ∧ k'.myproc = none) ∧
    (∀ u k₁ k₂, Step .mlfq k (.tick u) k₁ → Settles k₁ k₂ → NoHigher k₂) := by
  have hinv := mlfqInv_of_run hrun
  constructor
  · intro k' hstep
    cases step_cases hstep with
    | @schedule start hm =>
      unfold schedule
      simp only [select]
      cases hscan : scanMlfq k.proc with
      | some j =>
        obtain ⟨p, hp⟩ := scanMlfq_isNext hscan
        exact .inl ⟨j, p, hp, rfl⟩
      | none =>
        refine .inr ⟨fun i p hp => ?_, rfl⟩
        exact scanMlfq_eq_none hscan hp (hinv.bounded i p hp).queue_le
  · intro u k₁ k₂ htick hsettles
    obtain ⟨⟨es', hrun'⟩, hin⟩ := hsettles
    have hgood := hrun'.invariant (I := fun k => Owned k ∧ (k.inProcess → NoHigher k))
      (fun s e t hs hstep =>
        ⟨step_owned hstep.1 hs.1, noHigher_of_dispatch hs.1 hstep.1 hstep.2⟩)
      ⟨step_owned htick hinv.owned, noHigher_of_tick hinv.owned htick⟩
    exact hgood.2 hin

/-- The first process forks, and the tick that ends its slice hands the CPU to
the child. -/
theorem strict_priority_first_fork : ∃ k k₁ k₂,
    Run (Step .mlfq) boot [.schedule, .kforkBegin true true, .kforkEnd 1] k ∧
      Step .mlfq k (.tick true) k₁ ∧ Settles k₁ k₂ ∧ k₂.mode = .running 1 ∧ NoHigher k₂ := by
  have hmid : (([.schedule, .kforkBegin true true, .kforkEnd 1] ++ [.tick true] :
      List Event).foldlM (step .mlfq) boot).map Kernel.mode = some (.scheduler 0) := by
    decide +kernel
  have hend : (([.schedule, .kforkBegin true true, .kforkEnd 1, .tick true, .schedule] :
      List Event).foldlM (step .mlfq) boot).map Kernel.mode = some (.running 1) := by
    decide +kernel
  obtain ⟨k₂, hk₂, hm₂⟩ := Option.map_eq_some_iff.mp hend
  have hrun := (run_iff_foldlM (step .mlfq) boot k₂ _).mpr hk₂
  obtain ⟨k, hk, htail⟩ : ∃ k,
      Run (Step .mlfq) boot [.schedule, .kforkBegin true true, .kforkEnd 1] k ∧
        Run (Step .mlfq) k [.tick true, .schedule] k₂ := Run.exists_of_append hrun
  cases htail with
  | cons htick htail =>
    rename_i k₁
    have hm₁ : k₁.mode = .scheduler 0 := by
      rw [(run_iff_foldlM (step .mlfq) boot k₁ _).mp (hk.append (.single htick))] at hmid
      simpa using hmid
    cases htail with
    | cons hsched hnil =>
      cases hnil
      have hsettles : Settles k₁ k₂ :=
        ⟨⟨_, .single ⟨hsched, fun ⟨i, hi⟩ => by rw [hm₁] at hi; cases hi⟩⟩, 1, hm₂⟩
      exact ⟨k, k₁, k₂, hk, htick, hsettles, hm₂,
        (strict_priority hk).2 true k₁ k₂ htick hsettles⟩

end

end Xv6
end RuShell
