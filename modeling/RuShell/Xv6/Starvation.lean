import Mathlib.Data.Finset.Card
import RuShell.Xv6.Mlfq

/-!
# Waiting from one boost to the next

At a boost every process moves to queue 0 with the same entry time, so from then
on the lower slots go first.  Each of them costs a whole tick, and a boost comes
every 48 ticks: with 49 processes that only compute, the one in the highest slot
is still waiting at the next boost, and the boost makes it wait again.

With at most 48 processes it does get its turn, as long as no tick is lost on the
scheduler itself and the tick counter still fits `enter_time`.  The argument
counts the processes `ahead` of the waiting one: whoever runs is in queue 0 and
loses the CPU at the next tick, and whoever takes it was ahead.

## Main definitions

* `Calm` — the condition on the steps.
* `Waiting` — the process in a slot is runnable and does not run.
* `ahead` — the processes that go first.
* `Contest` — the invariant of the wait.

## Main results

* `no_starvation` — **with 48 processes nobody waits from boost to boost.**
* `starvation` — with 49 processes somebody can.
-/

namespace RuShell
namespace Xv6

open Lib

/-! ### Sets of slots -/

/-- The slots whose contents pass a test. -/
def slots (k : Kernel) (test : Proc → Bool) : Finset ℕ :=
  (Finset.range k.proc.length).filter fun j => k.proc[j]?.any test

variable {k : Kernel}

theorem mem_slots {test : Proc → Bool} {j : ℕ} :
    j ∈ slots k test ↔ ∃ p, k.proc[j]? = some p ∧ test p = true := by
  unfold slots
  rw [Finset.mem_filter, Finset.mem_range]
  constructor
  · intro h
    exact (Option.any_eq_true _ _).mp h.2
  · intro h
    obtain ⟨p, hp, htest⟩ := h
    exact ⟨(List.getElem?_eq_some_iff.mp hp).1, (Option.any_eq_true _ _).mpr ⟨p, hp, htest⟩⟩

/-- A test is passed by as many slots as entries of the table. -/
theorem card_slots (k : Kernel) (test : Proc → Bool) :
    (slots k test).card = k.proc.countP test := by
  unfold slots
  generalize k.proc = procs
  rw [← Nat.count_eq_card_filter_range]
  induction procs with
  | nil => rfl
  | cons p procs ih =>
    rw [List.length_cons, Nat.count_succ', List.countP_cons]
    simp only [List.getElem?_cons_succ, ih, List.getElem?_cons_zero, Option.any_some]

/-- The number of processes in the table. -/
def live (k : Kernel) : ℕ := k.proc.countP (·.state ≠ .unused)

/-- `p` may run, or is about to be made runnable, in queue 0, and entered it at
the tick `t`. -/
def enteredAt (t : ℕ) (p : Proc) : Bool :=
  (p.state = .runnable || p.state = .used) && p.queue = 0 && p.enterTime = (t : ℤ)

/-- The slots that go before slot `i` since the boost at tick `t`. -/
def ahead (t i : ℕ) (k : Kernel) : Finset ℕ := (slots k (enteredAt t)).filter (· < i)

theorem mem_ahead {t i : ℕ} {j : ℕ} :
    j ∈ ahead t i k ↔ ∃ p, k.proc[j]? = some p ∧ (p.state = .runnable ∨ p.state = .used) ∧
      p.queue = 0 ∧ p.enterTime = (t : ℤ) ∧ j < i := by
  unfold ahead
  rw [Finset.mem_filter, mem_slots]
  constructor
  · intro h
    obtain ⟨⟨p, hp, htest⟩, hlt⟩ := h
    simp only [enteredAt, Bool.and_eq_true, Bool.or_eq_true, decide_eq_true_eq] at htest
    exact ⟨p, hp, htest.1.1, htest.1.2, htest.2, hlt⟩
  · intro h
    obtain ⟨p, hp, hst, hq, hent, hlt⟩ := h
    refine ⟨⟨p, hp, ?_⟩, hlt⟩
    simp only [enteredAt, Bool.and_eq_true, Bool.or_eq_true, decide_eq_true_eq]
    exact ⟨⟨hst, hq⟩, hent⟩

/-! ### The condition and the wait -/

/-- The process in slot `i` is runnable and does not have the CPU. -/
def Waiting (i : ℕ) (k : Kernel) : Prop := ∃ p, k.proc[i]? = some p ∧ p.state = .runnable

/-- At most 48 processes exist; a timer interrupt is taken in the scheduler only
when nothing is runnable; and the tick counter stays below `2 ^ 31`. -/
structure Calm (k : Kernel) (e : Event) : Prop where
  few : live k ≤ 48
  tickRuns : e.isTick = true → ∀ start, k.mode = .scheduler start → ∀ i, ¬ Waiting i k
  small : e.isTick = true → k.ticks + 1 < 2 ^ 31

/-- A step under the condition. -/
def CalmStep (k : Kernel) (e : Event) (k' : Kernel) : Prop := Step .mlfq k e k' ∧ Calm k e

theorem uintSucc_of_small {x : ℕ} (h : x + 1 < 2 ^ 31) : uintSucc x = x + 1 := by
  unfold uintSucc
  omega

theorem CalmStep.ticks {k' : Kernel} {e : Event} (h : CalmStep k e k') (he : e.isTick = true) :
    k'.ticks = k.ticks + 1 := by
  rw [(step_frame h.1).2, if_pos he, uintSucc_of_small (h.2.small he)]

theorem asInt_of_small {x : ℕ} (h : x < 2 ^ 31) : asInt x = x := by
  unfold asInt
  rw [Int.bmod_eq_of_le] <;> omega

/-- The state of the wait of slot `i` since the boost at tick `t`. -/
structure Contest (t i : ℕ) (k : Kernel) : Prop where
  inv : MlfqInv k
  aligned : t % 48 = 0
  since : t ≤ k.ticks
  before : k.ticks < t + 48
  small : k.ticks < 2 ^ 31
  /-- Its own place. -/
  place : ∃ p, k.proc[i]? = some p ∧ p.state = .runnable ∧ p.queue = 0 ∧ p.enterTime = (t : ℤ)
  /-- Nobody has entered a queue before the boost. -/
  entered : ∀ (j : ℕ) (p : Proc), k.proc[j]? = some p →
    p.state = .runnable ∨ p.state = .used → (t : ℤ) ≤ p.enterTime
  /-- Whoever runs is in queue 0. -/
  top : ∀ (j : ℕ) (p : Proc), k.proc[j]? = some p → p.state = .running → p.queue = 0
  /-- Every tick since the boost has used up one of those ahead. -/
  count : k.ticks = t ∨
    (k.inProcess → (ahead t i k).card + (k.ticks - t) ≤ 46) ∧
    (ahead t i k).card + (k.ticks - t) ≤ 47

/-! ### One step of the wait -/

section

variable {t i : ℕ} {k k' : Kernel} {e : Event}

/-- Between two boosts, nobody joins those ahead. -/
theorem ahead_subset (h : step .mlfq k e = some k') (hown : Owned k)
    (hnb : e.isTick = true → k'.ticks % 48 ≠ 0) (hsmall : k'.ticks < 2 ^ 31)
    (hne : k'.ticks ≠ t) : ahead t i k' ⊆ ahead t i k := by
  intro j hj
  obtain ⟨p', hp', hst, hq, hent, hlt⟩ := mem_ahead.mp hj
  obtain ⟨p, hp, hsched⟩ := step_sched h hown hp'
  -- an entry time set in this step is not `t`
  have hnew : p'.enterTime = asInt k'.ticks → False := by
    intro hnow
    rw [hent, asInt_of_small hsmall] at hnow
    exact hne (by exact_mod_cast hnow.symm)
  cases hsched with
  | kept _ _ hst' hplace =>
    obtain ⟨hq', -, hent'⟩ := hplace
    exact mem_ahead.mpr ⟨p, hp, by rwa [← hst'], by rwa [← hq'], by rwa [← hent'], hlt⟩
  | readied _ hu _ hplace =>
    obtain ⟨hq', -, hent'⟩ := hplace
    exact mem_ahead.mpr ⟨p, hp, .inr hu, by rwa [← hq'], by rwa [← hent'], hlt⟩
  | boosted he hb => exact absurd hb (hnb he)
  | woken _ _ _ _ hnow _ | demoted _ _ _ _ _ _ _ _ _ hnow | preempted _ _ _ _ _ _ _ _ _ _ hnow
  | allocated _ _ _ _ _ hnow => exact (hnew hnow).elim
  | ran _ _ _ _ hr | slept _ _ _ hr | dispatched _ _ _ _ hr | freed _ _ hr | exited _ _ _ hr =>
    simp [hr] at hst

/-- Entry times do not go back behind the boost. -/
theorem entered_step (h : step .mlfq k e = some k') (hown : Owned k)
    (hsmall : k'.ticks < 2 ^ 31) (hge : t ≤ k'.ticks)
    (hent : ∀ (j : ℕ) (p : Proc), k.proc[j]? = some p →
      p.state = .runnable ∨ p.state = .used → (t : ℤ) ≤ p.enterTime)
    (j : ℕ) (p' : Proc) (hp' : k'.proc[j]? = some p')
    (hst : p'.state = .runnable ∨ p'.state = .used) : (t : ℤ) ≤ p'.enterTime := by
  obtain ⟨p, hp, hsched⟩ := step_sched h hown hp'
  have hnew : p'.enterTime = asInt k'.ticks → (t : ℤ) ≤ p'.enterTime := by
    intro hnow
    rw [hnow, asInt_of_small hsmall]
    exact_mod_cast hge
  cases hsched with
  | kept _ _ hst' hplace =>
    rw [hplace.2.2]
    exact hent j p hp (by rwa [← hst'])
  | readied _ hu _ hplace =>
    rw [hplace.2.2]
    exact hent j p hp (.inr hu)
  | boosted _ _ _ _ _ _ hnow | woken _ _ _ _ hnow _ | demoted _ _ _ _ _ _ _ _ _ hnow
  | preempted _ _ _ _ _ _ _ _ _ _ hnow | allocated _ _ _ _ _ hnow => exact hnew hnow
  | ran _ _ _ _ hr | slept _ _ _ hr | dispatched _ _ _ _ hr | freed _ _ hr | exited _ _ _ hr =>
    simp [hr] at hst

/-- While the contest lasts, a dispatch picks from queue 0. -/
theorem Contest.top_step (hc : Contest t i k) (h : step .mlfq k e = some k')
    (j : ℕ) (p' : Proc) (hp' : k'.proc[j]? = some p') (hrun : p'.state = .running) :
    p'.queue = 0 := by
  obtain ⟨p, hp, hsched⟩ := step_sched h hc.inv.owned hp'
  cases hsched with
  | kept _ _ hst hplace =>
    rw [hplace.1]
    exact hc.top j p hp (by rwa [← hst])
  | boosted _ _ _ _ hq => exact hq
  | ran _ _ _ hr _ hq =>
    rw [hq]
    exact hc.top j p hp hr
  | dispatched _ _ hscan _ _ hplace =>
    obtain ⟨w, hw, hwrun, hwq, -⟩ := hc.place
    obtain ⟨r, hr, -, hmin⟩ := scanMlfq_isNext hscan
    rw [hp] at hr
    injection hr with hr
    subst hr
    rw [hplace.1]
    rcases hmin i w hw hwrun with hlt | ⟨heq, -⟩ <;> omega
  | woken _ hr | demoted _ _ _ _ hr | preempted _ _ _ _ hr | slept _ _ _ hr | allocated _ _ hr
  | freed _ _ hr | readied _ _ hr | exited _ _ _ hr => simp [hr] at hrun

/-- The waiting process keeps its place. -/
theorem Contest.place_step (hc : Contest t i k) (h : step .mlfq k e = some k')
    (hnb : e.isTick = true → k'.ticks % 48 ≠ 0) (hwait : Waiting i k') :
    ∃ p, k'.proc[i]? = some p ∧ p.state = .runnable ∧ p.queue = 0 ∧ p.enterTime = (t : ℤ) := by
  obtain ⟨p', hp', hst'⟩ := hwait
  obtain ⟨p, hp, hsched⟩ := step_sched h hc.inv.owned hp'
  obtain ⟨w, hw, hst, hq, hent⟩ := hc.place
  rw [hp] at hw
  injection hw with hw
  subst hw
  refine ⟨p', hp', hst', ?_⟩
  cases hsched with
  | kept _ _ _ hplace => exact ⟨by rw [hplace.1, hq], by rw [hplace.2.2, hent]⟩
  | boosted he hb => exact absurd hb (hnb he)
  | woken hs | ran _ _ _ hs | demoted _ _ _ hs | preempted _ _ _ hs | slept _ hs
  | allocated _ hs | freed _ hs | readied _ hs | exited _ hs => simp [hst] at hs
  | dispatched _ _ _ _ hs => simp [hst'] at hs

/-- A dispatch other than of slot `i` takes one of those ahead. -/
theorem Contest.dispatch_mem (hc : Contest t i k) {j : ℕ} (hscan : scanMlfq k.proc = some j)
    (hji : j ≠ i) : j ∈ ahead t i k := by
  obtain ⟨w, hw, hwrun, hwq, hwent⟩ := hc.place
  obtain ⟨p, hp, hrun, hmin⟩ := scanMlfq_isNext hscan
  have hent := hc.entered j p hp (.inl hrun)
  rcases hmin i w hw hwrun with hlt | ⟨hq, hlt | ⟨heq, hle⟩⟩
  · omega
  · omega
  · exact mem_ahead.mpr ⟨p, hp, .inl hrun, by omega, by omega, by omega⟩

/-- A tick takes the CPU away from whoever has it: in queue 0 a slice is one tick. -/
theorem Contest.tick_leaves (hc : Contest t i k) (h : step .mlfq k e = some k')
    (he : e.isTick = true) (hnb : k'.ticks % 48 ≠ 0) {r : ℕ} (hk : k.mode = .running r) :
    ¬ k'.inProcess := by
  obtain ⟨p, hp⟩ := hc.inv.inTable r (myproc_of_running hk)
  have hrun := (hc.inv.owned r p hp).mpr (myproc_of_running hk)
  have hq := hc.top r p hp hrun
  obtain ⟨p', hp', hslot⟩ := step_slot h hp
  have hlimit : sliceLimit p.queue = 1 := by
    rw [hq]
    rfl
  intro hin
  obtain ⟨l, hl⟩ := hin
  cases hslot.sched (hc.inv.owned r p hp) (step_frame h).2 with
  | kept hnot => exact hnot he hrun
  | boosted _ hb => exact hnb hb
  | woken hs => simp [hrun] at hs
  | ran _ _ _ _ _ _ hs _ hend =>
    rcases hend with ⟨hexit, -⟩ | ⟨-, hlim⟩
    · simp [hl] at hexit
    · omega
  | demoted _ _ _ _ _ hnone | preempted _ _ _ _ _ hnone => simp [myproc_of_running hl] at hnone
  | slept hf | dispatched hf | allocated hf | freed hf | readied hf | exited hf => simp [he] at hf

/-- With 48 processes at most 46 are ahead while another one runs. -/
theorem Contest.few_ahead (hc : Contest t i k) (hfew : live k ≤ 48) {r : ℕ}
    (hk : k.mode = .running r) : (ahead t i k).card ≤ 46 := by
  obtain ⟨w, hw, hwrun, -⟩ := hc.place
  obtain ⟨p, hp⟩ := hc.inv.inTable r (myproc_of_running hk)
  have hrun := (hc.inv.owned r p hp).mpr (myproc_of_running hk)
  have hi : i ∉ ahead t i k := by
    intro h
    obtain ⟨-, -, -, -, -, hlt⟩ := mem_ahead.mp h
    omega
  have hr : r ∉ insert i (ahead t i k) := by
    intro h
    rcases Finset.mem_insert.mp h with rfl | h
    · rw [hp] at hw
      injection hw with hw
      rw [hw, hwrun] at hrun
      cases hrun
    · obtain ⟨q, hq, hst, -⟩ := mem_ahead.mp h
      rw [hp] at hq
      injection hq with hq
      rw [← hq, hrun] at hst
      simp at hst
  have hsub : insert r (insert i (ahead t i k)) ⊆ slots k (·.state ≠ .unused) := by
    intro j hj
    rcases Finset.mem_insert.mp hj with rfl | hj
    · exact mem_slots.mpr ⟨p, hp, by simp [hrun]⟩
    rcases Finset.mem_insert.mp hj with rfl | hj
    · exact mem_slots.mpr ⟨w, hw, by simp [hwrun]⟩
    · obtain ⟨q, hq, hst, -⟩ := mem_ahead.mp hj
      exact mem_slots.mpr ⟨q, hq, by rcases hst with h | h <;> simp [h]⟩
  have hcard := Finset.card_le_card hsub
  rw [Finset.card_insert_of_notMem hr, Finset.card_insert_of_notMem hi, card_slots] at hcard
  have hlive : live k = k.proc.countP (·.state ≠ .unused) := rfl
  omega

/-- The timer interrupts the scheduler or a process that runs. -/
theorem tick_mode {pol : Policy} (h : step pol k e = some k') (he : e.isTick = true) :
    (∃ start, k.mode = .scheduler start) ∨ ∃ r, k.mode = .running r := by
  cases step_cases h with
  | idleTick user hk => exact .inl ⟨0, hk⟩
  | @killedTick j hk hkill | @tick j user hk hkill => exact .inr ⟨j, hk⟩
  | _ => cases he

/-- A tick uses up one of those ahead, and so the next boost is not reached. -/
theorem Contest.tick (hc : Contest t i k) (h : CalmStep k e k') (he : e.isTick = true)
    (hwait : Waiting i k) (hwait' : Waiting i k') : Contest t i k' := by
  have hticks := h.ticks he
  obtain ⟨hstep, hcalm⟩ := h
  obtain ⟨r, hk⟩ : ∃ r, k.mode = .running r := by
    rcases tick_mode hstep he with ⟨start, hk⟩ | hr
    · exact absurd hwait (hcalm.tickRuns he start hk i)
    · exact hr
  have hsmall := hcalm.small he
  have hsince := hc.since
  have hbefore := hc.before
  have haligned := hc.aligned
  -- how many are ahead before the tick
  have hahead : (ahead t i k).card + (k.ticks - t) ≤ 46 := by
    rcases hc.count with heq | ⟨hin, -⟩
    · have := hc.few_ahead hcalm.few hk
      omega
    · exact hin ⟨r, hk⟩
  have hnb : k'.ticks % 48 ≠ 0 := by omega
  have hsub : ahead t i k' ⊆ ahead t i k :=
    ahead_subset hstep hc.inv.owned (fun _ => hnb) (by omega) (by omega)
  have hcard := Finset.card_le_card hsub
  have hleaves := hc.tick_leaves hstep he hnb hk
  refine ⟨hc.inv.step hstep, haligned, by omega, by omega, by omega,
    hc.place_step hstep (fun _ => hnb) hwait',
    entered_step hstep hc.inv.owned (by omega) (by omega) hc.entered,
    hc.top_step hstep, .inr ⟨fun hin => absurd hin hleaves, by omega⟩⟩

/-- Between ticks the count only goes down, and it does when a process is
dispatched. -/
theorem Contest.untimed (hc : Contest t i k) (hstep : step .mlfq k e = some k')
    (he : e.isTick = false) (hwait' : Waiting i k') : Contest t i k' := by
  have hticks : k'.ticks = k.ticks := by
    rw [(step_frame hstep).2, he]
    rfl
  have hnb : e.isTick = true → k'.ticks % 48 ≠ 0 := by simp [he]
  have hsmall := hc.small
  refine ⟨hc.inv.step hstep, hc.aligned, by rw [hticks]; exact hc.since,
    by rw [hticks]; exact hc.before, by rw [hticks]; exact hsmall,
    hc.place_step hstep hnb hwait',
    entered_step hstep hc.inv.owned (by omega) (by rw [hticks]; exact hc.since) hc.entered,
    hc.top_step hstep, ?_⟩
  by_cases ht : k'.ticks = t
  · exact .inl ht
  rcases hc.count with heq | ⟨hin, hle⟩
  · omega
  have hsub : ahead t i k' ⊆ ahead t i k :=
    ahead_subset hstep hc.inv.owned hnb (by omega) ht
  have hcard := Finset.card_le_card hsub
  refine .inr ⟨fun hin' => ?_, by omega⟩
  obtain ⟨l, hl⟩ := hin'
  rcases step_cpu hstep with hm | hm | ⟨start, j, -, -, hsel, hk'⟩ | ⟨j, -, -, hm⟩
  · have := hin ⟨l, by rw [← hm, hl]⟩
    omega
  · simp [myproc_of_running hl] at hm
  · obtain ⟨p, hp, -⟩ := scanMlfq_isNext hsel
    have hj : k'.proc[j]? = some { p with state := .running } := by
      rw [hk']
      exact Kernel.slot_modify_self _ hp
    have hji : j ≠ i := by
      rintro rfl
      obtain ⟨q, hq, hqrun⟩ := hwait'
      rw [hj] at hq
      injection hq with hq
      rw [← hq] at hqrun
      cases hqrun
    have hmem := hc.dispatch_mem hsel hji
    have hnot : j ∉ ahead t i k' := by
      intro h
      obtain ⟨q, hq, hst, -⟩ := mem_ahead.mp h
      rw [hj] at hq
      injection hq with hq
      rw [← hq] at hst
      simp at hst
    have hlt := Finset.card_lt_card (Finset.ssubset_iff_subset_ne.mpr
      ⟨hsub, fun heq => hnot (heq ▸ hmem)⟩)
    omega
  · simp [hl] at hm

theorem Contest.step (hc : Contest t i k) (h : CalmStep k e k') (hwait : Waiting i k)
    (hwait' : Waiting i k') : Contest t i k' := by
  cases he : e.isTick with
  | true => exact hc.tick h he hwait hwait'
  | false => exact hc.untimed h.1 he hwait'

/-- The contest starts at a boost. -/
theorem Contest.start (hinv : MlfqInv k) (h : CalmStep k e k') (he : e.isTick = true)
    (hb : k'.ticks % 48 = 0) (hwait : Waiting i k') : Contest k'.ticks i k' := by
  have hsmall : k'.ticks < 2 ^ 31 := by
    rw [h.ticks he]
    exact h.2.small he
  have hstep := h.1
  -- every process has just been boosted
  have hboosted : ∀ (j : ℕ) (p' : Proc), k'.proc[j]? = some p' → p'.state ≠ .unused →
      p'.queue = 0 ∧ p'.enterTime = (k'.ticks : ℤ) := by
    intro j p' hp' hlive
    obtain ⟨p, hp, hsched⟩ := step_sched hstep hinv.owned hp'
    cases hsched with
    | kept _ hunused hst _ =>
      rw [hst, hunused he hb] at hlive
      exact absurd rfl hlive
    | boosted _ _ _ _ hq _ hent => exact ⟨hq, by rw [hent, asInt_of_small hsmall]⟩
    | woken _ _ _ _ _ hnb => exact absurd hb (hnb he)
    | ran _ hnb | demoted _ hnb | preempted _ hnb => exact absurd hb hnb
    | slept hf | dispatched hf | allocated hf | freed hf | readied hf | exited hf => simp [he] at hf
  obtain ⟨p', hp', hrun⟩ := hwait
  obtain ⟨hq, hent⟩ := hboosted i p' hp' (by simp [hrun])
  refine ⟨hinv.step hstep, hb, le_rfl, by omega, hsmall, ⟨p', hp', hrun, hq, hent⟩, ?_, ?_,
    .inl rfl⟩
  · intro j q hjq hst
    have := (hboosted j q hjq (by rcases hst with h | h <;> simp [h])).2
    omega
  · intro j q hjq hst
    exact (hboosted j q hjq (by simp [hst])).1

/-- **With 48 processes nobody waits from boost to boost.**  Take a run of calm
steps up to a boost, in `k`, and then on to another tick, in `k'`, with the
process in slot `i` runnable and waiting in every state from `k` to `k'`.  Then
the tick that ends it is not a boost. -/
theorem no_starvation {es₀ es : List Event} {u₀ u : Bool} {k₀ k k' : Kernel} {i : ℕ}
    (hrun : Run CalmStep boot es₀ k₀) (htick : CalmStep k₀ (.tick u₀) k)
    (hboost : k.ticks % 48 = 0)
    (hwait : Run (fun a e b => CalmStep a e b ∧ Waiting i a ∧ Waiting i b) k
      (es ++ [.tick u]) k') : k'.ticks % 48 ≠ 0 := by
  have hinv : MlfqInv k₀ := mlfqInv_of_run (hrun.mono fun _ _ _ h => h.1)
  obtain ⟨m, hwait, hlast⟩ := hwait.exists_of_append
  cases hlast with
  | cons hlast hnil =>
    cases hnil
    obtain ⟨hstep, hm, hk'⟩ := hlast
    have hwaits : Waiting i k := by
      cases hwait with
      | nil => exact hm
      | cons h _ => exact h.2.1
    have hc := hwait.invariant (I := Contest k.ticks i)
      (fun _ _ _ hc h => hc.step h.1 h.2.1 h.2.2) (.start hinv htick rfl hboost hwaits)
    have hc' := hc.step hstep hm hk'
    have hticks := hstep.ticks rfl
    have hsince := hc.since
    have hbefore := hc'.before
    omega

end

/-! ### Concrete runs -/

/-- The first process runs and forks `n` children. -/
def crowd (n : ℕ) : List Event :=
  .schedule :: (List.range n).flatMap fun j => [.kforkBegin true true, .kforkEnd (j + 1)]

/-- Every process only computes: `n` times a tick and the dispatch after it. -/
def busy (n : ℕ) : List Event := (List.replicate n [.tick true, .schedule]).flatten

/-- The slot `i` is waiting. -/
def waits (i : ℕ) (k : Kernel) : Bool := k.proc[i]?.any (·.state = .runnable)

theorem waits_iff {i : ℕ} : waits i k = true ↔ Waiting i k := by
  simp [waits, Waiting, Option.any_eq_true]

/-- A step of `f` during which the slot `i` waits. -/
def waitStep (f : Kernel → Event → Option Kernel) (i : ℕ) (k : Kernel) (e : Event) :
    Option Kernel :=
  if waits i k then (f k e).filter (waits i) else none

theorem run_waitStep {f : Kernel → Event → Option Kernel} {i : ℕ} {k' : Kernel} {es : List Event}
    (h : es.foldlM (waitStep f i) k = some k') :
    Run (fun a e b => f a e = some b ∧ Waiting i a ∧ Waiting i b) k es k' := by
  refine ((run_iff_foldlM _ _ _ _).mpr h).mono fun a e b hab => ?_
  unfold waitStep at hab
  split at hab
  · rename_i ha
    obtain ⟨hstep, hb⟩ := Option.filter_eq_some_iff.mp hab
    exact ⟨hstep, waits_iff.mp ha, waits_iff.mp hb⟩
  · cases hab

/-- The condition, as a test. -/
def calm (k : Kernel) (e : Event) : Bool :=
  live k ≤ 48 &&
    (!e.isTick ||
      (k.myproc.isSome || k.proc.all (·.state ≠ .runnable)) && k.ticks + 1 < 2 ^ 31)

theorem calm_spec {e : Event} (h : calm k e = true) : Calm k e := by
  simp only [calm, Bool.and_eq_true, Bool.or_eq_true, decide_eq_true_eq] at h
  obtain ⟨hfew, htick⟩ := h
  refine ⟨hfew, fun he start hk i hi => ?_, fun he => ?_⟩
  · rcases htick with hno | ⟨hrun | hidle, -⟩
    · simp [he] at hno
    · simp [Kernel.myproc, hk] at hrun
    · obtain ⟨p, hp, hst⟩ := hi
      have := List.all_eq_true.mp hidle p (List.mem_of_getElem? hp)
      simp [hst] at this
  · rcases htick with hno | ⟨-, hsmall⟩
    · simp [he] at hno
    · exact hsmall

/-- A calm step, as a function. -/
def calmStep (k : Kernel) (e : Event) : Option Kernel :=
  if calm k e then step .mlfq k e else none

theorem calmStep_spec {k' : Kernel} {e : Event} (h : calmStep k e = some k') :
    CalmStep k e k' := by
  unfold calmStep at h
  split at h
  · rename_i hcalm
    exact ⟨h, calm_spec hcalm⟩
  · cases h

/-- Two processes sleep through the first 47 ticks; then both are woken and the
first one runs. -/
def nap : List Event :=
  crowd 1 ++ [.sleepPrepare (.addr 0), .sleep, .schedule, .sleepPrepare (.addr 0), .sleep] ++
    List.replicate 47 (.tick true) ++ [.wakeup (.addr 0), .schedule]

/-- With two processes, the one that waits at the boost at tick 48 is still
waiting at tick 49. -/
theorem no_starvation_two : ∃ k₀ k k' : Kernel,
    Run CalmStep boot nap k₀ ∧ CalmStep k₀ (.tick true) k ∧ k.ticks = 48 ∧
      Run (fun a e b => CalmStep a e b ∧ Waiting 1 a ∧ Waiting 1 b) k ([] ++ [.tick true]) k' ∧
      k'.ticks = 49 ∧ k'.ticks % 48 ≠ 0 := by
  have heval : ((nap.foldlM calmStep boot).bind fun k₀ =>
      (calmStep k₀ (.tick true)).bind fun k =>
        (([] ++ [.tick true] : List Event).foldlM (waitStep calmStep 1) k).map
          fun k' => (k.ticks, k'.ticks)) = some (48, 49) := by
    decide +kernel
  obtain ⟨k₀, hk₀, heval⟩ := Option.bind_eq_some_iff.mp heval
  obtain ⟨k, hk, heval⟩ := Option.bind_eq_some_iff.mp heval
  obtain ⟨k', hk', hticks⟩ := Option.map_eq_some_iff.mp heval
  injection hticks with ht ht'
  have hrun : Run CalmStep boot nap k₀ :=
    ((run_iff_foldlM _ _ _ _).mpr hk₀).mono fun _ _ _ h => calmStep_spec h
  have hwait : Run (fun a e b => CalmStep a e b ∧ Waiting 1 a ∧ Waiting 1 b) k
      ([] ++ [.tick true]) k' :=
    (run_waitStep hk').mono fun _ _ _ h => ⟨calmStep_spec h.1, h.2⟩
  exact ⟨k₀, k, k', hrun, calmStep_spec hk, ht, hwait, ht',
    no_starvation hrun (calmStep_spec hk) (by rw [ht]) hwait⟩

/-- With 49 processes that only compute, the last one waits from the boost at
tick 48 through the boost at tick 96. -/
theorem starvation : ∃ (k₀ k k' : Kernel),
    Run (Step .mlfq) boot (crowd 48 ++ busy 47) k₀ ∧ Step .mlfq k₀ (.tick true) k ∧
      k.ticks % 48 = 0 ∧
      Run (fun a e b => Step .mlfq a e b ∧ Waiting 48 a ∧ Waiting 48 b) k
        (busy 47 ++ [.tick true]) k' ∧ k'.ticks % 48 = 0 := by
  have heval : (((crowd 48 ++ busy 47).foldlM (step .mlfq) boot).bind fun k₀ =>
      (step .mlfq k₀ (.tick true)).bind fun k =>
        ((busy 47 ++ [.tick true] : List Event).foldlM (waitStep (step .mlfq) 48) k).map
          fun k' => (k.ticks, k'.ticks)) = some (48, 96) := by
    decide +kernel
  obtain ⟨k₀, hk₀, heval⟩ := Option.bind_eq_some_iff.mp heval
  obtain ⟨k, hk, heval⟩ := Option.bind_eq_some_iff.mp heval
  obtain ⟨k', hk', hticks⟩ := Option.map_eq_some_iff.mp heval
  injection hticks with ht ht'
  exact ⟨k₀, k, k', (run_iff_foldlM _ _ _ _).mpr hk₀, hk, by rw [ht], run_waitStep hk',
    by rw [ht']⟩

end Xv6
end RuShell
