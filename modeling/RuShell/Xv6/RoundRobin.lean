import RuShell.Xv6.Starvation

/-!
# The round-robin scheduler is fair

The default `scheduler` of `xv6/kernel/proc.c` walks over the table and goes on behind
the process that it has run.  While a process waits, no slot gets the CPU twice:
the slots behind the one that waits come first, each once and in order, then those
in front of it, and then it is its own turn.  So whatever the processes do, at most
`NPROC - 1` dispatches pass it over.

## Main results

* `step_cursor` — only `scheduler` itself moves the cursor.
* `rr_fair` — while a process waits, no slot is picked twice.
-/

namespace RuShell
namespace Xv6

open Lib

/-- Where the loop of `scheduler` goes on. -/
def Kernel.cursor (k : Kernel) : ℕ :=
  match k.mode with
  | .scheduler start => start
  | .running i => i + 1
  | .exiting i => i + 1

/-- The slot that the step `e` gives the CPU to. -/
def picked (k : Kernel) (e : Event) : Option ℕ :=
  match k.mode, e with
  | .scheduler start, .schedule => scanRr k.proc start
  | _, _ => none

/-- A step of the round-robin kernel after which the slot `w` waits, beside the slots
picked so far. -/
def turn (w : ℕ) (s : Kernel × List ℕ) (e : Event) : Option (Kernel × List ℕ) :=
  ((step .rr s.1 e).filter (waits w)).map fun k => (k, s.2 ++ (picked s.1 e).toList)

variable {k k' : Kernel} {e : Event} {w j start : ℕ} {procs : List Proc}

theorem cursor_of_mode (h : k'.mode = k.mode) : k'.cursor = k.cursor := by
  unfold Kernel.cursor
  rw [h]

theorem cursor_sleep (hk : k.cursor = j + 1) : (sleep .rr k j).cursor = k.cursor := by
  unfold sleep
  split
  · rfl
  · rw [hk]
    rfl

/-- **Only `scheduler` moves the cursor**: whoever gives the CPU up, hands it to the loop
where it has left it. -/
theorem step_cursor (h : step .rr k e = some k') :
    picked k e = none ∧ k'.cursor = k.cursor ∨
      k.mode = .scheduler k.cursor ∧ e = .schedule ∧ k' = schedule .rr k k.cursor := by
  have hpicked : e ≠ .schedule → picked k e = none := by
    intro he
    unfold picked
    split
    · exact absurd rfl he
    · rfl
  have hcursor : ∀ {i}, k.myproc = some i → k.cursor = i + 1 := by
    intro i hcpu
    unfold Kernel.myproc at hcpu
    unfold Kernel.cursor
    split at hcpu <;> cases hcpu <;> simp [*]
  cases step_cases h with
  | @schedule start hk =>
    have hcur : k.cursor = start := by rw [Kernel.cursor, hk]
    exact .inr ⟨hcur ▸ hk, rfl, hcur ▸ rfl⟩
  | idleTick user hk => exact .inl ⟨hpicked nofun, by simp [Kernel.cursor, hk]⟩
  | killedTick hk hkill =>
    exact .inl ⟨hpicked nofun, (hcursor (myproc_of_running hk)).symm⟩
  | tick user hk hkill => exact .inl ⟨hpicked nofun, (hcursor (myproc_of_running hk)).symm⟩
  | sleep hcpu => exact .inl ⟨hpicked nofun, cursor_sleep (hcursor hcpu)⟩
  | kforkBegin mem copy hk =>
    exact .inl ⟨hpicked nofun, cursor_of_mode (kforkBegin_mode k _ mem copy)⟩
  | kexit status hcpu hinit => exact .inl ⟨hpicked nofun, (hcursor hcpu).symm⟩
  | kwait copied hk => exact .inl ⟨hpicked nofun, cursor_of_mode (kwait_mode k _ copied)⟩
  | _ => exact .inl ⟨hpicked nofun, rfl⟩

/-- The scan does not pass over a slot that may run. -/
theorem le_of_scanRr {p : Proc} (hw : procs[w]? = some p) (hp : p.state = .runnable)
    (hstart : start ≤ w) : ∃ j, scanRr procs start = some j ∧ j ≤ w := by
  have hlen := (List.getElem?_eq_some_iff.mp hw).1
  have hle : (procs.drop start).findIdx (·.state = .runnable) ≤ w - start := by
    by_contra hlt
    have hnot := List.not_of_lt_findIdx (not_le.mp hlt)
    simp only [List.getElem_drop, Nat.add_sub_cancel' hstart] at hnot
    rw [(List.getElem?_eq_some_iff.mp hw).2, hp] at hnot
    cases hnot
  exact ⟨_, if_pos (by omega), by omega⟩

theorem le_of_scanRr_eq (h : scanRr procs start = some j) : start ≤ j ∧ j < procs.length := by
  simp only [scanRr] at h
  split at h <;> cases h
  exact ⟨Nat.le_add_right _ _, ‹_›⟩

/-- The slots picked while the slot `w` waits: first those behind it, then those in front
of it, each in the order of the table. -/
structure Queue (w : ℕ) (k : Kernel) (picks : List ℕ) : Prop where
  size : k.proc.length = nproc
  waiting : Waiting w k
  nodup : picks.Nodup
  inTable : ∀ j ∈ picks, j < nproc
  order : ∀ j ∈ picks, if k.cursor ≤ w then j < k.cursor ∨ w < j else w < j ∧ j < k.cursor

variable {picks : List ℕ}

theorem Queue.notMem (h : Queue w k picks) : w ∉ picks := by
  intro hw
  have := h.order w hw
  split at this <;> omega

/-- `scheduler` picks a slot that has not been picked since `w` waits. -/
theorem Queue.pick (h : Queue w k picks) (hj : scanRr k.proc k.cursor = some j)
    (hcur : k'.cursor = j + 1) (hsize : k'.proc.length = nproc) (hw : Waiting w k') (hne : j ≠ w) :
    Queue w k' (picks ++ [j]) := by
  obtain ⟨hstart, htable⟩ := le_of_scanRr_eq hj
  rw [h.size] at htable
  -- the scan does not go past `w`
  have hnext : k.cursor ≤ w → j < w := by
    intro hle
    obtain ⟨p, hp, hrun⟩ := h.waiting
    obtain ⟨j', hj', hle'⟩ := le_of_scanRr hp hrun hle
    rw [hj, Option.some.injEq] at hj'
    omega
  have hnew : j ∉ picks := by
    intro hmem
    have := h.order j hmem
    split at this <;> omega
  refine ⟨hsize, hw, List.Nodup.append h.nodup (List.nodup_singleton j) (by simpa using hnew),
    ?_, ?_⟩ <;> simp only [hcur, List.mem_append, List.mem_singleton]
  · rintro i (hi | rfl)
    · exact h.inTable i hi
    · exact htable
  · rintro i (hi | rfl)
    · have := h.order i hi
      split_ifs at this ⊢ <;> omega
    · split_ifs <;> omega

/-- The walk over the table ends behind `w` and starts again. -/
theorem Queue.wrap (h : Queue w k picks) (hnone : scanRr k.proc k.cursor = none)
    (hcur : k'.cursor = 0) (hsize : k'.proc.length = nproc) (hw : Waiting w k') :
    Queue w k' picks := by
  refine ⟨hsize, hw, h.nodup, h.inTable, fun j hj => ?_⟩
  by_cases hle : k.cursor ≤ w
  · obtain ⟨p, hp, hrun⟩ := h.waiting
    obtain ⟨i, hi, -⟩ := le_of_scanRr hp hrun hle
    rw [hnone] at hi
    cases hi
  · have := h.order j hj
    rw [if_neg hle] at this
    rw [hcur, if_pos (Nat.zero_le w)]
    exact .inr this.1

theorem Queue.step (h : Queue w k picks) (hstep : step .rr k e = some k') (hw : Waiting w k') :
    Queue w k' (picks ++ (picked k e).toList) := by
  have hsize : k'.proc.length = nproc := (step_frame hstep).1.trans h.size
  rcases step_cursor hstep with ⟨hnone, hcur⟩ | ⟨hk, rfl, hk'⟩
  · rw [hnone, Option.toList_none, List.append_nil]
    exact ⟨hsize, hw, h.nodup, h.inTable, hcur ▸ h.order⟩
  · simp only [picked, hk]
    unfold schedule at hk'
    cases hj : scanRr k.proc k.cursor with
    | some j =>
      rw [show select .rr k.proc k.cursor = some j from hj] at hk'
      refine h.pick hj (by rw [hk']; rfl) hsize hw ?_
      -- the slot that is picked does not wait any more
      rintro rfl
      obtain ⟨p, hp, hrun⟩ := hw
      obtain ⟨q, hq, -⟩ := h.waiting
      rw [hk', Kernel.slot_modify_self _ hq, Option.some.injEq] at hp
      rw [← hp] at hrun
      cases hrun
    | none =>
      rw [show select .rr k.proc k.cursor = none from hj] at hk'
      rw [Option.toList_none, List.append_nil]
      exact h.wrap hj (by rw [hk']; rfl) hsize hw

/-- **Round robin is fair.**  Take any run of the round-robin kernel and any stretch of it
during which the slot `w` waits: no slot is given the CPU twice, nor is `w`, so there are
fewer than `NPROC` dispatches before it is the turn of `w`. -/
theorem rr_fair {es es' : List Event} (hrun : Run (Step .rr) boot es k) (hwait : Waiting w k)
    (hturns : Run (fun s e s' => turn w s e = some s') (k, []) es' (k', picks)) :
    picks.Nodup ∧ w ∉ picks ∧ picks.length < nproc := by
  have hsize : k.proc.length = nproc :=
    hrun.invariant (I := fun k => k.proc.length = nproc)
      (fun a e b ha hstep => (step_frame hstep).1.trans ha) rfl
  have hqueue : Queue w k' picks := by
    refine hturns.invariant (I := fun s => Queue w s.1 s.2) (fun s e s' hs hturn => ?_)
      ⟨hsize, hwait, List.nodup_nil, by simp, by simp⟩
    obtain ⟨k₁, hfilter, rfl⟩ := Option.map_eq_some_iff.mp hturn
    obtain ⟨hstep, hwaits⟩ := Option.filter_eq_some_iff.mp hfilter
    exact hs.step hstep (waits_iff.mp hwaits)
  refine ⟨hqueue.nodup, hqueue.notMem, ?_⟩
  -- `w` and the slots picked are different places of the table
  have hsub : (w :: picks).toFinset ⊆ Finset.range nproc := by
    obtain ⟨p, hp, -⟩ := hqueue.waiting
    intro j hj
    rw [Finset.mem_range]
    rcases List.mem_cons.mp (List.mem_toFinset.mp hj) with rfl | hj
    · exact hqueue.size ▸ (List.getElem?_eq_some_iff.mp hp).1
    · exact hqueue.inTable j hj
  have hcard := Finset.card_le_card hsub
  rwa [List.toFinset_card_of_nodup (List.nodup_cons.mpr ⟨hqueue.notMem, hqueue.nodup⟩),
    List.length_cons, Finset.card_range] at hcard

/-- The second of two children waits while the first one has its turn. -/
theorem rr_fair_two : ∃ k k' picks, Run (Step .rr) boot (crowd 2) k ∧ Waiting 2 k ∧
    Run (fun s e s' => turn 2 s e = some s') (k, []) (busy 1) (k', picks) ∧
    picks = [1] ∧ 2 ∉ picks := by
  have heval : (((crowd 2).foldlM (step .rr) boot).bind fun k =>
      ((busy 1).foldlM (turn 2) (k, [])).map fun s => (waits 2 k, s.2)) = some (true, [1]) := by
    decide +kernel
  obtain ⟨k, hk, heval⟩ := Option.bind_eq_some_iff.mp heval
  obtain ⟨⟨k', picks⟩, hturns, hpicks⟩ := Option.map_eq_some_iff.mp heval
  injection hpicks with hwaits hpicks
  have hrun : Run (Step .rr) boot (crowd 2) k := (run_iff_foldlM _ _ _ _).mpr hk
  have hrun' := (run_iff_foldlM _ _ _ _).mpr hturns
  exact ⟨k, k', picks, hrun, waits_iff.mp hwaits, hrun', hpicks,
    (rr_fair hrun (waits_iff.mp hwaits) hrun').2.1⟩

end Xv6
end RuShell
