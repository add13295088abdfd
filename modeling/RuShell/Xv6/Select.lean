import RuShell.Lib.Run
import RuShell.Xv6.Slot

/-!
# Selection, and runs from `boot`

What the three versions of `scheduler` have in common: whatever they switch to is
a runnable process of the table.  So the process that has the CPU is always in
the table.

## Main results

* `exists_of_select` — every scheduler picks a runnable process.
* `step_inTable` — the process that has the CPU is in the table.
* `boot_proc`, `boot_owned` — the table after `userinit`.
-/

namespace RuShell
namespace Xv6

open Lib

/-- The steps of a kernel, as a relation. -/
def Step (pol : Policy) (k : Kernel) (e : Event) (k' : Kernel) : Prop := step pol k e = some k'

/-! ### Selection -/

theorem inQueue_iff {q : ℕ} {p : Proc} :
    inQueue q p = true ↔ p.state = .runnable ∧ p.queue = q := by
  simp [inQueue]

variable {procs : List Proc}

theorem scanQueue_eq_some {q j : ℕ} (h : scanQueue q procs = some j) :
    ∃ p, IsFirstMin (inQueue q) Proc.enterTime procs j p :=
  exists_isFirstMin h

theorem scanFifo_eq_some {j : ℕ} (h : scanFifo procs = some j) :
    ∃ p, IsFirstMin (fun p => p.state = .runnable) Proc.ctime procs j p :=
  exists_isFirstMin h

theorem scanRr_eq_some {start j : ℕ} (h : scanRr procs start = some j) :
    ∃ p, procs[j]? = some p ∧ p.state = .runnable := by
  simp only [scanRr] at h
  split at h
  · rename_i hlt
    injection h with h
    subst h
    have hlt' : (procs.drop start).findIdx (·.state = .runnable) < (procs.drop start).length := by
      rw [List.length_drop]
      omega
    have hfound := List.findIdx_getElem (w := hlt')
    rw [List.getElem_drop] at hfound
    exact ⟨_, List.getElem?_eq_getElem hlt, of_decide_eq_true hfound⟩
  · cases h

/-- **Every scheduler picks a runnable process.** -/
theorem exists_of_select {pol : Policy} {start j : ℕ} (h : select pol procs start = some j) :
    ∃ p, procs[j]? = some p ∧ p.state = .runnable := by
  cases pol with
  | rr => exact scanRr_eq_some h
  | fifo =>
    obtain ⟨p, hp, hok, -⟩ := scanFifo_eq_some h
    exact ⟨p, hp, of_decide_eq_true hok⟩
  | mlfq =>
    obtain ⟨q, -, hscan, -⟩ := findSome?_range h
    obtain ⟨p, hp, hok, -⟩ := scanQueue_eq_some hscan
    exact ⟨p, hp, (inQueue_iff.mp hok).1⟩

theorem runnable_of_select {pol : Policy} {start j : ℕ} {p : Proc}
    (h : select pol procs start = some j) (hp : procs[j]? = some p) : p.state = .runnable := by
  obtain ⟨q, hq, hrun⟩ := exists_of_select h
  rw [hp] at hq
  injection hq with hq
  rw [hq]
  exact hrun

/-! ### Runs -/

section

variable {pol : Policy} {k k' : Kernel} {e : Event} {i : ℕ} {p : Proc}

/-- The process that has the CPU is in the table. -/
theorem step_inTable (hstep : step pol k e = some k')
    (h : ∀ i, k.myproc = some i → ∃ p, k.proc[i]? = some p) :
    ∀ i, k'.myproc = some i → ∃ p, k'.proc[i]? = some p := by
  intro i hi
  have hold : ∃ p, k.proc[i]? = some p := by
    rcases step_cpu hstep with hm | hm | ⟨start, j, -, -, hsel, rfl⟩ | ⟨j, hm, -, hm'⟩
    · exact h i (by rw [Kernel.myproc, ← hm]; exact hi)
    · rw [hm] at hi
      cases hi
    · injection hi with hi
      subst hi
      obtain ⟨p, hp, -⟩ := exists_of_select hsel
      exact ⟨p, hp⟩
    · rw [Kernel.myproc, hm'] at hi
      exact h i (by rw [Kernel.myproc, hm]; exact hi)
  obtain ⟨p, hp⟩ := hold
  obtain ⟨p', hp', -⟩ := step_slot hstep hp
  exact ⟨p', hp'⟩

/-- The table after `userinit`: one process, and free slots. -/
theorem boot_proc (h : boot.proc[i]? = some p) :
    i = 0 ∧ p = { pid := 1, state := .runnable } ∨ p = {} := by
  cases i with
  | zero =>
    injection h with h
    exact .inl ⟨rfl, h.symm⟩
  | succ i =>
    simp only [boot, List.getElem?_cons_succ, List.getElem?_replicate] at h
    split at h
    · injection h with h
      exact .inr h.symm
    · cases h

theorem boot_slot (h : boot.proc[i]? = some p) :
    (p.state = .runnable ∨ p.state = .unused) ∧ p.queue = 0 ∧ p.ticksInSlice = 0 := by
  rcases boot_proc h with ⟨-, rfl⟩ | rfl
  · exact ⟨.inl rfl, rfl, rfl⟩
  · exact ⟨.inr rfl, rfl, rfl⟩

theorem boot_owned : Owned boot := by
  intro i p hp
  rcases (boot_slot hp).1 with h | h <;> simp [h, Kernel.myproc, boot]

end

end Xv6
end RuShell
