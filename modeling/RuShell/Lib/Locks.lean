import RuShell.Lib.Slots

/-!
# Spinlocks of one processor

A processor that takes and gives back spinlocks with its interrupts off.  Taking a lock
that it holds, giving back one that it does not hold, and giving back one with interrupts
on are errors that stop the machine.  Other processors are not in the picture: a lock that
one of them holds is waited for.

## Main definitions

* `Cpu`, `Panic` — the processor, and the ways in which it stops.
* `pushOff`, `popOff`, `acquire`, `release` — the operations.
* `Cpu.Sound` — the count of nested calls is the number of locks that are held.

## Main results

* `acquire_spec`, `release_spec` — what the operations do on a sound processor.
-/

namespace RuShell
namespace Lib

variable {ι : Type} [DecidableEq ι]

/-- The errors of the operations. -/
inductive Panic
  /-- A lock is taken by the processor that holds it. -/
  | acquire
  /-- A lock is given back by a processor that does not hold it. -/
  | release
  /-- Interrupts are on where they have to be off. -/
  | interruptible
  /-- More calls of `popOff` than of `pushOff`. -/
  | popOff
  deriving DecidableEq, Repr

/-- A processor and the locks it holds. -/
structure Cpu (ι : Type) where
  /-- The locks it holds, the last one it has taken first. -/
  held : List ι := []
  /-- The depth of `pushOff` nesting. -/
  noff : ℕ := 0
  /-- Were interrupts enabled before the first `pushOff`? -/
  intena : Bool := false
  /-- Are interrupts enabled? -/
  intr : Bool := false
  /-- All locks it has taken, in order. -/
  taken : List ι := []
  deriving DecidableEq, Repr

/-- Interrupts go off, and what they were is remembered by the outermost call. -/
def pushOff (c : Cpu ι) : Cpu ι :=
  { c with
    intr := false
    intena := if c.noff = 0 then c.intr else c.intena
    noff := c.noff + 1 }

/-- The outermost call restores interrupts. -/
def popOff (c : Cpu ι) : Except Panic (Cpu ι) :=
  if c.intr then .error .interruptible
  else if c.noff < 1 then .error .popOff
  else .ok { c with
    noff := c.noff - 1
    intr := if c.noff - 1 = 0 ∧ c.intena = true then true else c.intr }

/-- Take a lock. -/
def acquire (c : Cpu ι) (lk : ι) : Except Panic (Cpu ι) :=
  let c := pushOff c
  if lk ∈ c.held then .error .acquire
  else .ok { c with held := lk :: c.held, taken := c.taken ++ [lk] }

/-- Give a lock back. -/
def release (c : Cpu ι) (lk : ι) : Except Panic (Cpu ι) :=
  if lk ∈ c.held then popOff { c with held := c.held.erase lk } else .error .release

/-- Nothing is counted but the locks that are held, and interrupts are off as long as
there are any. -/
structure Cpu.Sound (c : Cpu ι) : Prop where
  noff : c.noff = c.held.length
  intr : c.held ≠ [] → c.intr = false

variable {c : Cpu ι} {lk : ι}

theorem acquire_spec (hc : c.Sound) (hlk : lk ∉ c.held) :
    Returns (acquire c lk) fun c' =>
      c'.Sound ∧ c'.held = lk :: c.held ∧ c'.taken = c.taken ++ [lk] := by
  have heq : acquire c lk =
      .ok { pushOff c with held := lk :: c.held, taken := c.taken ++ [lk] } := if_neg hlk
  rw [heq]
  refine .ok ⟨⟨?_, fun _ => rfl⟩, rfl, rfl⟩
  change c.noff + 1 = (lk :: c.held).length
  rw [List.length_cons, hc.noff]

theorem release_spec (hc : c.Sound) (hlk : lk ∈ c.held) :
    Returns (release c lk) fun c' =>
      c'.Sound ∧ c'.held = c.held.erase lk ∧ c'.taken = c.taken := by
  have hintr : c.intr = false := hc.intr (List.ne_nil_of_mem hlk)
  have hlen := List.length_erase_of_mem hlk
  have hpos : 0 < c.held.length := List.length_pos_of_mem hlk
  have hnoff : ¬ c.noff < 1 := by
    rw [hc.noff]
    omega
  unfold release
  rw [if_pos hlk, popOff, if_neg (by simp [hintr]), if_neg hnoff]
  refine .ok ⟨⟨?_, ?_⟩, rfl, rfl⟩
  · change c.noff - 1 = (c.held.erase lk).length
    rw [hlen, hc.noff]
  · intro hne
    have hmore : ¬ (c.noff - 1 = 0 ∧ c.intena = true) := by
      rintro ⟨hzero, -⟩
      have hpos' := List.length_pos_iff.mpr hne
      rw [hlen, ← hc.noff] at hpos'
      omega
    change (if c.noff - 1 = 0 ∧ c.intena = true then true else c.intr) = false
    rw [if_neg hmore, hintr]

end Lib
end RuShell
