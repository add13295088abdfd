import RuShell.Xv6.Proc
import RuShell.Lib.Locks

/-!
# The locks of the selection scans

The scans of the MLFQ and the FIFO `scheduler` of `xv6/kernel/proc.c` with the locks they
take.  A scan takes the lock of every slot in turn.  It keeps the lock of the best slot
so far and gives every other one back; a better slot makes it give back the lock it has
carried along and keep the new one, past the `release` at the end of the body.

`Proc` has the scans without locks; the ones here choose the same slot.

## Main definitions

* `scanLocked` — the loop, for any test and key; `scanQueueLocked` and `scanFifoLocked` are
  the scans of the source.
* `selectLocked` — up to the call of `swtch`.
* `schedulerPass` — one round of the endless loop of `scheduler`.

## Main results

* `scanLocked_spec` — the invariant of the loop.
* `scans_keep_lock_discipline` — **every scan takes the locks in the order of the table
  and ends with the lock of the slot it has chosen, or with none**.
* `schedulerPasses_sound` — any number of rounds, whatever the tables hold.
-/

namespace RuShell
namespace Xv6

open Lib

variable {β : Type} [LinearOrder β]

/-! ### The scans -/

/-- `best_p == 0 || p->key < best_p->key` -/
def improves (key : Proc → β) (best : Option (ℕ × Proc)) (p : Proc) : Bool :=
  match best with
  | none => true
  | some b => key p < key b.2

/-- `if (best_p) release(&best_p->lock);` -/
def releaseBest (best : Option (ℕ × Proc)) (c : Cpu ℕ) : Except Panic (Cpu ℕ) :=
  match best with
  | none => .ok c
  | some b => release c b.1

/-- The loop over the table from the slot `i` on; `best` is `best_p`. -/
def scanLocked (ok : Proc → Bool) (key : Proc → β) :
    List Proc → ℕ → Option (ℕ × Proc) → Cpu ℕ → Except Panic (Option (ℕ × Proc) × Cpu ℕ)
  | [], _, best, c => .ok (best, c)
  | p :: procs, i, best, c => do
    let c ← acquire c i
    if ok p && improves key best p then
      let c ← releaseBest best c
      scanLocked ok key procs (i + 1) (some (i, p)) c
    else
      let c ← release c i
      scanLocked ok key procs (i + 1) best c

/-- One pass of the MLFQ scheduler over the table, for the queue `q`. -/
def scanQueueLocked (q : ℕ) (procs : List Proc) (c : Cpu ℕ) :
    Except Panic (Option ℕ × Cpu ℕ) := do
  let (best, c) ← scanLocked (inQueue q) Proc.enterTime procs 0 none c
  .ok (best.map Prod.fst, c)

/-- The pass of the FIFO scheduler. -/
def scanFifoLocked (procs : List Proc) (c : Cpu ℕ) : Except Panic (Option ℕ × Cpu ℕ) := do
  let (best, c) ← scanLocked (fun p => p.state = .runnable) Proc.ctime procs 0 none c
  .ok (best.map Prod.fst, c)

/-- The loop over the queues, left for `swtch` at the first one with a candidate. -/
def scanQueuesLocked (procs : List Proc) : List ℕ → Cpu ℕ → Except Panic (Option ℕ × Cpu ℕ)
  | [], c => .ok (none, c)
  | q :: queues, c => do
    let (best, c) ← scanQueueLocked q procs c
    match best with
    | some i => .ok (some i, c)
    | none => scanQueuesLocked procs queues c

/-- The loop of the round robin scheduler from the slot `i` on, left for `swtch` at the
first slot that can run. -/
def scanRrLocked : List Proc → ℕ → Cpu ℕ → Except Panic (Option ℕ × Cpu ℕ)
  | [], _, c => .ok (none, c)
  | p :: procs, i, c => do
    let c ← acquire c i
    if p.state = .runnable then .ok (some i, c)
    else
      let c ← release c i
      scanRrLocked procs (i + 1) c

/-- The scans of `scheduler` up to its call of `swtch`, for the slot it has chosen. -/
def selectLocked (pol : Policy) (procs : List Proc) (start : ℕ) (c : Cpu ℕ) :
    Except Panic (Option ℕ × Cpu ℕ) :=
  match pol with
  | .rr => scanRrLocked (procs.drop start) start c
  | .fifo => scanFifoLocked procs c
  | .mlfq => scanQueuesLocked procs (List.range 4) c

/-- From one scan of `scheduler` to the next.  The process it switches to comes back by
`sched`, which insists on the one lock that `swtch` was entered with. -/
def schedulerPass (pol : Policy) (procs : List Proc) (start : ℕ) (c : Cpu ℕ) :
    Except Panic (Cpu ℕ) := do
  let (best, c) ← selectLocked pol procs start c
  match best with
  | none => .ok c
  | some i => release c i

/-! ### What a scan ends with -/

/-- How a scan of `n` slots that chooses `best` leaves the processor. -/
structure Ends (c : Cpu ℕ) (best : Option ℕ) (n : ℕ) (c' : Cpu ℕ) : Prop where
  sound : c'.Sound
  held : c'.held = best.toList
  taken : c'.taken = c.taken ++ List.range n

section Scan

variable {ok : Proc → Bool} {key : Proc → β} {best : Option (ℕ × Proc)} {i : ℕ} {c : Cpu ℕ}

theorem firstMin_cons_of_pos {p : Proc} (procs : List Proc)
    (h : (ok p && improves key best p) = true) :
    firstMin ok key (p :: procs) i best = firstMin ok key procs (i + 1) (some (i, p)) := by
  rw [Bool.and_eq_true] at h
  cases best with
  | none => simp only [firstMin, h.1, if_true]
  | some b =>
    have hlt : key p < key b.2 := of_decide_eq_true h.2
    simp only [firstMin, h.1, hlt, if_true]

theorem firstMin_cons_of_neg {p : Proc} (procs : List Proc)
    (h : (ok p && improves key best p) = false) :
    firstMin ok key (p :: procs) i best = firstMin ok key procs (i + 1) best := by
  cases hok : ok p with
  | false => cases best <;> simp [firstMin, hok]
  | true =>
    rw [hok, Bool.true_and] at h
    cases best with
    | none => cases h
    | some b =>
      have hle : ¬ key p < key b.2 := of_decide_eq_false h
      simp only [firstMin, hok, hle, if_true, if_false]

/-- Giving back the lock that has been carried along, with the next one in hand. -/
theorem releaseBest_spec (hc : c.Sound) (hheld : c.held = i :: (best.map Prod.fst).toList)
    (hbest : ∀ b ∈ best, b.1 < i) :
    Returns (releaseBest best c) fun c' => c'.Sound ∧ c'.held = [i] ∧ c'.taken = c.taken := by
  cases best with
  | none => exact .ok ⟨hc, hheld, rfl⟩
  | some b =>
    have hlt : b.1 < i := hbest b rfl
    have hmem : b.1 ∈ c.held := by
      rw [hheld]
      exact List.mem_cons_of_mem _ (List.mem_singleton_self _)
    refine (release_spec hc hmem).mono fun c' hc' => ⟨hc'.1, ?_, hc'.2.2⟩
    have hne : ¬ (i == b.1) = true := by
      rw [beq_iff_eq]
      omega
    rw [hc'.2.1, hheld, List.erase_cons_tail hne]
    exact congrArg (i :: ·) (List.erase_cons_head b.1 [])

/-- **The invariant of a scan**: between two rounds the processor holds the lock of the
best slot so far, and no other. -/
theorem scanLocked_spec (procs : List Proc) (hc : c.Sound)
    (hheld : c.held = (best.map Prod.fst).toList) (hbest : ∀ b ∈ best, b.1 < i) :
    Returns (scanLocked ok key procs i best c) fun r =>
      r.1 = firstMin ok key procs i best ∧ r.2.Sound ∧
        r.2.held = (r.1.map Prod.fst).toList ∧
        r.2.taken = c.taken ++ List.range' i procs.length := by
  induction procs generalizing i best c with
  | nil =>
    refine .ok ⟨rfl, hc, hheld, ?_⟩
    rw [List.length_nil, List.range'_zero, List.append_nil]
  | cons p procs ih =>
    have hfree : i ∉ c.held := by
      rw [hheld]
      intro hmem
      obtain ⟨b, hb, hbi⟩ := Option.map_eq_some_iff.mp (Option.mem_toList.mp hmem)
      exact absurd (hbest b hb) (by omega)
    have htaken : ∀ {c₁ c₂ : Cpu ℕ}, c₁.taken = c.taken ++ [i] → c₂.taken = c₁.taken →
        c₂.taken ++ List.range' (i + 1) procs.length =
          c.taken ++ List.range' i (p :: procs).length := by
      intro c₁ c₂ h₁ h₂
      rw [h₂, h₁, List.length_cons, List.range'_succ, List.append_assoc, List.singleton_append]
    rw [scanLocked]
    refine (acquire_spec hc hfree).bind fun c₁ hc₁ => ?_
    obtain ⟨hsound, hheld₁, htaken₁⟩ := hc₁
    rw [hheld] at hheld₁
    cases htest : ok p && improves key best p with
    | true =>
      -- the lock of the slot is kept and the one carried along is given back
      refine (releaseBest_spec hsound hheld₁ hbest).bind fun c₂ hc₂ => ?_
      obtain ⟨hsound₂, hheld₂, htaken₂⟩ := hc₂
      have hlast : ∀ b ∈ some (i, p), b.1 < i + 1 := by
        rintro b ⟨⟩
        exact Nat.lt_succ_self i
      rw [firstMin_cons_of_pos procs htest, ← htaken htaken₁ htaken₂]
      exact ih hsound₂ hheld₂ hlast
    | false =>
      have hmem : i ∈ c₁.held := hheld₁ ▸ List.mem_cons_self
      refine (release_spec hsound hmem).bind fun c₂ hc₂ => ?_
      obtain ⟨hsound₂, hheld₂, htaken₂⟩ := hc₂
      rw [hheld₁, List.erase_cons_head] at hheld₂
      rw [firstMin_cons_of_neg procs htest, ← htaken htaken₁ htaken₂]
      exact ih hsound₂ hheld₂ fun b hb => Nat.lt_succ_of_lt (hbest b hb)

/-- A whole scan of a table, from a processor without locks. -/
theorem scanLocked_ends (procs : List Proc) (hc : c.Sound) (hheld : c.held = []) :
    Returns (scanLocked ok key procs 0 none c) fun r =>
      r.1 = firstMin ok key procs 0 none ∧ Ends c (r.1.map Prod.fst) procs.length r.2 := by
  have hnone : c.held = ((none : Option (ℕ × Proc)).map Prod.fst).toList := hheld
  refine Returns.mono (scanLocked_spec procs hc hnone fun b hb => (by cases hb)) fun r hr => ?_
  obtain ⟨hbest, hsound, hheld', htaken⟩ := hr
  exact ⟨hbest, hsound, hheld', by rw [htaken, List.range_eq_range']⟩

end Scan

section Scans

variable {procs : List Proc} {c : Cpu ℕ}

theorem scanQueueLocked_spec (q : ℕ) (procs : List Proc) (hc : c.Sound) (hheld : c.held = []) :
    Returns (scanQueueLocked q procs c) fun r =>
      r.1 = scanQueue q procs ∧ Ends c (scanQueue q procs) procs.length r.2 := by
  refine (scanLocked_ends procs hc hheld).bind fun r hr => ?_
  obtain ⟨hbest, hends⟩ := hr
  rw [hbest] at hends
  exact .ok ⟨congrArg (Option.map Prod.fst) hbest, hends⟩

theorem scanFifoLocked_spec (procs : List Proc) (hc : c.Sound) (hheld : c.held = []) :
    Returns (scanFifoLocked procs c) fun r =>
      r.1 = scanFifo procs ∧ Ends c (scanFifo procs) procs.length r.2 := by
  refine (scanLocked_ends procs hc hheld).bind fun r hr => ?_
  obtain ⟨hbest, hends⟩ := hr
  rw [hbest] at hends
  exact .ok ⟨congrArg (Option.map Prod.fst) hbest, hends⟩

/-- The queues one after the other: a scan without a candidate gives all locks back. -/
theorem scanQueuesLocked_spec (queues : List ℕ) (procs : List Proc) (hc : c.Sound)
    (hheld : c.held = []) :
    Returns (scanQueuesLocked procs queues c) fun r =>
      r.1 = queues.findSome? (fun q => scanQueue q procs) ∧ r.2.Sound ∧
        r.2.held = r.1.toList := by
  induction queues generalizing c with
  | nil => exact .ok ⟨rfl, hc, hheld⟩
  | cons q queues ih =>
    rw [scanQueuesLocked]
    refine (scanQueueLocked_spec q procs hc hheld).bind fun r hr => ?_
    obtain ⟨best, c'⟩ := r
    obtain ⟨rfl, hends⟩ := hr
    rw [List.findSome?_cons]
    cases hq : scanQueue q procs with
    | some i =>
      rw [hq] at hends
      exact .ok ⟨rfl, hends.sound, hends.held⟩
    | none =>
      rw [hq] at hends
      exact ih hends.sound hends.held

/-- The round robin scheduler holds no lock but that of the slot it looks at. -/
theorem scanRrLocked_spec (procs : List Proc) (i : ℕ) (hc : c.Sound) (hheld : c.held = []) :
    Returns (scanRrLocked procs i c) fun r =>
      r.1 = (if procs.findIdx (·.state = .runnable) < procs.length then
        some (i + procs.findIdx (·.state = .runnable)) else none) ∧
      r.2.Sound ∧ r.2.held = r.1.toList := by
  induction procs generalizing i c with
  | nil => exact .ok ⟨rfl, hc, hheld⟩
  | cons p procs ih =>
    rw [scanRrLocked]
    refine (acquire_spec hc (by rw [hheld]; exact List.not_mem_nil)).bind fun c₁ hc₁ => ?_
    obtain ⟨hsound₁, hheld₁, -⟩ := hc₁
    rw [hheld] at hheld₁
    by_cases hp : p.state = .runnable
    · rw [if_pos hp, List.findIdx_cons]
      simp only [hp, decide_true, cond_true, Nat.add_zero, List.length_cons, Nat.zero_lt_succ,
        if_true]
      exact .ok ⟨rfl, hsound₁, hheld₁⟩
    · rw [if_neg hp, List.findIdx_cons]
      simp only [hp, decide_false, cond_false, List.length_cons, Nat.succ_lt_succ_iff]
      refine (release_spec hsound₁ (hheld₁ ▸ List.mem_cons_self)).bind fun c₂ hc₂ => ?_
      obtain ⟨hsound₂, hheld₂, -⟩ := hc₂
      rw [hheld₁, List.erase_cons_head] at hheld₂
      have hnext := ih (i + 1) hsound₂ hheld₂
      rwa [Nat.add_right_comm, Nat.add_assoc] at hnext

/-- `swtch` is entered with the lock of the slot it is called for. -/
theorem selectLocked_spec (pol : Policy) (procs : List Proc) (start : ℕ) (hc : c.Sound)
    (hheld : c.held = []) :
    Returns (selectLocked pol procs start c) fun r =>
      r.1 = select pol procs start ∧ r.2.Sound ∧ r.2.held = r.1.toList := by
  cases pol with
  | rr =>
    refine (scanRrLocked_spec (procs.drop start) start hc hheld).mono fun r hr => ?_
    refine ⟨hr.1.trans ?_, hr.2⟩
    simp only [select, scanRr, List.length_drop]
    have hbound : (procs.drop start).findIdx (·.state = .runnable) < procs.length - start ↔
        start + (procs.drop start).findIdx (·.state = .runnable) < procs.length := by omega
    simp only [hbound]
  | fifo =>
    refine (scanFifoLocked_spec procs hc hheld).mono fun r hr => ?_
    obtain ⟨hbest, hends⟩ := hr
    exact ⟨hbest, hends.sound, hbest ▸ hends.held⟩
  | mlfq => exact scanQueuesLocked_spec (List.range 4) procs hc hheld

end Scans

/-! ### The discipline -/

/-- A processor without locks, in any state of its interrupts. -/
def idle (intr intena : Bool) : Cpu ℕ := { intr := intr, intena := intena }

theorem sound_idle (intr intena : Bool) : (idle intr intena).Sound :=
  ⟨rfl, fun h => absurd rfl h⟩

/-- **The scans keep the lock discipline.**  On every table and from a processor without
locks, each scan of a queue and the scan of the FIFO scheduler runs without a panic,
takes each lock of the table once and in the order of the table, and chooses the slot
that the scan without locks does; it ends with exactly the lock of that slot, or with
none.  So `swtch` is entered with one lock and `noff` equal to 1, with interrupts off. -/
theorem scans_keep_lock_discipline (procs : List Proc) (intr intena : Bool) :
    (∀ q, ∃ c, scanQueueLocked q procs (idle intr intena) = .ok (scanQueue q procs, c) ∧
      c.taken = List.range procs.length ∧ c.held = (scanQueue q procs).toList ∧
      c.noff = (scanQueue q procs).toList.length) ∧
    (∃ c, scanFifoLocked procs (idle intr intena) = .ok (scanFifo procs, c) ∧
      c.taken = List.range procs.length ∧ c.held = (scanFifo procs).toList ∧
      c.noff = (scanFifo procs).toList.length) ∧
    ∀ pol start, ∃ c,
      selectLocked pol procs start (idle intr intena) = .ok (select pol procs start, c) ∧
      ∀ i, select pol procs start = some i → c.held = [i] ∧ c.noff = 1 ∧ c.intr = false := by
  have hidle := sound_idle intr intena
  refine ⟨fun q => ?_, ?_, fun pol start => ?_⟩
  · obtain ⟨⟨best, c⟩, hr, rfl, hends⟩ := scanQueueLocked_spec q procs hidle rfl
    exact ⟨c, hr, hends.taken, hends.held, hends.held ▸ hends.sound.noff⟩
  · obtain ⟨⟨best, c⟩, hr, rfl, hends⟩ := scanFifoLocked_spec procs hidle rfl
    exact ⟨c, hr, hends.taken, hends.held, hends.held ▸ hends.sound.noff⟩
  · obtain ⟨⟨best, c⟩, hr, rfl, hsound, hheld⟩ := selectLocked_spec pol procs start hidle rfl
    refine ⟨c, hr, fun i hi => ?_⟩
    have hone : c.held = [i] := hheld.trans (congrArg Option.toList hi)
    refine ⟨hone, ?_, hsound.intr (by rw [hone]; exact List.cons_ne_nil i [])⟩
    rw [hsound.noff, hone]
    rfl

/-- A round of `scheduler` ends as it has begun, without locks. -/
theorem schedulerPass_spec {c : Cpu ℕ} (pol : Policy) (procs : List Proc) (start : ℕ)
    (hc : c.Sound) (hheld : c.held = []) :
    Returns (schedulerPass pol procs start c) fun c' => c'.Sound ∧ c'.held = [] := by
  refine (selectLocked_spec pol procs start hc hheld).bind fun r hr => ?_
  obtain ⟨best, c'⟩ := r
  obtain ⟨-, hsound, hheld'⟩ := hr
  cases best with
  | none => exact .ok ⟨hsound, hheld'⟩
  | some i =>
    have hmem : i ∈ c'.held := by
      rw [hheld']
      exact List.mem_singleton_self i
    refine (release_spec hsound hmem).mono fun c'' hc'' => ⟨hc''.1, ?_⟩
    rw [hc''.2.1, hheld']
    exact List.erase_cons_head i []

/-- **Any number of rounds** goes without a panic, whatever the scheduler finds in the
table from one to the next. -/
theorem schedulerPasses_sound {c : Cpu ℕ} (pol : Policy) (scans : List (List Proc × ℕ))
    (hc : c.Sound) (hheld : c.held = []) :
    Returns (scans.foldlM (fun c scan => schedulerPass pol scan.1 scan.2 c) c) fun c' =>
      c'.Sound ∧ c'.held = [] := by
  induction scans generalizing c with
  | nil => exact .ok ⟨hc, hheld⟩
  | cons scan scans ih =>
    rw [List.foldlM_cons]
    refine (schedulerPass_spec pol scan.1 scan.2 hc hheld).bind fun c' hc' => ?_
    exact ih hc'.1 hc'.2

end Xv6
end RuShell
