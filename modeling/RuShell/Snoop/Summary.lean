import RuShell.Snoop.Histogram
import RuShell.Lib.Comparator

/-!
# The summary of `snoop`

`print_summary` sorts the table with `compare_stats` and prints it.  The comparison takes
the difference of two counts and returns it as an `int`.  Two counts that differ by a
multiple of 2 ^ 32 it takes for equal, without looking at the order of the slots, and half
way in between it takes the smaller count for the larger one.

## Main definitions

* `Before` — the order that the summary is meant to have.
* `Near` — what is left of a difference has its sign.

## Main results

* `compareStats_sign` — the signs of the comparison.
* `summary_in_order` — **the comparison is a strict total order, and every sort with it
  prints the summary in that order**, exactly if any two slots are near.
* `compareStats_wraps` — two tables for which it is not.
* `traced_summary_in_order` — the summary of a trace of less than 2 ^ 31 calls.
-/

namespace RuShell
namespace Snoop

open Lib (Orders Sorts)

variable {τ δ : Type} {a b : SyscallStat δ}

/-- More calls come first, and of two slots with as many the one that was used first. -/
def Before (a b : SyscallStat δ) : Prop :=
  b.calls < a.calls ∨ (a.calls = b.calls ∧ a.firstOrder < b.firstOrder)

instance : IsStrictOrder (SyscallStat δ) Before where
  irrefl a h := by
    rcases h with h | h
    · exact lt_irrefl _ h
    · exact lt_irrefl _ h.2
  trans a b c hab hbc := by
    unfold Before at *
    omega

instance (a b : SyscallStat δ) : Decidable (Before a b) :=
  inferInstanceAs (Decidable (_ ∨ _))

/-- The lowest 32 bits of a difference are those of a positive `int`. -/
def StaysPositive (d : ℤ) : Prop := 0 < d % 2 ^ 32 ∧ d % 2 ^ 32 < 2 ^ 31

instance (d : ℤ) : Decidable (StaysPositive d) := inferInstanceAs (Decidable (_ ∧ _))

/-- Where the first slot has more calls than the second, or as many and the greater rank,
the `int` that is left of the difference is still positive. -/
def Near (a b : SyscallStat δ) : Prop :=
  (b.calls < a.calls → StaysPositive (a.calls - b.calls)) ∧
    (a.calls = b.calls ∧ b.firstOrder < a.firstOrder →
      StaysPositive (a.firstOrder - b.firstOrder))

theorem wrap_pos_iff (d : ℤ) : 0 < wrap 32 d ↔ StaysPositive d := by
  unfold wrap StaysPositive
  rw [Int.bmod_def]
  split <;> omega

/-- The sign of a difference that is cut to an `int`. -/
theorem wrap_sign {x y : ℤ} (hxy : y < x → StaysPositive (x - y))
    (hyx : x < y → StaysPositive (y - x)) :
    (wrap 32 (x - y) < 0 ↔ x < y) ∧ (0 < wrap 32 (x - y) ↔ y < x) := by
  unfold StaysPositive at hxy hyx
  unfold wrap
  rw [Int.bmod_def]
  split <;> omega

theorem compareStats_of_ne (hne : a.calls ≠ b.calls) :
    compareStats a b = wrap 32 (b.calls - a.calls) := by
  rw [compareStats, if_pos hne, wrap, wrap, Int.bmod_bmod_of_dvd (by norm_num), wrap]

theorem compareStats_of_eq (heq : a.calls = b.calls) :
    compareStats a b = wrap 32 (a.firstOrder - b.firstOrder) :=
  if_neg (not_not.mpr heq)

theorem compareStats_sign (hab : Near a b) (hba : Near b a) :
    (compareStats a b < 0 ↔ Before a b) ∧ (0 < compareStats a b ↔ Before b a) := by
  unfold Before
  by_cases heq : a.calls = b.calls
  · obtain ⟨hneg, hpos⟩ := wrap_sign (fun h => hab.2 ⟨heq, h⟩) (fun h => hba.2 ⟨heq.symm, h⟩)
    rw [compareStats_of_eq heq]
    omega
  · obtain ⟨hneg, hpos⟩ := wrap_sign hba.1 hab.1
    rw [compareStats_of_ne heq]
    omega

/-- Where the comparison is positive, the slots are near. -/
theorem near_of_pos (hab : Before a b → 0 < compareStats b a)
    (hba : Before b a → 0 < compareStats a b) : Near a b := by
  constructor
  · intro hlt
    have hpos := hab (.inl hlt)
    rwa [compareStats_of_ne (by omega), wrap_pos_iff] at hpos
  · rintro ⟨heq, hlt⟩
    have hpos := hba (.inr ⟨heq.symm, hlt⟩)
    rwa [compareStats_of_eq heq, wrap_pos_iff] at hpos

section Table

variable {l : List (SyscallStat δ)}

/-- Different slots come one before the other. -/
theorem before_total (hdistinct : (l.map (·.firstOrder)).Nodup)
    (ha : a ∈ l) (hb : b ∈ l) (hab : a ≠ b) : Before a b ∨ Before b a := by
  have horder : a.firstOrder ≠ b.firstOrder := by
    intro heq
    exact hab (List.inj_on_of_nodup_map hdistinct ha hb heq)
  unfold Before
  omega

theorem orders_compareStats (hdistinct : (l.map (·.firstOrder)).Nodup)
    (hnear : ∀ a ∈ l, ∀ b ∈ l, Near a b) : Orders compareStats l :=
  .of_sign (r := Before) (fun _ ha _ hb hab => before_total hdistinct ha hb hab)
    (fun a ha b hb => (compareStats_sign (hnear a ha b hb) (hnear b hb a ha)).1)
    fun a ha b hb => (compareStats_sign (hnear a ha b hb) (hnear b hb a ha)).2

/-- Whatever way `qsort` sorts, the rows stand in the order of the summary. -/
theorem printSummary_rows (hdistinct : (l.map (·.firstOrder)).Nodup)
    (hnear : ∀ a ∈ l, ∀ b ∈ l, Near a b)
    {qsort : List (SyscallStat δ) → (SyscallStat δ → SyscallStat δ → ℤ) → List (SyscallStat δ)}
    (hsort : Sorts qsort) (fixed : δ → Str) (counter : ℤ) :
    ∃ o : List (SyscallStat δ), o.Perm l ∧ o.Pairwise Before ∧
      printSummary qsort fixed ⟨l, counter⟩ =
        "syscall       calls   time\n".toList ++ o.flatMap (summaryRow fixed) := by
  have horders := orders_compareStats hdistinct hnear
  obtain ⟨hperm, hpair⟩ := hsort.pairwise_neg horders (hdistinct.of_map _)
  refine ⟨qsort l compareStats, hperm, ?_, rfl⟩
  refine hpair.imp_of_mem fun {a b} ha hb hab => ?_
  have ha := hperm.mem_iff.mp ha
  have hb := hperm.mem_iff.mp hb
  exact (compareStats_sign (hnear a ha b hb) (hnear b hb a ha)).1.mp hab

/-- **When the summary is printed in its order.**  `compare_stats` is a strict total order
that puts more calls first and of as many the first used, and whatever way `qsort` sorts
with it, the rows of the summary stand in that order: exactly if any two slots are near. -/
theorem summary_in_order (hdistinct : (l.map (·.firstOrder)).Nodup) :
    (Orders compareStats l ∧
      (∀ a ∈ l, ∀ b ∈ l, compareStats a b < 0 ↔ Before a b) ∧
      ∀ qsort, Sorts qsort → ∀ (fixed : δ → Str) (counter : ℤ),
        ∃ o : List (SyscallStat δ), o.Perm l ∧ o.Pairwise Before ∧
          printSummary qsort fixed ⟨l, counter⟩ =
            "syscall       calls   time\n".toList ++ o.flatMap (summaryRow fixed)) ↔
      ∀ a ∈ l, ∀ b ∈ l, Near a b := by
  constructor
  · rintro ⟨horders, hneg, -⟩ a ha b hb
    apply near_of_pos
    · intro h
      exact (horders.antisymm a ha b hb).mp ((hneg a ha b hb).mpr h)
    · intro h
      exact (horders.antisymm b hb a ha).mp ((hneg b hb a ha).mpr h)
  · intro hnear
    refine ⟨orders_compareStats hdistinct hnear, ?_, ?_⟩
    · intro a ha b hb
      exact (compareStats_sign (hnear a ha b hb) (hnear b hb a ha)).1
    · intro qsort hsort fixed counter
      exact printSummary_rows hdistinct hnear hsort fixed counter

end Table

instance (a b : SyscallStat δ) : Decidable (Near a b) := inferInstanceAs (Decidable (_ ∧ _))

/-- Three calls of `read`, five of `write` and five of `close`. -/
def readWriteClose : List (SyscallStat ℕ) := [⟨0, 3, 0, 0⟩, ⟨1, 5, 0, 1⟩, ⟨3, 5, 0, 2⟩]

theorem summary_in_order_readWriteClose :
    Orders compareStats readWriteClose ∧
      (compareStats (⟨1, 5, 0, 1⟩ : SyscallStat ℕ) ⟨3, 5, 0, 2⟩ < 0 ↔
        Before (⟨1, 5, 0, 1⟩ : SyscallStat ℕ) ⟨3, 5, 0, 2⟩) := by
  have h := (summary_in_order (l := readWriteClose) (by decide)).mpr (by decide)
  exact ⟨h.1, h.2.1 _ (by decide) _ (by decide)⟩

/-- Counts that differ by 2 ^ 32 compare as equal, counts that differ by more than 2 ^ 31
the wrong way round, and three counts can go round in a circle. -/
theorem compareStats_wraps :
    compareStats (⟨0, 2 ^ 32 + 1, 0, 0⟩ : SyscallStat ℕ) ⟨1, 1, 0, 1⟩ = 0 ∧
    0 < compareStats (⟨0, 3000000000, 0, 0⟩ : SyscallStat ℕ) ⟨1, 1, 0, 1⟩ ∧
    (compareStats (⟨0, 3000000000, 0, 0⟩ : SyscallStat ℕ) ⟨1, 1500000000, 0, 1⟩ < 0 ∧
      compareStats (⟨1, 1500000000, 0, 1⟩ : SyscallStat ℕ) ⟨2, 0, 0, 2⟩ < 0 ∧
      compareStats (⟨2, 0, 0, 2⟩ : SyscallStat ℕ) ⟨0, 3000000000, 0, 0⟩ < 0) := by
  decide

/-! ### After a trace -/

section Traced

variable [Zero δ] [Add δ] {done : List (ℤ × δ)} {s : Stats δ}

theorem Tallies.nodup_firstOrder (h : Tallies done s) : (s.slots.map (·.firstOrder)).Nodup := by
  rw [h.ranks]
  exact List.nodup_range.map fun a b hab => Int.ofNat.inj hab

/-- The numbers in a slot, if there are not too many calls. -/
theorem Tallies.bounds (h : Tallies done s) (hcalls : done.length < 2 ^ 31)
    (hroom : s.slots.length ≤ maxSyscalls) {st : SyscallStat δ} (hst : st ∈ s.slots) :
    (0 ≤ st.calls ∧ st.calls < 2 ^ 31) ∧ 0 ≤ st.firstOrder ∧ st.firstOrder < 2 ^ 31 := by
  have hle : (durations done st.sysNo).length ≤ done.length := by
    rw [durations, List.length_map]
    exact List.length_filter_le _ _
  have horder : st.firstOrder ∈ (List.range s.slots.length).map Int.ofNat := by
    rw [← h.ranks]
    exact List.mem_map_of_mem hst
  obtain ⟨k, hk, hkeq⟩ := List.mem_map.mp horder
  rw [List.mem_range] at hk
  have hkeq : (k : ℤ) = st.firstOrder := hkeq
  rw [(h.exact st hst).calls_eq (by omega)]
  unfold maxSyscalls at hroom
  omega

/-- **The summary of a trace** of less than 2 ^ 31 calls is in order. -/
theorem traced_summary_in_order (timespecDiff : τ → τ → δ) (t : τ) (stops : List (Stop τ))
    (after : List (Round τ)) (halt : alternates false stops = true)
    (hroom : ((completed timespecDiff none stops).map Prod.fst).toFinset.card ≤ maxSyscalls)
    (hcalls : (completed timespecDiff none stops).length < 2 ^ 31)
    {qsort : List (SyscallStat δ) → (SyscallStat δ → SyscallStat δ → ℤ) → List (SyscallStat δ)}
    (hsort : Sorts qsort) (fixed : δ → Str) :
    let r := traceLoop timespecDiff (stops.map Stop.round ++ .terminated :: after)
      ({ entryTime := t } : Trace τ δ)
    ∃ o : List (SyscallStat δ), o.Perm r.stats.slots ∧ o.Pairwise Before ∧
      printSummary qsort fixed r.stats =
        "syscall       calls   time\n".toList ++ o.flatMap (summaryRow fixed) := by
  intro r
  obtain ⟨htallies, -⟩ := traceLoop_tallies stops after (inStep_start t) halt hroom
  rw [List.nil_append] at htallies
  have hlen : r.stats.slots.length ≤ maxSyscalls := by
    rw [htallies.length_eq]
    exact hroom
  have hnear : ∀ a ∈ r.stats.slots, ∀ b ∈ r.stats.slots, Near a b := by
    intro a ha b hb
    have hba := htallies.bounds hcalls hlen ha
    have hbb := htallies.bounds hcalls hlen hb
    unfold Near StaysPositive
    omega
  exact printSummary_rows htallies.nodup_firstOrder hnear hsort fixed r.stats.orderCounter

end Traced

end Snoop
end RuShell
