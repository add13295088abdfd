import Mathlib.Data.Prod.Lex
import RuShell.Hop.History

/-!
# The order behind the score

`find_best_match` packs a frequency and a time into one number and compares the
numbers.  Times that are close to each other weigh less than one visit, so the
packed numbers are ordered like the pairs; and with a frequency of 31 bits they
fit a `long long`.

## Main definitions

* `rank` — the pair behind the score, in lexicographic order.

## Main results

* `toInt_score` — the score is computed without an overflow.
* `score_lt_iff`, `score_le_iff` — **the packing keeps the order of the pairs.**
* `findBestMatch_lexicographic` — **the frecency choice is lexicographic.**
-/

namespace RuShell
namespace Hop

/-- The frequency and the time of an entry, in lexicographic order. -/
def rank (n : HopNode) : ℤ ×ₗ ℤ := toLex (n.freq.toInt, n.lastVisit.toInt)

/-- An entry with at least one visit, at a time of the clock. -/
structure Dated (n : HopNode) : Prop where
  visited : 1 ≤ n.freq.toInt
  pastEpoch : 0 ≤ n.lastVisit.toInt
  bounded : n.lastVisit.toInt ≤ 2 ^ 40

variable {m n : HopNode}

/-- The product does not overflow, whatever the frequency. -/
theorem toInt_weight (n : HopNode) :
    (n.freq.toInt64 * 1000000000).toInt = n.freq.toInt * 1000000000 := by
  have hl := n.freq.le_toInt
  have hu := n.freq.toInt_lt
  rw [Int64.toInt_mul, Int32.toInt_toInt64]
  show (n.freq.toInt * 1000000000).bmod (2 ^ 64) = n.freq.toInt * 1000000000
  apply Int.bmod_eq_of_le
  · omega
  · omega

/-- **The score is computed without an overflow.** -/
theorem toInt_score (h : Dated n) :
    (score n).toInt = n.freq.toInt * 1000000000 + n.lastVisit.toInt := by
  have hu := n.freq.toInt_lt
  have h1 := h.visited
  have h2 := h.pastEpoch
  have h3 := h.bounded
  rw [score, Int64.toInt_add, toInt_weight]
  apply Int.bmod_eq_of_le
  · omega
  · omega

/-- **The packing keeps the order of the pairs**, for times that are close. -/
theorem score_lt_iff (hm : Dated m) (hn : Dated n)
    (hclose : |m.lastVisit.toInt - n.lastVisit.toInt| < 10 ^ 9) :
    score m < score n ↔ rank m < rank n := by
  obtain ⟨hl, hu⟩ := abs_lt.mp hclose
  rw [Int64.lt_iff_toInt_lt, toInt_score hm, toInt_score hn, rank, rank, Prod.Lex.toLex_lt_toLex]
  show _ ↔ m.freq.toInt < n.freq.toInt ∨
    m.freq.toInt = n.freq.toInt ∧ m.lastVisit.toInt < n.lastVisit.toInt
  omega

theorem score_le_iff (hm : Dated m) (hn : Dated n)
    (hclose : |m.lastVisit.toInt - n.lastVisit.toInt| < 10 ^ 9) :
    score m ≤ score n ↔ rank m ≤ rank n := by
  rw [← Int64.not_lt, ← not_lt, score_lt_iff hn hm (by rwa [abs_sub_comm])]

/-- **The frecency choice is lexicographic.**  In a store of dated entries whose
times are close, a query finds nothing exactly when there is no candidate, and
otherwise the first one, in the order of the list, with the greatest frequency
and time; no step of the computation of a score overflows. -/
theorem findBestMatch_lexicographic (directoryExists : Str → Bool) (name : Str)
    (hopps : List HopNode) (hdated : ∀ n ∈ hopps, Dated n)
    (hclose : ∀ m ∈ hopps, ∀ n ∈ hopps, |m.lastVisit.toInt - n.lastVisit.toInt| < 10 ^ 9) :
    (findBestMatch directoryExists name hopps = none ↔
      ∀ n ∈ hopps, ¬ (name <:+: n.path ∧ directoryExists n.path = true)) ∧
    (∀ n, findBestMatch directoryExists name hopps = some n →
      ∃ before after, hopps = before ++ n :: after ∧
        (name <:+: n.path ∧ directoryExists n.path = true) ∧
        (∀ m ∈ before, name <:+: m.path ∧ directoryExists m.path = true → rank m < rank n) ∧
        ∀ m ∈ after, name <:+: m.path ∧ directoryExists m.path = true → rank m ≤ rank n) ∧
    ∀ n ∈ hopps, (n.freq.toInt64 * 1000000000).toInt = n.freq.toInt * 1000000000 ∧
      (score n).toInt = n.freq.toInt * 1000000000 + n.lastVisit.toInt := by
  -- no dated entry scores as low as the sentinel
  have hpos : ∀ n ∈ hopps, ¬ score n ≤ -1 := by
    intro n hn hle
    have h1 := (hdated n hn).visited
    have h2 := (hdated n hn).pastEpoch
    rw [Int64.le_iff_toInt_le, toInt_score (hdated n hn)] at hle
    have hone : (-1 : Int64).toInt = -1 := by decide
    omega
  refine ⟨?_, ?_, fun n hn => ⟨toInt_weight n, toInt_score (hdated n hn)⟩⟩
  · rcases findBestMatch_spec directoryExists name hopps with ⟨hnone, hall⟩ | ⟨n, hn, hfirst, -⟩
    · refine ⟨fun _ n hn hc => hpos n hn (hall n hn hc), fun _ => hnone⟩
    · obtain ⟨hmem, hcand, -⟩ := hfirst.isBest
      refine ⟨fun hnone => ?_, fun hall => absurd hcand (hall n hmem)⟩
      rw [hn] at hnone
      cases hnone
  · intro n hfound
    rcases findBestMatch_spec directoryExists name hopps with ⟨hnone, -⟩ | ⟨n', hn', hfirst, -⟩
    · rw [hnone] at hfound
      cases hfound
    · rw [hn'] at hfound
      obtain rfl := Option.some.inj hfound
      obtain ⟨before, after, rfl, hcand, hbefore, hafter⟩ := hfirst
      refine ⟨before, after, rfl, hcand, ?_, ?_⟩
      · intro m hm hc
        have hmem : m ∈ before ++ n' :: after := List.mem_append_left _ hm
        have hmem' : n' ∈ before ++ n' :: after := by simp
        exact (score_lt_iff (hdated m hmem) (hdated n' hmem') (hclose m hmem n' hmem')).mp
          (hbefore m hm hc)
      · intro m hm hc
        have hmem : m ∈ before ++ n' :: after := by simp [hm]
        have hmem' : n' ∈ before ++ n' :: after := by simp
        exact (score_le_iff (hdated m hmem) (hdated n' hmem') (hclose m hmem n' hmem')).mp
          (hafter m hm hc)

theorem findBestMatch_lexicographic_two :
    findBestMatch (fun _ => true) "a".toList
        [⟨"/x/a".toList, 2147483647, 7⟩, ⟨"/y/a".toList, 2147483647, 9⟩] =
      some ⟨"/y/a".toList, 2147483647, 9⟩ ∧
    (score ⟨"/y/a".toList, 2147483647, 9⟩).toInt = 2147483647 * 1000000000 + 9 := by
  refine ⟨by decide +kernel, ?_⟩
  have hdated : ∀ n ∈ [(⟨"/x/a".toList, 2147483647, 7⟩ : HopNode),
      ⟨"/y/a".toList, 2147483647, 9⟩], Dated n := by
    intro n hn
    simp only [List.mem_cons, List.not_mem_nil, or_false] at hn
    rcases hn with rfl | rfl <;> exact ⟨by decide, by decide, by decide⟩
  exact ((findBestMatch_lexicographic (fun _ => true) "a".toList _ hdated
    (by decide)).2.2 _ (by simp)).2

end Hop
end RuShell
