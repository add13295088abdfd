import Mathlib.Order.Lattice
import Mathlib.Order.Nat
import RuShell.Lib.Lists

/-!
# The first minimum of a list

A loop that walks over a table, skips the entries that fail a test, and
remembers the entry with the smallest key seen so far, replacing it only for a
strictly smaller one.

## Main definitions

* `firstMin ok key l i best` — the loop, at the index `i`.
* `IsFirstMin ok key l j b` — `b`, at the index `j`, is the first of the entries
  with the smallest key.

## Main results

* `firstMin_spec`, `exists_isFirstMin` — the loop finds it.
* `findSome?_range` — a search over the first `n` numbers stops at the first hit.
-/

namespace RuShell
namespace Lib

variable {α β : Type*} [LinearOrder β] (ok : α → Bool) (key : α → β)

/-- The loop over the rest of a table; `i` is the index of its head and `best`
the entry chosen so far, with its index. -/
def firstMin : List α → ℕ → Option (ℕ × α) → Option (ℕ × α)
  | [], _, best => best
  | a :: as, i, best =>
    if ok a then
      match best with
      | none => firstMin as (i + 1) (some (i, a))
      | some (j, b) =>
        if key a < key b then firstMin as (i + 1) (some (i, a))
        else firstMin as (i + 1) (some (j, b))
    else firstMin as (i + 1) best

/-- `b`, at the index `j` of `l`, passes the test, and every other entry that
does has a larger key, or the same key and a larger index. -/
def IsFirstMin (l : List α) (j : ℕ) (b : α) : Prop :=
  l[j]? = some b ∧ ok b = true ∧
    ∀ (i : ℕ) (a : α), l[i]? = some a → ok a = true → key b < key a ∨ key b = key a ∧ j ≤ i

/-- What the loop knows about the part of the table it has seen. -/
def Best (l : List α) : Option (ℕ × α) → Prop
  | none => ∀ (i : ℕ) (a : α), l[i]? = some a → ok a = false
  | some (j, b) => IsFirstMin ok key l j b

variable {ok key} {l : List α} {a b : α} {j : ℕ} {best : Option (ℕ × α)}

/-- An entry that fails the test changes nothing. -/
theorem Best.skip (h : Best ok key l best) (ha : ok a = false) : Best ok key (l ++ [a]) best := by
  cases best with
  | none =>
    intro i c hc
    rcases getElem?_concat_cases hc with hc | ⟨-, rfl⟩
    · exact h i c hc
    · exact ha
  | some jb =>
    obtain ⟨hj, hb, hmin⟩ := h
    refine ⟨?_, hb, fun i c hc hok => ?_⟩
    · exact getElem?_append_of_some hj
    · rcases getElem?_concat_cases hc with hc | ⟨-, rfl⟩
      · exact hmin i c hc hok
      · rw [ha] at hok
        cases hok

/-- A new entry with a smaller key than every entry before it. -/
theorem IsFirstMin.of_lt (ha : ok a = true)
    (hlt : ∀ (i : ℕ) (c : α), l[i]? = some c → ok c = true → key a < key c) :
    IsFirstMin ok key (l ++ [a]) l.length a := by
  refine ⟨by simp, ha, fun i c hc hok => ?_⟩
  rcases getElem?_concat_cases hc with hc | ⟨rfl, rfl⟩
  · exact .inl (hlt i c hc hok)
  · exact .inr ⟨rfl, le_rfl⟩

/-- A new entry that is not smaller than the best one. -/
theorem Best.keep (h : Best ok key l (some (j, b))) (hle : ¬ key a < key b) :
    Best ok key (l ++ [a]) (some (j, b)) := by
  obtain ⟨hj, hb, hmin⟩ := h
  have hlt : j < l.length := (List.getElem?_eq_some_iff.mp hj).1
  refine ⟨by rw [List.getElem?_append_left hlt]; exact hj, hb, fun i c hc hok => ?_⟩
  rcases getElem?_concat_cases hc with hc | ⟨rfl, rfl⟩
  · exact hmin i c hc hok
  · rcases lt_or_eq_of_le (not_lt.mp hle) with h | h
    · exact .inl h
    · exact .inr ⟨h, hlt.le⟩

theorem best_firstMin (as : List α) (l : List α) (best : Option (ℕ × α))
    (h : Best ok key l best) : Best ok key (l ++ as) (firstMin ok key as l.length best) := by
  -- the loop invariant: `best` is right for the part `l` already seen
  induction as generalizing l best with
  | nil => simpa [firstMin] using h
  | cons a as ih =>
    have hnext : ∀ best', Best ok key (l ++ [a]) best' →
        Best ok key (l ++ a :: as) (firstMin ok key as (l.length + 1) best') := by
      intro best' hbest
      have := ih (l ++ [a]) best' hbest
      simpa using this
    unfold firstMin
    by_cases ha : ok a = true
    · rw [if_pos ha]
      cases best with
      | none =>
        refine hnext _ (IsFirstMin.of_lt ha fun i c hc hok => ?_)
        rw [h i c hc] at hok
        cases hok
      | some jb =>
        obtain ⟨j, b⟩ := jb
        simp only
        split
        · rename_i hlt
          refine hnext _ (IsFirstMin.of_lt ha fun i c hc hok => ?_)
          rcases h.2.2 i c hc hok with hc' | ⟨hc', -⟩
          · exact hlt.trans hc'
          · exact hc' ▸ hlt
        · rename_i hlt
          exact hnext _ (h.keep hlt)
    · rw [if_neg ha]
      exact hnext _ (h.skip (by simpa using ha))

/-- **The loop over the whole table finds the first minimum**, and nothing only
if no entry passes the test. -/
theorem firstMin_spec (ok : α → Bool) (key : α → β) (l : List α) :
    Best ok key l (firstMin ok key l 0 none) := by
  have h : Best ok key ([] ++ l) (firstMin ok key l 0 none) := by
    refine best_firstMin l [] none ?_
    intro i a h
    simp at h
  exact h

/-- What the index it returns stands for. -/
theorem exists_isFirstMin (h : (firstMin ok key l 0 none).map Prod.fst = some j) :
    ∃ b, IsFirstMin ok key l j b := by
  have hspec := firstMin_spec ok key l
  obtain ⟨jb, hm, rfl⟩ := Option.map_eq_some_iff.mp h
  rw [hm] at hspec
  exact ⟨jb.2, hspec⟩

/-- A search over `0, …, n - 1` returns the first result. -/
theorem findSome?_range {γ : Type*} {f : ℕ → Option γ} {n : ℕ} {c : γ}
    (h : (List.range n).findSome? f = some c) :
    ∃ q, q < n ∧ f q = some c ∧ ∀ q' < q, f q' = none := by
  induction n with
  | zero => simp at h
  | succ n ih =>
    rw [List.range_succ, List.findSome?_append] at h
    cases hn : (List.range n).findSome? f with
    | some d =>
      rw [hn] at h
      obtain ⟨q, hq, hqd⟩ := ih (by rw [hn]; simpa using h)
      exact ⟨q, by omega, hqd⟩
    | none =>
      rw [hn] at h
      refine ⟨n, by omega, by simpa using h, fun q' hq' => ?_⟩
      exact List.findSome?_eq_none_iff.mp hn q' (List.mem_range.mpr hq')

end Lib
end RuShell
