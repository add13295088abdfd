import Mathlib.Data.List.Perm.Basic
import Mathlib.Order.RelClasses
import Mathlib.Data.Int.Notation

/-!
# Comparison functions

A sort of the C library takes a function that says how two elements compare by the sign
of its result.  What the sort does is specified only if that function orders the elements
of the table.

## Main definitions

* `Orders cmp l` — the function is a strict total order on the elements of `l`.
* `Sorts sort` — what a sort promises.

## Main results

* `Orders.of_sign` — a function whose sign is that of a strict total order.
* `Sorts.pairwise_neg` — a table without repetitions is sorted strictly.
-/

namespace RuShell
namespace Lib

variable {α : Type*}

/-- The function is a strict total order on the elements of the list. -/
structure Orders (cmp : α → α → ℤ) (l : List α) : Prop where
  irrefl : ∀ a ∈ l, cmp a a = 0
  antisymm : ∀ a ∈ l, ∀ b ∈ l, cmp a b < 0 ↔ 0 < cmp b a
  trans : ∀ a ∈ l, ∀ b ∈ l, ∀ c ∈ l, cmp a b < 0 → cmp b c < 0 → cmp a c < 0
  total : ∀ a ∈ l, ∀ b ∈ l, a ≠ b → cmp a b ≠ 0

/-- A sort that is handed an order on the elements of its table puts them into that
order. -/
def Sorts (sort : List α → (α → α → ℤ) → List α) : Prop :=
  ∀ l cmp, Orders cmp l → (sort l cmp).Perm l ∧ (sort l cmp).Pairwise fun a b => cmp a b ≤ 0

variable {cmp : α → α → ℤ} {l : List α}

/-- The signs are those of a strict order that tells all elements apart. -/
theorem Orders.of_sign {r : α → α → Prop} [IsStrictOrder α r]
    (hr : ∀ a ∈ l, ∀ b ∈ l, a ≠ b → r a b ∨ r b a)
    (hneg : ∀ a ∈ l, ∀ b ∈ l, cmp a b < 0 ↔ r a b)
    (hpos : ∀ a ∈ l, ∀ b ∈ l, 0 < cmp a b ↔ r b a) : Orders cmp l where
  irrefl a ha := by
    have hn : ¬ cmp a a < 0 := fun h => irrefl_of r a ((hneg a ha a ha).mp h)
    have hp : ¬ 0 < cmp a a := fun h => irrefl_of r a ((hpos a ha a ha).mp h)
    omega
  antisymm a ha b hb := (hneg a ha b hb).trans (hpos b hb a ha).symm
  trans a ha b hb c hc hab hbc :=
    (hneg a ha c hc).mpr (trans_of r ((hneg a ha b hb).mp hab) ((hneg b hb c hc).mp hbc))
  total a ha b hb hab := by
    rcases hr a ha b hb hab with h | h
    · have hlt := (hneg a ha b hb).mpr h
      omega
    · have hlt := (hpos a ha b hb).mpr h
      omega

/-- **A table without repetitions is sorted strictly.** -/
theorem Sorts.pairwise_neg {sort : List α → (α → α → ℤ) → List α} (hsort : Sorts sort)
    (hcmp : Orders cmp l) (hnodup : l.Nodup) :
    (sort l cmp).Perm l ∧ (sort l cmp).Pairwise fun a b => cmp a b < 0 := by
  obtain ⟨hperm, hsorted⟩ := hsort l cmp hcmp
  refine ⟨hperm, ?_⟩
  have hne : (sort l cmp).Pairwise (· ≠ ·) := hperm.nodup_iff.mpr hnodup
  refine (hsorted.and hne).imp_of_mem fun {a b} ha hb hab => ?_
  have hzero := hcmp.total a (hperm.mem_iff.mp ha) b (hperm.mem_iff.mp hb) hab.2
  have hle := hab.1
  omega

end Lib
end RuShell
