import Mathlib.Data.List.Basic
import Mathlib.Order.Nat

/-!
# Lists

Entries of a list with one more entry at its end, loops that may fail, and searches over
lists whose entries correspond to each other.
-/

namespace RuShell
namespace Lib

variable {α β : Type*} {l m : List α} {a b : α} {i : ℕ}

theorem getElem?_append_of_some (h : l[i]? = some a) : (l ++ m)[i]? = some a :=
  (List.getElem?_append_left (List.getElem?_eq_some_iff.mp h).1).trans h

/-- An entry of a list with one more entry at its end. -/
theorem getElem?_concat_cases (h : (l ++ [a])[i]? = some b) :
    l[i]? = some b ∨ i = l.length ∧ b = a := by
  rcases lt_trichotomy i l.length with hi | rfl | hi
  · rw [List.getElem?_append_left hi] at h
    exact .inl h
  · rw [List.getElem?_concat_length] at h
    exact .inr ⟨rfl, (Option.some.inj h).symm⟩
  · rw [List.getElem?_eq_none (by simp; omega)] at h
    cases h

theorem modify_length_concat (l : List α) (a : α) (f : α → α) :
    (l ++ [a]).modify l.length f = l ++ [f a] := by
  induction l with
  | nil => rfl
  | cons b l ih =>
    rw [List.cons_append, List.length_cons, List.modify_succ_cons, ih, List.cons_append]

theorem mergeSort_pair (le : α → α → Bool) (a b : α) :
    [a, b].mergeSort le = if le a b then [a, b] else [b, a] := by
  rw [List.mergeSort]
  simp [List.MergeSort.Internal.splitInTwo, List.merge]

/-! ### Loops that may fail -/

/-- Steps that all succeed. -/
theorem mapM_eq_some {f : α → Option β} {g : α → β} (h : ∀ a ∈ l, f a = some (g a)) :
    l.mapM f = some (l.map g) := by
  induction l with
  | nil => rfl
  | cons a l ih =>
    rw [List.mapM_cons, h a List.mem_cons_self, ih fun b hb => h b (List.mem_cons_of_mem a hb)]
    rfl

/-- Steps of which one fails. -/
theorem mapM_eq_none {f : α → Option β} (ha : a ∈ l) (h : f a = none) : l.mapM f = none := by
  induction l with
  | nil => cases ha
  | cons b l ih =>
    rw [List.mapM_cons]
    rcases List.mem_cons.mp ha with rfl | ha
    · rw [h]
      rfl
    · cases f b with
      | none => rfl
      | some c =>
        rw [ih ha]
        rfl

/-! ### Searches -/

/-- Two searches over lists whose entries correspond to each other. -/
theorem find?_map_congr {f g : α → β} {p q : β → Bool}
    (h : ∀ a ∈ l, p (f a) = q (g a)) :
    ((l.map f).find? p = none ↔ (l.map g).find? q = none) ∧
      ∀ b, (l.map f).find? p = some b → ∃ a ∈ l, b = f a ∧ (l.map g).find? q = some (g a) := by
  induction l with
  | nil => exact ⟨Iff.rfl, nofun⟩
  | cons a l ih =>
    have hrest := ih fun b hb => h b (List.mem_cons_of_mem a hb)
    have ha := h a List.mem_cons_self
    rw [List.map_cons, List.map_cons]
    cases hp : p (f a) with
    | true =>
      rw [List.find?_cons_of_pos hp, List.find?_cons_of_pos (ha ▸ hp)]
      refine ⟨by simp, ?_⟩
      intro b hb
      exact ⟨a, List.mem_cons_self, (Option.some.inj hb).symm, rfl⟩
    | false =>
      have hq : ¬ q (g a) = true := by rw [← ha, hp]; exact Bool.false_ne_true
      rw [List.find?_cons_of_neg (by simp [hp]), List.find?_cons_of_neg hq]
      refine ⟨hrest.1, ?_⟩
      intro b hb
      obtain ⟨c, hc, hfound⟩ := hrest.2 b hb
      exact ⟨c, List.mem_cons_of_mem a hc, hfound⟩

end Lib
end RuShell
