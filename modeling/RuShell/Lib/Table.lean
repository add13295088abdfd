import Mathlib.Data.List.Forall2
import Mathlib.Data.List.Nodup

/-!
# Tables that are searched from the front

A loop that walks over a table, changes the first entry that passes a test, and
stops there.

## Main definitions

* `updateFirst p f l` — the table `l` with its first entry in `p` changed by `f`.

## Main results

* `filter_updateFirst` — if the changed entry leaves `p`, the entries in `p` lose
  their first one.
* `filter_updateFirst_of_disjoint` — a test that neither the entry nor the changed
  one passes sees no difference.
* `mem_updateFirst`, `mem_updateFirst_of_nodup` — where the entries of the new table come
  from.
* `find?_updateFirst`, `find?_updateFirst_of_disjoint` — searches in the new table.
* `forall₂_updateFirst` — relations between tables.
* `find?_of_nodup_map` — a search by a key that no two entries share.
-/

namespace RuShell
namespace Lib

variable {α β : Type*}

/-- Change the first entry that passes the test. -/
def updateFirst (p : α → Bool) (f : α → α) : List α → List α
  | [] => []
  | a :: as => if p a then f a :: as else a :: updateFirst p f as

variable {p q : α → Bool} {f : α → α} {l : List α} {a : α}

@[simp] theorem updateFirst_nil : updateFirst p f [] = [] := rfl

theorem updateFirst_cons_of_pos (h : p a = true) : updateFirst p f (a :: l) = f a :: l := by
  rw [updateFirst, if_pos h]

theorem updateFirst_cons_of_neg (h : p a = false) :
    updateFirst p f (a :: l) = a :: updateFirst p f l := by
  rw [updateFirst, if_neg (by simp [h])]

/-- Entries that are passed over. -/
theorem updateFirst_append_of_neg {m : List α} (h : ∀ a ∈ l, p a = false) :
    updateFirst p f (l ++ m) = l ++ updateFirst p f m := by
  induction l with
  | nil => rfl
  | cons a l ih =>
    rw [List.cons_append, updateFirst_cons_of_neg (h a List.mem_cons_self),
      ih fun b hb => h b (List.mem_cons_of_mem _ hb), List.cons_append]

/-- A search that finds nothing. -/
theorem updateFirst_of_find?_eq_none (h : l.find? p = none) : updateFirst p f l = l := by
  have hnone : ∀ a ∈ l, p a = false := by simpa using h
  have happend := updateFirst_append_of_neg (f := f) (m := []) hnone
  simpa using happend

/-- A last entry that passes the test is reached if none before it does. -/
theorem getElem?_updateFirst_concat (ha : p a = true) :
    (updateFirst p f (l ++ [a]))[l.length]? = some (if ∀ b ∈ l, p b = false then f a else a) := by
  induction l with
  | nil => simp [updateFirst, ha]
  | cons b l ih =>
    rw [List.cons_append]
    cases hb : p b with
    | true => simp [updateFirst_cons_of_pos hb, hb]
    | false => simpa [updateFirst_cons_of_neg hb, hb] using ih

@[simp] theorem length_updateFirst : (updateFirst p f l).length = l.length := by
  induction l with
  | nil => rfl
  | cons a l ih =>
    cases ha : p a with
    | true => rw [updateFirst_cons_of_pos ha, List.length_cons, List.length_cons]
    | false => rw [updateFirst_cons_of_neg ha, List.length_cons, List.length_cons, ih]

/-- What the change leaves alone stays the same in the whole table. -/
theorem map_updateFirst {g : α → β} (hg : ∀ a, p a = true → g (f a) = g a) :
    (updateFirst p f l).map g = l.map g := by
  induction l with
  | nil => rfl
  | cons a l ih =>
    cases ha : p a with
    | true => rw [updateFirst_cons_of_pos ha, List.map_cons, List.map_cons, hg a ha]
    | false => rw [updateFirst_cons_of_neg ha, List.map_cons, List.map_cons, ih]

theorem filter_updateFirst (hf : ∀ a, p a = true → p (f a) = false) :
    (updateFirst p f l).filter p = (l.filter p).tail := by
  induction l with
  | nil => rfl
  | cons a l ih =>
    cases ha : p a with
    | true =>
      rw [updateFirst_cons_of_pos ha, List.filter_cons_of_pos ha,
        List.filter_cons_of_neg (by simp [hf a ha]), List.tail_cons]
    | false =>
      have hneg : ¬p a = true := by simp [ha]
      rw [updateFirst_cons_of_neg ha, List.filter_cons_of_neg hneg, List.filter_cons_of_neg hneg,
        ih]

theorem filter_updateFirst_of_disjoint
    (hq : ∀ a, p a = true → q a = false ∧ q (f a) = false) :
    (updateFirst p f l).filter q = l.filter q := by
  induction l with
  | nil => rfl
  | cons a l ih =>
    cases ha : p a with
    | true =>
      obtain ⟨hold, hnew⟩ := hq a ha
      rw [updateFirst_cons_of_pos ha, List.filter_cons_of_neg (by simp [hnew]),
        List.filter_cons_of_neg (by simp [hold])]
    | false => rw [updateFirst_cons_of_neg ha, List.filter_cons, List.filter_cons, ih]

/-- A search for what was changed finds the changed entry. -/
theorem find?_updateFirst (hf : ∀ a, p a = true → p (f a) = true) :
    (updateFirst p f l).find? p = (l.find? p).map f := by
  induction l with
  | nil => rfl
  | cons a l ih =>
    cases ha : p a with
    | true =>
      rw [updateFirst_cons_of_pos ha, List.find?_cons_of_pos (hf a ha), List.find?_cons_of_pos ha,
        Option.map_some]
    | false =>
      have hneg : ¬p a = true := by simp [ha]
      rw [updateFirst_cons_of_neg ha, List.find?_cons_of_neg hneg, List.find?_cons_of_neg hneg, ih]

/-- A search for something else finds what it found before. -/
theorem find?_updateFirst_of_disjoint
    (hq : ∀ a, p a = true → q a = false ∧ q (f a) = false) :
    (updateFirst p f l).find? q = l.find? q := by
  rw [← List.head?_filter, filter_updateFirst_of_disjoint hq, List.head?_filter]

theorem mem_updateFirst {b : α} (h : b ∈ updateFirst p f l) :
    b ∈ l ∨ ∃ a ∈ l, p a = true ∧ b = f a := by
  induction l with
  | nil => cases h
  | cons a l ih =>
    cases ha : p a with
    | true =>
      rw [updateFirst_cons_of_pos ha] at h
      rcases List.mem_cons.mp h with h | h
      · exact .inr ⟨a, List.mem_cons_self, ha, h⟩
      · exact .inl (List.mem_cons_of_mem a h)
    | false =>
      rw [updateFirst_cons_of_neg ha] at h
      rcases List.mem_cons.mp h with h | h
      · exact .inl (h ▸ List.mem_cons_self)
      · rcases ih h with h | ⟨c, hc, hpc, hb⟩
        · exact .inl (List.mem_cons_of_mem a h)
        · exact .inr ⟨c, List.mem_cons_of_mem a hc, hpc, hb⟩

/-- If no two entries pass the test, those of the new table that do have been changed. -/
theorem mem_updateFirst_of_nodup {key : α → β} {b : α} (hnodup : (l.map key).Nodup)
    (hkey : ∀ a ∈ l, ∀ b ∈ l, p a = true → p b = true → key a = key b)
    (h : b ∈ updateFirst p f l) : (b ∈ l ∧ p b = false) ∨ ∃ a ∈ l, p a = true ∧ b = f a := by
  induction l with
  | nil => cases h
  | cons a l ih =>
    obtain ⟨hnew, hnodup⟩ := List.nodup_cons.mp hnodup
    cases ha : p a with
    | true =>
      rw [updateFirst_cons_of_pos ha] at h
      rcases List.mem_cons.mp h with h | h
      · exact .inr ⟨a, List.mem_cons_self, ha, h⟩
      · have hb : b ∈ a :: l := List.mem_cons_of_mem a h
        refine .inl ⟨hb, Bool.eq_false_iff.mpr fun hpb => hnew ?_⟩
        have heq := hkey b hb a List.mem_cons_self hpb ha
        exact heq ▸ List.mem_map_of_mem h
    | false =>
      rw [updateFirst_cons_of_neg ha] at h
      rcases List.mem_cons.mp h with rfl | h
      · exact .inl ⟨List.mem_cons_self, ha⟩
      · have hrest := ih hnodup (fun c hc d hd => hkey c (List.mem_cons_of_mem a hc) d
          (List.mem_cons_of_mem a hd)) h
        rcases hrest with ⟨hb, hpb⟩ | ⟨c, hc, hpc, hbc⟩
        · exact .inl ⟨List.mem_cons_of_mem a hb, hpb⟩
        · exact .inr ⟨c, List.mem_cons_of_mem a hc, hpc, hbc⟩

/-- Changing an entry keeps a relation to another table, if the changed entry is
still related to what the entry was. -/
theorem forall₂_updateFirst {R : α → β → Prop} {m : List β} (h : List.Forall₂ R l m)
    (hf : ∀ a b, b ∈ m → p a = true → R a b → R (f a) b) :
    List.Forall₂ R (updateFirst p f l) m := by
  induction h with
  | nil => exact .nil
  | @cons a b l m hab _ ih =>
    cases ha : p a with
    | true =>
      rw [updateFirst_cons_of_pos ha]
      exact .cons (hf a b List.mem_cons_self ha hab) ‹_›
    | false =>
      rw [updateFirst_cons_of_neg ha]
      exact .cons hab (ih fun a b hb => hf a b (List.mem_cons_of_mem _ hb))

/-- A search by a key that no two entries share. -/
theorem find?_of_nodup_map {key : α → β} (hnodup : (l.map key).Nodup) (ha : a ∈ l)
    (hpa : p a = true) (hkey : ∀ b ∈ l, p b = true → key b = key a) : l.find? p = some a := by
  obtain ⟨b, hb⟩ : ∃ b, l.find? p = some b :=
    Option.isSome_iff_exists.mp (List.find?_isSome.mpr ⟨a, ha, hpa⟩)
  have hmem := List.mem_of_find?_eq_some hb
  have heq := hkey b hmem (List.find?_some hb)
  rw [hb, List.inj_on_of_nodup_map hnodup hmem ha heq]

end Lib
end RuShell
