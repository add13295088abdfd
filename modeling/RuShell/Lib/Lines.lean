import Mathlib.Data.List.Basic

/-!
# Lines

The lines of a text, each with the separator that ends it; the last one may
lack it.  A text can be cut at any place: what follows a cut changes only the
line that is still open there, so a reader that goes forwards keeps the open
line, and one that goes backwards keeps the first line.

## Main definitions

* `linesOf sep l` — the lines of `l`.
* `firstLine sep l`, `otherLines sep l` — the first of them, and the others.

## Main results

* `flatten_linesOf` — the lines make up the text.
* `linesOf_append_sep` — a line that is complete comes off the front.
* `linesOf_append` — only the first line of the rest depends on what is put in
  front of it.
* `firstLine_append`, `otherLines_append` — the same for the first line and the
  others.
-/

namespace RuShell
namespace Lib

variable {α : Type*} [DecidableEq α] (sep : α)

/-- The lines of a text, each with the separator that ends it. -/
def linesOf : List α → List (List α)
  | [] => []
  | a :: l =>
    if a = sep then [a] :: linesOf l
    else
      match linesOf l with
      | [] => [[a]]
      | line :: rest => (a :: line) :: rest

variable {sep} {a : α} {l p line : List α} {rest : List (List α)}

@[simp] theorem linesOf_nil : linesOf sep [] = [] := rfl

@[simp] theorem linesOf_sep_cons : linesOf sep (sep :: l) = [sep] :: linesOf sep l := by
  simp [linesOf]

theorem linesOf_cons_of_nil (ha : a ≠ sep) (h : linesOf sep l = []) :
    linesOf sep (a :: l) = [[a]] := by
  simp [linesOf, ha, h]

theorem linesOf_cons_of_cons (ha : a ≠ sep) (h : linesOf sep l = line :: rest) :
    linesOf sep (a :: l) = (a :: line) :: rest := by
  simp [linesOf, ha, h]

/-- **The lines make up the text.** -/
@[simp] theorem flatten_linesOf (sep : α) (l : List α) : (linesOf sep l).flatten = l := by
  induction l with
  | nil => rfl
  | cons a l ih =>
    by_cases ha : a = sep
    · subst ha
      rw [linesOf_sep_cons, List.flatten_cons, ih]
      rfl
    · cases h : linesOf sep l with
      | nil =>
        rw [h] at ih
        rw [linesOf_cons_of_nil ha h, ← ih]
        rfl
      | cons line rest =>
        rw [h, List.flatten_cons] at ih
        rw [linesOf_cons_of_cons ha h, List.flatten_cons, List.cons_append, ih]

theorem linesOf_eq_nil_iff : linesOf sep l = [] ↔ l = [] := by
  constructor
  · intro h
    rw [← flatten_linesOf sep l, h]
    rfl
  · rintro rfl
    rfl

theorem ne_nil_of_mem_linesOf (h : line ∈ linesOf sep l) : line ≠ [] := by
  induction l generalizing line with
  | nil => cases h
  | cons a l ih =>
    by_cases ha : a = sep
    · subst ha
      rw [linesOf_sep_cons] at h
      rcases List.mem_cons.mp h with rfl | h
      · exact List.cons_ne_nil _ _
      · exact ih h
    · cases hl : linesOf sep l with
      | nil =>
        rw [linesOf_cons_of_nil ha hl, List.mem_singleton] at h
        exact h ▸ List.cons_ne_nil _ _
      | cons first rest =>
        rw [linesOf_cons_of_cons ha hl] at h
        rcases List.mem_cons.mp h with rfl | h
        · exact List.cons_ne_nil _ _
        · exact ih (hl ▸ List.mem_cons_of_mem _ h)

/-- A line that is complete comes off the front. -/
theorem linesOf_append_sep (hp : sep ∉ p) :
    linesOf sep (p ++ sep :: l) = (p ++ [sep]) :: linesOf sep l := by
  induction p with
  | nil => exact linesOf_sep_cons
  | cons a p ih =>
    obtain ⟨ha, hp⟩ := List.ne_and_not_mem_of_not_mem_cons hp
    exact linesOf_cons_of_cons ha.symm (ih hp)

/-- A text without a separator is one open line. -/
theorem linesOf_of_not_mem (hp : sep ∉ p) (hne : p ≠ []) : linesOf sep p = [p] := by
  induction p with
  | nil => exact absurd rfl hne
  | cons a p ih =>
    obtain ⟨ha, hp⟩ := List.ne_and_not_mem_of_not_mem_cons hp
    cases p with
    | nil => exact linesOf_cons_of_nil ha.symm rfl
    | cons b p => exact linesOf_cons_of_cons ha.symm (ih hp (List.cons_ne_nil _ _))

/-- The first line of a text is its own only line. -/
theorem linesOf_first (h : linesOf sep l = line :: rest) : linesOf sep line = [line] := by
  induction l generalizing line rest with
  | nil => cases h
  | cons a l ih =>
    by_cases ha : a = sep
    · subst ha
      rw [linesOf_sep_cons] at h
      obtain ⟨rfl, -⟩ := List.cons.inj h
      exact linesOf_sep_cons
    · cases hl : linesOf sep l with
      | nil =>
        rw [linesOf_cons_of_nil ha hl] at h
        obtain ⟨rfl, -⟩ := List.cons.inj h
        exact linesOf_cons_of_nil ha rfl
      | cons first others =>
        rw [linesOf_cons_of_cons ha hl] at h
        obtain ⟨rfl, -⟩ := List.cons.inj h
        exact linesOf_cons_of_cons ha (ih hl)

/-- **Only the first line depends on what is put in front of a text.** -/
theorem linesOf_append (h : linesOf sep l = line :: rest) (p : List α) :
    linesOf sep (p ++ l) = linesOf sep (p ++ line) ++ rest := by
  induction p with
  | nil =>
    show linesOf sep l = linesOf sep line ++ rest
    rw [h, linesOf_first h]
    rfl
  | cons a p ih =>
    by_cases ha : a = sep
    · subst ha
      rw [List.cons_append, List.cons_append, linesOf_sep_cons, linesOf_sep_cons, ih]
      rfl
    · cases hp : linesOf sep (p ++ line) with
      | nil =>
        -- `line` is not empty, so this case does not arise
        have hline : line = [] := (List.append_eq_nil_iff.mp (linesOf_eq_nil_iff.mp hp)).2
        exact absurd hline (ne_nil_of_mem_linesOf (h ▸ List.mem_cons_self))
      | cons first others =>
        rw [hp] at ih
        rw [List.cons_append, List.cons_append, linesOf_cons_of_cons ha hp,
          linesOf_cons_of_cons ha ih]
        rfl

/-- What is open at a cut is a part of the line it belongs to. -/
theorem exists_linesOf_append (hp : sep ∉ p) (hne : p ≠ []) (l : List α) :
    ∃ line rest, linesOf sep (p ++ l) = line :: rest ∧ p.length ≤ line.length := by
  induction p with
  | nil => exact absurd rfl hne
  | cons a p ih =>
    obtain ⟨ha, hp⟩ := List.ne_and_not_mem_of_not_mem_cons hp
    cases h : linesOf sep (p ++ l) with
    | nil =>
      have hp' : p = [] := (List.append_eq_nil_iff.mp (linesOf_eq_nil_iff.mp h)).1
      subst hp'
      exact ⟨[a], [], linesOf_cons_of_nil ha.symm h, Nat.le_refl _⟩
    | cons line rest =>
      refine ⟨a :: line, rest, linesOf_cons_of_cons ha.symm h, ?_⟩
      by_cases hnil : p = []
      · subst hnil
        simp
      · obtain ⟨line', rest', h', hle⟩ := ih hp hnil
        rw [h] at h'
        obtain ⟨rfl, -⟩ := List.cons.inj h'
        simpa using hle

/-! ### The first line and the others -/

variable (sep) in
/-- The first line of a text; empty only if the text is. -/
def firstLine (l : List α) : List α := (linesOf sep l).headD []

variable (sep) in
/-- The lines after the first. -/
def otherLines (l : List α) : List (List α) := (linesOf sep l).tail

@[simp] theorem firstLine_nil : firstLine sep [] = [] := rfl

@[simp] theorem otherLines_nil : otherLines sep [] = [] := rfl

theorem linesOf_eq_cons (h : l ≠ []) : linesOf sep l = firstLine sep l :: otherLines sep l := by
  unfold firstLine otherLines
  cases hl : linesOf sep l with
  | nil => exact absurd (linesOf_eq_nil_iff.mp hl) h
  | cons line rest => rfl

theorem firstLine_mem (h : l ≠ []) : firstLine sep l ∈ linesOf sep l := by
  rw [linesOf_eq_cons h]
  exact List.mem_cons_self

theorem firstLine_eq_nil_iff : firstLine sep l = [] ↔ l = [] := by
  constructor
  · intro h
    by_contra hl
    exact ne_nil_of_mem_linesOf (firstLine_mem hl) h
  · rintro rfl
    rfl

theorem firstLine_sep_cons : firstLine sep (sep :: l) = [sep] := by
  simp [firstLine]

theorem firstLine_cons (ha : a ≠ sep) : firstLine sep (a :: l) = a :: firstLine sep l := by
  unfold firstLine
  cases h : linesOf sep l with
  | nil => rw [linesOf_cons_of_nil ha h]; rfl
  | cons line rest => rw [linesOf_cons_of_cons ha h]; rfl

/-- A separator is the last element of its line. -/
theorem firstLine_sep_last {p r : List α} (h : firstLine sep l = p ++ sep :: r) : r = [] := by
  induction l generalizing p with
  | nil => simp at h
  | cons a l ih =>
    by_cases ha : a = sep
    · rw [ha, firstLine_sep_cons] at h
      have hlen := congrArg List.length h
      simp only [List.length_cons, List.length_nil, List.length_append] at hlen
      exact List.length_eq_zero_iff.mp (by omega)
    · rw [firstLine_cons ha] at h
      cases p with
      | nil => exact absurd (List.cons.inj h).1 ha
      | cons b p => exact ih (List.cons.inj h).2

theorem otherLines_cons (ha : a ≠ sep) : otherLines sep (a :: l) = otherLines sep l := by
  unfold otherLines
  cases h : linesOf sep l with
  | nil => rw [linesOf_cons_of_nil ha h]; rfl
  | cons line rest => rw [linesOf_cons_of_cons ha h]; rfl

theorem linesOf_append_eq_cons (p : List α) (hl : l ≠ []) :
    linesOf sep (p ++ l) =
      firstLine sep (p ++ firstLine sep l) ::
        (otherLines sep (p ++ firstLine sep l) ++ otherLines sep l) := by
  have hl' : linesOf sep l = firstLine sep l :: otherLines sep l := linesOf_eq_cons hl
  have hne : p ++ firstLine sep l ≠ [] := by
    intro hnil
    exact hl (firstLine_eq_nil_iff.mp (List.append_eq_nil_iff.mp hnil).2)
  rw [linesOf_append hl' p, linesOf_eq_cons hne]
  rfl

/-- What is put in front of a text meets only its first line. -/
theorem firstLine_append (p l : List α) :
    firstLine sep (p ++ l) = firstLine sep (p ++ firstLine sep l) := by
  by_cases hl : l = []
  · subst hl
    rfl
  · rw [firstLine, linesOf_append_eq_cons p hl]
    rfl

theorem otherLines_append (p l : List α) :
    otherLines sep (p ++ l) = otherLines sep (p ++ firstLine sep l) ++ otherLines sep l := by
  by_cases hl : l = []
  · subst hl
    simp
  · rw [otherLines, linesOf_append_eq_cons p hl]
    rfl

/-- The first line after a cut is a part of a line. -/
theorem exists_length_firstLine_le (p : List α) (hl : l ≠ []) :
    ∃ line ∈ linesOf sep (p ++ l), (firstLine sep l).length ≤ line.length := by
  induction p with
  | nil => exact ⟨_, firstLine_mem hl, Nat.le_refl _⟩
  | cons a p ih =>
    obtain ⟨line, hmem, hle⟩ := ih
    by_cases ha : a = sep
    · subst ha
      refine ⟨line, ?_, hle⟩
      rw [List.cons_append, linesOf_sep_cons]
      exact List.mem_cons_of_mem _ hmem
    · cases h : linesOf sep (p ++ l) with
      | nil =>
        rw [h] at hmem
        cases hmem
      | cons first rest =>
        rw [h] at hmem
        rw [List.cons_append, linesOf_cons_of_cons ha h]
        rcases List.mem_cons.mp hmem with rfl | hmem
        · exact ⟨_, List.mem_cons_self, Nat.le_succ_of_le hle⟩
        · exact ⟨line, List.mem_cons_of_mem _ hmem, hle⟩

end Lib
end RuShell
