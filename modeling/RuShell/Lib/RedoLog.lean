import Mathlib.Data.List.Basic
import Mathlib.Logic.Function.Basic
import Mathlib.Tactic.Common

/-!
# Redo logs on a disk of blocks

A redo log is an area of `size + 1` blocks of a disk: a header that names the blocks
of a transaction, and one block for the new content of each of them.  Recovery
copies the contents home in order, one write at a time, and then erases the header.

One relation describes the disk in every phase: `Redo disk v L` says that the
header names `L`, that the log has what the contents `v` are at these blocks, and
that every other block of the disk is already as in `v`.  It holds after every
single write of recovery, so it does not matter how often recovery is cut short.

## Main definitions

* `Area`, `Area.Home` — where the log is, and the blocks outside it.
* `Area.install`, `Area.recover`, `Area.recovering` — recovery, and its first writes only.
* `Area.Redo` — the disk holds the contents `v`, of which the log has the part `L`.

## Main results

* `Redo.install` — installing keeps the relation.
* `Redo.recover`, `Redo.recover_home` — recovery yields the contents, with an empty log.
* `Redo.recovering` — so does recovery after recoveries that were cut short.
-/

namespace RuShell
namespace Lib

/-- A log: its first block is `start`, it has room for `size` blocks, and its header
is read and erased as given. -/
structure Area (β : Type) where
  start : ℕ
  size : ℕ
  head : β → List ℕ
  erase : β → β
  head_erase : ∀ x, head (erase x) = []

namespace Area

variable {β : Type}

/-- The blocks outside the log. -/
def Home (a : Area β) (b : ℕ) : Prop := b < a.start ∨ a.start + a.size < b

instance (a : Area β) (b : ℕ) : Decidable (a.Home b) := inferInstanceAs (Decidable (_ ∨ _))

/-- The disk after the first `k` blocks of `L` have been copied home. -/
def install (a : Area β) (L : List ℕ) (disk : ℕ → β) : ℕ → ℕ → β
  | 0 => disk
  | k + 1 =>
    match L[k]? with
    | some b =>
      let disk' := install a L disk k
      Function.update disk' b (disk' (a.start + k + 1))
    | none => install a L disk k

/-- Recovery. -/
def recover (a : Area β) (disk : ℕ → β) : ℕ → β :=
  let L := a.head (disk a.start)
  let disk' := a.install L disk L.length
  Function.update disk' a.start (a.erase (disk' a.start))

/-- The first `k` writes of recovery. -/
def recovering (a : Area β) (k : ℕ) (disk : ℕ → β) : ℕ → β :=
  let L := a.head (disk a.start)
  if k ≤ L.length then a.install L disk k else a.recover disk

/-- The disk holds the contents `v`; those of the blocks `L` are in the log. -/
structure Redo (a : Area β) (disk v : ℕ → β) (L : List ℕ) : Prop where
  head : a.head (disk a.start) = L
  length : L.length ≤ a.size
  home : ∀ b ∈ L, a.Home b
  copy : ∀ i b, L[i]? = some b → disk (a.start + i + 1) = v b
  rest : ∀ b, a.Home b → b ∉ L → disk b = v b

variable {a : Area β} {disk disk' v : ℕ → β} {L : List ℕ} {b k : ℕ}

theorem Home.ne_start (h : a.Home b) : b ≠ a.start := by
  rcases h with h | h <;> omega

theorem Home.update_start (h : a.Home b) (f : ℕ → β) (x : β) :
    Function.update f a.start x b = f b :=
  Function.update_of_ne h.ne_start _ _

theorem Home.ne_copy (h : a.Home b) {i : ℕ} (hi : i < a.size) : b ≠ a.start + i + 1 := by
  rcases h with h | h <;> omega

theorem lt_of_getElem? {i : ℕ} (h : L[i]? = some b) : i < L.length :=
  (List.getElem?_eq_some_iff.mp h).1

/-- The relation depends on the header, the copies and the blocks at home. -/
theorem Redo.congr (h : a.Redo disk v L) (hstart : disk' a.start = disk a.start)
    (hcopy : ∀ i, i < L.length → disk' (a.start + i + 1) = disk (a.start + i + 1))
    (hrest : ∀ b, a.Home b → b ∉ L → disk' b = disk b) : a.Redo disk' v L where
  head := by rw [hstart, h.head]
  length := h.length
  home := h.home
  copy i b hi := by rw [hcopy i (lt_of_getElem? hi), h.copy i b hi]
  rest b hb hL := by rw [hrest b hb hL, h.rest b hb hL]

/-- Copying a block of the transaction home, or anything else into it, is harmless. -/
theorem Redo.update (h : a.Redo disk v L) (hb : b ∈ L) (x : β) :
    a.Redo (Function.update disk b x) v L := by
  have hhome := h.home b hb
  refine h.congr (Function.update_of_ne hhome.ne_start.symm _ _) ?_ ?_
  · intro i hi
    exact Function.update_of_ne (hhome.ne_copy (Nat.lt_of_lt_of_le hi h.length)).symm _ _
  · intro b' _ hL
    refine Function.update_of_ne ?_ _ _
    rintro rfl
    exact hL hb

theorem install_some (hk : L[k]? = some b) :
    a.install L disk (k + 1) =
      Function.update (a.install L disk k) b (a.install L disk k (a.start + k + 1)) := by
  simp only [Area.install, hk]

theorem install_none (hk : L[k]? = none) : a.install L disk (k + 1) = a.install L disk k := by
  simp only [Area.install, hk]

theorem Redo.install (h : a.Redo disk v L) : ∀ k, a.Redo (a.install L disk k) v L := by
  intro k
  induction k with
  | zero => exact h
  | succ k ih =>
    cases hk : L[k]? with
    | none => rwa [install_none hk]
    | some b =>
      rw [install_some hk]
      exact ih.update (List.mem_of_getElem? hk) _

/-- A block that has had its turn has the new content. -/
theorem Redo.install_eq (h : a.Redo disk v L) {i : ℕ} (hi : L[i]? = some b) (hik : i < k) :
    a.install L disk k b = v b := by
  induction k with
  | zero => exact absurd hik (Nat.not_lt_zero i)
  | succ k ih =>
    cases hk : L[k]? with
    | none =>
      rw [install_none hk]
      refine ih (Nat.lt_of_le_of_ne (Nat.le_of_lt_succ hik) ?_)
      rintro rfl
      rw [hi] at hk
      cases hk
    | some b' =>
      rw [install_some hk]
      by_cases hb : b = b'
      · subst hb
        rw [Function.update_self]
        exact (h.install k).copy k b hk
      · rw [Function.update_of_ne hb]
        refine ih (Nat.lt_of_le_of_ne (Nat.le_of_lt_succ hik) ?_)
        rintro rfl
        rw [hi, Option.some.injEq] at hk
        exact hb hk

/-- After all turns every block at home is as in `v`. -/
theorem Redo.installed (h : a.Redo disk v L) (hb : a.Home b) :
    a.install L disk L.length b = v b := by
  by_cases hL : b ∈ L
  · obtain ⟨i, hi⟩ := List.getElem?_of_mem hL
    exact h.install_eq hi (lt_of_getElem? hi)
  · exact (h.install L.length).rest b hb hL

/-- With every block at home as in `v`, the header may be erased. -/
theorem redo_erase (hhome : ∀ b, a.Home b → disk b = v b) {x : β} (hx : a.head x = []) :
    a.Redo (Function.update disk a.start x) v [] where
  head := by rw [Function.update_self, hx]
  length := Nat.zero_le _
  home b hb := absurd hb List.not_mem_nil
  copy i b hi := by cases hi
  rest b hb _ := by rw [hb.update_start, hhome b hb]

/-- **Recovery empties the log and keeps the contents.** -/
theorem Redo.recover (h : a.Redo disk v L) : a.Redo (a.recover disk) v [] := by
  unfold Area.recover
  rw [h.head]
  exact redo_erase (fun b hb => h.installed hb) (a.head_erase _)

/-- **Recovery brings every block home.** -/
theorem Redo.recover_home (h : a.Redo disk v L) (hb : a.Home b) : a.recover disk b = v b :=
  h.recover.rest b hb List.not_mem_nil

/-- A recovery that is cut short leaves the contents on the disk. -/
theorem Redo.recovering (h : a.Redo disk v L) (k : ℕ) :
    ∃ L', a.Redo (a.recovering k disk) v L' := by
  unfold Area.recovering
  rw [h.head]
  by_cases hk : k ≤ L.length
  · exact ⟨L, by simpa [hk] using h.install k⟩
  · exact ⟨[], by simpa [hk] using h.recover⟩

end Area
end Lib
end RuShell
