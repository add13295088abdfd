import Mathlib.Logic.Function.Iterate
import Mathlib.Order.Nat
import Mathlib.Tactic.SplitIfs

/-!
# Browsing a list of entries

One value is shown.  It can be edited, and it can be exchanged for the entries of a list:
`up` goes to the entry above, `down` to the one below.  Below the last entry is the bottom,
where the value of the user's own is; `up` puts that value aside when it leaves the bottom,
and `down` shows it again when it gets there.

Edits that are made to an entry are lost.  The value that has been put aside is not touched
by them, nor by any move that does not start at the bottom, so it comes back as it was.

## Main definitions

* `Browser entries` — what is shown, where, and what has been put aside.
* `Browser.move` — the effect of a `Move`.
* `Browser.Remembers a` — `a` is what the bottom shows, or will show.

## Main results

* `Browser.Remembers.up` — going up from the bottom remembers what was shown there.
* `Browser.Remembers.move` — a move that does not start at the bottom keeps that.
* `Browser.iterate_down` — going down often enough gets to the bottom.
-/

namespace RuShell
namespace Lib

/-- A place in a list of entries, or at the bottom of it. -/
structure Browser {α : Type*} (entries : List α) where
  shown : α
  /-- The number of the entry; at the bottom the number of all entries. -/
  pos : ℕ
  /-- What has been put aside. -/
  kept : α
  pos_le : pos ≤ entries.length

namespace Browser

/-- What can be done. -/
inductive Move (α : Type*)
  | edit (f : α → α)
  | up
  | down

variable {α : Type*} {entries : List α} {a : α}

/-- One move.  At either end of the list there is nowhere to go. -/
def move (b : Browser entries) : Move α → Browser entries
  | .edit f => { b with shown := f b.shown }
  | .up =>
    if htop : b.pos = 0 then b
    else
      have hle := b.pos_le
      { shown := entries[b.pos - 1]
        pos := b.pos - 1
        kept := if b.pos = entries.length then b.shown else b.kept
        pos_le := by omega }
  | .down =>
    if hlt : b.pos + 1 < entries.length then
      { b with shown := entries[b.pos + 1], pos := b.pos + 1, pos_le := hlt.le }
    else if hlast : b.pos < entries.length then
      { b with shown := b.kept, pos := b.pos + 1, pos_le := hlast }
    else b

/-- The value `a` is shown at the bottom: now, or once one gets there. -/
structure Remembers (a : α) (b : Browser entries) : Prop where
  away : b.pos < entries.length → b.kept = a
  bottom : b.pos = entries.length → b.shown = a

variable {b : Browser entries}

theorem move_up_of_top (htop : b.pos = 0) : b.move .up = b := dif_pos htop

theorem move_down_of_bottom (hpos : b.pos = entries.length) : b.move .down = b := by
  simp only [move]
  rw [dif_neg (by omega), dif_neg (by omega)]

theorem pos_down (b : Browser entries) :
    (b.move .down).pos = min (b.pos + 1) entries.length := by
  have hle := b.pos_le
  simp only [move]
  split_ifs
  · show b.pos + 1 = _
    omega
  · show b.pos + 1 = _
    omega
  · omega

/-- **What is shown when one goes up from the bottom is remembered.**  With an empty list
one stays there, and it is still shown. -/
theorem Remembers.up (hpos : b.pos = entries.length) : Remembers b.shown (b.move .up) := by
  by_cases htop : b.pos = 0
  · rw [move_up_of_top htop]
    exact ⟨fun hlt => absurd hpos hlt.ne, fun _ => rfl⟩
  · have hgo : (b.move .up).pos = b.pos - 1 ∧ (b.move .up).kept = b.shown := by
      simp only [move, dif_neg htop, if_pos hpos, and_self]
    refine ⟨fun _ => hgo.2, fun hback => ?_⟩
    rw [hgo.1] at hback
    omega

/-- **A move that does not start at the bottom** leaves alone what has been put aside, and
if it ends there then that is what it shows. -/
theorem Remembers.move (h : Remembers a b) (hpos : b.pos < entries.length) (m : Move α) :
    Remembers a (b.move m) := by
  have hkept : b.kept = a := h.away hpos
  cases m with
  | edit f => exact ⟨fun _ => hkept, fun hback => absurd hback hpos.ne⟩
  | up =>
    simp only [Browser.move, if_neg hpos.ne]
    split_ifs with htop
    · exact h
    · refine ⟨fun _ => hkept, fun hback => ?_⟩
      have hback : b.pos - 1 = entries.length := hback
      omega
  | down =>
    simp only [Browser.move]
    split_ifs with hlt
    · refine ⟨fun _ => hkept, fun hback => ?_⟩
      have hback : b.pos + 1 = entries.length := hback
      omega
    · exact ⟨fun _ => hkept, fun _ => hkept⟩

/-- Going down keeps it also from the bottom, where it does nothing. -/
theorem Remembers.down (h : Remembers a b) : Remembers a (b.move .down) := by
  by_cases hpos : b.pos < entries.length
  · exact h.move hpos .down
  · have hbottom : b.pos = entries.length := Nat.le_antisymm b.pos_le (Nat.not_lt.mp hpos)
    rwa [move_down_of_bottom hbottom]

/-- **Going down until the bottom** shows what is remembered. -/
theorem iterate_down (h : Remembers a b) {n : ℕ} (hn : entries.length ≤ b.pos + n) :
    ((fun b : Browser entries => b.move .down)^[n] b).pos = entries.length ∧
      ((fun b : Browser entries => b.move .down)^[n] b).shown = a := by
  induction n generalizing b with
  | zero =>
    have hbottom : b.pos = entries.length := Nat.le_antisymm b.pos_le hn
    exact ⟨hbottom, h.bottom hbottom⟩
  | succ n ih =>
    rw [Function.iterate_succ_apply]
    apply ih h.down
    rw [pos_down]
    omega

end Browser
end Lib
end RuShell
