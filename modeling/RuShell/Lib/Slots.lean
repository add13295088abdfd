import RuShell.Lib.Lists
import Mathlib.Data.List.Induction
import Mathlib.Logic.Function.Basic

/-!
# Arrays with checked accesses

A local array of a C function has a fixed size and no initial contents.  Here an
access outside of the array is a fault, and so is reading a slot that nothing
has been written to.

## Main definitions

* `Fault` — the ways in which an access goes wrong.
* `Returns x P` — the steps `x` end well, with a result in `P`.
* `Slots room α` — an array whose indices are those in `room`.
* `Slots.Holds` — an index in the array whose slot has a known value.

## Main results

* `bind_eq_ok`, `mapM_range_eq_ok` — steps in sequence, and one for each entry of a
  list.
* `Slots.read_of_holds` — reading a slot whose value is known.
* `Slots.write_of_room` — a write inside of the array changes one slot.
-/

namespace RuShell
namespace Lib

variable {ι α : Type*} {room : ι → Prop}

/-- The ways in which a step of a C program goes wrong. -/
inductive Fault
  /-- An index outside of an array. -/
  | outOfRange
  /-- A slot is read that nothing has been written to. -/
  | uninitialised
  /-- A null pointer is followed. -/
  | nullPointer
  /-- A branch that is marked as unreachable is taken. -/
  | unreachable
  deriving DecidableEq, Repr

/-- A sequence of steps that ends well has ended each of them well. -/
theorem bind_eq_ok {ε β γ : Type} {x : Except ε β} {g : β → Except ε γ} {c : γ}
    (h : (x >>= g) = .ok c) : ∃ b, x = .ok b ∧ g b = .ok c := by
  cases x with
  | error e => cases h
  | ok b => exact ⟨b, rfl, h⟩

/-- The steps end well, with a result in `P`. -/
def Returns {ε β : Type} (x : Except ε β) (P : β → Prop) : Prop := ∃ b, x = .ok b ∧ P b

namespace Returns

variable {ε β γ : Type} {x : Except ε β} {P Q : β → Prop}

theorem ok {b : β} (h : P b) : Returns (.ok b : Except ε β) P := ⟨b, rfl, h⟩

theorem mono (h : Returns x P) (hPQ : ∀ b, P b → Q b) : Returns x Q := by
  obtain ⟨b, hb, hP⟩ := h
  exact ⟨b, hb, hPQ b hP⟩

theorem bind {R : γ → Prop} {g : β → Except ε γ} (h : Returns x P)
    (hg : ∀ b, P b → Returns (g b) R) : Returns (x >>= g) R := by
  obtain ⟨b, rfl, hP⟩ := h
  exact hg b hP

end Returns

/-- Reading the entries of a list one after the other, by their numbers. -/
theorem mapM_range_eq_ok {ε β : Type} {g : ℕ → Except ε β} {l : List β}
    (h : ∀ j b, l[j]? = some b → g j = .ok b) : (List.range l.length).mapM g = .ok l := by
  induction l using List.reverseRecOn with
  | nil => rfl
  | append_singleton l b ih =>
    have hinit : (List.range l.length).mapM g = .ok l := by
      apply ih
      intro j c hj
      exact h j c (getElem?_append_of_some hj)
    have hlast : g l.length = .ok b := h l.length b List.getElem?_concat_length
    rw [List.length_append, List.length_singleton, List.range_succ, List.mapM_append, hinit]
    simp only [List.mapM_cons, hlast, List.mapM_nil]
    rfl

/-- An array whose indices are those in `room`; a slot without a value has not
been written to. -/
structure Slots (room : ι → Prop) (α : Type*) where
  /-- What each slot holds. -/
  cell : ι → Option α

namespace Slots

/-- An array at its declaration. -/
def blank : Slots room α := ⟨fun _ => none⟩

/-- The value of a slot. -/
def read [DecidablePred room] (a : Slots room α) (i : ι) : Except Fault α :=
  if room i then
    match a.cell i with
    | some v => .ok v
    | none => .error .uninitialised
  else .error .outOfRange

/-- The array with a new value in one slot. -/
def write [DecidablePred room] [DecidableEq ι] (a : Slots room α) (i : ι) (v : α) :
    Except Fault (Slots room α) :=
  if room i then .ok ⟨Function.update a.cell i (some v)⟩ else .error .outOfRange

/-- The index is in the array, and its slot has the value `v`. -/
def Holds (a : Slots room α) (i : ι) (v : α) : Prop := room i ∧ a.cell i = some v

variable {a : Slots room α} {i : ι} {v : α}

theorem read_of_holds [DecidablePred room] (h : a.Holds i v) : a.read i = .ok v := by
  rw [read, if_pos h.1, h.2]

theorem holds_of_read [DecidablePred room] (h : a.read i = .ok v) : a.Holds i v := by
  unfold read at h
  split at h
  · rename_i hi
    split at h
    · rename_i w hw
      injection h with h
      exact ⟨hi, h ▸ hw⟩
    · cases h
  · cases h

/-- A write inside of the array succeeds; it sets its slot and no other. -/
theorem write_of_room [DecidablePred room] [DecidableEq ι] (hi : room i) (a : Slots room α)
    (v : α) :
    ∃ a', a.write i v = .ok a' ∧ a'.Holds i v ∧ ∀ j w, j ≠ i → a.Holds j w → a'.Holds j w := by
  refine ⟨⟨Function.update a.cell i (some v)⟩, if_pos hi, ⟨hi, ?_⟩, ?_⟩
  · exact Function.update_self i (some v) a.cell
  · intro j w hj hw
    refine ⟨hw.1, ?_⟩
    show Function.update a.cell i (some v) j = some w
    rw [Function.update_of_ne hj, hw.2]

end Slots
end Lib
end RuShell
