import Mathlib.Data.List.Basic
import Mathlib.Data.List.Induction

/-!
# Runs of labelled transition systems

A system is given by its step relation `step s e t`: from the state `s` the
event `e` can lead to `t`.  A run is a finite sequence of steps.  Properties of
whole runs are derived from properties of single steps by the rules here; a
property of all the states a run goes through is stated by restricting the step
relation.

## Main definitions

* `Run step s es t` — the events `es` lead from `s` to `t`.

## Main results

* `Run.invariant` — what every step keeps, every run keeps.
* `Run.history` — the same for a state and what the events so far amount to.
* `Run.induction_last` — induction over the events so far and the state they lead to.
* `Run.mono` — weakening the step relation.
* `run_iff_foldlM`, `run_of_foldlM` — runs of a step function are computed by a fold.
-/

namespace RuShell
namespace Lib

variable {σ ε : Type*}

/-- The events `es`, in this order, lead from one state to another. -/
inductive Run (step : σ → ε → σ → Prop) : σ → List ε → σ → Prop
  | nil (s : σ) : Run step s [] s
  | cons {s t u : σ} {e : ε} {es : List ε} :
      step s e t → Run step t es u → Run step s (e :: es) u

namespace Run

variable {step step' : σ → ε → σ → Prop} {s t u : σ} {e : ε} {es es' : List ε}

theorem single (h : step s e t) : Run step s [e] t := .cons h (.nil t)

theorem append (h : Run step s es t) (h' : Run step t es' u) : Run step s (es ++ es') u := by
  induction h with
  | nil _ => exact h'
  | cons hstep _ ih => exact .cons hstep (ih h')

theorem exists_of_append (h : Run step s (es ++ es') u) :
    ∃ t, Run step s es t ∧ Run step t es' u := by
  induction es generalizing s with
  | nil => exact ⟨s, .nil s, h⟩
  | cons e es ih =>
    cases h with
    | cons hstep hrest =>
      obtain ⟨t, ht, hu⟩ := ih hrest
      exact ⟨t, .cons hstep ht, hu⟩

/-- **The invariant rule.** -/
theorem invariant {I : σ → Prop} (hI : ∀ s e t, I s → step s e t → I t)
    (h : Run step s es t) (hs : I s) : I t := by
  induction h with
  | nil _ => exact hs
  | cons hstep _ ih => exact ih (hI _ _ _ hs hstep)

/-- The induction that goes from the events so far to one more. -/
theorem induction_last {I : List ε → σ → Prop} (hnil : I [] s)
    (hlast : ∀ es t e u, Run step s es t → I es t → step t e u → I (es ++ [e]) u)
    (h : Run step s es t) : I es t := by
  induction es using List.reverseRecOn generalizing t with
  | nil =>
    cases h
    exact hnil
  | append_singleton es e ih =>
    obtain ⟨m, hm, hend⟩ := exists_of_append h
    cases hend with
    | cons hstep hrest =>
      cases hrest
      exact hlast es m e _ hm (ih hm) hstep

theorem mono (hle : ∀ s e t, step s e t → step' s e t) (h : Run step s es t) :
    Run step' s es t := by
  induction h with
  | nil s => exact .nil s
  | cons hstep _ ih => exact .cons (hle _ _ _ hstep) ih

/-- The invariant rule for a state next to a value that is computed from the events. -/
theorem history {κ : Type*} {f : κ → ε → κ} {I : σ → κ → Prop} {k : κ}
    (hI : ∀ s k e t, I s k → step s e t → I t (f k e)) (h : Run step s es t) (hs : I s k) :
    I t (es.foldl f k) := by
  induction h generalizing k with
  | nil _ => exact hs
  | cons hstep _ ih => exact ih (hI _ _ _ _ hs hstep)

end Run

/-- The runs of a step function are what folding it over the events computes. -/
theorem run_iff_foldlM (f : σ → ε → Option σ) (s t : σ) (es : List ε) :
    Run (fun s e t => f s e = some t) s es t ↔ es.foldlM f s = some t := by
  induction es generalizing s with
  | nil =>
    simp only [List.foldlM_nil, Option.pure_def, Option.some.injEq]
    constructor
    · intro h
      cases h
      rfl
    · intro h
      subst h
      exact .nil s
  | cons e es ih =>
    simp only [List.foldlM_cons, Option.bind_eq_bind, Option.bind_eq_some_iff]
    constructor
    · intro h
      cases h with
      | cons hstep hrest => exact ⟨_, hstep, (ih _).mp hrest⟩
    · intro h
      obtain ⟨m, hstep, hrest⟩ := h
      exact .cons hstep ((ih m).mpr hrest)

/-- The same for the steps that meet a condition. -/
theorem run_of_foldlM {f : σ → ε → Option σ} {C : σ → ε → Prop} [∀ s e, Decidable (C s e)]
    {s t : σ} {es : List ε}
    (h : es.foldlM (fun s e => if C s e then f s e else none) s = some t) :
    Run (fun s e t => C s e ∧ f s e = some t) s es t := by
  refine Run.mono (fun s e t hstep => ?_) ((run_iff_foldlM _ _ _ _).mpr h)
  split at hstep
  · rename_i hC
    exact ⟨hC, hstep⟩
  · cases hstep

end Lib
end RuShell
