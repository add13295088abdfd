import RuShell.Lib.Posix

/-!
# What one process does

`Exec` relates the state before a program, the value it returns and the state after
it, for the process that started it: past a fork it follows the parent.  What the
calls do to the state is a parameter; a call can have any result that the effect
allows, so that the other processes need not be modelled.

## Main definitions

* `Effect` — what calls and forks do to a state.
* `Exec E p s a t` — from `s` the program can return `a` in `t`.
* `wlp E p Q s` — however `p` returns from `s`, `Q` holds then.
* `Logic` — any logic in which programs compose.

## Main results

* `wlp_iff` — the two agree.
* `wlp_bind`, `wlp_mono` — how programs compose.
* `wlp_of_calls` — programs whose calls all keep an invariant.
* `Exec.invariant` — an invariant of every call and fork.
-/

namespace RuShell
namespace Lib
namespace Posix

variable {I : Iface} {σ α β : Type}

/-- What calls and forks do to a state: a call can have the result `x` and lead to
the state `t` if `call c s x t`; a fork gives the parent a pid, or fails. -/
structure Effect (I : Iface) (σ : Type) where
  call : (c : Call I) → σ → c.Ret → σ → Prop
  fork : I.Role → σ → Option ℕ → σ → Prop

/-- The process that starts `p` in `s` can return `a` in `t`. -/
inductive Exec (E : Effect I σ) : Prog I α → σ → α → σ → Prop
  | pure {a : α} {s : σ} : Exec E (.pure a) s a s
  | call {c : Call I} {k : c.Ret → Prog I α} {x : c.Ret} {s t u : σ} {a : α} :
      E.call c s x t → Exec E (k x) t a u → Exec E (.call c k) s a u
  | parent {r : I.Role} {k : Forked → Prog I α} {pid : ℕ} {s t u : σ} {a : α} :
      E.fork r s (some pid) t → Exec E (k (.parent pid)) t a u → Exec E (.fork r k) s a u
  | failed {r : I.Role} {k : Forked → Prog I α} {s t u : σ} {a : α} :
      E.fork r s none t → Exec E (k .failed) t a u → Exec E (.fork r k) s a u

/-- However the program returns, `Q` holds of the value and the state. -/
def wlp (E : Effect I σ) : Prog I α → (α → σ → Prop) → σ → Prop
  | .pure a, Q, s => Q a s
  | .call c k, Q, s => ∀ x t, E.call c s x t → wlp E (k x) Q t
  | .fork r k, Q, s =>
    (∀ pid t, E.fork r s (some pid) t → wlp E (k (.parent pid)) Q t) ∧
      ∀ t, E.fork r s none t → wlp E (k .failed) Q t

variable {E : Effect I σ} {s t : σ}

variable {Q : α → σ → Prop} {p : Prog I α}

theorem wlp_iff :
    wlp E p Q s ↔ ∀ a t, Exec E p s a t → Q a t := by
  induction p generalizing s with
  | pure a =>
    constructor
    · intro h b t hexec
      cases hexec
      exact h
    · intro h
      exact h a s .pure
  | call c k ih =>
    constructor
    · intro h a u hexec
      cases hexec with
      | call hstep hrest => exact (ih _).mp (h _ _ hstep) a u hrest
    · intro h x t hstep
      exact (ih x).mpr fun a u hrest => h a u (.call hstep hrest)
  | fork r k ih =>
    constructor
    · intro h a u hexec
      cases hexec with
      | parent hstep hrest => exact (ih _).mp (h.1 _ _ hstep) a u hrest
      | failed hstep hrest => exact (ih _).mp (h.2 _ hstep) a u hrest
    · intro h
      refine ⟨fun pid t hstep => ?_, fun t hstep => ?_⟩
      · exact (ih _).mpr fun a u hrest => h a u (.parent hstep hrest)
      · exact (ih _).mpr fun a u hrest => h a u (.failed hstep hrest)

@[simp] theorem wlp_pure {a : α} :
    wlp E (Pure.pure a : Prog I α) Q s ↔ Q a s := Iff.rfl

theorem wlp_mono {Q' : α → σ → Prop} (hQ : ∀ a t, Q a t → Q' a t) (h : wlp E p Q s) :
    wlp E p Q' s := by
  rw [wlp_iff] at h ⊢
  exact fun a t hexec => hQ a t (h a t hexec)

/-- Programs compose. -/
theorem wlp_bind {q : α → Prog I β} {Q : β → σ → Prop} :
    wlp E (p >>= q) Q s ↔ wlp E p (fun a t => wlp E (q a) Q t) s := by
  induction p generalizing s with
  | pure a => exact Iff.rfl
  | call c k ih =>
    exact forall_congr' fun x => forall_congr' fun t => imp_congr Iff.rfl (ih x)
  | fork r k ih =>
    refine and_congr ?_ ?_
    · exact forall_congr' fun pid => forall_congr' fun t => imp_congr Iff.rfl (ih _)
    · exact forall_congr' fun t => imp_congr Iff.rfl (ih _)

/-- Go past the first part of a program. -/
theorem wlp_seq {q : α → Prog I β} {P : α → σ → Prop} {Q : β → σ → Prop} (hp : wlp E p P s)
    (hq : ∀ a t, P a t → wlp E (q a) Q t) : wlp E (p >>= q) Q s :=
  wlp_bind.mpr (wlp_mono hq hp)

/-- Calls of a kind that keeps an invariant. -/
theorem wlp_of_calls {A : Call I → Prop} {J : σ → Prop}
    (hA : ∀ {c : Call I} {s x t}, A c → E.call c s x t → J s → J t) (hp : p.Calls A) (hs : J s) :
    wlp E p (fun _ t => J t) s := by
  induction p generalizing s with
  | pure a => exact hs
  | call c k ih =>
    intro x t hstep
    exact ih x (hp.2 x) (hA hp.1 hstep hs)
  | fork r k ih => exact hp.elim

/-- A logic for programs: what holds when they return, such that programs compose. -/
structure Logic (I : Iface) (σ : Type) where
  holds {α : Type} : Prog I α → (α → σ → Prop) → σ → Prop
  pure {α : Type} {a : α} {Q : α → σ → Prop} {s : σ} : Q a s → holds (Pure.pure a) Q s
  bind {α β : Type} {p : Prog I α} {q : α → Prog I β} {Q : β → σ → Prop} {s : σ} :
    holds p (fun a t => holds (q a) Q t) s → holds (p >>= q) Q s
  mono {α : Type} {p : Prog I α} {Q Q' : α → σ → Prop} {s : σ} :
    (∀ a t, Q a t → Q' a t) → holds p Q s → holds p Q' s

/-- The logic of an effect. -/
abbrev Effect.logic (E : Effect I σ) : Logic I σ := ⟨wlp E, id, wlp_bind.mpr, wlp_mono⟩

theorem Exec.bind {q : α → Prog I β} {a : α} {b : β} {u : σ} (hp : Exec E p s a t)
    (hq : Exec E (q a) t b u) : Exec E (p >>= q) s b u := by
  induction hp with
  | pure => exact hq
  | call hstep _ ih => exact .call hstep (ih hq)
  | parent hstep _ ih => exact .parent hstep (ih hq)
  | failed hstep _ ih => exact .failed hstep (ih hq)

/-- The logic of what can happen. -/
def Effect.canReturn (E : Effect I σ) : Logic I σ where
  holds p Q s := ∃ a t, Exec E p s a t ∧ Q a t
  pure h := ⟨_, _, .pure, h⟩
  bind := by
    rintro _ _ _ _ _ _ ⟨a, t, hp, b, u, hq, hQ⟩
    exact ⟨b, u, hp.bind hq, hQ⟩
  mono := by
    rintro _ _ _ _ _ hQ ⟨a, t, hp, h⟩
    exact ⟨a, t, hp, hQ a t h⟩

/-- Calls that always have some result. -/
theorem canReturn_of_calls {A : Call I → Prop} (hA : ∀ c s, A c → ∃ x t, E.call c s x t)
    (hp : p.Calls A) (s : σ) : E.canReturn.holds p (fun _ _ => True) s := by
  induction p generalizing s with
  | pure a => exact ⟨a, s, .pure, trivial⟩
  | call c k ih =>
    obtain ⟨x, t, hstep⟩ := hA c s hp.1
    obtain ⟨a, u, hrest, -⟩ := ih x (hp.2 x) t
    exact ⟨a, u, .call hstep hrest, trivial⟩
  | fork r k ih => exact hp.elim

/-- An invariant of every call and fork is one of every execution. -/
theorem Exec.invariant {J : σ → Prop} (hcall : ∀ {c : Call I} {s x t}, E.call c s x t → J s → J t)
    (hfork : ∀ {r s pid t}, E.fork r s pid t → J s → J t) {a : α} (h : Exec E p s a t) (hs : J s) :
    J t := by
  induction h with
  | pure => exact hs
  | call hstep _ ih => exact ih (hcall hstep hs)
  | parent hstep _ ih | failed hstep _ ih => exact ih (hfork hstep hs)

end Posix
end Lib
end RuShell
