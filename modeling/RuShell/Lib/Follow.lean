import RuShell.Lib.Exec

/-!
# Following one process

`follows` runs along a program as the process that started it does, past its forks,
and keeps a state that is only thought of: which phase the program is in, or which
signals it has blocked.  It is used with machines in which the children are more
abstract than their programs.

## Main definitions

* `Watch` — how calls and forks change the state.
* `follows W A B p Q l` — `A` holds at every call of `p` and `B` at every fork, and
  `Q` at the end.
* `Steady C p` — from every state in `C`, `p` goes through and leaves it as it is.

## Main results

* `follows_bind`, `Steady.bind`, `Steady.mono` — how programs compose.
-/

namespace RuShell
namespace Lib
namespace Posix

variable {I : Iface} {σ α β : Type} {p : Prog I α} {q : α → Prog I β}

/-- How calls and forks change a state that is only thought of; a fork is given the
pid of the child, if it succeeds. -/
structure Watch (I : Iface) (σ : Type) where
  call : Call I → σ → σ
  fork : I.Role → Option ℕ → σ → σ

/-- Along the program, `A` holds at every call, `B` at every fork, and `Q` at the end. -/
def follows (W : Watch I σ) (A : Call I → σ → Prop) (B : I.Role → σ → Prop) :
    Prog I α → (α → σ → Prop) → σ → Prop
  | .pure a, Q, l => Q a l
  | .call c k, Q, l => A c l ∧ ∀ x, follows W A B (k x) Q (W.call c l)
  | .fork r k, Q, l => B r l ∧
      (∀ pid, follows W A B (k (.parent pid)) Q (W.fork r (some pid) l)) ∧
      follows W A B (k .failed) Q (W.fork r none l)

variable {W : Watch I σ} {A : Call I → σ → Prop} {B : I.Role → σ → Prop} {l : σ}

theorem follows_pure {a : α} {Q : α → σ → Prop} (h : Q a l) :
    follows W A B (pure a : Prog I α) Q l := h

/-- Programs compose. -/
theorem follows_bind {Q : β → σ → Prop} :
    follows W A B (p >>= q) Q l ↔ follows W A B p (fun a l => follows W A B (q a) Q l) l := by
  induction p generalizing l with
  | pure a => exact Iff.rfl
  | call c k ih => exact and_congr Iff.rfl (forall_congr' fun x => ih x)
  | fork r k ih =>
    exact and_congr Iff.rfl (and_congr (forall_congr' fun pid => ih _) (ih _))

theorem follows_mono {Q Q' : α → σ → Prop} (hQ : ∀ a l, Q a l → Q' a l)
    (h : follows W A B p Q l) : follows W A B p Q' l := by
  induction p generalizing l with
  | pure a => exact hQ a l h
  | call c k ih => exact ⟨h.1, fun x => ih x (h.2 x)⟩
  | fork r k ih => exact ⟨h.1, fun pid => ih _ (h.2.1 pid), ih _ h.2.2⟩

/-- The logic of a watch. -/
abbrev Watch.logic (W : Watch I σ) (A : Call I → σ → Prop) (B : I.Role → σ → Prop) : Logic I σ :=
  ⟨follows W A B, follows_pure, follows_bind.mpr, follows_mono⟩

/-- From every state in `C` the program goes through and leaves the state as it is. -/
def Steady (W : Watch I σ) (A : Call I → σ → Prop) (B : I.Role → σ → Prop) (C : σ → Prop)
    (p : Prog I α) : Prop :=
  ∀ (Q : α → σ → Prop) (l : σ), C l → (∀ x, Q x l) → follows W A B p Q l

namespace Steady

variable {C D : σ → Prop}

theorem pure (a : α) : Steady W A B C (Pure.pure a : Prog I α) := fun _ _ _ hQ => hQ a

theorem bind (hp : Steady W A B C p)
    (hq : ∀ a, Steady W A B C (q a)) : Steady W A B C (p >>= q) := by
  intro Q l hl hQ
  rw [follows_bind]
  exact hp _ l hl fun a => hq a Q l hl hQ

/-- Go past a steady program. -/
theorem next {Q : β → σ → Prop} (hp : Steady W A B C p)
    (hl : C l) (hq : ∀ a, follows W A B (q a) Q l) : follows W A B (p >>= q) Q l := by
  rw [follows_bind]
  exact hp _ l hl hq

theorem mono (hp : Steady W A B D p) (hCD : ∀ l, C l → D l) :
    Steady W A B C p := fun Q l hl hQ => hp Q l (hCD l hl) hQ

/-- A call that does not change the state. -/
theorem call {c : Call I} {k : c.Ret → Prog I α} (hA : ∀ l, C l → A c l)
    (hW : ∀ l, C l → W.call c l = l) (hk : ∀ x, Steady W A B C (k x)) :
    Steady W A B C (.call c k) := by
  intro Q l hl hQ
  refine ⟨hA l hl, fun x => ?_⟩
  rw [hW l hl]
  exact hk x Q l hl hQ

end Steady

end Posix
end Lib
end RuShell
