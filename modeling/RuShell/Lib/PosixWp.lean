import Mathlib.Logic.Function.Basic
import Mathlib.Tactic
import RuShell.Lib.Posix

/-!
# A proof rule for one process

`wp` says that whenever a process, or one that it forks, stops at a call that can
wait, or becomes another program, an assertion about its own state holds there.
The local state is a parameter; for the descriptor table there is one rule for
each system call.

## Main definitions

* `Local`, `wp` — local state and the proof rule.
* `fdLocal` — the descriptor table as local state.

## Main results

* `wp_bind` — how programs compose.
* `wp_pipe`, `wp_openFile`, `wp_closeFds`, … — the rules for the calls.
* `localStep_next` — the rules describe what the calls do.
-/

namespace RuShell
namespace Lib
namespace Posix

variable {I : Iface}

/-! ### Reasoning about one process -/

/-- A notion of local state: how the calls of a process change it, and whether
`fork` may fail.  A child starts with the local state of its parent. -/
structure Local (I : Iface) (σ : Type) where
  next : (c : Call I) → σ → c.Ret → σ → Prop
  forkFails : Prop

section Wp

variable {σ α β : Type} (L : Local I σ) (A : I.Role → Call I → σ → Prop)

/-- Whenever the process, or one that it forks, gets to a call at which it can
stop, the assertion `A` holds there; and if it returns, `Q` holds. -/
def wp : I.Role → Prog I α → (I.Role → α → σ → Prop) → σ → Prop
  | r, .pure a, Q, l => Q r a l
  | r, .call c k, Q, l =>
    (c.stops = true → A r c l) ∧ ∀ x l', L.next c l x l' → wp r (k x) Q l'
  | r, .fork r' k, Q, l =>
    wp r' (k .child) Q l ∧ (∀ pid, wp r (k (.parent pid)) Q l) ∧
      (L.forkFails → wp r (k .failed) Q l)

variable {L A} {r : I.Role} {l : σ}

@[simp] theorem wp_pure {a : α} {Q : I.Role → α → σ → Prop} :
    wp L A r (Pure.pure a : Prog I α) Q l ↔ Q r a l := Iff.rfl

/-- Programs compose. -/
theorem wp_bind {p : Prog I α} {q : α → Prog I β} {Q : I.Role → β → σ → Prop} :
    wp L A r (p >>= q) Q l ↔ wp L A r p (fun r a l => wp L A r (q a) Q l) l := by
  induction p generalizing r l with
  | pure a => exact Iff.rfl
  | call c k ih =>
    refine and_congr Iff.rfl (forall_congr' fun x => forall_congr' fun l' => ?_)
    exact imp_congr Iff.rfl (ih x)
  | fork r' k ih =>
    exact and_congr (ih _)
      (and_congr (forall_congr' fun pid => ih _) (imp_congr Iff.rfl (ih _)))

theorem wp_fork {r' : I.Role} {Q : I.Role → Forked → σ → Prop} :
    wp L A r (fork r') Q l ↔
      Q r' .child l ∧ (∀ pid, Q r (.parent pid) l) ∧ (L.forkFails → Q r .failed l) := Iff.rfl

end Wp

/-! ### The descriptor table as local state -/

section Descriptors

/-- The descriptor table: what each call does to it.  Pipes and processes run out
only if `faults` allows it. -/
def fdLocal (lim : Limits) (faults : Prop) : Local I (Fds I) where
  next
    | .pipe t, f, some (a, b), f' =>
      f a = none ∧ f b = none ∧ a ≠ b ∧
        f' = Function.update (Function.update f a (some (.read t))) b (some (.write t))
    | .pipe _, f, none, f' => faults ∧ f' = f
    | .openFile n, f, some a, f' => f a = none ∧ f' = Function.update f a (some (.file n))
    | .close fd, f, _, f' => f' = Function.update f fd none
    | .dup2 src dst, f, _, f' => f' = if dst < lim.openMax then dup f src dst else f
    | _, f, _, f' => f' = f
  forkFails := faults

variable {lim : Limits} {faults : Prop} {A : I.Role → Call I → Fds I → Prop} {r : I.Role}
  {f : Fds I} {fd : ℕ}

theorem wp_pipe {t : I.Tag} {Q : I.Role → Option (ℕ × ℕ) → Fds I → Prop}
    (hok : ∀ a b, f a = none → f b = none → a ≠ b →
      Q r (some (a, b)) (Function.update (Function.update f a (some (.read t))) b
        (some (.write t))))
    (hfail : faults → Q r none f) : wp (fdLocal lim faults) A r (pipe t) Q f := by
  refine ⟨fun h => (by cases h), fun x f' h => ?_⟩
  cases x with
  | none =>
    obtain ⟨hf, rfl⟩ := h
    exact hfail hf
  | some ab =>
    obtain ⟨ha, hb, hab, rfl⟩ := h
    exact hok _ _ ha hb hab

theorem wp_openFile {n : I.Name} {Q : I.Role → Option ℕ → Fds I → Prop}
    (hok : ∀ a, f a = none → Q r (some a) (Function.update f a (some (.file n))))
    (hfail : Q r none f) : wp (fdLocal lim faults) A r (openFile n) Q f := by
  refine ⟨fun h => (by cases h), fun x f' h => ?_⟩
  cases x with
  | none =>
    have h : f' = f := h
    rw [h]
    exact hfail
  | some a =>
    obtain ⟨ha, rfl⟩ := h
    exact hok a ha

/-- A call with one result and one new table. -/
theorem wp_call_det {α : Type} {c : Call I} {k : c.Ret → Prog I α} {Q : I.Role → α → Fds I → Prop}
    {x : c.Ret} {f₁ : Fds I}
    (hnext : ∀ y f', (fdLocal lim faults).next c f y f' ↔ y = x ∧ f' = f₁) :
    wp (fdLocal lim faults) A r (.call c k) Q f ↔
      (c.stops = true → A r c f) ∧ wp (fdLocal lim faults) A r (k x) Q f₁ := by
  refine and_congr Iff.rfl ⟨fun h => h x f₁ ((hnext x f₁).mpr ⟨rfl, rfl⟩), fun h y f' hy => ?_⟩
  obtain ⟨rfl, rfl⟩ := (hnext y f').mp hy
  exact h

variable {Q : I.Role → Unit → Fds I → Prop}

@[simp] theorem wp_close :
    wp (fdLocal lim faults) A r (close fd) Q f ↔ Q r () (Function.update f fd none) :=
  (wp_call_det (c := .close fd) (x := ()) fun _ _ => ⟨fun h => ⟨rfl, h⟩, fun h => h.2⟩).trans
    ⟨fun h => h.2, fun h => ⟨fun h => (by cases h), h⟩⟩

theorem wp_dup2 {src dst : ℕ} (hdst : dst < 3) :
    wp (fdLocal lim faults) A r (dup2 src dst) Q f ↔ Q r () (dup f src dst) := by
  have hlim : dst < lim.openMax := by
    unfold Limits.openMax
    omega
  have hnext : ∀ y f', (fdLocal lim faults).next (.dup2 src dst) f y f' ↔
      y = () ∧ f' = dup f src dst := by
    intro y f'
    have hdef : (fdLocal lim faults).next (.dup2 src dst) f y f' ↔
        f' = if dst < lim.openMax then dup f src dst else f := Iff.rfl
    rw [hdef, if_pos hlim]
    exact ⟨fun h => ⟨rfl, h⟩, fun h => h.2⟩
  exact (wp_call_det hnext).trans ⟨fun h => h.2, fun h => ⟨fun h => (by cases h), h⟩⟩

@[simp] theorem wp_book {b : I.Book} {Q : I.Role → ℤ → Fds I → Prop} :
    wp (fdLocal lim faults) A r (book b) Q f ↔ ∀ z, Q r z f := by
  constructor
  · intro h z
    exact h.2 z f rfl
  · intro h
    refine ⟨fun h => (by cases h), fun x f' hx => ?_⟩
    have hx : f' = f := hx
    rw [hx]
    exact h x

@[simp] theorem wp_exit {α : Type} {n : ℕ} {Q : I.Role → α → Fds I → Prop} :
    wp (fdLocal lim faults) A r (exit n) Q f :=
  ⟨fun h => (by cases h), fun x => Empty.elim x⟩

@[simp] theorem wp_wait {pid : ℕ} {u : Bool} {Q : I.Role → Status → Fds I → Prop} :
    wp (fdLocal lim faults) A r (wait pid u) Q f ↔ A r (.wait pid u) f ∧ ∀ s, Q r s f := by
  constructor
  · intro h
    exact ⟨h.1 rfl, fun s => h.2 s f rfl⟩
  · intro h
    refine ⟨fun _ => h.1, fun x f' hx => ?_⟩
    have hx : f' = f := hx
    rw [hx]
    exact h.2 x

@[simp] theorem wp_readByte :
    wp (fdLocal lim faults) A r (readByte fd) Q f ↔ A r (.readByte fd) f ∧ Q r () f :=
  (wp_call_det (c := .readByte fd) (x := ()) fun _ _ => ⟨fun h => ⟨rfl, h⟩, fun h => h.2⟩).trans
    (and_congr ⟨fun h => h rfl, fun h _ => h⟩ Iff.rfl)

@[simp] theorem wp_feed {n : ℕ} :
    wp (fdLocal lim faults) A r (feed fd n) Q f ↔ A r (.feed fd n) f ∧ Q r () f :=
  (wp_call_det (c := .feed fd n) (x := ()) fun _ _ => ⟨fun h => ⟨rfl, h⟩, fun h => h.2⟩).trans
    (and_congr ⟨fun h => h rfl, fun h _ => h⟩ Iff.rfl)

@[simp] theorem wp_drain :
    wp (fdLocal lim faults) A r (drain fd) Q f ↔ A r (.drain fd) f ∧ Q r () f :=
  (wp_call_det (c := .drain fd) (x := ()) fun _ _ => ⟨fun h => ⟨rfl, h⟩, fun h => h.2⟩).trans
    (and_congr ⟨fun h => h rfl, fun h _ => h⟩ Iff.rfl)

@[simp] theorem wp_exec {n : I.Name} :
    wp (fdLocal lim faults) A r (exec n) Q f ↔ A r (.exec n) f ∧ Q r () f :=
  (wp_call_det (c := .exec n) (x := ()) fun _ _ => ⟨fun h => ⟨rfl, h⟩, fun h => h.2⟩).trans
    (and_congr ⟨fun h => h rfl, fun h _ => h⟩ Iff.rfl)

/-- The table with some descriptors closed. -/
def closed (fds : List ℕ) (f : Fds I) : Fds I := fun fd => if fd ∈ fds then none else f fd

@[simp] theorem closed_nil : closed [] f = f := by
  funext fd
  simp [closed]

theorem closed_cons (a : ℕ) (fds : List ℕ) :
    closed (a :: fds) f = closed fds (Function.update f a none) := by
  funext fd
  by_cases ha : fd = a
  · subst ha
    simp [closed]
  · simp [closed, ha]

theorem wp_closeFds (fds : List ℕ) :
    wp (fdLocal lim faults) A r (closeFds fds) Q f ↔ Q r () (closed fds f) := by
  induction fds generalizing f with
  | nil =>
    rw [closed_nil]
    exact Iff.rfl
  | cons a fds ih =>
    rw [closeFds, wp_bind, wp_close, ih, closed_cons]

theorem lowest_free {a : ℕ} (h : lowest lim f = some a) : f a = none := by
  have := List.find?_some h
  simpa using this

theorem localStep_next {f' : Fds I} {c : Call I} {o : Outcome} {x : c.Ret}
    (h : localStep lim f c o = some (x, f')) (ho : o = .fault → faults) :
    (fdLocal lim faults).next c f x f' := by
  cases c with
  | pipe t =>
    cases o with
    | ok =>
      simp only [localStep] at h
      split at h
      · cases h
      · rename_i a ha
        split at h
        · cases h
        · rename_i b hb
          injection h with h
          injection h with hx hf
          subst hx hf
          have hfree := lowest_free hb
          have hab : b ≠ a := by
            rintro rfl
            simp at hfree
          rw [Function.update_of_ne hab] at hfree
          exact ⟨lowest_free ha, hfree, hab.symm, rfl⟩
    | fault =>
      injection h with h
      injection h with hx hf
      subst hx hf
      exact ⟨ho rfl, rfl⟩
    | _ => cases h
  | openFile n =>
    cases o with
    | ok =>
      simp only [localStep] at h
      split at h
      · cases h
      · rename_i a ha
        injection h with h
        injection h with hx hf
        subst hx hf
        exact ⟨lowest_free ha, rfl⟩
    | refused =>
      injection h with h
      injection h with hx hf
      subst hx hf
      exact rfl
    | _ => cases h
  | close fd | dup2 src dst =>
    cases o with
    | ok =>
      injection h with h
      injection h with _ hf
      exact hf.symm
    | _ => cases h
  | exec n =>
    cases o with
    | refused =>
      injection h with h
      injection h with _ hf
      exact hf.symm
    | _ => cases h
  | book b =>
    cases o with
    | value z =>
      injection h with h
      injection h with _ hf
      exact hf.symm
    | _ => cases h
  | wait q u | readByte fd | feed fd n | drain fd | exit n => cases o <;> cases h

end Descriptors

end Posix
end Lib
end RuShell
