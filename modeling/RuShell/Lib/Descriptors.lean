import RuShell.Lib.Exec
import RuShell.Lib.PosixWp

/-!
# Descriptors that are opened and closed

The descriptor table of one process, with a log of the descriptors it opens and
closes.  `Holding f ds` is the assertion that is carried through a program: besides
what was open at the start, exactly the descriptors `ds` are open, and the log is in
order.

## Main definitions

* `FdEvent`, `FdState`, `fdEffect` — the table and the log.
* `balance` — a log is in order if only descriptors are closed that were opened in it
  and have not been closed since.
* `Holding f ds s` — the descriptors `ds` have been opened and not closed.

## Main results

* `Holding.pipe`, `Holding.openFile`, `Holding.closeFds`, `Holding.fork`, … — what the
  calls do to it.
* `Holding.nil` — if nothing is held, everything is as it was.
-/

namespace RuShell
namespace Lib
namespace Posix

variable {I : Iface}

/-- A descriptor is opened or closed. -/
inductive FdEvent
  | opened (fd : ℕ)
  | closed (fd : ℕ)
  deriving DecidableEq, Repr

/-- What a call opens and closes, in this order. -/
def fdEvents : (c : Call I) → c.Ret → List FdEvent
  | .pipe _, some (a, b) => [.opened a, .opened b]
  | .openFile _, some a => [.opened a]
  | .close fd, _ => [.closed fd]
  | .dup2 _ dst, _ => [.closed dst, .opened dst]
  | _, _ => []

/-- The table of a process and what it has opened and closed. -/
structure FdState (I : Iface) where
  fds : Fds I
  log : List FdEvent := []

/-- What the calls of a process do to its table; all of them can fail. -/
def fdEffect (lim : Limits) : Effect I (FdState I) where
  call c s x t := (fdLocal lim True).next c s.fds x t.fds ∧ t.log = s.log ++ fdEvents c x
  fork _ s _ t := t = s

/-- The descriptors that have been opened and not closed, after one more event;
`none` if the event is out of order. -/
def balance (live : List ℕ) : FdEvent → Option (List ℕ)
  | .opened fd => if fd ∈ live then none else some (fd :: live)
  | .closed fd => if fd ∈ live then some (live.erase fd) else none

/-- The calls that open and close nothing. -/
def Neutral : Call I → Prop
  | .book _ | .wait _ _ => True
  | _ => False

/-- Besides what is open in `f`, the descriptors `ds` are open, and no others; they
are what the log leaves open. -/
structure Holding (f : Fds I) (ds : List ℕ) (s : FdState I) : Prop where
  nodup : ds.Nodup
  fresh : ∀ fd ∈ ds, f fd = none
  isOpen : ∀ fd ∈ ds, s.fds fd ≠ none
  rest : ∀ fd, fd ∉ ds → s.fds fd = f fd
  log : ∃ live, s.log.foldlM balance [] = some live ∧ live.Perm ds

namespace Holding

variable {f : Fds I} {ds es : List ℕ} {s : FdState I}

theorem start (f : Fds I) : Holding f [] ⟨f, []⟩ :=
  ⟨List.nodup_nil, fun _ h => (by cases h), fun _ h => (by cases h), fun _ _ => rfl, [], rfl, .nil⟩

theorem nil (h : Holding f [] s) : s.fds = f ∧ s.log.foldlM balance [] = some [] := by
  obtain ⟨live, hlog, hperm⟩ := h.log
  rw [List.perm_nil.mp hperm] at hlog
  exact ⟨funext fun fd => h.rest fd List.not_mem_nil, hlog⟩

/-- The order does not matter. -/
theorem perm (h : Holding f ds s) (hperm : ds.Perm es) : Holding f es s := by
  refine ⟨hperm.nodup_iff.mp h.nodup, ?_, ?_, ?_, ?_⟩
  · exact fun fd hfd => h.fresh fd (hperm.mem_iff.mpr hfd)
  · exact fun fd hfd => h.isOpen fd (hperm.mem_iff.mpr hfd)
  · exact fun fd hfd => h.rest fd fun hmem => hfd (hperm.mem_iff.mp hmem)
  · obtain ⟨live, hlog, hlive⟩ := h.log
    exact ⟨live, hlog, hlive.trans hperm⟩

/-- A descriptor is opened. -/
theorem opened (h : Holding f ds s) {a : ℕ} {e : End I} (ha : s.fds a = none) :
    Holding f (a :: ds) ⟨Function.update s.fds a (some e), s.log ++ [.opened a]⟩ := by
  have hnot : a ∉ ds := fun hmem => h.isOpen a hmem ha
  refine ⟨List.nodup_cons.mpr ⟨hnot, h.nodup⟩, ?_, ?_, ?_, ?_⟩
  · intro fd hfd
    rcases List.mem_cons.mp hfd with rfl | hfd
    · rw [← h.rest _ hnot]
      exact ha
    · exact h.fresh fd hfd
  · intro fd hfd
    by_cases hne : fd = a
    · subst hne
      simp
    · change Function.update s.fds a (some e) fd ≠ none
      rw [Function.update_of_ne hne]
      exact h.isOpen fd ((List.mem_cons.mp hfd).resolve_left hne)
  · intro fd hfd
    rw [List.mem_cons, not_or] at hfd
    change Function.update s.fds a (some e) fd = f fd
    rw [Function.update_of_ne hfd.1]
    exact h.rest fd hfd.2
  · obtain ⟨live, hlog, hlive⟩ := h.log
    refine ⟨a :: live, ?_, hlive.cons a⟩
    have hlive' : a ∉ live := fun hmem => hnot (hlive.mem_iff.mp hmem)
    rw [List.foldlM_append, hlog]
    simp [balance, hlive']

/-- A descriptor that is held is closed. -/
theorem closed {a : ℕ} (h : Holding f (a :: ds) s) :
    Holding f ds ⟨Function.update s.fds a none, s.log ++ [.closed a]⟩ := by
  obtain ⟨hnot, hnodup⟩ := List.nodup_cons.mp h.nodup
  refine ⟨hnodup, ?_, ?_, ?_, ?_⟩
  · exact fun fd hfd => h.fresh fd (List.mem_cons_of_mem a hfd)
  · intro fd hfd
    have hne : fd ≠ a := fun heq => hnot (heq ▸ hfd)
    change Function.update s.fds a none fd ≠ none
    rw [Function.update_of_ne hne]
    exact h.isOpen fd (List.mem_cons_of_mem a hfd)
  · intro fd hfd
    by_cases hne : fd = a
    · subst hne
      rw [h.fresh fd List.mem_cons_self]
      exact Function.update_self _ _ _
    · change Function.update s.fds a none fd = f fd
      rw [Function.update_of_ne hne]
      refine h.rest fd fun hmem => ?_
      exact (List.mem_cons.mp hmem).elim hne hfd
  · obtain ⟨live, hlog, hlive⟩ := h.log
    have hmem : a ∈ live := hlive.mem_iff.mpr List.mem_cons_self
    refine ⟨live.erase a, ?_, ?_⟩
    · rw [List.foldlM_append, hlog]
      simp [balance, hmem]
    · have herase := hlive.erase a
      rwa [List.erase_cons_head] at herase

/-! What the calls do to it. -/

variable {lim : Limits} {α : Type}

theorem pipe (h : Holding f ds s) {tag : I.Tag} {Q : Option (ℕ × ℕ) → FdState I → Prop}
    (hok : ∀ a b t, Holding f (a :: b :: ds) t → Q (some (a, b)) t)
    (hfail : ∀ t, Holding f ds t → Q none t) :
    wlp (fdEffect lim) (Posix.pipe tag) Q s := by
  intro x t hx
  obtain ⟨fds, log⟩ := t
  cases x with
  | none =>
    obtain ⟨⟨-, hfds⟩, hlog⟩ := hx
    change fds = s.fds at hfds
    change log = s.log ++ [] at hlog
    rw [List.append_nil] at hlog
    subst hfds hlog
    exact hfail _ h
  | some ab =>
    obtain ⟨⟨ha, hb, hab, hfds⟩, hlog⟩ := hx
    change fds = _ at hfds
    change log = s.log ++ [.opened ab.1, .opened ab.2] at hlog
    subst hfds hlog
    have hb' : Function.update s.fds ab.1 (some (.read tag)) ab.2 = none := by
      rwa [Function.update_of_ne hab.symm]
    have hboth := (h.opened (e := .read tag) ha).opened (e := .write tag) hb'
    rw [List.append_assoc] at hboth
    exact hok ab.1 ab.2 _ (hboth.perm (.swap _ _ _))

theorem openFile (h : Holding f ds s) {n : I.Name} {Q : Option ℕ → FdState I → Prop}
    (hok : ∀ a t, Holding f (a :: ds) t → Q (some a) t)
    (hfail : ∀ t, Holding f ds t → Q none t) :
    wlp (fdEffect lim) (Posix.openFile n) Q s := by
  intro x t hx
  obtain ⟨fds, log⟩ := t
  cases x with
  | none =>
    obtain ⟨hfds, hlog⟩ := hx
    change fds = s.fds at hfds
    change log = s.log ++ [] at hlog
    rw [List.append_nil] at hlog
    subst hfds hlog
    exact hfail _ h
  | some a =>
    obtain ⟨⟨ha, hfds⟩, hlog⟩ := hx
    change fds = _ at hfds
    change log = s.log ++ [.opened a] at hlog
    subst hfds hlog
    exact hok a _ (h.opened ha)

theorem close {a : ℕ} (h : Holding f (a :: ds) s) {Q : Unit → FdState I → Prop}
    (hQ : ∀ t, Holding f ds t → Q () t) : wlp (fdEffect lim) (Posix.close a) Q s := by
  intro x t hx
  obtain ⟨fds, log⟩ := t
  obtain ⟨hfds, hlog⟩ := hx
  change fds = _ at hfds
  change log = s.log ++ [.closed a] at hlog
  subst hfds hlog
  exact hQ _ h.closed

theorem closeFds {fds : List ℕ} (h : Holding f (fds ++ ds) s) {Q : Unit → FdState I → Prop}
    (hQ : ∀ t, Holding f ds t → Q () t) : wlp (fdEffect lim) (Posix.closeFds fds) Q s := by
  induction fds generalizing s with
  | nil => exact hQ s h
  | cons a fds ih => exact wlp_bind.mpr (h.close fun t ht => ih ht)

/-- Calls that open and close nothing. -/
theorem neutral (h : Holding f ds s) {p : Prog I α} (hp : p.Calls Neutral) :
    wlp (fdEffect lim) p (fun _ => Holding f ds) s := by
  refine wlp_of_calls (fun {c s x t} hc hcall h => ?_) hp h
  obtain ⟨fds, log⟩ := t
  have hsame : fds = s.fds ∧ log = s.log ++ [] := by
    cases c with
    | book b | wait pid untraced => exact hcall
    | _ => exact hc.elim
  obtain ⟨rfl, hlog⟩ := hsame
  rw [List.append_nil] at hlog
  subst hlog
  exact h

/-- The parent of a fork keeps its table. -/
theorem fork (h : Holding f ds s) {r : I.Role} {Q : Forked → FdState I → Prop}
    (hparent : ∀ pid t, Holding f ds t → Q (.parent pid) t)
    (hfailed : ∀ t, Holding f ds t → Q .failed t) : wlp (fdEffect lim) (Posix.fork r) Q s := by
  refine ⟨fun pid t ht => ?_, fun t ht => ?_⟩
  · exact hparent pid t (ht ▸ h)
  · exact hfailed t (ht ▸ h)

end Holding

end Posix
end Lib
end RuShell
