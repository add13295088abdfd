import Mathlib.Data.Fin.Basic
import Mathlib.Logic.Function.Basic
import Mathlib.Tactic.Common
import RuShell.Lib.Run

/-!
# Kernel threads that share a spin lock and sleep on channels

A fixed table of threads runs over shared data.  One spin lock guards the data.
A thread that has to wait registers a channel while it holds the lock, releases
the lock and goes to sleep; it does not fall asleep when its registration was
taken away in between.  A wakeup goes through the table slot by slot and takes
away the registrations of its channel; the other threads run between two slots.
A kill rouses a sleeper and leaves its registration alone.

What the threads do is given by a function from control points to statements, so
that a run is an arbitrary interleaving of single statements.  The rule to reason
about them is a proof outline: an assertion at every control point that the
statements of the other threads do not falsify, and an account of wakeups.  It says
at which points a thread waits, for which condition, and at which points the holder
of the lock still owes a wakeup to the threads whose condition may be gone.

## Main definitions

* `Stmt`, `Code` — statements, and the program of every thread.
* `Machine`, `Event`, `step` — the machine and its steps.
* `Outline`, `Outline.Sound`, `Outline.Valid` — proof outlines, what they have to meet, and
  the states they describe.

## Main results

* `Outline.Valid.step`, `Outline.Valid.run` — sound outlines describe every reachable state.
* `Outline.Valid.need_of_asleep` — **no lost wakeup**: with the lock free, the condition
  every sleeper waits for is still there.
* `Outline.Valid.exists_step` — whoever holds the lock can take its next step.
-/

namespace RuShell
namespace Lib
namespace Monitor

variable {n : ℕ} {D C P X : Type}

/-- A statement, with the control point that follows it. -/
inductive Stmt (D C P : Type)
  /-- Take the lock; spin while another thread has it. -/
  | acquire (q : P)
  | release (q : P)
  /-- Change the data and the local variables. -/
  | update (d : D) (q : P)
  /-- Register a channel to wait on. -/
  | prepare (c : C) (q : P)
  /-- Sleep, if still registered. -/
  | sleep (q : P)
  | wakeup (c : C) (q : P)
  | panic

/-- The program of every thread: the statement at a control point, for whether the
thread has been killed, for what its environment supplies and for the data. -/
abbrev Code (n : ℕ) (D C P X : Type) := Fin n → P → Bool → X → D → Stmt D C P

/-- Where a thread is. -/
inductive Ctl (C P : Type)
  | run (p : P)
  /-- In a wakeup that has the slots from `i` on ahead of it. -/
  | waking (c : C) (i : ℕ) (q : P)
  /-- In the sleep at `p`; control goes on at `q`. -/
  | asleep (p q : P)
  | panicked
  deriving DecidableEq, Repr

/-- The point a thread is at or goes on at. -/
def Ctl.point : Ctl C P → Option P
  | .run p => some p
  | .waking _ _ q => some q
  | .asleep _ q => some q
  | .panicked => none

/-- A sleeper goes on. -/
def Ctl.rouse : Ctl C P → Ctl C P
  | .asleep _ q => .run q
  | .run p => .run p
  | .waking c i q => .waking c i q
  | .panicked => .panicked

@[simp] theorem Ctl.point_rouse (k : Ctl C P) : k.rouse.point = k.point := by
  cases k <;> rfl

theorem Ctl.rouse_ne_asleep (k : Ctl C P) (p q : P) : k.rouse ≠ .asleep p q := by
  cases k <;> simp [Ctl.rouse]

/-- Rousing changes sleepers only. -/
theorem Ctl.rouse_cases (k : Ctl C P) :
    k.rouse = k ∨ ∃ p q, k = .asleep p q ∧ k.rouse = .run q := by
  cases k with
  | asleep p q => exact .inr ⟨p, q, rfl, rfl⟩
  | _ => exact .inl rfl

/-- A slot of the table. -/
structure Thread (C P : Type) where
  ctl : Ctl C P
  chan : Option C
  killed : Bool

/-- Send a thread to a control point. -/
def Thread.goto (k : Ctl C P) (th : Thread C P) : Thread C P := { th with ctl := k }

/-- One round of the loop of a wakeup. -/
def Thread.wake [DecidableEq C] (c : C) (th : Thread C P) : Thread C P :=
  if th.chan = some c then { th with chan := none, ctl := th.ctl.rouse } else th

/-- A kill: a thread that sleeps wakes up. -/
def Thread.kill (th : Thread C P) : Thread C P :=
  { th with killed := true, ctl := th.ctl.rouse }

/-- The threads, the lock and the data. -/
structure Machine (n : ℕ) (D C P : Type) where
  data : D
  holder : Option (Fin n)
  thread : Fin n → Thread C P

namespace Machine

/-- Change one slot. -/
def modify (m : Machine n D C P) (t : Fin n) (f : Thread C P → Thread C P) : Machine n D C P :=
  { m with thread := Function.update m.thread t (f (m.thread t)) }

/-- Send one thread to a control point. -/
def goto (m : Machine n D C P) (t : Fin n) (k : Ctl C P) : Machine n D C P :=
  m.modify t (Thread.goto k)

/-- The statement of the thread `t` at the point `p`.  Taking the lock twice,
releasing it without having it and sleeping with it are panics. -/
def exec (m : Machine n D C P) (t : Fin n) (p : P) : Stmt D C P → Option (Machine n D C P)
  | .acquire q =>
    if m.holder = none then some { m.goto t (.run q) with holder := some t }
    else if m.holder = some t then some (m.goto t .panicked)
    else none
  | .release q =>
    if m.holder = some t then some { m.goto t (.run q) with holder := none }
    else some (m.goto t .panicked)
  | .update d q => some { m.goto t (.run q) with data := d }
  | .prepare c q => some (m.modify t fun th => { th with chan := some c, ctl := .run q })
  | .sleep q =>
    if (m.thread t).chan = none then some (m.goto t (.run q))
    else if m.holder = some t then some (m.goto t .panicked)
    else some (m.goto t (.asleep p q))
  | .wakeup c q => some (m.goto t (.waking c 0 q))
  | .panic => some (m.goto t .panicked)

end Machine

/-- What can happen next. -/
inductive Event (n : ℕ) (X : Type)
  /-- The thread `t` takes a step; `x` is what its environment supplies. -/
  | run (t : Fin n) (x : X)
  | kill (t : Fin n)

/-- One step of the machine; `none` if the thread cannot take one. -/
def step [DecidableEq C] (code : Code n D C P X) (m : Machine n D C P) :
    Event n X → Option (Machine n D C P)
  | .kill t => some (m.modify t Thread.kill)
  | .run t x =>
    match (m.thread t).ctl with
    | .run p => m.exec t p (code t p (m.thread t).killed x m.data)
    | .waking c i q =>
      if h : i < n then some ((m.modify ⟨i, h⟩ (.wake c)).goto t (.waking c (i + 1) q))
      else some (m.goto t (.run q))
    | .asleep _ _ => none
    | .panicked => none

/-- The steps as a relation. -/
def Step [DecidableEq C] (code : Code n D C P X) (m : Machine n D C P) (e : Event n X)
    (m' : Machine n D C P) : Prop :=
  step code m e = some m'

variable {s : Stmt D C P}

/-- Only an update changes the data. -/
theorem exec_data {m m' : Machine n D C P} {t : Fin n} {p : P}
    (h : m.exec t p s = some m') :
    m'.data = m.data ∨ ∃ q, s = .update m'.data q ∧ (m'.thread t).ctl = .run q := by
  cases s with
  | update d q =>
    cases h
    exact .inr ⟨q, rfl, by simp [Machine.goto, Machine.modify, Thread.goto]⟩
  | acquire q | release q | sleep q =>
    simp only [Machine.exec] at h
    repeat' split at h
    all_goals cases h
    all_goals exact .inl rfl
  | prepare c q | wakeup c q | panic =>
    cases h
    exact .inl rfl

theorem Step.data [DecidableEq C] {code : Code n D C P X} {m m' : Machine n D C P} {e : Event n X}
    (h : Step code m e m') :
    m'.data = m.data ∨ ∃ t x p q, (m.thread t).ctl = .run p ∧ (m'.thread t).ctl = .run q ∧
      code t p (m.thread t).killed x m.data = .update m'.data q := by
  unfold Step step at h
  cases e with
  | kill t =>
    cases h
    exact .inl rfl
  | run t x =>
    rcases hk : (m.thread t).ctl with p | ⟨c, i, q⟩ | ⟨p, q⟩ | _ <;>
      simp only [hk, reduceCtorEq] at h
    · rcases exec_data h with hd | ⟨q, hs, hq⟩
      · exact .inl hd
      · exact .inr ⟨t, x, p, q, hk, hq, hs⟩
    · split at h <;> cases h <;> exact .inl rfl

/-- The state that the events lead to, if no thread is asked for a step it cannot take. -/
def runs [DecidableEq C] (code : Code n D C P X) (m : Machine n D C P) (es : List (Event n X)) :
    Option (Machine n D C P) :=
  es.foldlM (step code) m

/-- A run found by computation, with what is to be seen at its end. -/
theorem exists_run [DecidableEq C] {code : Code n D C P X} {m : Machine n D C P}
    {es : List (Event n X)} {Q : Machine n D C P → Prop} (h : (runs code m es).isSome)
    (hQ : Q ((runs code m es).get h)) : ∃ m', Run (Step code) m es m' ∧ Q m' :=
  ⟨_, (run_iff_foldlM (step code) m _ es).mpr (Option.some_get h).symm, hQ⟩

/-- Every thread at its own starting point, nobody registered or killed. -/
def start (d : D) (p : Fin n → P) : Machine n D C P where
  data := d
  holder := none
  thread t := { ctl := .run (p t), chan := none, killed := false }

/-! ### Proof outlines -/

/-- A proof outline. -/
structure Outline (n : ℕ) (D C P : Type) where
  /-- The points at which the lock is held. -/
  holds : P → Prop
  /-- What a thread knows at a point. -/
  assert : Fin n → P → D → Prop
  /-- The channel registered at a point, from the registration to the sleep. -/
  waits : P → Option C
  /-- The point that follows the sleep at a point. -/
  resumes : P → P → Prop
  /-- The condition that makes a thread wait there. -/
  need : P → D → Prop
  /-- The channels that are still to be woken up when control is at a point. -/
  owes : P → C → Prop
  holds_of_owes : ∀ {p c}, owes p c → holds p

namespace Outline

variable (o : Outline n D C P)

/-- The other threads' assertions survive a change of the data by `t`. -/
def Stable (t : Fin n) (p : P) (d d' : D) : Prop :=
  ∀ t' p', t' ≠ t → (o.holds p → ¬ o.holds p') → o.assert t' p' d → o.assert t' p' d'

/-- After a change of the data, every waiting thread still has its reason or is owed a wakeup. -/
def Covers (q : P) (d d' : D) : Prop :=
  ∀ p' c, o.waits p' = some c → o.need p' d → o.need p' d' ∨ o.owes q c

/-- What an outline has to meet at a point of the thread `t` for the statement there. -/
def Ok (t : Fin n) (p : P) (d : D) : Stmt D C P → Prop
  | .acquire q =>
    ¬ o.holds p ∧ o.holds q ∧ o.assert t q d ∧ o.waits q = none
  | .release q =>
    o.holds p ∧ ¬ o.holds q ∧ o.assert t q d ∧ (∀ c, ¬ o.owes p c) ∧
      (o.waits q = none ∨ o.waits q = o.waits p ∧ (o.need p d → o.need q d))
  | .update d' q =>
    (o.holds q ↔ o.holds p) ∧ o.assert t q d' ∧ o.waits q = none ∧
      (∀ c, o.owes p c → o.owes q c) ∧ o.Stable t p d d' ∧ o.Covers q d d'
  | .prepare c q =>
    o.holds p ∧ o.holds q ∧ o.assert t q d ∧ o.waits q = some c ∧ o.need q d ∧
      (∀ c, o.owes p c → o.owes q c)
  | .sleep q =>
    ¬ o.holds p ∧ ¬ o.holds q ∧ o.assert t q d ∧ (∃ c, o.waits p = some c) ∧ o.waits q = none ∧
      o.resumes p q
  | .wakeup c q =>
    (o.holds q ↔ o.holds p) ∧ o.assert t q d ∧ o.waits q = none ∧
      (∀ c', o.owes p c' → c' ≠ c → o.owes q c')
  | .panic => False

/-- Every statement that can be reached under its assertion meets the outline. -/
def Sound (code : Code n D C P X) : Prop :=
  ∀ t p k x d, o.assert t p d → o.Ok t p d (code t p k x d)

/-- The thread waits at `p` for the channel `c`: it is registered and has not left. -/
structure Waiting (th : Thread C P) (p : P) (c : C) : Prop where
  chan : th.chan = some c
  waits : o.waits p = some c
  ctl : th.ctl = .run p ∨ ∃ q, th.ctl = .asleep p q

/-- A thread at `k` has still to wake the slot `t` up if it is registered on `c`. -/
def OwesAt (t : Fin n) (c : C) : Ctl C P → Prop
  | .run p => o.owes p c
  | .waking c' i q => (c' = c ∧ i ≤ t) ∨ o.owes q c
  | .asleep _ _ => False
  | .panicked => False

/-- A slot is where the outline says, its lock bit being `held`. -/
structure SlotOk (t : Fin n) (d : D) (held : Prop) (th : Thread C P) : Prop where
  point : ∃ p, th.ctl.point = some p ∧ o.assert t p d ∧ (held ↔ o.holds p)
  asleep : ∀ p q, th.ctl = .asleep p q →
    ¬ o.holds q ∧ o.waits q = none ∧ o.resumes p q ∧ ∃ c, o.waits p = some c ∧ th.chan = some c
  chan : ∀ p c, th.ctl = .run p → o.waits p = some c → th.chan = some c ∨ th.chan = none
  waking : ∀ c i q, th.ctl = .waking c i q → o.waits q = none

/-- The state is one that the outline describes. -/
structure Valid (m : Machine n D C P) : Prop where
  slot : ∀ t, o.SlotOk t m.data (m.holder = some t) (m.thread t)
  covered : ∀ t p c, o.Waiting (m.thread t) p c →
    o.need p m.data ∨ ∃ h, m.holder = some h ∧ o.OwesAt t c (m.thread h).ctl

variable {o} {m m' : Machine n D C P} {t : Fin n} {th : Thread C P}

/-- A thread at `p` has the assertion of `p`, and the lock exactly if `p` is a point
that holds it. -/
theorem SlotOk.at {d : D} {held : Prop} (h : o.SlotOk t d held th) {p : P}
    (hp : th.ctl.point = some p) : o.assert t p d ∧ (held ↔ o.holds p) := by
  obtain ⟨p', hp', ha, hh⟩ := h.point
  rw [hp] at hp'
  cases hp'
  exact ⟨ha, hh⟩

/-- A thread that is on its way, and registers nothing. -/
theorem SlotOk.of_run {d : D} {held : Prop} {chan : Option C} {killed : Bool} {q : P}
    (ha : o.assert t q d) (hh : held ↔ o.holds q) (hw : o.waits q = none) :
    o.SlotOk t d held { ctl := .run q, chan := chan, killed := killed } where
  point := ⟨q, rfl, ha, hh⟩
  asleep p q h := by cases h
  chan p c hp hc := by
    cases hp
    rw [hw] at hc
    cases hc
  waking c i q h := by cases h

/-- A thread on its way to a point without a channel waits for nothing. -/
theorem Waiting.not_run {chan : Option C} {killed : Bool} {p q : P} {c : C}
    (h : o.Waiting { ctl := .run q, chan := chan, killed := killed } p c) : o.waits q ≠ none := by
  intro hw
  rcases h.ctl with hk | ⟨q', hk⟩ <;> cases hk
  rw [h.waits] at hw
  cases hw

/-- **How one thread moves.**  The thread `t` changes the data, the lock and its own
slot; the rest of the table is described as before if the other threads keep their
assertions and every waiting thread stays covered. -/
theorem Valid.move (hv : o.Valid m) {d : D} {h : Option (Fin n)}
    (hslot : o.SlotOk t d (h = some t) th)
    (hheld : ∀ t', t' ≠ t → (h = some t' ↔ m.holder = some t'))
    (hstable : ∀ t' p', t' ≠ t → (m.holder = some t → ¬ o.holds p') →
      o.assert t' p' m.data → o.assert t' p' d)
    (hself : ∀ p c, o.Waiting th p c → o.need p d ∨ ∃ h', h = some h' ∧
      o.OwesAt t c (Function.update m.thread t th h').ctl)
    (hneed : ∀ p' c, o.waits p' = some c → o.need p' m.data →
      o.need p' d ∨ h = some t ∧ ∀ t', o.OwesAt t' c th.ctl)
    (howes : ∀ t' p' c, t' ≠ t → o.Waiting (m.thread t') p' c → m.holder = some t →
      o.OwesAt t' c (m.thread t).ctl → o.need p' d ∨ (h = some t ∧ o.OwesAt t' c th.ctl)) :
    o.Valid { data := d, holder := h, thread := Function.update m.thread t th } where
  slot t' := by
    by_cases ht : t' = t
    · subst ht
      simpa using hslot
    · have hold := hv.slot t'
      obtain ⟨p', hp', ha, hh⟩ := hold.point
      have hfree : m.holder = some t → ¬ o.holds p' := by
        intro hm hp
        rw [← hh, hm, Option.some.injEq] at hp
        exact ht hp.symm
      simp only [ne_eq, ht, not_false_eq_true, Function.update_of_ne]
      exact ⟨⟨p', hp', hstable t' p' ht hfree ha, (hheld t' ht).trans hh⟩, hold.asleep, hold.chan,
        hold.waking⟩
  covered t' p' c hw := by
    by_cases ht : t' = t
    · subst ht
      simp only [Function.update_self] at hw
      exact hself p' c hw
    · simp only [ne_eq, ht, not_false_eq_true, Function.update_of_ne] at hw
      -- the wakeup owed to `t'` is owed by `t` itself or by a thread that stays where it is
      rcases hv.covered t' p' c hw with hneed' | ⟨h', hh', ho⟩
      · rcases hneed p' c hw.waits hneed' with hn | ⟨hh, ho⟩
        · exact .inl hn
        · exact .inr ⟨t, hh, by simpa using ho t'⟩
      · by_cases hht : h' = t
        · subst hht
          rcases howes t' p' c ht hw hh' ho with hn | ⟨hh, ho⟩
          · exact .inl hn
          · exact .inr ⟨h', hh, by simpa using ho⟩
        · exact .inr ⟨h', (hheld h' hht).mpr hh', by simpa [hht] using ho⟩

/-- A thread that moves without touching the data or the lock. -/
theorem Valid.move_self (hv : o.Valid m)
    (hslot : o.SlotOk t m.data (m.holder = some t) th)
    (hself : ∀ p c, o.Waiting th p c → o.need p m.data ∨ ∃ h', m.holder = some h' ∧
      o.OwesAt t c (Function.update m.thread t th h').ctl)
    (howes : ∀ t' p' c, t' ≠ t → o.Waiting (m.thread t') p' c → m.holder = some t →
      o.OwesAt t' c (m.thread t).ctl → o.OwesAt t' c th.ctl) :
    o.Valid { m with thread := Function.update m.thread t th } :=
  hv.move hslot (fun _ _ => Iff.rfl) (fun _ _ _ _ ha => ha) hself
    (fun _ _ _ hn => .inl hn) fun t' p' c ht hw hh ho =>
      .inr ⟨hh, howes t' p' c ht hw hh ho⟩

/-- Waking or killing a thread leaves it described and covered. -/
theorem Valid.rouse (hv : o.Valid m) (hctl : th.ctl = (m.thread t).ctl.rouse)
    (hchan : th.chan = (m.thread t).chan ∨ th.chan = none) :
    o.Valid { m with thread := Function.update m.thread t th } := by
  have hold := hv.slot t
  obtain ⟨p, hp, ha, hh⟩ := hold.point
  have hawake : ∀ p q, th.ctl ≠ .asleep p q := by
    rw [hctl]
    exact Ctl.rouse_ne_asleep _
  -- a sleeper goes on at a point without a channel
  have hrun : ∀ p c, th.ctl = .run p → o.waits p = some c → (m.thread t).ctl = .run p := by
    intro p c hk hc
    rcases (m.thread t).ctl.rouse_cases with hsame | ⟨a, b, hs, hb⟩
    · rw [← hsame, ← hctl, hk]
    · rw [hctl, hb] at hk
      cases hk
      rw [(hold.asleep _ _ hs).2.1] at hc
      cases hc
  have howes : ∀ t' c, o.OwesAt t' c (m.thread t).ctl → o.OwesAt t' c th.ctl := by
    intro t' c ho
    rcases (m.thread t).ctl.rouse_cases with hsame | ⟨a, b, hs, -⟩
    · rwa [hctl, hsame]
    · rw [hs] at ho
      exact ho.elim
  refine hv.move_self ⟨⟨p, by rw [hctl]; simpa using hp, ha, hh⟩,
    fun p q h => absurd h (hawake p q), ?_, ?_⟩ ?_ fun t' p' c _ _ _ ho => howes t' c ho
  · intro p c hk hc
    rcases hchan with h | h
    · exact h ▸ hold.chan p c (hrun p c hk hc) hc
    · exact .inr h
  · intro c i q hk
    rcases (m.thread t).ctl.rouse_cases with hsame | ⟨a, b, -, hb⟩
    · exact hold.waking c i q (by rw [← hsame, ← hctl, hk])
    · rw [hctl, hb] at hk
      cases hk
  · intro p c hw
    have hk : th.ctl = .run p := by
      rcases hw.ctl with h | ⟨q, h⟩
      · exact h
      · exact absurd h (hawake p q)
    have hc : (m.thread t).chan = some c := by
      rcases hchan with h | h
      · exact h ▸ hw.chan
      · rw [hw.chan] at h
        cases h
    rcases hv.covered t p c ⟨hc, hw.waits, .inl (hrun p c hk hw.waits)⟩ with hn | ⟨h', hh', ho⟩
    · exact .inl hn
    · refine .inr ⟨h', hh', ?_⟩
      by_cases hht : h' = t
      · subst hht
        simpa using howes h' c ho
      · simpa [hht] using ho

/-! ### The statements -/

section Statements

variable {p q : P} {c : C} {d : D}

theorem Valid.acquire (hv : o.Valid m)
    (hok : o.Ok t p m.data (.acquire q)) (hfree : m.holder = none) :
    o.Valid { m.goto t (.run q) with holder := some t } := by
  obtain ⟨-, hq, ha, hw⟩ := hok
  refine hv.move (.of_run ha (by simpa using hq) hw) ?_ (fun _ _ _ _ ha => ha) ?_
    (fun _ _ _ hn => .inl hn) ?_
  · intro t' ht
    simp [hfree, ht.symm]
  · intro p' c hwait
    exact absurd hw hwait.not_run
  · intro t' p' c _ _ hh
    rw [hfree] at hh
    cases hh

theorem Valid.release (hv : o.Valid m) (hp : (m.thread t).ctl = .run p)
    (hok : o.Ok t p m.data (.release q)) (hheld : m.holder = some t) :
    o.Valid { m.goto t (.run q) with holder := none } := by
  obtain ⟨hhp, hhq, ha, hno, hwq⟩ := hok
  have hslot := hv.slot t
  refine hv.move ⟨⟨q, rfl, ha, by simpa using hhq⟩, (fun p' q' h => by cases h), ?_,
    fun c i q' h => by cases h⟩ ?_ (fun _ _ _ _ ha => ha) ?_ (fun _ _ _ hn => .inl hn) ?_
  · intro p' c hp' hc
    cases hp'
    rcases hwq with hnone | ⟨hsame, -⟩
    · rw [hnone] at hc
      cases hc
    · exact hslot.chan p c hp (hsame ▸ hc)
  · intro t' ht
    simp [hheld, ht.symm]
  · -- the thread may have been registered before: nothing is owed at `p`
    intro p' c hwait
    rcases hwait.ctl with h | ⟨q', h⟩ <;> cases h
    rcases hwq with hnone | ⟨hsame, hneed⟩
    · have := hwait.waits
      rw [hnone] at this
      cases this
    · have hw : o.Waiting (m.thread t) p c := ⟨hwait.chan, hsame ▸ hwait.waits, .inl hp⟩
      rcases hv.covered t p c hw with hn | ⟨h', hh', ho⟩
      · exact .inl (hneed hn)
      · rw [hheld, Option.some.injEq] at hh'
        subst hh'
        rw [hp] at ho
        exact absurd ho (hno c)
  · intro t' p' c _ _ _ ho
    rw [hp] at ho
    exact absurd ho (hno c)

theorem Valid.update (hv : o.Valid m) (hp : (m.thread t).ctl = .run p)
    (hok : o.Ok t p m.data (.update d q)) : o.Valid { m.goto t (.run q) with data := d } := by
  obtain ⟨hhold, ha, hw, howes, hstable, hcov⟩ := hok
  have hheld := ((hv.slot t).at (p := p) (by rw [hp]; rfl)).2
  refine hv.move (.of_run ha (hheld.trans hhold.symm) hw) (fun _ _ => Iff.rfl) ?_ ?_ ?_ ?_
  · intro t' p' ht hnot ha'
    exact hstable t' p' ht (fun h => hnot (hheld.mpr h)) ha'
  · intro p' c hwait
    exact absurd hw hwait.not_run
  · intro p' c hwait hn
    rcases hcov p' c hwait hn with hn' | ho
    · exact .inl hn'
    · exact .inr ⟨hheld.mpr (hhold.mp (o.holds_of_owes ho)), fun _ => ho⟩
  · intro t' p' c ht hwait hh ho
    rw [hp] at ho
    exact .inr ⟨hh, howes c ho⟩

theorem Valid.prepare (hv : o.Valid m) (hp : (m.thread t).ctl = .run p)
    (hok : o.Ok t p m.data (.prepare c q)) :
    o.Valid (m.modify t fun th => { th with chan := some c, ctl := .run q }) := by
  obtain ⟨hhp, hhq, ha, hw, hneed, howes⟩ := hok
  have hheld := ((hv.slot t).at (p := p) (by rw [hp]; rfl)).2
  refine hv.move_self ⟨⟨q, rfl, ha, hheld.trans ⟨fun _ => hhq, fun _ => hhp⟩⟩,
    (fun p' q' h => by cases h), ?_, fun c i q' h => by cases h⟩ ?_ ?_
  · intro p' c' hp' hc'
    cases hp'
    rw [hw] at hc'
    exact .inl hc'
  · intro p' c' hwait
    rcases hwait.ctl with h | ⟨q', h⟩ <;> cases h
    exact .inl hneed
  · intro t' p' c' _ _ _ ho
    rw [hp] at ho
    exact howes c' ho

/-- Falling asleep, or finding the registration gone. -/
theorem Valid.sleep (hv : o.Valid m) (hp : (m.thread t).ctl = .run p)
    (hok : o.Ok t p m.data (.sleep q)) :
    m.exec t p (.sleep q) = some m' → o.Valid m' := by
  obtain ⟨hhp, hhq, ha, ⟨c, hwp⟩, hwq, hres⟩ := hok
  have hheld := ((hv.slot t).at (p := p) (by rw [hp]; rfl)).2
  have hnot : m.holder ≠ some t := fun h => hhp (hheld.mp h)
  intro hm
  simp only [Machine.exec, hnot, if_false] at hm
  have howes : ∀ t' p' c th, t' ≠ t → o.Waiting (m.thread t') p' c → m.holder = some t →
      o.OwesAt t' c (m.thread t).ctl → o.OwesAt t' c (Thread.ctl th) :=
    fun _ _ _ _ _ _ hh => absurd hh hnot
  by_cases hc : (m.thread t).chan = none
  · rw [if_pos hc, Option.some.injEq] at hm
    subst hm
    refine hv.move_self (.of_run ha (by simp [hnot, hhq]) hwq) ?_
      fun t' p' c' => howes t' p' c' _
    intro p' c' hwait
    have := hwait.chan
    rw [Thread.goto, hc] at this
    cases this
  · rw [if_neg hc, Option.some.injEq] at hm
    subst hm
    have hchan : (m.thread t).chan = some c :=
      ((hv.slot t).chan p c hp hwp).resolve_right hc
    refine hv.move_self ⟨⟨q, rfl, ha, by simp [hnot, hhq]⟩, ?_, (fun p' c' h => by cases h),
      fun c i q' h => by cases h⟩ ?_ fun t' p' c' => howes t' p' c' _
    · intro p' q' h
      cases h
      exact ⟨hhq, hwq, hres, c, hwp, hchan⟩
    · intro p' c' hwait
      have hw : o.Waiting (m.thread t) p' c' := by
        refine ⟨hwait.chan, hwait.waits, .inl ?_⟩
        rcases hwait.ctl with h | ⟨q', h⟩ <;> cases h
        exact hp
      rcases hv.covered t p' c' hw with hn | ⟨h', hh', ho⟩
      · exact .inl hn
      · have hht : h' ≠ t := fun h => hnot (h ▸ hh')
        exact .inr ⟨h', hh', by simpa [hht] using ho⟩

theorem Valid.wakeup (hv : o.Valid m) (hp : (m.thread t).ctl = .run p)
    (hok : o.Ok t p m.data (.wakeup c q)) : o.Valid (m.goto t (.waking c 0 q)) := by
  obtain ⟨hhold, ha, hw, howes⟩ := hok
  have hheld := ((hv.slot t).at (p := p) (by rw [hp]; rfl)).2
  refine hv.move_self ⟨⟨q, rfl, ha, hheld.trans hhold.symm⟩, (fun p' q' h => by cases h),
    (fun p' c' h => by cases h), fun c' i q' h => by cases h; exact hw⟩ ?_ ?_
  · intro p' c' hwait
    rcases hwait.ctl with h | ⟨q', h⟩ <;> cases h
  · intro t' p' c' _ _ _ ho
    rw [hp] at ho
    by_cases hc : c' = c
    · exact .inl ⟨hc.symm, Nat.zero_le _⟩
    · exact .inr (howes c' ho hc)

end Statements

/-! ### Wakeups in progress -/

/-- The end of the loop of a wakeup: every slot has had its round. -/
theorem Valid.waking_done (hv : o.Valid m) {q : P} {c : C} {i : ℕ}
    (hctl : (m.thread t).ctl = .waking c i q) (hi : ¬ i < n) : o.Valid (m.goto t (.run q)) := by
  obtain ⟨ha, hheld⟩ := (hv.slot t).at (p := q) (by rw [hctl]; rfl)
  have hq := (hv.slot t).waking _ _ _ hctl
  refine hv.move_self (.of_run ha hheld hq) ?_ ?_
  · intro p' c' hwait
    exact absurd hq hwait.not_run
  · intro t' p' c' _ _ _ ho
    rw [hctl] at ho
    rcases ho with ⟨-, hle⟩ | ho
    · have := t'.isLt
      omega
    · exact ho

section Waking

variable [DecidableEq C] {p q : P} {c : C} {i : ℕ}

theorem wake_ctl_chan (c : C) (th : Thread C P) :
    th.wake c = th ∨ (th.wake c).ctl = th.ctl.rouse ∧ (th.wake c).chan = none := by
  unfold Thread.wake
  split
  · exact .inr ⟨rfl, rfl⟩
  · exact .inl rfl

theorem Valid.wake_slot (hv : o.Valid m) (t : Fin n) (c : C) : o.Valid (m.modify t (.wake c)) := by
  rcases wake_ctl_chan c (m.thread t) with h | ⟨hctl, hchan⟩
  · have : m.modify t (.wake c) = m := by
      simp [Machine.modify, h]
    rwa [this]
  · exact hv.rouse hctl (.inr hchan)

/-- After its round, a slot is not registered on the channel. -/
theorem chan_wake_ne (c : C) (th : Thread C P) : (th.wake c).chan ≠ some c := by
  unfold Thread.wake
  split
  · simp
  · assumption

/-- One round of the loop of a wakeup. -/
theorem Valid.waking_next (hv : o.Valid m) (hctl : (m.thread t).ctl = .waking c i q) (hi : i < n) :
    o.Valid ((m.modify ⟨i, hi⟩ (.wake c)).goto t (.waking c (i + 1) q)) := by
  have hv' := hv.wake_slot ⟨i, hi⟩ c
  have hctl' : ((m.modify ⟨i, hi⟩ (.wake c)).thread t).ctl = .waking c i q := by
    by_cases ht : t = ⟨i, hi⟩
    · subst ht
      rcases wake_ctl_chan c (m.thread ⟨i, hi⟩) with h | ⟨h, -⟩ <;>
        simp [Machine.modify, h, hctl, Ctl.rouse]
    · simp [Machine.modify, ht, hctl]
  obtain ⟨ha, hheld⟩ := (hv'.slot t).at (p := q) (by rw [hctl']; rfl)
  have hq := (hv'.slot t).waking _ _ _ hctl'
  refine hv'.move_self ⟨⟨q, rfl, ha, hheld⟩, (fun p' q' h => by cases h),
    (fun p' c' h => by cases h), fun c' i' q' h => by cases h; exact hq⟩ ?_ ?_
  · intro p' c' hwait
    rcases hwait.ctl with h | ⟨q', h⟩ <;> cases h
  · intro t' p' c' _ hwait _ ho
    rw [hctl'] at ho
    rcases ho with ⟨rfl, hle⟩ | ho
    · -- the slot of this round is no longer registered, so `t'` comes later
      rcases Nat.lt_or_eq_of_le hle with hlt | heq
      · exact .inl ⟨rfl, hlt⟩
      · have ht' : t' = ⟨i, hi⟩ := Fin.ext heq.symm
        subst ht'
        have hchan := hwait.chan
        simp only [Machine.modify, Function.update_self] at hchan
        exact absurd hchan (chan_wake_ne c _)
    · exact .inr ho

end Waking

/-! ### What a described state looks like -/

section States

variable {p q : P}

theorem Valid.assert_of_run (hv : o.Valid m) (hk : (m.thread t).ctl = .run p) :
    o.assert t p m.data :=
  ((hv.slot t).at (by rw [hk]; rfl)).1

theorem Valid.not_panicked (hv : o.Valid m) : (m.thread t).ctl ≠ .panicked := by
  intro hk
  obtain ⟨p, hp, -⟩ := (hv.slot t).point
  rw [hk] at hp
  cases hp

/-- **No lost wakeup.**  With the lock free, whoever sleeps has its reason to. -/
theorem Valid.need_of_asleep (hv : o.Valid m) (hfree : m.holder = none)
    (hk : (m.thread t).ctl = .asleep p q) : o.need p m.data := by
  obtain ⟨-, -, -, c, hw, hc⟩ := (hv.slot t).asleep p q hk
  rcases hv.covered t p c ⟨hc, hw, .inr ⟨q, hk⟩⟩ with hn | ⟨h, hh, -⟩
  · exact hn
  · rw [hfree] at hh
    cases hh

theorem valid_start {d : D} {p : Fin n → P} (ha : ∀ t, o.assert t (p t) d)
    (hh : ∀ t, ¬ o.holds (p t)) (hw : ∀ t, o.waits (p t) = none) :
    o.Valid (start d p : Machine n D C P) where
  slot t := .of_run (ha t) (by simp [start, hh t]) (hw t)
  covered t p' c hwait := by
    have := hwait.chan
    cases this

/-- What a statement does to a described state. -/
theorem Valid.exec (hv : o.Valid m) (hp : (m.thread t).ctl = .run p)
    (hok : o.Ok t p m.data s) (hm : m.exec t p s = some m') : o.Valid m' := by
  have hheld := ((hv.slot t).at (p := p) (by rw [hp]; rfl)).2
  cases s with
  | acquire q =>
    have hnot : m.holder ≠ some t := fun h => hok.1 (hheld.mp h)
    simp only [Machine.exec, hnot, if_false] at hm
    by_cases hfree : m.holder = none
    · rw [if_pos hfree, Option.some.injEq] at hm
      exact hm ▸ hv.acquire hok hfree
    · rw [if_neg hfree] at hm
      cases hm
  | release q =>
    have hhas : m.holder = some t := hheld.mpr hok.1
    rw [Machine.exec, if_pos hhas, Option.some.injEq] at hm
    exact hm ▸ hv.release hp hok hhas
  | update d q =>
    cases hm
    exact hv.update hp hok
  | prepare c q =>
    cases hm
    exact hv.prepare hp hok
  | sleep q => exact hv.sleep hp hok hm
  | wakeup c q =>
    cases hm
    exact hv.wakeup hp hok
  | panic => exact hok.elim

/-- A statement of the thread that has the lock does not block. -/
theorem exists_exec (hheld : m.holder = some t) (hp : o.holds p)
    (hok : o.Ok t p m.data s) : ∃ m', m.exec t p s = some m' := by
  cases s with
  | acquire q | sleep q => exact absurd hp hok.1
  | release q => exact ⟨_, if_pos hheld⟩
  | update d q | prepare c q | wakeup c q => exact ⟨_, rfl⟩
  | panic => exact hok.elim

end States

/-! ### Runs -/

section Runs

variable [DecidableEq C] {code : Code n D C P X} {e : Event n X} {es : List (Event n X)}

/-- A sound outline describes what every step leads to. -/
theorem Valid.step (hs : o.Sound code) (hv : o.Valid m) (hstep : Step code m e m') :
    o.Valid m' := by
  cases e with
  | kill t =>
    cases hstep
    exact hv.rouse rfl (.inl rfl)
  | run t x =>
    unfold Step Monitor.step at hstep
    rcases hk : (m.thread t).ctl with p | ⟨c, i, q⟩ | ⟨p, q⟩ | _ <;>
      simp only [hk, reduceCtorEq] at hstep
    · exact hv.exec hk (hs t p _ x m.data (hv.assert_of_run hk)) hstep
    · by_cases hi : i < n
      · rw [dif_pos hi, Option.some.injEq] at hstep
        exact hstep ▸ hv.waking_next hk hi
      · rw [dif_neg hi, Option.some.injEq] at hstep
        exact hstep ▸ hv.waking_done hk hi

/-- **A sound outline describes every reachable state.** -/
theorem Valid.run (hs : o.Sound code) (hrun : Run (Step code) m es m') (hv : o.Valid m) :
    o.Valid m' :=
  hrun.invariant (fun _ _ _ hv hstep => hv.step hs hstep) hv

/-- **The holder of the lock never waits**: it can take its next step. -/
theorem Valid.exists_step (hs : o.Sound code) (hv : o.Valid m) (hheld : m.holder = some t) (x : X) :
    ∃ m', Step code m (.run t x) m' := by
  unfold Step Monitor.step
  obtain ⟨p, hp, ha, hh⟩ := (hv.slot t).point
  rcases hk : (m.thread t).ctl with p' | ⟨c, i, q⟩ | ⟨p', q⟩ | _ <;> rw [hk] at hp <;> cases hp <;>
    simp only [hk]
  · exact exists_exec hheld (hh.mp hheld) (hs t p _ x m.data ha)
  · by_cases hi : i < n
    · exact ⟨_, dif_pos hi⟩
    · exact ⟨_, dif_neg hi⟩
  · exact absurd (hh.mp hheld) ((hv.slot t).asleep _ _ hk).1

end Runs

end Outline
end Monitor
end Lib
end RuShell
