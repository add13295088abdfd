import RuShell.ControlInv

/-!
# The timeout of `resume`

`resume %N fg --timeout S` sets a timer and waits for the job in a loop around `waitpid`.
The handler of `SIGALRM` sets the flag `timed_out`; it is installed without `SA_RESTART`, so
a `waitpid` that is blocked when the signal comes returns with `EINTR`, and behind that
return the loop looks at the flag.  It does so nowhere else: a signal that comes before the
call, or after it has returned a process, is noticed only when the next `waitpid` is
interrupted, by something else.

Here the loop is taken statement by statement.  At any time a child may exit, stop or
continue, the timer may fire, and a signal that is pending may be delivered; `SIGALRM` also
while the handler of `SIGCHLD` is running.  `Await` of `RuShell.Control` says what the loop
does to the children, without the statements in between.

## Main definitions

* `Point`, `Resumer` — the statement that comes next, the flag, the timer and the signals.
* `Event`, `step` — what can happen.
* `Missed` — the shell is blocked although the time is over.
* `Timely` — `SIGALRM` is delivered where the flag will be looked at.
* `OwnStep`, `Terminates` — what the shell does without any other event.

## Main results

* `await_of_run` — the loop, statement by statement, is a run of `Await`.
* `Watched.step` — the flag is set only where it will be looked at.
* `timeout_not_missed` — **a timeout is not missed**, if every delivery of `SIGALRM` is
  timely.
* `timeout_missed` — otherwise it may be.
-/

namespace RuShell
namespace Timeout

open Lib (Run)
open RuShell.Redirect (Life)
open RuShell.Control (State Move move MoveStep Moves Await Alive HasStopped Outcome frame_move)

/-! ### The shell, statement by statement -/

/-- Where the shell is in `resume_command`: the statement it executes next. -/
inductive Point
  /-- `timed_out = 0;` -/
  | reset
  /-- `sigaction(SIGALRM, &sa, &old_sa);` -/
  | install
  /-- `alarm((unsigned int)timeout_secs);` -/
  | arm
  /-- `wpid = waitpid(-pgid, &status, WUNTRACED);`, before the call -/
  | wait
  /-- inside of that call -/
  | inWait
  /-- behind it, with `wpid > 0` and the value of `WIFSTOPPED(status)` -/
  | reported (stopped : Bool)
  /-- behind it, with `wpid == -1` and the value of `errno == EINTR` -/
  | failed (eintr : Bool)
  /-- behind the loop, `if (!timed_out)`; the argument tells why the loop was left -/
  | left (o : Outcome)
  /-- `alarm(0);` -/
  | cancel (o : Outcome)
  /-- `sigaction(SIGALRM, &old_sa, NULL);` -/
  | restore (o : Outcome)
  /-- `if (has_timeout && timed_out)` -/
  | choose (o : Outcome)
  /-- `kill(-pgid, SIGTERM);` -/
  | terminate
  /-- `kill(-pgid, SIGCONT);` -/
  | wake
  /-- `while (waitpid(-pgid, &status, 0) > 0);`, before or inside of the call -/
  | drain (inCall : Bool)
  /-- behind that loop; the rest is that of `Conclude` for a timeout -/
  | finish
  /-- behind the branch for a timeout; the rest is that of `Conclude` -/
  | settle (o : Outcome)
  /-- `SIGALRM` came while its old action was in place. -/
  | killed
  deriving DecidableEq, Repr

/-- Is `alarm_handler` installed? -/
def Point.installed : Point → Bool
  | .arm | .wait | .inWait | .reported _ | .failed _ | .left _ | .cancel _ | .restore _ => true
  | _ => false

/-- A signal that is handled makes the call that the shell is in return with `EINTR`. -/
def Point.interrupted : Point → Point
  | .inWait => .failed true
  | .drain true => .finish
  | p => p

/-- The shell in `resume_command`, with its children. -/
structure Resumer where
  shell : State
  point : Point
  timedOut : Bool
  /-- The timer is running. -/
  timer : Bool
  /-- `SIGALRM` is pending. -/
  alrm : Bool
  /-- `SIGCHLD` is pending. -/
  chld : Bool
  /-- The handler of `SIGCHLD` is running. -/
  handling : Bool
  /-- The signals that the group has been sent. -/
  sent : List ℕ

/-- What can happen. -/
inductive Event
  /-- A child exits, stops or continues. -/
  | child (m : Move)
  /-- The timer fires. -/
  | fires
  /-- `SIGALRM` is delivered. -/
  | alarm
  /-- `SIGCHLD` is delivered. -/
  | signal
  /-- The handler of `SIGCHLD` reaps the process. -/
  | reaps (pid : ℕ)
  /-- It returns, with nothing left to reap. -/
  | returns
  /-- The shell executes its next statement. -/
  | next
  /-- The call of `waitpid` that the shell is in returns the process. -/
  | waited (pid : ℕ)
  deriving DecidableEq, Repr

/-- `kill(-pgid, sig)`; the shell is told of the processes that continue. -/
def Resumer.kill (w : Resumer) (pgid sig : ℕ) : Resumer :=
  { w with
    shell := w.shell.killGroup pgid sig
    chld := w.chld || (sig = 18 && HasStopped w.shell pgid)
    sent := w.sent ++ [sig] }

/-- The statement that comes next but one; `none` if the next one is a `waitpid` that blocks,
because the group has a process. -/
def Point.after (timedOut alive : Bool) : Point → Option Point
  | .reset => some .install
  | .install => some .arm
  | .arm => some .wait
  | .wait => some .inWait
  -- `ECHILD`
  | .inWait => if alive then none else some (.failed false)
  | .reported true => some (.left .stopped)
  | .reported false => some .wait
  | .failed true => if timedOut then some (.left .timedOut) else some .wait
  | .failed false => some (.left .finished)
  | .left o => if timedOut then some (.restore o) else some (.cancel o)
  | .cancel o => some (.restore o)
  | .restore o => some (.choose o)
  | .choose o => if timedOut then some .terminate else some (.settle o)
  | .terminate => some .wake
  | .wake => some (.drain false)
  | .drain false => some (.drain true)
  | .drain true => if alive then none else some .finish
  | .finish | .settle _ | .killed => none

/-- What the next statement does to the data. -/
def Resumer.exec (pgid : ℕ) (timeoutSecs : ℤ) (w : Resumer) : Resumer :=
  match w.point with
  | .reset => { w with timedOut := false }
  -- `alarm(0)` sets no timer
  | .arm => { w with timer := timeoutSecs ≠ 0 }
  | .cancel _ => { w with timer := false }
  | .terminate => w.kill pgid 15
  | .wake => w.kill pgid 18
  | _ => w

/-- The shell executes its next statement. -/
def Resumer.next (pgid : ℕ) (timeoutSecs : ℤ) (w : Resumer) : Option Resumer :=
  (w.point.after w.timedOut (Alive w.shell pgid)).map fun p =>
    { w.exec pgid timeoutSecs with point := p }

/-- The call of `waitpid` that the shell is in returns the process; only the first one asks
for processes that are stopped. -/
def Resumer.waited (pgid : ℕ) (w : Resumer) (pid : ℕ) : Option Resumer :=
  if pid ∈ w.shell.pids ∧ w.shell.pgrp pid = some pgid then
    match w.point, w.shell.kids pid with
    | .inWait, .terminated status =>
      some { w with shell := w.shell.setLife pid (.reaped status), point := .reported false }
    | .inWait, .stopped => some { w with point := .reported true }
    | .drain true, .terminated status =>
      some { w with shell := w.shell.setLife pid (.reaped status), point := .drain false }
    | _, _ => none
  else none

/-- The handler has nothing to reap. -/
def Resumer.clean (w : Resumer) : Bool :=
  w.shell.pids.all fun p => match w.shell.kids p with
    | .terminated _ => false
    | _ => true

/-- The state after an event; `none` if it cannot happen now. -/
def step (pgid : ℕ) (timeoutSecs : ℤ) (w : Resumer) : Event → Option Resumer
  | .child (.handler _) => none
  | .child m => (move w.shell m).map fun s => { w with shell := s, chld := true }
  | .fires => if w.timer then some { w with timer := false, alrm := true } else none
  | .alarm =>
    if w.alrm then
      if w.point.installed then
        some { w with alrm := false, timedOut := true, point := w.point.interrupted }
      else some { w with alrm := false, point := .killed }
    else none
  | .signal =>
    if w.chld = true ∧ w.handling = false ∧ w.shell.masked = false then
      some { w with chld := false, handling := true, point := w.point.interrupted }
    else none
  | .reaps pid =>
    if w.handling then (move w.shell (.handler pid)).map fun s => { w with shell := s } else none
  | .returns => if w.handling ∧ w.clean then some { w with handling := false } else none
  | .next => if w.handling then none else w.next pgid timeoutSecs
  | .waited pid => if w.handling then none else w.waited pgid pid

/-- The command comes to the statements of the timeout. -/
structure Starts (w : Resumer) : Prop where
  point : w.point = .reset
  timer : w.timer = false
  alrm : w.alrm = false
  handling : w.handling = false
  masked : w.shell.masked = false

/-- **The time is over, and the shell is blocked**: the flag is set, the shell is in
`waitpid`, a process of the job is running, and no signal is pending. -/
structure Missed (pgid : ℕ) (w : Resumer) : Prop where
  point : w.point = .inWait
  timedOut : w.timedOut = true
  running : ∃ p ∈ w.shell.pids, w.shell.pgrp p = some pgid ∧ w.shell.kids p = .running
  alrm : w.alrm = false
  chld : w.chld = false
  handling : w.handling = false

/-- `SIGALRM` is not delivered between the timer and the first `waitpid`, between a `waitpid`
that has returned a process and the next one, or between a look at the flag and the next
`waitpid`. -/
def Timely (w : Resumer) (e : Event) : Prop :=
  e = .alarm → w.point ≠ .wait ∧ w.point ≠ .reported false

instance (w : Resumer) (e : Event) : Decidable (Timely w e) :=
  inferInstanceAs (Decidable (_ → _))

/-- What the shell does by itself. -/
def Event.own : Event → Bool
  | .reaps _ | .returns | .next => true
  | _ => false

/-- A step that the shell does by itself. -/
def OwnStep (pgid : ℕ) (timeoutSecs : ℤ) (w : Resumer) (e : Event) (w' : Resumer) : Prop :=
  e.own = true ∧ step pgid timeoutSecs w e = some w'

/-- Left to itself, the shell sends `SIGTERM` to the group. -/
def Terminates (pgid : ℕ) (timeoutSecs : ℤ) (w : Resumer) : Prop :=
  ∃ es w', Run (OwnStep pgid timeoutSecs) w es w' ∧ 15 ∈ w'.sent

variable {pgid : ℕ} {timeoutSecs : ℤ} {w w' : Resumer} {e : Event} {es : List Event}

/-! ### Single events -/

variable (pgid timeoutSecs w) in
/-- What one event does. -/
inductive StepCase : Event → Resumer → Prop
  | child {m : Move} {s : State} (hs : MoveStep False w.shell m s) :
    StepCase (.child m) { w with shell := s, chld := true }
  | fires (htimer : w.timer = true) : StepCase .fires { w with timer := false, alrm := true }
  /-- `SIGALRM` is handled, … -/
  | alarm (halrm : w.alrm = true) (hinstalled : w.point.installed = true) :
    StepCase .alarm { w with alrm := false, timedOut := true, point := w.point.interrupted }
  /-- … or it ends the shell. -/
  | killed (halrm : w.alrm = true) : StepCase .alarm { w with alrm := false, point := .killed }
  | signal :
    StepCase .signal { w with chld := false, handling := true, point := w.point.interrupted }
  | reaps {pid : ℕ} {s : State} (hs : MoveStep False w.shell (.handler pid) s) :
    StepCase (.reaps pid) { w with shell := s }
  | returns : StepCase .returns { w with handling := false }
  | next {q : Point} (hq : w.point.after w.timedOut (Alive w.shell pgid) = some q) :
    StepCase .next { w.exec pgid timeoutSecs with point := q }
  /-- `waitpid` returns a process that has terminated, or one that is stopped. -/
  | reported {pid : ℕ} {status : Lib.Posix.Status} (hp : w.point = .inWait)
      (hgroup : w.shell.pgrp pid = some pgid) (hlife : w.shell.kids pid = .terminated status) :
    StepCase (.waited pid)
      { w with shell := w.shell.setLife pid (.reaped status), point := .reported false }
  | stopped {pid : ℕ} (hp : w.point = .inWait) (hpid : pid ∈ w.shell.pids)
      (hgroup : w.shell.pgrp pid = some pgid) (hlife : w.shell.kids pid = .stopped) :
    StepCase (.waited pid) { w with point := .reported true }
  | drained {pid : ℕ} {status : Lib.Posix.Status} (hp : w.point = .drain true) :
    StepCase (.waited pid)
      { w with shell := w.shell.setLife pid (.reaped status), point := .drain false }

theorem step_cases (h : step pgid timeoutSecs w e = some w') :
    StepCase pgid timeoutSecs w e w' := by
  cases e with
  | child m =>
    have hmap : (move w.shell m).map (fun s => { w with shell := s, chld := true }) = some w' := by
      cases m with
      | handler _ => cases h
      | _ => exact h
    obtain ⟨s, hs, rfl⟩ := Option.map_eq_some_iff.mp hmap
    exact .child ⟨nofun, hs⟩
  | fires =>
    simp only [step] at h
    split_ifs at h with htimer
    cases h
    exact .fires htimer
  | alarm =>
    simp only [step] at h
    split_ifs at h with halrm hinstalled <;> cases h
    · exact .alarm halrm hinstalled
    · exact .killed halrm
  | signal =>
    simp only [step] at h
    split_ifs at h
    cases h
    exact .signal
  | reaps pid =>
    simp only [step] at h
    split_ifs at h
    obtain ⟨s, hs, rfl⟩ := Option.map_eq_some_iff.mp h
    exact .reaps ⟨nofun, hs⟩
  | returns =>
    simp only [step] at h
    split_ifs at h
    cases h
    exact .returns
  | next =>
    simp only [step] at h
    split_ifs at h
    obtain ⟨q, hq, rfl⟩ := Option.map_eq_some_iff.mp h
    exact .next hq
  | waited pid =>
    simp only [step, Resumer.waited] at h
    split_ifs at h with _ hmember
    split at h
    · next hp hlife =>
      cases h
      exact .reported hp hmember.2 hlife
    · next hp hlife =>
      cases h
      exact .stopped hp hmember.1 hmember.2 hlife
    · next hp hlife =>
      cases h
      exact .drained hp
    · cases h

/-- What the next statement leaves alone. -/
theorem exec_frame (pgid : ℕ) (timeoutSecs : ℤ) (w : Resumer) :
    (w.exec pgid timeoutSecs).alrm = w.alrm ∧
      (w.exec pgid timeoutSecs).handling = w.handling ∧
      (w.exec pgid timeoutSecs).shell.masked = w.shell.masked ∧
      (w.point ≠ .reset → (w.exec pgid timeoutSecs).timedOut = w.timedOut) ∧
      (w.point ≠ .arm → (w.exec pgid timeoutSecs).timer = true → w.timer = true) ∧
      w.sent <+: (w.exec pgid timeoutSecs).sent := by
  unfold Resumer.exec
  split <;> simp_all [Resumer.kill, State.killGroup, State.kill]

/-! ### The loop as a whole -/

/-- The shell is in the loop or on the way to it, has left it, or is done with what follows
from how it was left. -/
inductive Phase
  | looping
  | ended (o : Outcome)
  | beyond
  deriving DecidableEq, Repr

/-- The phase of a point of the loop. -/
def Point.phase : Point → Phase
  | .reset | .install | .arm | .wait | .inWait | .reported false | .failed true => .looping
  | .reported true => .ended .stopped
  | .failed false => .ended .finished
  | .left o | .cancel o | .restore o | .choose o => .ended o
  | .terminate | .wake | .drain _ | .finish | .settle _ | .killed => .beyond

/-- A run of `Await` that starts in `s₀` has come to `s`: it can go on, or it has ended and
only moves have followed. -/
def Tracks (pgid : ℕ) (timeoutSecs : ℤ) (s₀ s : State) : Phase → Prop
  | .looping =>
    ∀ o u, Await False pgid (timeoutSecs ≠ 0) s o u → Await False pgid (timeoutSecs ≠ 0) s₀ o u
  | .ended o => ∃ t, Await False pgid (timeoutSecs ≠ 0) s₀ o t ∧ Moves False t s
  | .beyond => True

theorem Tracks.move {s₀ s s' : State} {p : Phase} {m : Move}
    (h : Tracks pgid timeoutSecs s₀ s p) (hmove : MoveStep False s m s') :
    Tracks pgid timeoutSecs s₀ s' p := by
  cases p with
  | looping =>
    intro o u hawait
    exact h o u (.moves ⟨[m], .single hmove⟩ hawait)
  | ended o =>
    obtain ⟨t, hawait, ms, hrun⟩ := h
    exact ⟨t, hawait, ms ++ [m], hrun.append (.single hmove)⟩
  | beyond => trivial

theorem Point.phase_interrupted (p : Point) : p.interrupted.phase = p.phase := by
  unfold Point.interrupted
  split <;> rfl

/-- The loop is left with `ECHILD`, or because of the flag. -/
theorem Point.phase_after {p q : Point} {timedOut alive : Bool}
    (h : p.after timedOut alive = some q) :
    q.phase = p.phase ∨ q.phase = .beyond ∨
      (p = .inWait ∧ alive = false ∧ q.phase = .ended .finished) ∨
      (p = .failed true ∧ timedOut = true ∧ q.phase = .ended .timedOut) := by
  cases p with
  | reported b | failed b | drain b =>
    cases b <;> cases timedOut <;> cases alive <;> cases h <;> simp [Point.phase]
  | _ => cases timedOut <;> cases alive <;> cases h <;> simp [Point.phase]

/-- The next statement changes the children only behind the branch for a timeout. -/
theorem exec_shell (pgid : ℕ) (timeoutSecs : ℤ) (w : Resumer) :
    (w.exec pgid timeoutSecs).shell = w.shell ∨ w.point = .terminate ∨ w.point = .wake := by
  unfold Resumer.exec
  split <;> simp_all

/-- What holds in every run, timely or not. -/
structure Shadows (pgid : ℕ) (timeoutSecs : ℤ) (s₀ : State) (w : Resumer) : Prop where
  tracks : Tracks pgid timeoutSecs s₀ w.shell w.point.phase
  armed : w.timer = true ∨ w.alrm = true ∨ (w.timedOut = true ∧ w.point ≠ .reset) →
    timeoutSecs ≠ 0

theorem Starts.shadows (h : Starts w) : Shadows pgid timeoutSecs w.shell w where
  tracks := by
    rw [h.point]
    intro o u hawait
    exact hawait
  armed := by
    rintro (ht | ha | ⟨-, hp⟩)
    · exact absurd ht (by simp [h.timer])
    · exact absurd ha (by simp [h.alrm])
    · exact absurd h.point hp

variable {s₀ : State}

/-- Steps that leave the flag, the timer and `SIGALRM` alone. -/
theorem Shadows.of_same (h : Shadows pgid timeoutSecs s₀ w)
    (htracks : Tracks pgid timeoutSecs s₀ w'.shell w'.point.phase) (htimer : w'.timer = w.timer)
    (halrm : w'.alrm = w.alrm) (htimedOut : w'.timedOut = w.timedOut)
    (hreset : w.point = .reset → w'.point = .reset) : Shadows pgid timeoutSecs s₀ w' := by
  refine ⟨htracks, ?_⟩
  rw [htimer, halrm, htimedOut]
  rintro (ht | ha | ⟨ht, hp⟩)
  · exact h.armed (.inl ht)
  · exact h.armed (.inr (.inl ha))
  · exact h.armed (.inr (.inr ⟨ht, fun hw => hp (hreset hw)⟩))

/-- The loop goes on, or it is left as `Await` is. -/
theorem Shadows.tracks_next {q : Point} (h : Shadows pgid timeoutSecs s₀ w)
    (hq : w.point.after w.timedOut (Alive w.shell pgid) = some q) :
    Tracks pgid timeoutSecs s₀ (w.exec pgid timeoutSecs).shell q.phase := by
  have htracks := h.tracks
  rcases exec_shell pgid timeoutSecs w with hshell | hp | hp
  · rw [hshell]
    rcases Point.phase_after hq with hsame | hbeyond | ⟨hp, halive, hend⟩ | ⟨hp, htimedOut, hend⟩
    · rw [hsame]
      exact htracks
    · rw [hbeyond]
      trivial
    · rw [hend]
      rw [hp] at htracks
      exact ⟨w.shell, htracks _ _ (.finished (of_decide_eq_false halive)), Control.Moves.refl _⟩
    · rw [hend]
      have hsecs : timeoutSecs ≠ 0 := h.armed (.inr (.inr ⟨htimedOut, by simp [hp]⟩))
      rw [hp] at htracks
      exact ⟨w.shell, htracks _ _ (.timedOut (decide_eq_true hsecs)), Control.Moves.refl _⟩
  · rw [hp] at hq
    cases hq
    trivial
  · rw [hp] at hq
    cases hq
    trivial

theorem Shadows.next {q : Point} (h : Shadows pgid timeoutSecs s₀ w)
    (hq : w.point.after w.timedOut (Alive w.shell pgid) = some q) :
    Shadows pgid timeoutSecs s₀ { w.exec pgid timeoutSecs with point := q } := by
  refine ⟨h.tracks_next hq, ?_⟩
  obtain ⟨halrm, -, -, htimedOut, htimer, -⟩ := exec_frame pgid timeoutSecs w
  rintro (ht | ha | ⟨ht, -⟩)
  · by_cases harm : w.point = .arm
    · have hexec : (w.exec pgid timeoutSecs).timer = true := ht
      rw [Resumer.exec, harm] at hexec
      exact of_decide_eq_true hexec
    · exact h.armed (.inl (htimer harm ht))
  · exact h.armed (.inr (.inl (halrm.symm.trans ha)))
  · by_cases hreset : w.point = .reset
    · have hexec : (w.exec pgid timeoutSecs).timedOut = true := ht
      rw [Resumer.exec, hreset] at hexec
      cases hexec
    · exact h.armed (.inr (.inr ⟨(htimedOut hreset).symm.trans ht, hreset⟩))

theorem Shadows.step (h : Shadows pgid timeoutSecs s₀ w)
    (hstep : Timeout.step pgid timeoutSecs w e = some w') : Shadows pgid timeoutSecs s₀ w' := by
  have hinterrupted : Tracks pgid timeoutSecs s₀ w.shell w.point.interrupted.phase := by
    rw [Point.phase_interrupted]
    exact h.tracks
  have htracks := h.tracks
  cases step_cases hstep with
  | child hs | reaps hs => exact h.of_same (h.tracks.move hs) rfl rfl rfl id
  | next hq => exact h.next hq
  | fires htimer => exact ⟨h.tracks, fun _ => h.armed (.inl htimer)⟩
  | alarm halrm _ => exact ⟨hinterrupted, fun _ => h.armed (.inr (.inl halrm))⟩
  | killed halrm => exact ⟨trivial, fun _ => h.armed (.inr (.inl halrm))⟩
  | signal =>
    refine h.of_same hinterrupted rfl rfl rfl ?_
    intro hreset
    show w.point.interrupted = .reset
    rw [hreset]
    rfl
  | returns => exact h.of_same h.tracks rfl rfl rfl id
  | reported hp hgroup hlife =>
    refine h.of_same ?_ rfl rfl rfl (by simp [hp])
    rw [hp] at htracks
    intro o u hawait
    exact htracks o u (.reaps hgroup hlife hawait)
  | stopped hp hpid hgroup hlife =>
    refine h.of_same ?_ rfl rfl rfl (by simp [hp])
    rw [hp] at htracks
    exact ⟨w.shell, htracks _ _ (.stopped ⟨_, hpid, hgroup, hlife⟩), Control.Moves.refl _⟩
  | drained hp => exact h.of_same trivial rfl rfl rfl (by simp [hp])

/-- **The loop, statement by statement, is a run of `Await`**: whatever happens, when the
shell has left the loop, `Await` has ended in the same way, and only moves have followed. -/
theorem await_of_run {w₀ : Resumer} {o : Outcome} (hstart : Starts w₀)
    (hrun : Run (fun w e w' => step pgid timeoutSecs w e = some w') w₀ es w)
    (hleft : w.point = .left o) :
    ∃ t, Await False pgid (timeoutSecs ≠ 0) w₀.shell o t ∧ Moves False t w.shell := by
  have hshadows : Shadows pgid timeoutSecs w₀.shell w :=
    hrun.invariant (fun _ _ _ h hstep => h.step hstep) hstart.shadows
  have htracks := hshadows.tracks
  rw [hleft] at htracks
  exact htracks

/-! ### The invariant -/

/-- The timer has not been set. -/
def Point.unarmed : Point → Bool
  | .reset | .install | .arm => true
  | _ => false

/-- The points at which the flag may be set: from them the shell looks at it before it
blocks. -/
def Point.flagged : Point → Bool
  | .install | .arm | .wait | .inWait | .reported false | .settle _ | .killed => false
  | _ => true

/-- `SIGTERM` has been sent. -/
def Point.terminated : Point → Bool
  | .wake | .drain _ | .finish => true
  | _ => false

/-- What holds as long as `SIGALRM` is delivered in time. -/
structure Watched (w : Resumer) : Prop where
  /-- The timer fires once. -/
  quiet : w.timedOut = true ∨ w.point.unarmed = true → w.timer = false ∧ w.alrm = false
  once : w.alrm = true → w.timer = false
  flagged : w.timedOut = true → w.point.flagged = true
  sent : w.point.terminated = true → 15 ∈ w.sent
  masked : w.shell.masked = false

theorem Starts.watched (h : Starts w) : Watched w where
  quiet _ := ⟨h.timer, h.alrm⟩
  once _ := h.timer
  flagged _ := by rw [h.point]; rfl
  sent ht := by rw [h.point] at ht; cases ht
  masked := h.masked

/-- A handled signal does not lead to a point where the flag must not be set. -/
theorem Point.flagged_interrupted {p : Point} (h : p.flagged = true) :
    p.interrupted.flagged = true := by
  unfold Point.interrupted
  split
  · rfl
  · rfl
  · exact h

theorem Point.unarmed_interrupted (p : Point) : p.interrupted.unarmed = p.unarmed := by
  unfold Point.interrupted
  split <;> rfl

theorem Point.terminated_interrupted {p : Point} (h : p.interrupted.terminated = true) :
    p.terminated = true := by
  unfold Point.interrupted at h
  split at h
  · cases h
  · rfl
  · exact h

/-- After a timely delivery of `SIGALRM` the shell is where it will look at the flag. -/
theorem Point.flagged_alarm {p : Point} (hinstalled : p.installed = true)
    (harmed : p.unarmed = false) (hwait : p ≠ .wait) (hreported : p ≠ .reported false) :
    p.interrupted.flagged = true := by
  cases p with
  | wait => exact absurd rfl hwait
  | reported stopped =>
    cases stopped with
    | true => rfl
    | false => exact absurd rfl hreported
  | arm => cases harmed
  | inWait | failed _ | left _ | cancel _ | restore _ => rfl
  | _ => cases hinstalled

section After

variable {p q : Point} {timedOut alive : Bool}

/-- With the flag set, the shell does not come to a point where it must not be. -/
theorem Point.flagged_after (h : p.after true alive = some q) (hreset : p ≠ .reset)
    (hp : p.flagged = true) : q.flagged = true := by
  cases p with
  | reset => exact absurd rfl hreset
  | reported b | failed b | drain b =>
    cases b <;> cases alive <;> cases h <;> first | rfl | exact hp
  | _ => cases alive <;> cases h <;> first | rfl | exact hp

theorem Point.unarmed_after (h : p.after timedOut alive = some q) (hq : q.unarmed = true) :
    p.unarmed = true ∧ p ≠ .arm := by
  cases p with
  | reset | install => exact ⟨rfl, by simp⟩
  | reported b | failed b | drain b =>
    cases b <;> cases timedOut <;> cases alive <;> cases h <;> cases hq
  | _ => cases timedOut <;> cases alive <;> cases h <;> cases hq

theorem Point.terminated_after (h : p.after timedOut alive = some q) (hq : q.terminated = true) :
    p = .terminate ∨ p.terminated = true := by
  cases p with
  | terminate => exact .inl rfl
  | wake | drain _ => exact .inr rfl
  | reported b | failed b => cases b <;> cases timedOut <;> cases h <;> cases hq
  | _ => cases timedOut <;> cases alive <;> cases h <;> cases hq

end After

/-- The next statement keeps the invariant. -/
theorem Watched.next {q : Point} (h : Watched w)
    (hq : w.point.after w.timedOut (Alive w.shell pgid) = some q) :
    Watched { w.exec pgid timeoutSecs with point := q } := by
  obtain ⟨halrm, -, hmasked, htimedOut, htimer, hsent⟩ := exec_frame pgid timeoutSecs w
  by_cases hreset : w.point = .reset
  · have hexec : w.exec pgid timeoutSecs = { w with timedOut := false } := by
      rw [Resumer.exec, hreset]
    rw [hreset] at hq
    cases hq
    rw [hexec]
    exact ⟨fun _ => h.quiet (.inr (by rw [hreset]; rfl)), h.once, nofun, nofun, h.masked⟩
  -- the timer is set only where nothing else can be known of it
  have hquiet : w.timer = false ∧ w.alrm = false → w.point ≠ .arm →
      (w.exec pgid timeoutSecs).timer = false ∧ (w.exec pgid timeoutSecs).alrm = false := by
    rintro ⟨ht, ha⟩ harm
    refine ⟨Bool.eq_false_iff.mpr fun hexec => ?_, halrm.trans ha⟩
    exact absurd (htimer harm hexec) (by simp [ht])
  have hflag : w.timedOut = true → w.point ≠ .arm := by
    rintro ht harm
    have := h.flagged ht
    rw [harm] at this
    cases this
  refine ⟨?_, ?_, ?_, ?_, hmasked.trans h.masked⟩
  · rw [htimedOut hreset]
    rintro (ht | hu)
    · exact hquiet (h.quiet (.inl ht)) (hflag ht)
    · obtain ⟨hu', harm⟩ := Point.unarmed_after hq hu
      exact hquiet (h.quiet (.inr hu')) harm
  · intro ha
    rw [halrm] at ha
    have harm : w.point ≠ .arm := by
      intro harm
      obtain ⟨-, hnone⟩ := h.quiet (.inr (by rw [harm]; rfl))
      exact absurd ha (by simp [hnone])
    exact Bool.eq_false_iff.mpr fun hexec => absurd (htimer harm hexec) (by simp [h.once ha])
  · rw [htimedOut hreset]
    intro ht
    rw [ht] at hq
    exact Point.flagged_after hq hreset (h.flagged ht)
  · intro ht
    rcases Point.terminated_after hq ht with hterm | hterm
    · rw [Resumer.exec, hterm]
      simp [Resumer.kill]
    · exact hsent.subset (h.sent hterm)

/-- **A step keeps the invariant**, if it is not an untimely delivery of `SIGALRM`. -/
theorem Watched.step (h : Watched w) (htimely : Timely w e)
    (hstep : Timeout.step pgid timeoutSecs w e = some w') : Watched w' := by
  have hsent : w.point.interrupted.terminated = true → 15 ∈ w.sent :=
    fun ht => h.sent (Point.terminated_interrupted ht)
  have hin : w.point = .inWait → w.timedOut ≠ true := by
    intro hp ht
    have hflag := h.flagged ht
    rw [hp] at hflag
    cases hflag
  cases step_cases hstep with
  | child hs | reaps hs =>
    exact ⟨h.quiet, h.once, h.flagged, h.sent, (frame_move hs).masked.trans h.masked⟩
  | next hq => exact h.next hq
  | returns => exact ⟨h.quiet, h.once, h.flagged, h.sent, h.masked⟩
  | fires htimer =>
    refine ⟨?_, fun _ => rfl, h.flagged, h.sent, h.masked⟩
    intro hquiet
    exact absurd htimer (by simp [(h.quiet hquiet).1])
  | alarm halrm hinstalled =>
    -- a signal that is pending was sent by the timer, and the flag is not set yet
    have harmed : w.point.unarmed = false := by
      refine Bool.eq_false_iff.mpr fun hu => ?_
      exact absurd halrm (by simp [(h.quiet (.inr hu)).2])
    obtain ⟨hwait, hreported⟩ := htimely rfl
    exact ⟨fun _ => ⟨h.once halrm, rfl⟩, nofun,
      fun _ => Point.flagged_alarm hinstalled harmed hwait hreported, hsent, h.masked⟩
  | killed halrm =>
    have hflag : w.timedOut ≠ true := by
      intro ht
      exact absurd halrm (by simp [(h.quiet (.inl ht)).2])
    exact ⟨fun _ => ⟨h.once halrm, rfl⟩, nofun, fun ht => absurd ht hflag, nofun, h.masked⟩
  | signal =>
    refine ⟨?_, h.once, fun ht => Point.flagged_interrupted (h.flagged ht), hsent, h.masked⟩
    rw [Point.unarmed_interrupted]
    exact h.quiet
  | reported hp =>
    exact ⟨fun hq => h.quiet (hq.imp_right nofun), h.once, fun ht => absurd ht (hin hp), nofun,
      h.masked⟩
  | stopped => exact ⟨fun hq => h.quiet (hq.imp_right nofun), h.once, fun _ => rfl, nofun, h.masked⟩
  | drained hp =>
    exact ⟨fun hq => h.quiet (hq.imp_right nofun), h.once, fun _ => rfl,
      fun _ => h.sent (by rw [hp]; rfl), h.masked⟩

/-! ### The shell goes on by itself -/

theorem step_next {q : Point} (hhandling : w.handling = false)
    (hq : w.point.after w.timedOut (Alive w.shell pgid) = some q) :
    step pgid timeoutSecs w .next = some { w.exec pgid timeoutSecs with point := q } := by
  simp [step, hhandling, Resumer.next, hq]

/-- With the flag set, the statements lead from this point to `SIGTERM`. -/
inductive Leads : Point → Prop
  | here : Leads .terminate
  | next {p q : Point} (hreset : p ≠ .reset) (hq : ∀ alive, p.after true alive = some q)
    (h : Leads q) : Leads p

theorem Leads.terminates {p : Point} (h : Leads p) (w : Resumer) (hhandling : w.handling = false)
    (htimedOut : w.timedOut = true) (hp : w.point = p) : Terminates pgid timeoutSecs w := by
  induction h generalizing w with
  | here =>
    refine ⟨[.next], _, .single ⟨rfl, step_next hhandling (by rw [hp]; rfl)⟩, ?_⟩
    simp [Resumer.exec, hp, Resumer.kill]
  | @next p q hreset hq _ ih =>
    obtain ⟨-, hh, -, ht, -⟩ := exec_frame pgid timeoutSecs w
    subst hp
    obtain ⟨es, w', hrun, hsent⟩ := ih { w.exec pgid timeoutSecs with point := q }
      (hh.trans hhandling) ((ht hreset).trans htimedOut) rfl
    refine ⟨.next :: es, w', .cons ⟨rfl, step_next hhandling ?_⟩ hrun, hsent⟩
    rw [htimedOut]
    exact hq _

theorem leads_restore (o : Outcome) : Leads (.restore o) :=
  .next nofun (fun _ => rfl) (.next (q := .terminate) nofun (fun _ => rfl) .here)

theorem leads_left (o : Outcome) : Leads (.left o) := .next nofun (fun _ => rfl) (leads_restore o)

/-- **From every point where the flag may be set**, the statements lead to `SIGTERM`. -/
theorem Point.leads {p : Point} (hreset : p ≠ .reset) (hflagged : p.flagged = true) :
    Leads p ∨ p.terminated = true := by
  cases p with
  | reset => exact absurd rfl hreset
  | terminate => exact .inl .here
  | choose o => exact .inl (.next nofun (fun _ => rfl) .here)
  | restore o => exact .inl (leads_restore o)
  | left o => exact .inl (leads_left o)
  | cancel o => exact .inl (.next nofun (fun _ => rfl) (leads_restore o))
  | reported stopped =>
    cases stopped with
    | true => exact .inl (.next nofun (fun _ => rfl) (leads_left .stopped))
    | false => cases hflagged
  | failed eintr =>
    cases eintr with
    | true => exact .inl (.next nofun (fun _ => rfl) (leads_left .timedOut))
    | false => exact .inl (.next nofun (fun _ => rfl) (leads_left .finished))
  | wake | drain _ | finish => exact .inr rfl
  | _ => cases hflagged

theorem terminates_of_flagged (hhandling : w.handling = false) (htimedOut : w.timedOut = true)
    (hreset : w.point ≠ .reset) (hflagged : w.point.flagged = true)
    (hsent : w.point.terminated = true → 15 ∈ w.sent) : Terminates pgid timeoutSecs w := by
  rcases Point.leads hreset hflagged with hleads | hterminated
  · exact hleads.terminates w hhandling htimedOut rfl
  · exact ⟨[], w, .nil w, hsent hterminated⟩

/-- The handler takes a process that has terminated. -/
theorem move_handler {s : State} {p : ℕ} {status : Lib.Posix.Status} (hmasked : s.masked = false)
    (hlife : s.kids p = .terminated status) :
    ∃ t, move s (.handler p) = some t ∧ t.kids = (s.setLife p (.reaped status)).kids := by
  refine ⟨{ s.reap p status with
    stale := s.stale || decide (Control.Misses (s.reap p status) p) }, ?_, rfl⟩
  simp only [move, hmasked, hlife, Bool.false_eq_true, if_false]
  rfl

/-- The handler of `SIGCHLD` comes to its end. -/
theorem handler_returns (hhandling : w.handling = true) (hmasked : w.shell.masked = false) :
    ∃ es s, Run (OwnStep pgid timeoutSecs) w es { w with shell := s, handling := false } := by
  -- it takes the children one after the other
  have hreap : ∀ ps : List ℕ, ∃ es s, Run (OwnStep pgid timeoutSecs) w es { w with shell := s } ∧
      s.pids = w.shell.pids ∧ s.masked = false ∧
      ∀ p ∈ ps, ∀ status, s.kids p ≠ .terminated status := by
    intro ps
    induction ps with
    | nil => exact ⟨[], w.shell, .nil w, rfl, hmasked, by simp⟩
    | cons p ps ih =>
      obtain ⟨es, s, hrun, hpids, hm, hps⟩ := ih
      by_cases hlife : ∃ status, s.kids p = .terminated status
      · obtain ⟨status, hlife⟩ := hlife
        obtain ⟨t, hmove, hkids⟩ := move_handler hm hlife
        have hframe : Control.Frame s t :=
          frame_move (⟨nofun, hmove⟩ : MoveStep False s (.handler p) t)
        have hstep : step pgid timeoutSecs { w with shell := s } (.reaps p) =
            some { w with shell := t } := by
          simp [step, hhandling, hmove]
        refine ⟨es ++ [.reaps p], t, hrun.append (.single ⟨rfl, hstep⟩),
          hframe.pids.trans hpids, hframe.masked.trans hm, ?_⟩
        intro q hq status' hterm
        rw [hkids, Control.setLife_kids] at hterm
        split_ifs at hterm with hqp
        rcases List.mem_cons.mp hq with rfl | hq
        · exact hqp rfl
        · exact hps q hq status' hterm
      · refine ⟨es, s, hrun, hpids, hm, ?_⟩
        intro q hq status hterm
        rcases List.mem_cons.mp hq with rfl | hq
        · exact hlife ⟨status, hterm⟩
        · exact hps q hq status hterm
  obtain ⟨es, s, hrun, hpids, -, hclean⟩ := hreap w.shell.pids
  have hreturn : step pgid timeoutSecs { w with shell := s } .returns =
      some { w with shell := s, handling := false } := by
    refine if_pos ⟨hhandling, List.all_eq_true.mpr ?_⟩
    intro p hp
    split
    · next status hterm => exact absurd hterm (hclean p (hpids ▸ hp) status)
    · rfl
  exact ⟨es ++ [.returns], s, hrun.append (.single ⟨rfl, hreturn⟩)⟩

/-- **The flag is not overlooked**: once it is set, the shell sends `SIGTERM` by itself. -/
theorem Watched.terminates (h : Watched w) (htimedOut : w.timedOut = true)
    (hreset : w.point ≠ .reset) : Terminates pgid timeoutSecs w := by
  cases hhandling : w.handling with
  | false => exact terminates_of_flagged hhandling htimedOut hreset (h.flagged htimedOut) h.sent
  | true =>
    obtain ⟨es, s, hrun⟩ := handler_returns hhandling h.masked
    obtain ⟨es', w', hrun', hsent⟩ : Terminates pgid timeoutSecs
        { w with shell := s, handling := false } :=
      terminates_of_flagged rfl htimedOut hreset (h.flagged htimedOut) h.sent
    exact ⟨es ++ es', w', hrun.append hrun', hsent⟩

/-- **A timeout is never missed**, if `SIGALRM` is never delivered between the timer, a report
or a look at the flag and the next `waitpid`: no state is reached in which the time is over,
the shell blocked, the job running and no signal pending, and once the flag is set, the shell
sends `SIGTERM` without any other event. -/
theorem timeout_not_missed (pgid : ℕ) (timeoutSecs : ℤ) (w₀ w : Resumer) (es : List Event)
    (hstart : Starts w₀)
    (hrun : Run (fun w e w' => Timely w e ∧ step pgid timeoutSecs w e = some w') w₀ es w) :
    ¬Missed pgid w ∧
      (w.timedOut = true → w.point ≠ .reset → Terminates pgid timeoutSecs w) := by
  have hwatched : Watched w :=
    hrun.invariant (fun _ _ _ h hstep => h.step hstep.1 hstep.2) hstart.watched
  refine ⟨?_, hwatched.terminates⟩
  intro hmissed
  have hflag := hwatched.flagged hmissed.timedOut
  rw [hmissed.point] at hflag
  cases hflag

/-- A job of one process, which is running. -/
def oneRunning : Resumer where
  shell := {
    pids := [5]
    kids := fun p => if p = 5 then .running else .absent
    pgrp := fun _ => some 5 }
  point := .reset
  timedOut := false
  timer := false
  alrm := false
  chld := false
  handling := false
  sent := []

/-- The timer fires while the shell is blocked. -/
theorem timeout_not_missed_blocked : ∃ w,
    Run (fun w e w' => Timely w e ∧ step 5 3 w e = some w') oneRunning
      [.next, .next, .next, .next, .fires, .alarm] w ∧
    w.timedOut = true ∧ ¬Missed 5 w ∧ Terminates 5 3 w := by
  have hrun : Run (fun w e w' => Timely w e ∧ step 5 3 w e = some w') oneRunning
      [.next, .next, .next, .next, .fires, .alarm]
      { oneRunning with timedOut := true, point := .failed true } := Lib.run_of_foldlM rfl
  obtain ⟨hmissed, hterm⟩ := timeout_not_missed 5 3 oneRunning _ _ ⟨rfl, rfl, rfl, rfl, rfl⟩ hrun
  exact ⟨_, hrun, rfl, hmissed, hterm rfl (by decide)⟩

/-- The timer ends the loop. -/
theorem await_of_run_alarm : ∃ w t,
    Run (fun w e w' => step 5 3 w e = some w') oneRunning
      [.next, .next, .next, .next, .fires, .alarm, .next] w ∧ w.point = .left .timedOut ∧
    Await False 5 true oneRunning.shell .timedOut t ∧ Moves False t w.shell := by
  have hrun : Run (fun w e w' => step 5 3 w e = some w') oneRunning
      [.next, .next, .next, .next, .fires, .alarm, .next]
      { oneRunning with timedOut := true, point := .left .timedOut } :=
    (Lib.run_iff_foldlM _ _ _ _).mpr rfl
  obtain ⟨t, ht⟩ := await_of_run ⟨rfl, rfl, rfl, rfl, rfl⟩ hrun rfl
  exact ⟨_, t, hrun, rfl, ht⟩

/-- **The timer fires before the first call of `waitpid`**: the shell blocks all the same, and
there is nothing that it can do by itself. -/
theorem timeout_missed : ∃ w,
    Run (fun w e w' => step 5 3 w e = some w') oneRunning
      [.next, .next, .next, .fires, .alarm, .next] w ∧
    Missed 5 w ∧ ¬∃ e w', OwnStep 5 3 w e w' := by
  refine ⟨{ oneRunning with timedOut := true, point := .inWait },
    (Lib.run_iff_foldlM _ _ _ _).mpr rfl, ⟨rfl, rfl, ⟨5, by decide⟩, rfl, rfl, rfl⟩, ?_⟩
  rintro ⟨e, w', howned, hstep⟩
  cases e with
  | next | reaps pid | returns => cases hstep
  | _ => cases howned

end Timeout
end RuShell
