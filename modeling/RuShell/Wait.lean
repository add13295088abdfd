import RuShell.LaunchRules
import RuShell.Lib.Run
import RuShell.Lib.Follow

/-!
# Waiting for a foreground command

`execute_with_redirection` waits for its command with `waitpid`, and so does the
handler of `SIGCHLD`, for every child that has terminated.  The signal is blocked
from before the command is forked until right before the wait; from then on the
two compete.  The handler is installed without `SA_RESTART`, so running it makes a
`waitpid` that is blocked return with `EINTR`, whichever child has terminated, and
a `waitpid` for a child the handler has reaped returns with `ECHILD`.  In both
cases the status variable is left as it was, that is, uninitialised.

The children are abstract here: they run, stop, continue and terminate as they
like.  The shell runs the program of `executeWithRedirection` call by call.

## Main definitions

* `Life` — the states of a child.
* `FgState`, `FgEvent`, `fgStep` — the shell, its children and the signal.
* `Harmless` — the handler does not interfere with the wait for the command.
* `Right life status` — `status` is the wait status of a child in the state `life`.

## Main results

* `followed_executeWithRedirection` — the signal is blocked from the fork up to
  the wait.
* `foreground_wait` — **the shell gets past the wait only with the status of the
  command**, if every activation of the handler is harmless.
* `interrupted_wait` — otherwise it need not.
-/

namespace RuShell
namespace Redirect

open Lib.Posix
open RuShell.Segment

/-! ### Children -/

/-- The states of a child. -/
inductive Life
  | absent
  | running
  | stopped
  /-- A zombie, with its wait status. -/
  | terminated (s : Status)
  /-- Somebody has waited for it. -/
  | reaped (s : Status)
  deriving DecidableEq, Repr

/-- `waitpid(-1, …, WNOHANG)` takes every zombie. -/
def Life.reap : Life → Life
  | .terminated s => .reaped s
  | life => life

/-- What `waitpid` for a child returns at once, and the child afterwards; `none` if
it has to block.  Without a child (`ECHILD`) the status variable keeps what it
holds, `leftover`. -/
def waitResult (untraced : Bool) (leftover : Status) : Life → Option (Status × Life)
  | .absent => some (leftover, .absent)
  | .running => none
  | .stopped => if untraced then some (.stopped, .stopped) else none
  | .terminated s => some (s, .reaped s)
  | .reaped s => some (leftover, .reaped s)

/-- The status is the one a child in this state has to report. -/
def Right : Life → Status → Prop
  | .terminated s, status => status = s
  | .reaped s, status => status = s
  | .stopped, status => status = .stopped
  | _, _ => False

/-! ### The shell, its children and the signal -/

/-- The shell while it runs a foreground command. -/
structure FgState where
  /-- What the shell still has to do. -/
  prog : Prog sh ℤ
  /-- Is `SIGCHLD` blocked, and was it before? -/
  masked : Bool
  saved : Bool
  /-- Is a `SIGCHLD` waiting to be handled? -/
  pending : Bool
  /-- Is the shell blocked in the `waitpid` it is at? -/
  waiting : Bool
  kids : ℕ → Life
  /-- The next pid. -/
  next : ℕ
  /-- What the wait for the command has returned, and the state of the command then. -/
  seen : Option (Status × Life)

/-- What can happen. -/
inductive FgEvent
  | pipe (ends : Option (ℕ × ℕ))
  | file (fd : Option ℕ)
  | done
  | value (z : ℤ)
  | fork (ok : Bool)
  /-- `waitpid` has to block. -/
  | block
  /-- `waitpid` returns. -/
  | ret (leftover : Status)
  /-- The handler of `SIGCHLD` runs. -/
  | handler (leftover : Status)
  | terminate (pid : ℕ) (s : Status)
  | stop (pid : ℕ)
  | cont (pid : ℕ)
  deriving DecidableEq, Repr

/-- The state of a child changes and the shell is sent a signal. -/
def FgState.child (s : FgState) (pid : ℕ) (life : Life) : FgState :=
  { s with kids := Function.update s.kids pid life, pending := true }

/-- The shell gets past a `waitpid` with a status. -/
def FgState.leave (s : FgState) (pid : ℕ) (untraced : Bool) (status : Status) (rest : Prog sh ℤ) :
    FgState :=
  { s with
    prog := rest
    waiting := false
    seen := if untraced then some (status, s.kids pid) else s.seen }

/-- The mask after a call. -/
def FgState.mask (s : FgState) : Book → FgState
  | .block => { s with masked := true, saved := s.masked }
  | .restore => { s with masked := s.saved }
  | _ => s

/-- The calls of the shell. -/
def shellStep (s : FgState) : Prog sh ℤ → FgEvent → Option FgState
  | .call (.pipe _) k, .pipe ends => some { s with prog := k ends }
  | .call (.openFile _) k, .file fd => some { s with prog := k fd }
  | .call (.close _) k, .done => some { s with prog := k () }
  | .call (.dup2 _ _) k, .done => some { s with prog := k () }
  | .call (.book b) k, .value z => some { s.mask b with prog := k z }
  | .fork _ k, .fork true =>
    some { s with
      prog := k (.parent s.next)
      kids := Function.update s.kids s.next .running
      next := s.next + 1 }
  | .fork _ k, .fork false => some { s with prog := k .failed }
  | .call (.wait pid untraced) _, .block =>
    if (waitResult untraced .exited (s.kids pid)).isNone then some { s with waiting := true }
    else none
  | .call (.wait pid untraced) k, .ret leftover =>
    match waitResult untraced leftover (s.kids pid) with
    | none => none
    | some (status, life) =>
      some { s.leave pid untraced status (k status) with
        kids := Function.update s.kids pid life }
  | _, _ => none

/-- The loop of `sigchld_handler` reaps every zombie. -/
def FgState.reapAll (s : FgState) : FgState :=
  { s with pending := false, kids := fun pid => (s.kids pid).reap }

/-- `sigchld_handler`; a `waitpid` that is blocked is interrupted. -/
def handlerStep (s : FgState) (leftover : Status) : FgState :=
  match s.waiting, s.prog with
  | true, .call (.wait pid untraced) k => s.reapAll.leave pid untraced leftover (k leftover)
  | _, _ => s.reapAll

/-- The step function; `none` if the event cannot happen now. -/
def fgStep (s : FgState) : FgEvent → Option FgState
  | .terminate pid status =>
    match s.kids pid with
    | .running => if status = .stopped then none else some (s.child pid (.terminated status))
    | .stopped => if status = .stopped then none else some (s.child pid (.terminated status))
    | _ => none
  | .stop pid =>
    match s.kids pid with
    | .running => some (s.child pid .stopped)
    | _ => none
  | .cont pid =>
    match s.kids pid with
    | .stopped => some (s.child pid .running)
    | _ => none
  | .handler leftover =>
    if s.pending && !s.masked then some (handlerStep s leftover) else none
  | e => shellStep s s.prog e

/-- The shell, about to run a foreground command while it has other children. -/
def fgStart (env : Env) (st : CommandStage) (kids : ℕ → Life) (next : ℕ) (pending : Bool) :
    FgState where
  prog := executeWithRedirection env st
  masked := false
  saved := false
  pending := pending
  waiting := false
  kids := kids
  next := next
  seen := none

/-- The handler runs neither while the shell is blocked in the wait for the command,
nor right before that wait if the command has terminated already. -/
def Harmless (s : FgState) : FgEvent → Prop
  | .handler _ =>
    match s.prog with
    | .call (.wait pid true) _ => s.waiting = false ∧ (s.kids pid).reap = s.kids pid
    | _ => True
  | _ => True

instance (s : FgState) (e : FgEvent) : Decidable (Harmless s e) := by
  unfold Harmless
  split
  · split <;> infer_instance
  · infer_instance

/-! ### The phases of the launch -/

/-- How far the launch of the command has got. -/
inductive Phase
  | before
  /-- The command has been forked. -/
  | launched (pid : ℕ)
  /-- The signal mask has been restored. -/
  | ready (pid : ℕ)
  /-- The shell has got past the wait. -/
  | passed
  deriving DecidableEq, Repr

/-- What is remembered along the program: is the signal certainly blocked, and the
phase. -/
structure Ghost where
  masked : Bool
  phase : Phase

/-- How the calls change it. -/
def watch : Watch sh Ghost where
  call
    | .book .block, l => { l with masked := true }
    | .book .restore, l =>
      ⟨false, match l.phase with
        | .launched pid => .ready pid
        | phase => phase⟩
    | .wait _ true, l => { l with phase := .passed }
    | _, l => l
  fork
    | .stage _, some pid, l => { l with phase := .launched pid }
    | _, _, l => l

/-- Between the fork and the wait the signal is blocked, and the first call after it
is unblocked is the wait for the command. -/
def OnTrack : Call sh → Ghost → Prop
  | .wait pid true, l => l.phase = .ready pid
  | .wait _ false, l => l.phase = .before ∨ l.phase = .passed
  | _, ⟨masked, .launched _⟩ => masked = true
  | _, ⟨_, .ready _⟩ => False
  | _, _ => True

/-- Nothing is forked after the command, which is forked with the signal blocked. -/
def ForkOk (r : Role) (l : Ghost) : Prop :=
  l.phase = .before ∧ ∀ i, r = .stage i → l.masked = true

/-- There is no command to wait for. -/
def Idle (l : Ghost) : Prop := l.phase = .before ∨ l.phase = .passed

/-- `follows` for the launch. -/
abbrev Followed {α : Type} (p : Prog sh α) (Q : α → Ghost → Prop) (l : Ghost) : Prop :=
  follows watch OnTrack ForkOk p Q l

/-- Where calls other than those of the launch itself are on track. -/
def Calm (l : Ghost) : Prop :=
  match l.phase with
  | .launched _ => l.masked = true
  | .ready _ => False
  | _ => True

/-- The calls that do not belong to the launch itself. -/
def Plain : Call sh → Prop
  | .book .block => False
  | .book .restore => False
  | .wait _ _ => False
  | _ => True

theorem onTrack_of_plain {c : Call sh} (hc : Plain c) {l : Ghost} (hl : Calm l) : OnTrack c l := by
  obtain ⟨masked, phase⟩ := l
  unfold OnTrack
  split
  · exact hc.elim
  · exact hc.elim
  · rename_i h
    cases h
    exact hl
  · rename_i h
    cases h
    exact hl
  · trivial

theorem watch_of_plain {c : Call sh} (hc : Plain c) (l : Ghost) : watch.call c l = l := by
  unfold watch
  dsimp only
  split
  · exact hc.elim
  · exact hc.elim
  · exact hc.elim
  · rfl

section Steady

variable {α : Type} {p : Prog sh α} {io : StageIo} {pid : ℕ}

/-- The program has nothing to do with the launch. -/
abbrev Aside (p : Prog sh α) : Prop := Steady watch OnTrack ForkOk Calm p

theorem aside_of_calls (hp : p.Calls Plain) : Aside p := by
  induction p with
  | pure a => exact .pure a
  | call c k ih =>
    exact .call (fun _ hl => onTrack_of_plain hp.1 hl) (fun l _ => watch_of_plain hp.1 l) fun x =>
      ih x (hp.2 x)
  | fork r k ih => exact hp.elim

theorem aside_minor (hp : p.Calls Minor) : Aside p := by
  refine aside_of_calls (hp.mono fun c hc => ?_)
  cases c with
  | book b => cases b <;> first | exact hc | trivial
  | wait _ _ => exact hc
  | _ => trivial

theorem aside_note {b : Book} (hb : Plain (.book b)) : Aside (note b) :=
  aside_of_calls (calls_note hb)

theorem aside_setpgid {pgid : Option ℕ} : Aside (setpgid pid pgid) :=
  aside_of_calls (calls_setpgid trivial fun _ => trivial)

theorem aside_addHelper {pgid : ℕ} {pid : Option ℕ} {name : Str} :
    Aside (addHelper pgid pid name) := by
  cases pid with
  | none => exact .pure ()
  | some pid => exact .bind aside_setpgid fun _ => aside_note trivial

theorem aside_addHelpers {pgid : ℕ} : Aside (addHelpers pgid io) :=
  .bind aside_addHelper fun _ => aside_addHelper

/-- Nothing but waiting for helpers, when there is no command. -/
abbrev Apart (p : Prog sh α) : Prop := Steady watch OnTrack ForkOk Idle p

theorem apart_of_aside (hp : Aside p) : Apart p := by
  refine Steady.mono hp fun l hl => ?_
  unfold Calm
  rcases hl with hl | hl <;> (rw [hl]; trivial)

theorem apart_waitOpt {pid : Option ℕ} : Apart (waitOpt pid) := by
  cases pid with
  | none => exact .pure ()
  | some pid => exact .call (fun _ hl => hl) (fun _ _ => rfl) fun _ => .pure ()

theorem apart_undoStage : Apart (undoStage io) :=
  .bind (apart_of_aside (aside_minor (minor_closeOpt _))) fun _ =>
    .bind (apart_of_aside (aside_minor (minor_closeOpt _))) fun _ =>
      .bind apart_waitOpt fun _ => apart_waitOpt

/-- Before the command is forked, minor calls and the forks of helpers change nothing. -/
theorem crew_before {l : Ghost} (hl : l.phase = .before) :
    Crew (watch.logic OnTrack ForkOk) fun _ l' => l' = l where
  minor := by
    rintro α p hs _ hp rfl
    exact apart_of_aside (aside_minor hp) _ _ (Or.inl hl) fun _ => rfl
  fork := by
    rintro α r k Q hs l' hr rfl hparent hfail
    have hwatch : ∀ pid, watch.fork r pid l' = l' := by
      intro pid
      cases r with
      | stage i => exact absurd rfl (hr i)
      | _ => rfl
    exact ⟨⟨hl, fun i hi => absurd hi (hr i)⟩, fun pid => hparent pid _ (hwatch _),
      hfail _ (hwatch _)⟩

end Steady

/-! ### The launch -/

variable {env : Env} {st : CommandStage} {io : StageIo} {pid : ℕ} {s s' : FgState}
  {leftover status : Status} {life : Life}

/-- What the shell does after the wait. -/
theorem followed_afterWait (status : Status) :
    Followed (do
      note .reclaimTerminal
      waitOpt io.writer
      waitOpt io.reader
      finishJob pid status (joinArgs st.args 256)) (fun _ => Idle) ⟨false, .passed⟩ := by
  have hcalm : Calm ⟨false, .passed⟩ := trivial
  have hidle : Idle ⟨false, .passed⟩ := Or.inr rfl
  refine Steady.next (aside_note trivial) hcalm fun _ => ?_
  refine apart_waitOpt.next hidle fun _ => ?_
  refine apart_waitOpt.next hidle fun _ => ?_
  exact aside_of_calls (calls_finishJob trivial (fun _ => trivial) trivial) _ _ hcalm fun _ => hidle

theorem followed_commandParent :
    Followed (commandParent pid st io) (fun _ => Idle) ⟨true, .launched pid⟩ := by
  have hcalm : Calm ⟨true, .launched pid⟩ := rfl
  unfold commandParent
  refine aside_setpgid.next hcalm fun _ => ?_
  refine aside_addHelpers.next hcalm fun _ => ?_
  refine Steady.next (aside_note trivial) hcalm fun _ => ?_
  refine Steady.next (aside_note trivial) hcalm fun _ => ?_
  refine Steady.next (aside_note trivial) hcalm fun _ => ?_
  refine (aside_minor (minor_closeOpt _)).next hcalm fun _ => ?_
  refine (aside_minor (minor_closeOpt _)).next hcalm fun _ => ?_
  -- the mask is restored, and the next call is the wait
  exact ⟨rfl, fun _ => ⟨rfl, followed_afterWait⟩⟩

/-- **The signal is blocked from the fork of the command up to the wait**, which is
the first call after it is unblocked. -/
theorem followed_executeWithRedirection :
    Followed (executeWithRedirection env st) (fun _ => Idle) ⟨false, .before⟩ := by
  have hidle : ∀ masked, Idle ⟨masked, .before⟩ := fun masked => Or.inl rfl
  have hcalm : ∀ masked, Calm ⟨masked, .before⟩ := fun masked => trivial
  refine (crew_before (l := ⟨false, .before⟩) rfl).prepareCommand rfl ?_ ?_ ?_
  · rintro path io _ rfl
    refine ⟨trivial, fun _ => ⟨⟨rfl, fun _ _ => rfl⟩, fun pid => followed_commandParent, ?_⟩⟩
    refine (aside_minor (minor_perror _)).next (hcalm true) fun _ => ⟨trivial, fun _ => ?_⟩
    exact apart_undoStage.next (hidle false) fun _ => hidle false
  · rintro io _ rfl
    exact apart_waitOpt _ _ (hidle false) fun _ => rfl
  · rintro _ _ rfl
    exact hidle false

/-! ### Every run -/

/-- The child exists and nobody has waited for it. -/
def Present : Life → Prop
  | .absent => False
  | .reaped _ => False
  | _ => True

/-- What holds in each phase: from the fork on the command is there to be waited
for, and afterwards the status was the right one. -/
def PhaseOk (s : FgState) : Phase → Prop
  | .before => s.seen = none
  | .launched pid => s.seen = none ∧ Present (s.kids pid)
  | .ready pid => s.seen = none ∧ Present (s.kids pid)
  | .passed => ∀ status life, s.seen = some (status, life) → Right life status

/-- The invariant: the shell is at a point of its program that fits the state. -/
def FgInv (s : FgState) : Prop :=
  ∃ l : Ghost, Followed s.prog (fun _ => Idle) l ∧ (l.masked = true → s.masked = true) ∧
    PhaseOk s l.phase

theorem PhaseOk.right {phase : Phase} (h : PhaseOk s phase)
    (hseen : s.seen = some (status, life)) : Right life status := by
  cases phase with
  | before =>
    have h : s.seen = none := h
    rw [h] at hseen
    cases hseen
  | launched pid | ready pid =>
    rw [h.1] at hseen
    cases hseen
  | passed => exact h status life hseen

/-- The phase only depends on what the wait has returned and on which children are there. -/
theorem PhaseOk.congr {phase : Phase} (h : PhaseOk s phase)
    (hseen : s'.seen = s.seen) (hkids : ∀ pid, Present (s.kids pid) → Present (s'.kids pid)) :
    PhaseOk s' phase := by
  cases phase with
  | before => exact hseen.trans h
  | launched pid | ready pid => exact ⟨hseen.trans h.1, hkids pid h.2⟩
  | passed =>
    intro status life hs
    exact h status life (hseen ▸ hs)

/-- A child stops, continues or terminates. -/
theorem FgInv.child (hs : FgInv s) (pid : ℕ) (hlife : Present life) :
    FgInv (s.child pid life) := by
  obtain ⟨l, hprog, hmask, hphase⟩ := hs
  refine ⟨l, hprog, hmask, hphase.congr rfl fun q hq => ?_⟩
  change Present (Function.update s.kids pid life q)
  by_cases hqp : q = pid
  · subst hqp
    rwa [Function.update_self]
  · rwa [Function.update_of_ne hqp]

theorem handlerStep_cases (s : FgState) (leftover : Status) :
    (∃ pid untraced k, s.waiting = true ∧ s.prog = .call (.wait pid untraced) k ∧
      handlerStep s leftover = s.reapAll.leave pid untraced leftover (k leftover)) ∨
    handlerStep s leftover = s.reapAll := by
  unfold handlerStep
  split
  · rename_i pid untraced k hwait hprog
    exact Or.inl ⟨pid, untraced, k, hwait, hprog, rfl⟩
  · exact Or.inr rfl

/-- Where the signal is not blocked there is no command, or the shell is about to
wait for it. -/
theorem phase_of_unmasked {p : Prog sh ℤ} {l : Ghost} (hp : Followed p (fun _ => Idle) l)
    (hl : l.masked ≠ true) :
    Idle l ∨ ∃ pid k, l.phase = .ready pid ∧ p = .call (.wait pid true) k := by
  obtain ⟨masked, phase⟩ := l
  cases p with
  | pure x => exact Or.inl hp
  | fork r k => exact Or.inl (Or.inl hp.1.1)
  | call c k =>
    have hc : OnTrack c ⟨masked, phase⟩ := hp.1
    unfold OnTrack at hc
    split at hc
    · rename_i pid
      exact Or.inr ⟨pid, k, hc, rfl⟩
    · exact Or.inl hc
    · rename_i h
      cases h
      exact absurd hc hl
    · exact hc.elim
    · rename_i hlaunched hready
      cases phase with
      | before => exact Or.inl (Or.inl rfl)
      | launched pid => exact absurd rfl (hlaunched masked pid)
      | ready pid => exact absurd rfl (hready masked pid)
      | passed => exact Or.inl (Or.inr rfl)

/-- Without a command, only what the wait has returned matters. -/
theorem PhaseOk.of_idle {l : Ghost} (h : PhaseOk s l.phase) (hl : Idle l)
    (hseen : s'.seen = s.seen) : PhaseOk s' l.phase := by
  rcases hl with hl | hl
  · rw [hl] at h ⊢
    exact hseen.trans h
  · rw [hl] at h ⊢
    intro status life hs
    exact h status life (hseen ▸ hs)

/-- The handler runs. -/
theorem FgInv.handler (hs : FgInv s) (hunmasked : s.masked = false)
    (hharm : Harmless s (.handler leftover)) :
    FgInv (handlerStep s leftover) := by
  obtain ⟨l, hprog, hmask, hphase⟩ := hs
  have hfree : l.masked ≠ true := by
    intro h
    rw [hmask h] at hunmasked
    cases hunmasked
  rcases phase_of_unmasked hprog hfree with hidle | ⟨pid, k, hready, hcode⟩
  · rcases handlerStep_cases s leftover with ⟨pid, untraced, k, -, hcode, heq⟩ | heq
    · rw [hcode] at hprog
      obtain rfl : untraced = false := by
        cases untraced with
        | false => rfl
        | true =>
          have hphase : l.phase = .ready pid := hprog.1
          rcases hidle with h | h <;> (rw [h] at hphase; cases hphase)
      rw [heq]
      exact ⟨l, hprog.2 leftover, hmask, hphase.of_idle hidle rfl⟩
    · rw [heq]
      exact ⟨l, hprog, hmask, hphase.of_idle hidle rfl⟩
  · -- the shell is not blocked yet, and the command has not terminated
    unfold Harmless at hharm
    rw [hcode] at hharm
    obtain ⟨hwaiting, hlive⟩ := hharm
    rcases handlerStep_cases s leftover with ⟨-, -, -, hwaiting', -, -⟩ | heq
    · rw [hwaiting] at hwaiting'
      cases hwaiting'
    · rw [heq]
      refine ⟨l, hprog, hmask, ?_⟩
      rw [hready] at hphase ⊢
      refine ⟨hphase.1, ?_⟩
      have hpresent := hphase.2
      change Present (s.kids pid).reap
      cases hkid : s.kids pid with
      | terminated status =>
        rw [hkid] at hlive
        cases hlive
      | _ =>
        rw [hkid] at hpresent
        exact hpresent

/-- A status that `waitpid` returns for a child that is there is the right one. -/
theorem right_of_waitResult {life' : Life} (hlife : Present life)
    (h : waitResult true leftover life = some (status, life')) : Right life status := by
  cases life with
  | absent | reaped s => exact hlife.elim
  | running => cases h
  | stopped | terminated s =>
    cases h
    rfl

section ShellCalls

variable {s : FgState} {l : Ghost} (hmask : l.masked = true → s.masked = true)
  (hphase : PhaseOk s l.phase)
include hmask hphase

/-- A bookkeeping call, which may change the mask. -/
theorem fgInv_book {b : Book} {k : ℤ → Prog sh ℤ} (z : ℤ)
    (hprog : Followed (.call (.book b) k) (fun _ => Idle) l) :
    FgInv { s.mask b with prog := k z } := by
  cases b with
  | block => exact ⟨_, hprog.2 z, fun _ => rfl, hphase.congr rfl fun _ hp => hp⟩
  | restore =>
    refine ⟨_, hprog.2 z, fun h => (by cases h), ?_⟩
    obtain ⟨masked, phase⟩ := l
    cases phase <;> exact hphase
  | _ => exact ⟨l, hprog.2 z, hmask, hphase⟩

/-- A child is forked. -/
theorem fgInv_fork {r : Role} {k : Forked → Prog sh ℤ}
    (hprog : Followed (.fork r k) (fun _ => Idle) l) :
    FgInv { s with
      prog := k (.parent s.next)
      kids := Function.update s.kids s.next .running
      next := s.next + 1 } := by
  obtain ⟨⟨hbefore, hstage⟩, hparent, -⟩ := hprog
  have hseen : s.seen = none := by
    rw [hbefore] at hphase
    exact hphase
  cases r with
  | stage i =>
    refine ⟨_, hparent s.next, hmask, hseen, ?_⟩
    change Present (Function.update s.kids s.next .running s.next)
    rw [Function.update_self]
    trivial
  | _ => exact ⟨l, hparent s.next, hmask, hphase.of_idle (Or.inl hbefore) rfl⟩

theorem fgInv_forkFailed {r : Role} {k : Forked → Prog sh ℤ}
    (hprog : Followed (.fork r k) (fun _ => Idle) l) : FgInv { s with prog := k .failed } := by
  have hsame : watch.fork r none l = l := by cases r <;> rfl
  have hfailed := hprog.2.2
  rw [hsame] at hfailed
  exact ⟨l, hfailed, hmask, hphase⟩

/-- A `waitpid` returns. -/
theorem fgInv_ret {untraced : Bool} {k : Status → Prog sh ℤ}
    (hprog : Followed (.call (.wait pid untraced) k) (fun _ => Idle) l)
    (hres : waitResult untraced leftover (s.kids pid) = some (status, life)) :
    FgInv { s.leave pid untraced status (k status) with
      kids := Function.update s.kids pid life } := by
  cases untraced with
  | false =>
    have hidle : Idle l := hprog.1
    exact ⟨l, hprog.2 status, hmask, hphase.of_idle hidle rfl⟩
  | true =>
    have hready : l.phase = .ready pid := hprog.1
    rw [hready] at hphase
    refine ⟨_, hprog.2 status, hmask, fun status' life' hseen => ?_⟩
    obtain ⟨rfl, rfl⟩ : status = status' ∧ s.kids pid = life' := by
      simpa [FgState.leave] using hseen
    exact right_of_waitResult hphase.2 hres

end ShellCalls

/-- The shell makes a call. -/
theorem FgInv.shell {e : FgEvent} (hs : FgInv s)
    (h : shellStep s s.prog e = some s') : FgInv s' := by
  obtain ⟨l, hprog, hmask, hphase⟩ := hs
  generalize hp : s.prog = p at h hprog
  unfold shellStep at h
  split at h
  -- the calls that create or close descriptors
  iterate 4
    · cases h
      exact ⟨l, hprog.2 _, hmask, hphase⟩
  · cases h
    exact fgInv_book hmask hphase _ hprog
  · cases h
    exact fgInv_fork hmask hphase hprog
  · cases h
    exact fgInv_forkFailed hmask hphase hprog
  · split at h
    · cases h
      exact ⟨l, hp ▸ hprog, hmask, hphase.congr rfl fun _ hp => hp⟩
    · cases h
  · split at h
    · cases h
    · rename_i hres
      cases h
      exact fgInv_ret hmask hphase hprog hres
  · cases h

theorem FgInv.step {e : FgEvent} (hs : FgInv s) (hharm : Harmless s e)
    (h : fgStep s e = some s') : FgInv s' := by
  cases e with
  | terminate pid status =>
    simp only [fgStep] at h
    split at h
    · split at h
      · cases h
      · cases h
        exact hs.child pid trivial
    · split at h
      · cases h
      · cases h
        exact hs.child pid trivial
    · cases h
  | stop pid | cont pid =>
    simp only [fgStep] at h
    split at h
    · cases h
      exact hs.child pid trivial
    · cases h
  | handler leftover =>
    simp only [fgStep] at h
    split at h
    · rename_i henabled
      cases h
      refine hs.handler ?_ hharm
      simp only [Bool.and_eq_true, Bool.not_eq_true'] at henabled
      exact henabled.2
    · cases h
  | _ => exact hs.shell h

theorem FgInv.start {kids : ℕ → Life} {next : ℕ} {pending : Bool} :
    FgInv (fgStart env st kids next pending) :=
  ⟨⟨false, .before⟩, followed_executeWithRedirection, fun h => (by cases h), rfl⟩

/-- Events one after another, each of them harmless. -/
def HarmlessRun (s : FgState) (es : List FgEvent) (s' : FgState) : Prop :=
  Lib.Run (fun s e s' => Harmless s e ∧ fgStep s e = some s') s es s'

/-- **The shell gets past the wait only with the status of the command**: in every
run in which the handler never interferes with the wait, what `waitpid` has returned
is the status of a command that had terminated or stopped. -/
theorem foreground_wait {kids : ℕ → Life} {next : ℕ} {pending : Bool}
    {es : List FgEvent} (hrun : HarmlessRun (fgStart env st kids next pending) es s) :
    ∀ status life, s.seen = some (status, life) → Right life status := by
  have hinv : FgInv s :=
    Lib.Run.invariant (fun _ _ _ hs hstep => hs.step hstep.1 hstep.2) hrun FgInv.start
  obtain ⟨l, -, -, hphase⟩ := hinv
  intro status life hseen
  exact hphase.right hseen

/-! ### A background job terminates meanwhile -/

/-- One background job, with pid 1. -/
def oneJob : ℕ → Life := fun pid => if pid = 1 then .running else .absent

/-- The command `a`. -/
def commandA : CommandStage := ⟨[['a']], [], []⟩

/-- From blocking the signal to restoring the mask. -/
def launchEvents : List FgEvent :=
  [.value 0, .fork true, .value 0, .value 0, .value 0, .value 0, .value 0]

/-- The job terminates before the shell waits: the handler reaps it, and the wait is
not disturbed. -/
def earlyEvents : List FgEvent :=
  launchEvents ++ [.terminate 1 .exited, .handler .stopped, .block, .terminate 2 .signaled,
    .ret .stopped]

theorem foreground_wait_early : ∃ s, HarmlessRun (fgStart plainEnv commandA oneJob 2 false)
    earlyEvents s ∧ s.seen = some (.signaled, .terminated .signaled) ∧
      Right (.terminated .signaled) .signaled := by
  have h : ((earlyEvents.foldlM (fun s e => if Harmless s e then fgStep s e else none)
      (fgStart plainEnv commandA oneJob 2 false)).any fun s =>
        decide (s.seen = some (.signaled, .terminated .signaled))) = true := by decide +kernel
  obtain ⟨s, hfold, hs⟩ := (Option.any_eq_true _ _).mp h
  have hseen := of_decide_eq_true hs
  have hrun : HarmlessRun (fgStart plainEnv commandA oneJob 2 false) earlyEvents s :=
    Lib.run_of_foldlM hfold
  exact ⟨s, hrun, hseen, foreground_wait hrun _ _ hseen⟩

/-- The job terminates while the shell is blocked in the wait for the command. -/
def lateEvents : List FgEvent :=
  launchEvents ++ [.block, .terminate 1 .exited, .handler .stopped]

/-- The handler interrupts the wait: the shell goes on while the command is running,
with a status it was never given. -/
theorem interrupted_wait : ∃ s, Lib.Run (fun s e s' => fgStep s e = some s')
    (fgStart plainEnv commandA oneJob 2 false) lateEvents s ∧
      s.seen = some (.stopped, .running) ∧ ¬Right .running .stopped := by
  have h : ((lateEvents.foldlM fgStep (fgStart plainEnv commandA oneJob 2 false)).any fun s =>
      decide (s.seen = some (.stopped, .running))) = true := by decide +kernel
  obtain ⟨s, hfold, hs⟩ := (Option.any_eq_true _ _).mp h
  exact ⟨s, (Lib.run_iff_foldlM _ _ _ _).mpr hfold, of_decide_eq_true hs, fun hright => hright⟩

end Redirect
end RuShell
