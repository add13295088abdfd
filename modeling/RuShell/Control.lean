import RuShell.Launch
import RuShell.Wait

/-!
# Job control

The shell, its children and the job tables over a whole session: launches in the foreground
and in the background, `resume`, `ping` and `activities`, in any order.  Between any two
calls of the shell its children may stop, continue and terminate, and the handler of
`SIGCHLD` may reap those that have terminated, unless the signal is blocked.

Pids are not used again.  The command that a launch runs is the program of `redirect.c`;
here its waits take the children from the same state that the handler takes them from.

## Main definitions

* `State` — the tables, the children and their process groups, the terminal.
* `Move`, `move` — what happens outside the shell's own calls.
* `controlEffect` — what the calls of a launch do.
* `Resume`, `Ping`, `State.activities` — the commands.
* `ControlStep` — a session, event by event.

The relations take a parameter `steady`.  If it is true, a process stops only while its
job has the terminal, a stopped process stays as it is until `resume` continues it, and
the wait for a stage returns what that stage has to report; otherwise there is no such
restriction.
-/

namespace RuShell
namespace Control

open Lib (Run)
open Lib.Posix
open RuShell.Segment
open RuShell.Jobs (JobTables ProcEntry ProcGroup)
open RuShell.Redirect

/-! ### The state -/

/-- Nobody has waited for the process yet. -/
def unreaped : Life → Bool
  | .running | .stopped | .terminated _ => true
  | .absent | .reaped _ => false

/-- What a signal does to a process at once.  What other signals do depends on the
program; it happens later, as a move of that process. -/
def signalled (sig : ℕ) : Life → Life
  | .running => if sig = 9 then .terminated .signaled else if sig = 19 then .stopped else .running
  | .stopped => if sig = 9 then .terminated .signaled else if sig = 18 then .running else .stopped
  | life => life

/-- The shell and its children. -/
structure State where
  tables : JobTables := {}
  /-- The processes that were forked. -/
  pids : List ℕ := []
  kids : ℕ → Life := fun _ => .absent
  /-- The process group of a process; `none` is that of the shell. -/
  pgrp : ℕ → Option ℕ := fun _ => none
  /-- Is `SIGCHLD` blocked? -/
  masked : Bool := false
  /-- The process group that has the terminal; `none` is that of the shell. -/
  tty : Option ℕ := none
  /-- A foreground command is being launched. -/
  launching : Bool := false
  /-- The job that the shell waits for. -/
  fgJob : Option ℕ := none
  /-- Since the last `activities`, the handler has reaped the last process of a job that the
  shell does not wait for, or the first process of a command while it is being launched in
  the foreground. -/
  stale : Bool := false
  /-- What has been printed. -/
  out : List Str := []

/-- A process of the group has not been reaped. -/
def Alive (s : State) (pgid : ℕ) : Prop :=
  ∃ p ∈ s.pids, s.pgrp p = some pgid ∧ unreaped (s.kids p) = true

instance (s : State) (pgid : ℕ) : Decidable (Alive s pgid) := by
  unfold Alive
  infer_instance

/-- A process of the group is stopped. -/
def HasStopped (s : State) (pgid : ℕ) : Prop :=
  ∃ p ∈ s.pids, s.pgrp p = some pgid ∧ s.kids p = .stopped

instance (s : State) (pgid : ℕ) : Decidable (HasStopped s pgid) := by
  unfold HasStopped
  infer_instance

/-- A child changes. -/
def State.setLife (s : State) (pid : ℕ) (life : Life) : State :=
  { s with kids := Function.update s.kids pid life }

/-- One more text on standard output. -/
def State.print (s : State) (text : Str) : State := { s with out := s.out ++ [text] }

/-- `kill` for the processes that are meant. -/
def State.kill (s : State) (meant : ℕ → Bool) (sig : ℕ) : State :=
  { s with kids := fun p => if meant p then signalled sig (s.kids p) else s.kids p }

/-- `kill(-pgid, sig)` reaches the processes of the group. -/
def State.killGroup (s : State) (pgid sig : ℕ) : State := s.kill (fun p => s.pgrp p = some pgid) sig

/-! ### Moves -/

/-- What can happen between two calls of the shell. -/
inductive Move
  | exits (pid : ℕ) (status : Status)
  | stops (pid : ℕ)
  | continues (pid : ℕ)
  /-- The handler of `SIGCHLD` reaps the process. -/
  | handler (pid : ℕ)
  deriving DecidableEq, Repr

/-- The handler reaps a process. -/
def State.reap (s : State) (pid : ℕ) (status : Status) : State :=
  { s.setLife pid (.reaped status) with tables := Jobs.handleChild s.tables pid status }

/-- The handler has reaped the last process of a group that the shell does not wait for,
or the leader of the command that is being launched. -/
def Misses (s : State) (pid : ℕ) : Prop :=
  (s.launching = true ∧ s.fgJob = some pid) ∨
    ∃ pgid ∈ s.pgrp pid, s.fgJob ≠ some pgid ∧ ¬Alive s pgid

instance (s : State) (pid : ℕ) : Decidable (Misses s pid) :=
  inferInstanceAs (Decidable (_ ∨ _))

/-- The state after a move; `none` if it cannot happen now. -/
def move (s : State) : Move → Option State
  | .exits pid status =>
    if pid ∈ s.pids ∧ (s.kids pid = .running ∨ s.kids pid = .stopped) ∧ status ≠ .stopped then
      some (s.setLife pid (.terminated status))
    else none
  | .stops pid =>
    if pid ∈ s.pids ∧ s.kids pid = .running then some (s.setLife pid .stopped) else none
  | .continues pid =>
    if pid ∈ s.pids ∧ s.kids pid = .stopped then some (s.setLife pid .running) else none
  | .handler pid =>
    if s.masked then none
    else match s.kids pid with
      | .terminated status =>
        let s := s.reap pid status
        some { s with stale := s.stale || decide (Misses s pid) }
      | _ => none

/-- A process stops only while its job has the terminal, and a stopped process neither
continues nor terminates. -/
def Steady (s : State) : Move → Prop
  | .exits pid _ => s.kids pid ≠ .stopped
  | .stops pid => s.tty ≠ none ∧ s.pgrp pid = s.tty
  | .continues _ => False
  | .handler _ => True

instance (s : State) (m : Move) : Decidable (Steady s m) := by
  cases m <;> unfold Steady <;> infer_instance

/-- A move, a steady one if that is asked for. -/
def MoveStep (steady : Prop) (s : State) (m : Move) (t : State) : Prop :=
  (steady → Steady s m) ∧ move s m = some t

/-- Any number of moves. -/
def Moves (steady : Prop) (s t : State) : Prop := ∃ ms, Run (MoveStep steady) s ms t

/-! ### Launches -/

/-- The terminal after a call. -/
def bookTty (tty : Option ℕ) : Book → Option ℕ
  | .giveTerminalTo pgid => some pgid
  | .reclaimTerminal => none
  | _ => tty

/-- The signal mask after a call. -/
def bookMask (masked : Bool) : Book → Bool
  | .block => true
  | .restore => false
  | _ => masked

/-- The state after a bookkeeping call. -/
def State.book (s : State) (b : Book) : State :=
  { s with
    tables := bookTables s.tables b
    pgrp := bookPgrp s.pgrp b
    masked := bookMask s.masked b
    tty := bookTty s.tty b
    out := bookOut s.out b }

/-- What the calls do.  A wait may be interrupted, and it may find that the handler has
already reaped the process; the status variable then holds anything. -/
def controlCall (steady : Prop) : (c : Call sh) → State → c.Ret → State → Prop
  | .book b, s, z, t => (∀ w ∈ bookValue s.tables b, z = w) ∧ t = s.book b
  | .wait pid untraced, s, status, t =>
    (untraced = true → steady → Right (s.kids pid) status) ∧
      (t = s ∨ ∃ leftover life, waitResult untraced leftover (s.kids pid) = some (status, life) ∧
        t = s.setLife pid life)
  | _, s, _, t => t = s

/-- A fork. The first stage of a foreground command is the job that the shell waits for. -/
def controlFork (r : Role) (s : State) : Option ℕ → State → Prop
  | some pid, t => pid ∉ s.pids ∧ t = { s with
      pids := s.pids ++ [pid]
      kids := Function.update s.kids pid .running
      pgrp := Function.update s.pgrp pid none
      fgJob := if s.launching = true ∧ r = .stage 0 then some pid else s.fgJob }
  | none, t => t = s

/-- The effect of the calls; anything may happen before each of them. -/
def controlEffect (steady : Prop) : Effect sh State where
  call c s x u := ∃ t, Moves steady s t ∧ controlCall steady c t x u
  fork r s pid u := ∃ t, Moves steady s t ∧ controlFork r t pid u

/-- A command has been launched and waited for. -/
def State.settle (s : State) : State := { s with launching := false, fgJob := none }

/-! ### Numbers in arguments -/

/-- `isspace` -/
def isSpace (c : Char) : Bool := c = ' ' || ('\t' ≤ c && c ≤ '\r')

/-- The value of a string of digits. -/
def ofDigits (digits : Str) : ℤ := digits.foldl (fun n c => 10 * n + (c.toNat - 48 : ℕ)) 0

/-- `strtol(s, &end, 10)`: the value, and what is left at `end`. -/
def strtol (s : Str) : ℤ × Str :=
  let t := s.dropWhile isSpace
  let (neg, u) :=
    match t with
    | '-' :: u => (true, u)
    | '+' :: u => (false, u)
    | u => (false, u)
  let digits := u.takeWhile Char.isDigit
  if digits = [] then (0, s)
  else
    let n := if neg then -ofDigits digits else ofDigits digits
    (max (-2 ^ 63) (min (2 ^ 63 - 1) n), u.dropWhile Char.isDigit)

/-- A `long` that is converted to an `int`. -/
def toInt (n : ℤ) : ℤ := n.bmod (2 ^ 32)

/-- `parse_job_arg` -/
def parseJobArg : Str → ℤ
  | '%' :: num =>
    if num = [] then -1
    else
      let r := strtol num
      if r.2 ≠ [] ∨ r.1 ≤ 0 then -1 else toInt r.1
  | _ => -1

/-- `is_valid_nonneg_int` -/
def isValidNonnegInt (s : Str) : Bool := s ≠ [] && s.all Char.isDigit

/-! ### `resume` -/

/-- What `resume` is asked to do. -/
inductive ResumeMode
  | bg
  | fg (timeoutSecs : Option ℤ)
  deriving DecidableEq, Repr

/-- The arguments of `resume_command`; `none` if the syntax is invalid. -/
def resumeRequest : List Str → Option (ℤ × ResumeMode)
  | _ :: job :: mode :: rest =>
    let jobId := parseJobArg job
    if jobId = -1 then none
    else if mode = "fg".toList then
      match rest with
      | [] => some (jobId, .fg none)
      | [opt, secs] =>
        let r := strtol secs
        if opt ≠ "--timeout".toList ∨ r.2 ≠ [] ∨ r.1 ≤ 0 then none
        else some (jobId, .fg (some (toInt r.1)))
      | _ => none
    else if mode = "bg".toList ∧ rest = [] then some (jobId, .bg)
    else none
  | _ => none

/-- How the loop that waits for a resumed job ends. -/
inductive Outcome
  | stopped | finished | timedOut
  deriving DecidableEq, Repr

/-- The loop `while (1) { wpid = waitpid(-pgid, &status, WUNTRACED); … }`.  It goes on
when the wait is interrupted by the handler. -/
inductive Await (steady : Prop) (pgid : ℕ) (timer : Bool) : State → Outcome → State → Prop
  | moves {s t u : State} {o : Outcome} :
      Moves steady s t → Await steady pgid timer t o u → Await steady pgid timer s o u
  | reaps {s u : State} {o : Outcome} {pid : ℕ} {status : Status} :
      s.pgrp pid = some pgid → s.kids pid = .terminated status →
      Await steady pgid timer (s.setLife pid (.reaped status)) o u →
      Await steady pgid timer s o u
  | stopped {s : State} : HasStopped s pgid → Await steady pgid timer s .stopped s
  /-- `ECHILD` -/
  | finished {s : State} : ¬Alive s pgid → Await steady pgid timer s .finished s
  | timedOut {s : State} : timer = true → Await steady pgid timer s .timedOut s

/-- The loop `while (waitpid(-pgid, &status, 0) > 0);`, which any error ends. -/
inductive Drain (steady : Prop) (pgid : ℕ) : State → State → Prop
  | moves {s t u : State} :
      Moves steady s t → Drain steady pgid t u → Drain steady pgid s u
  | reaps {s u : State} {pid : ℕ} {status : Status} :
      s.pgrp pid = some pgid → s.kids pid = .terminated status →
      Drain steady pgid (s.setLife pid (.reaped status)) u → Drain steady pgid s u
  | ends {s : State} : Drain steady pgid s s

/-- What `resume fg` does after the loop.  The shell does not wait any more for a job that
has stopped. -/
def Conclude (steady : Prop) (pgid : ℕ) (cmdName : Str) : Outcome → State → State → Prop
  | .stopped, s, u => ∃ t, Moves steady { s with tty := none, fgJob := none } t ∧
      u = ({ t with tables := (Jobs.markGroupStopped t.tables pgid).2 } : State).print
        (stoppedMessage (Jobs.markGroupStopped t.tables pgid).1 cmdName)
  | .finished, s, u => ∃ t, Moves steady { s with tty := none } t ∧
      u = { t with tables := Jobs.groupRemove t.tables pgid, fgJob := none }
  | .timedOut, s, u => ∃ t, Drain steady pgid ((s.killGroup pgid 15).killGroup pgid 18) t ∧
      u = ({ t with
        tables := Jobs.groupRemove t.tables pgid
        tty := none
        fgJob := none } : State).print "resume: job timed out\n".toList

/-- The message for a job that goes on in the background. -/
def runningMessage (jobId : ℤ) (cmdName : Str) : Str :=
  '[' :: (toString jobId).toList ++ "] + Running\t".toList ++ cmdName ++ ['\n']

/-- `resume_command` for a job that was found. -/
def Resumes (steady : Prop) (jobId : ℤ) (pgid : ℕ) (cmdName : Str) (mode : ResumeMode)
    (s u : State) : Prop :=
  ∃ s₁ s₂, Moves steady s s₁ ∧ Moves steady (s₁.killGroup pgid 18) s₂ ∧
    let s₃ := { s₂ with tables := Jobs.markGroupRunning s₂.tables pgid }
    match mode with
    | .bg => u = s₃.print (runningMessage jobId cmdName)
    | .fg timeoutSecs => ∃ o s₄,
        Await steady pgid (timeoutSecs.any (· ≠ 0))
          { s₃.print (cmdName ++ ['\n']) with tty := some pgid, fgJob := some pgid } o s₄ ∧
        Conclude steady pgid cmdName o s₄ u

/-- `resume_command` -/
def Resume (steady : Prop) (args : List Str) (s u : State) : Prop :=
  match resumeRequest args with
  | none => u = s.print "resume: invalid syntax\n".toList
  | some (jobId, mode) =>
    match Jobs.groupLookup s.tables jobId 64 with
    | none => u = s.print "resume: no such job\n".toList
    | some (pgid, _, cmdName) => Resumes steady jobId pgid cmdName mode s u

/-! ### `ping` -/

/-- What `ping` is sent to. -/
inductive Target
  | job (jobId : ℤ)
  | proc (pid : ℤ)
  deriving DecidableEq, Repr

/-- The arguments of `ping_command`; `none` if the syntax is invalid. -/
def pingRequest : List Str → Option (Target × ℕ)
  | [_, target, sigStr] =>
    if isValidNonnegInt sigStr then
      let sig := ((strtol sigStr).1 % 64).toNat
      match target with
      | '%' :: num =>
        if isValidNonnegInt num then some (.job (toInt (strtol num).1), sig) else none
      | num => if isValidNonnegInt num then some (.proc (toInt (strtol num).1), sig) else none
    else none
  | _ => none

/-- The message for a signal that was sent. -/
def sentMessage (args : List Str) : Str :=
  "Sent signal ".toList ++ args.getD 2 [] ++ " to ".toList ++ args.getD 1 [] ++ ['\n']

/-- The processes that the target stands for; `none` if it is not tracked. -/
def findTarget (s : State) : Target → Option (ℕ → Bool)
  | .job jobId => (Jobs.groupLookup s.tables jobId 64).map fun r p => s.pgrp p = some r.1
  | .proc pid =>
    if 0 ≤ pid ∧ Jobs.pidIsTracked s.tables pid.toNat then some fun p => p = pid.toNat else none

/-- `kill` finds a process: one that has not been reaped. -/
def Reaches (s : State) (meant : ℕ → Bool) : Prop :=
  ∃ p ∈ s.pids, meant p = true ∧ unreaped (s.kids p) = true

instance (s : State) (meant : ℕ → Bool) : Decidable (Reaches s meant) := by
  unfold Reaches
  infer_instance

/-- The signal stops nobody, and neither continues nor kills a process that is stopped. -/
def Harmless (s : State) (meant : ℕ → Bool) (sig : ℕ) : Prop :=
  ∀ p ∈ s.pids, meant p = true → (signalled sig (s.kids p) = .stopped ↔ s.kids p = .stopped)

instance (s : State) (meant : ℕ → Bool) (sig : ℕ) : Decidable (Harmless s meant sig) := by
  unfold Harmless
  infer_instance

/-- `ping_command` -/
def Ping (steady : Prop) (args : List Str) (s u : State) : Prop :=
  match pingRequest args with
  | none => u = s.print "ping: invalid syntax\n".toList
  | some (target, sig) =>
    match findTarget s target with
    | none => u = s.print "ping: no such process found\n".toList
    | some meant => ∃ t, Moves steady s t ∧ (steady → Harmless t meant sig) ∧
        u = if Reaches t meant then (t.kill meant sig).print (sentMessage args)
          else t.print "ping: no such process found\n".toList

/-! ### `activities` -/

/-- The state letter in `/proc`. -/
def procState : Life → Option Char
  | .running => some 'R'
  | .stopped => some 'T'
  | .terminated _ => some 'Z'
  | .absent | .reaped _ => none

/-- `activities`; the signal is blocked meanwhile. -/
def State.activities (s : State) : State :=
  let r := Jobs.activitiesPrint (fun p => procState (s.kids p)) s.tables
  { s with tables := r.2, stale := false, out := s.out ++ [r.1] }

/-! ### Sessions -/

/-- What happens at the prompt. -/
inductive Event
  | move (m : Move)
  | foreground (env : Env) (stages : List CommandStage)
  | background (env : Env) (stages : List CommandStage)
  | resume (args : List Str)
  | ping (args : List Str)
  | activities

/-- A session, event by event. -/
inductive ControlStep (steady : Prop) : State → Event → State → Prop
  | move {s t : State} {m : Move} : MoveStep steady s m t → ControlStep steady s (.move m) t
  | foreground {s t : State} {env : Env} {stages : List CommandStage} {z : ℤ} :
      Exec (controlEffect steady) (executePipeline env stages) { s with launching := true } z t →
      ControlStep steady s (.foreground env stages) t.settle
  | background {s t : State} {env : Env} {stages : List CommandStage} {z : ℤ} :
      Exec (controlEffect steady) (executeBackground env stages) s z t →
      ControlStep steady s (.background env stages) t
  | resume {s t : State} {args : List Str} :
      Resume steady args s t → ControlStep steady s (.resume args) t
  | ping {s t : State} {args : List Str} :
      Ping steady args s t → ControlStep steady s (.ping args) t
  | activities {s : State} : ControlStep steady s .activities s.activities

end Control
end RuShell
