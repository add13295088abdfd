import RuShell.Jobs
import RuShell.Lib.Run

/-!
# End of input

When `fgets` returns `NULL`, the loop of `main` looks at `errno` to tell an interrupted
read from the end of the input.  But `fgets` sets `errno` only when a read fails: at end of
file it holds what the calls before it have left there.  Each turn prints the prompt first.
`getpwuid` sets `errno` to 0 on some systems and leaves it alone on others; then the
messages and the prompt are written, and a `Ctrl-C` while the output is blocked interrupts
that.  With `EINTR` left over the loop takes the end of the input for an interrupted read:
it clears the stream and prints the next prompt.

## Main definitions

* `Prompt` — `errno`, `prev_ctrld` and the job tables, each time around the loop.
* `Action` — what a call or a command can do to them.
* `Printing`, `Input`, `promptStep` — one turn of the loop: the prompt, and what `fgets`
  meets.
* `eofSinceLine` — an end of input has been met since the last line.

## Main results

* `end_of_input` — if `errno` is not `EINTR` when the end of the input is met, the shell
  hangs up its jobs and exits, or warns once about stopped jobs.
* `prompts_forever` — if the prompt is interrupted each time, it never ends.
-/

namespace RuShell
namespace Jobs

open Lib.Posix (Status)

/-! ### The loop of `main` -/

/-- `errno`: only one value matters to `main`. -/
inductive Errno
  | eintr
  | other (n : ℕ)
  deriving DecidableEq, Repr

/-- What `main` prints around the end of a session. -/
inductive Notice
  /-- `cshell: there are stopped jobs` -/
  | stoppedJobs
  /-- The line break at the end of the input. -/
  | newline
  /-- `Bye bye ...` -/
  | bye
  deriving DecidableEq, Repr

/-- The state at the prompt. -/
structure Prompt where
  errno : Errno := .other 0
  prevCtrld : Bool := false
  tables : JobTables := {}
  /-- The process groups that were sent `SIGHUP`. -/
  hungUp : List ℕ := []
  out : List Notice := []
  /-- `main` has returned. -/
  ended : Bool := false
  deriving DecidableEq, Repr

/-- What can happen to `errno` and the tables: a call fails, the handler runs, which
restores `errno`, or a function of `jobs.c` is called. -/
inductive Action
  | fails (e : Errno)
  | handler (reaped : List (ℕ × Status))
  | jobAdd (pid : ℕ) (cmdName : Str)
  | jobAddMemberBg (jobId : ℤ) (pid : ℕ)
  | groupAdd (pgid : ℕ) (cmdName : Str)
  | groupAddMember (pgid pid : ℕ) (cmdName : Str)
  | groupRemove (pgid : ℕ)
  | markGroupStopped (pgid : ℕ)
  | markGroupRunning (pgid : ℕ)
  | activities (state : ℕ → Option Char)

/-- An action.  A call that succeeds leaves `errno` as it is. -/
def Prompt.act (p : Prompt) : Action → Prompt
  | .fails e => { p with errno := e }
  | .handler reaped => { p with tables := sigchldHandler p.tables reaped }
  | .jobAdd pid cmdName => { p with tables := (Jobs.jobAdd p.tables pid cmdName).2 }
  | .jobAddMemberBg jobId pid => { p with tables := Jobs.jobAddMemberBg p.tables jobId pid }
  | .groupAdd pgid cmdName => { p with tables := Jobs.groupAdd p.tables pgid cmdName }
  | .groupAddMember pgid pid cmdName =>
    { p with tables := Jobs.groupAddMember p.tables pgid pid cmdName }
  | .groupRemove pgid => { p with tables := Jobs.groupRemove p.tables pgid }
  | .markGroupStopped pgid => { p with tables := (Jobs.markGroupStopped p.tables pgid).2 }
  | .markGroupRunning pgid => { p with tables := Jobs.markGroupRunning p.tables pgid }
  | .activities state => { p with tables := (activitiesPrint state p.tables).2 }

/-- `hangup_all_jobs`, a last notice, and the end of `main`. -/
def Prompt.finish (p : Prompt) (notice : Notice) : Prompt :=
  { p with
    hungUp := p.hungUp ++ hangupAllJobs p.tables
    out := p.out ++ [notice]
    ended := true }

/-- The branch for `fgets(...) == NULL`. -/
def Prompt.atNull (p : Prompt) : Prompt :=
  if p.errno = .eintr then p
  else if hasStoppedJobs p.tables && !p.prevCtrld then
    { p with out := p.out ++ [.stoppedJobs], prevCtrld := true }
  else p.finish .newline

/-- A line that was read, and what running it does. -/
def Prompt.atLine (p : Prompt) (line : Str) (actions : List Action) : Prompt :=
  let p := { p with prevCtrld := false }
  if line = "exit()".toList then p.finish .bye else actions.foldl Prompt.act p

/-- What happens from the beginning of a turn to its call of `fgets`. -/
structure Printing where
  /-- `getpwuid`, in `prompt_printer`, sets `errno` to 0. -/
  clears : Bool
  /-- What the calls after it do: `getcwd`, `gethostname`, and the writes of
  `flush_pending_bg_messages`, `printf` and `fflush`. -/
  later : List Action

/-- `prompt_printer` and the writes of the prompt. -/
def Prompt.print (p : Prompt) (x : Printing) : Prompt :=
  x.later.foldl Prompt.act (if x.clears then p.act (.fails (.other 0)) else p)

/-- What `fgets` meets. -/
inductive Input
  | line (text : Str) (actions : List Action)
  /-- A handler interrupts the read: that of `SIGINT`, or that of `SIGCHLD` with the
  children it reaps. -/
  | interrupt (reaped : List (ℕ × Status))
  /-- End of file. -/
  | eof

/-- What `main` does then. -/
def Prompt.atInput (p : Prompt) : Input → Prompt
  | .line text actions => p.atLine text actions
  | .interrupt reaped => ((p.act (.handler reaped)).act (.fails .eintr)).atNull
  | .eof => p.atNull

/-- One turn of the loop. -/
def promptStep (p : Prompt) (turn : Printing × Input) : Option Prompt :=
  if p.ended then none else some ((p.print turn.1).atInput turn.2)

/-- At the end of the input the last call that failed was not interrupted. -/
def Settled (p : Prompt) (turn : Printing × Input) : Prop :=
  turn.2 matches .eof → (p.print turn.1).errno ≠ .eintr

instance (p : Prompt) (turn : Printing × Input) : Decidable (Settled p turn) :=
  inferInstanceAs (Decidable (_ → _))

/-- A session in which this is so at every end of input. -/
def SettledRun : Prompt → List (Printing × Input) → Prompt → Prop :=
  Lib.Run fun p turn q => Settled p turn ∧ promptStep p turn = some q

/-- Whether an end of input has been met since the last line. -/
def eofSinceLine (seen : Bool) (turn : Printing × Input) : Bool :=
  match turn.2 with
  | .line _ _ => false
  | .eof => true
  | .interrupt _ => seen

/-! ### The flag -/

variable {p q : Prompt}

@[simp] theorem act_prevCtrld (p : Prompt) (a : Action) : (p.act a).prevCtrld = p.prevCtrld := by
  cases a <;> rfl

@[simp] theorem act_ended (p : Prompt) (a : Action) : (p.act a).ended = p.ended := by
  cases a <;> rfl

theorem foldl_act (p : Prompt) (actions : List Action) :
    (actions.foldl Prompt.act p).prevCtrld = p.prevCtrld ∧
      (actions.foldl Prompt.act p).ended = p.ended := by
  induction actions generalizing p with
  | nil => exact ⟨rfl, rfl⟩
  | cons a actions ih =>
    obtain ⟨hflag, hended⟩ := ih (p.act a)
    exact ⟨hflag.trans (act_prevCtrld p a), hended.trans (act_ended p a)⟩

theorem print_frame (p : Prompt) (x : Printing) :
    (p.print x).prevCtrld = p.prevCtrld ∧ (p.print x).ended = p.ended := by
  unfold Prompt.print
  split <;> exact foldl_act _ _

/-- The three outcomes of `fgets(...) == NULL`. -/
theorem atNull_cases (p : Prompt) :
    (p.errno = .eintr ∧ p.atNull = p) ∨
    (p.errno ≠ .eintr ∧ hasStoppedJobs p.tables = true ∧ p.prevCtrld = false ∧
      p.atNull = { p with out := p.out ++ [.stoppedJobs], prevCtrld := true }) ∨
    (p.errno ≠ .eintr ∧ (hasStoppedJobs p.tables = false ∨ p.prevCtrld = true) ∧
      p.atNull = p.finish .newline) := by
  unfold Prompt.atNull
  split
  · rename_i he
    exact .inl ⟨he, rfl⟩
  · rename_i he
    split
    · rename_i hwarn
      simp only [Bool.and_eq_true, Bool.not_eq_true'] at hwarn
      exact .inr (.inl ⟨he, hwarn.1, hwarn.2, rfl⟩)
    · rename_i hend
      simp only [Bool.and_eq_true, Bool.not_eq_true', not_and, Bool.not_eq_false] at hend
      refine .inr (.inr ⟨he, ?_, rfl⟩)
      cases hstopped : hasStoppedJobs p.tables with
      | false => exact .inl rfl
      | true => exact .inr (hend hstopped)

/-- An interrupted read leaves the flag and goes on. -/
theorem interrupt_frame (p : Prompt) (reaped : List (ℕ × Status)) :
    ((p.act (.handler reaped)).act (.fails .eintr)).atNull =
      (p.act (.handler reaped)).act (.fails .eintr) := if_pos rfl

/-- `prev_ctrld` says whether an end of input has been met since the last line. -/
def FlagOk (p : Prompt) (seen : Bool) : Prop := p.ended = true ∨ p.prevCtrld = seen

theorem FlagOk.step {seen : Bool} {turn : Printing × Input} (h : FlagOk p seen)
    (hturn : Settled p turn) (hstep : promptStep p turn = some q) :
    FlagOk q (eofSinceLine seen turn) := by
  unfold promptStep at hstep
  split at hstep
  · cases hstep
  · rename_i hrunning
    obtain ⟨x, i⟩ := turn
    have hflag := (print_frame p x).1.trans (h.resolve_left hrunning)
    cases hstep
    cases i with
    | line text actions =>
      simp only [Prompt.atInput, Prompt.atLine]
      split
      · exact .inl rfl
      · exact .inr (foldl_act _ _).1
    | interrupt reaped =>
      rw [Prompt.atInput, interrupt_frame]
      exact .inr hflag
    | eof =>
      rcases atNull_cases (p.print x) with ⟨he, -⟩ | ⟨-, -, -, hwarn⟩ | ⟨-, -, hend⟩
      · exact absurd he (hturn rfl)
      · rw [Prompt.atInput, hwarn]
        exact .inr rfl
      · rw [Prompt.atInput, hend]
        exact .inl rfl

variable {turns : List (Printing × Input)}

theorem flagOk_of_run (h : SettledRun {} turns p) :
    FlagOk p (turns.foldl eofSinceLine false) :=
  Lib.Run.history (fun _ _ _ _ hI hstep => hI.step hstep.1 hstep.2) h (.inr rfl)

/-! ### The end of the input -/

/-- No line is read. -/
def NoLine (turns : List (Printing × Input)) : Prop :=
  ∀ x text actions, (x, Input.line text actions) ∉ turns

/-- Nothing happens after the end. -/
theorem eq_of_ended (h : SettledRun p turns q) (hp : p.ended = true) : q = p := by
  cases h with
  | nil _ => rfl
  | cons hnext _ =>
    have hstep := hnext.2
    rw [promptStep, if_pos hp] at hstep
    cases hstep

/-- Once the shell has warned, the next end of input that is not preceded by a line ends
the session. -/
theorem ended_of_second_eof (h : SettledRun p turns q) (hflag : p.prevCtrld = true)
    (hline : NoLine turns) (heof : ∃ x, (x, Input.eof) ∈ turns) :
    q.ended = true := by
  induction h with
  | nil _ =>
    obtain ⟨x, hx⟩ := heof
    cases hx
  | @cons p m q turn turns hstep hrest ih =>
    obtain ⟨hturn, hstep⟩ := hstep
    obtain ⟨x, i⟩ := turn
    have hline' : NoLine turns := fun x text actions hmem =>
      hline x text actions (List.mem_cons_of_mem _ hmem)
    have hflag' := (print_frame p x).1.trans hflag
    unfold promptStep at hstep
    split at hstep
    · cases hstep
    · cases hstep
      cases i with
      | line text actions => exact absurd List.mem_cons_self (hline x text actions)
      | interrupt reaped =>
        rw [Prompt.atInput, interrupt_frame] at ih
        obtain ⟨y, hy⟩ := heof
        exact ih hflag' hline' ⟨y, by simpa using hy⟩
      | eof =>
        rcases atNull_cases (p.print x) with ⟨he, -⟩ | ⟨-, -, hnot, -⟩ | ⟨-, -, hend⟩
        · exact absurd he (hturn rfl)
        · rw [hflag'] at hnot
          cases hnot
        · rw [Prompt.atInput, hend] at hrest
          rw [eq_of_ended hrest rfl]
          rfl

/-- In a session in which `errno` is never `EINTR` when the end of the input is met: with
no stopped job, or if an end of input has been met since the last line, the shell hangs up
its jobs and exits; with a stopped job it warns and goes on the first time; and there is no
third time, whatever else happens, unless a line is read. -/
theorem end_of_input {p q : Prompt} {x : Printing} (hrun : SettledRun {} turns p)
    (heof : (p.print x).errno ≠ .eintr) (hstep : promptStep p (x, .eof) = some q) :
    (hasStoppedJobs (p.print x).tables = false ∨ turns.foldl eofSinceLine false = true →
      q.ended = true ∧ q.hungUp = (p.print x).hungUp ++ hangupAllJobs (p.print x).tables) ∧
    (hasStoppedJobs (p.print x).tables = true → turns.foldl eofSinceLine false = false →
      q.ended = false ∧ q.out = (p.print x).out ++ [.stoppedJobs]) ∧
    ∀ turns' r, SettledRun q turns' r → NoLine turns' → (∃ y, (y, Input.eof) ∈ turns') →
      r.ended = true := by
  have hflag := flagOk_of_run hrun
  unfold promptStep at hstep
  split at hstep
  · cases hstep
  rename_i hrunning
  rw [← hflag.resolve_left hrunning, ← (print_frame p x).1]
  rw [← (print_frame p x).2] at hrunning
  cases hstep
  generalize p.print x = p at heof hrunning ⊢
  simp only [Prompt.atInput]
  rcases atNull_cases p with ⟨he, -⟩ | ⟨-, hstopped, hfirst, hwarn⟩ | ⟨-, hwhy, hend⟩
  · exact absurd he heof
  · rw [hwarn]
    refine ⟨fun h => ?_, fun _ _ => ⟨by simpa using hrunning, rfl⟩,
      fun turns' r hrun' hline hmem => ?_⟩
    · simp [hstopped, hfirst] at h
    · exact ended_of_second_eof hrun' rfl hline hmem
  · rw [hend]
    refine ⟨fun _ => ⟨rfl, rfl⟩, fun hstopped hfirst => ?_, fun turns' r hrun' _ _ => ?_⟩
    · simp [hstopped, hfirst] at hwhy
    · rw [eq_of_ended hrun' rfl]
      rfl

/-- A job is stopped, and a read is interrupted; then the input ends. -/
def stoppedSession : List (Printing × Input) :=
  [(⟨true, []⟩, .line "cat".toList [.groupAdd 100 "cat".toList,
    .groupAddMember 100 100 "cat".toList, .markGroupStopped 100]),
    (⟨true, []⟩, .interrupt []), (⟨false, [.fails (.other 2)]⟩, .eof)]

/-- The shell has warned, and exits at the second end of input. -/
theorem end_of_input_twice : ∃ p q, SettledRun {} stoppedSession p ∧
    p.out = [.stoppedJobs] ∧ promptStep p (⟨false, []⟩, .eof) = some q ∧ q.ended = true ∧
    q.hungUp = [100] := by
  have h : (stoppedSession.foldlM (fun p i => if Settled p i then promptStep p i else none)
      ({} : Prompt)).any (fun p => decide (p.out = [.stoppedJobs] ∧ p.errno ≠ .eintr ∧
        p.hungUp = [] ∧ hangupAllJobs p.tables = [100] ∧
        (promptStep p (⟨false, []⟩, .eof)).isSome = true)) = true := by
    decide +kernel
  obtain ⟨p, hfold, hp⟩ := (Option.any_eq_true _ _).mp h
  obtain ⟨hout, herrno, hnone, hjobs, hsome⟩ := of_decide_eq_true hp
  obtain ⟨q, hstep⟩ := Option.isSome_iff_exists.mp hsome
  have hrun : SettledRun {} stoppedSession p := Lib.run_of_foldlM hfold
  have hend := end_of_input (x := ⟨false, []⟩) hrun herrno hstep
  obtain ⟨hended, hhungUp⟩ := hend.1 (.inr (by decide))
  exact ⟨p, q, hrun, hout, hstep, hended, hhungUp.trans (congrArg₂ _ hnone hjobs)⟩

/-- **The end of the input is taken for an interrupted read**, although there is no job at
all, when the write of the prompt has been interrupted, even if `getpwuid` sets `errno` to 0
each time; and, if it does not, when there was a `Ctrl-C` at an earlier prompt.  The shell
is in the same state as before, so this goes on as long as the prompt is interrupted, or
forever. -/
theorem prompts_forever : ∃ p,
    promptStep {} (⟨true, [.fails .eintr]⟩, .eof) = some p ∧
    promptStep p (⟨true, [.fails .eintr]⟩, .eof) = some p ∧
    promptStep {} (⟨false, []⟩, .interrupt []) = some p ∧
    promptStep p (⟨false, []⟩, .eof) = some p ∧
    p.ended = false ∧ p.out = [] ∧ hasStoppedJobs p.tables = false :=
  ⟨{ errno := .eintr }, rfl, rfl, rfl, rfl, rfl, rfl, rfl⟩

end Jobs
end RuShell
