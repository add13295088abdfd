import RuShell.Segment
import RuShell.Lib.Posix

/-!
# Launching commands

The functions of `c-shell/src/redirect.c` that create pipes, helper processes and
stage processes, as programs over system calls.  The arrays of the source that
are indexed by the stage are lists here, and `-1` for a descriptor or a process
that does not exist is `none`.

Input files are read by a *writer* process that feeds their contents into a pipe
whose other end becomes the standard input of the command; output goes through a
*reader* process that copies it into the output files.  A job started in the
background is held at a *gate*: the stage processes read from `sync_pipe` until
the shell has registered the job and closed its write end.

The commands a name resolves to and the sizes of the input files are parameters.

## Main definitions

* `sh` — the pipes, files, roles and bookkeeping actions of the shell.
* `setupInputRedirection`, `setupOutputRedirection` — the helper processes.
* `executeWithRedirection`, `executePipeline` — foreground.
* `executeWithRedirectionBg`, `executeBackground` — background.
-/

namespace RuShell
namespace Redirect

open Lib.Posix
open RuShell.Segment

/-! ### Names -/

/-- What the pipes are for. -/
inductive PipeTag
  /-- From stage `k` to stage `k + 1`. -/
  | link (k : ℕ)
  /-- From the writer of stage `i`. -/
  | input (i : ℕ)
  /-- To the reader of stage `i`. -/
  | output (i : ℕ)
  /-- `sync_pipe` -/
  | gate
  deriving DecidableEq, Repr

/-- Files and programs. -/
inductive FileName
  /-- A descriptor the shell was started with. -/
  | std (n : ℕ)
  | input (path : Str)
  | output (path : Str) (append : Bool)
  | program (path : Str) (args : List Str)
  deriving DecidableEq, Repr

/-- What a process is for. -/
inductive Role
  | shell
  | stage (i : ℕ)
  | writer (i : ℕ)
  | reader (i : ℕ)
  deriving DecidableEq, Repr

/-- The calls that do not concern descriptors: signal mask, process groups, the
job tables, the terminal and messages. -/
inductive Book
  /-- `sigprocmask(SIG_BLOCK, {SIGCHLD}, &prev)` -/
  | block
  /-- `sigprocmask(SIG_SETMASK, &prev, NULL)` -/
  | restore
  /-- `setpgid`; a negative result stands for an error that is reported. -/
  | setpgid (pid : ℕ) (pgid : Option ℕ)
  | groupAdd (pgid : ℕ) (name : Str)
  | groupAddMember (pgid pid : ℕ) (name : Str)
  | jobAdd (pid : ℕ) (name : Str)
  | jobAddMemberBg (jobId : ℤ) (pid : ℕ)
  | giveTerminalTo (pgid : ℕ)
  | reclaimTerminal
  | markGroupStopped (pgid : ℕ)
  | groupRemove (pgid : ℕ)
  | printf (text : Str)
  | perror (text : Str)
  deriving DecidableEq, Repr

/-- The names the shell uses. -/
abbrev sh : Iface where
  Tag := PipeTag
  Name := FileName
  Role := Role
  Book := Book

instance : DecidableEq sh.Tag := inferInstanceAs (DecidableEq PipeTag)

instance : DecidableEq sh.Name := inferInstanceAs (DecidableEq FileName)

instance : DecidableEq sh.Role := inferInstanceAs (DecidableEq Role)

/-- What the programs depend on. -/
structure Env where
  /-- `resolve_command` -/
  resolve : Str → Option Str
  /-- The size of an input file. -/
  size : Str → ℕ

/-- Every command resolves to itself and every file is empty. -/
def plainEnv : Env where
  resolve := some
  size _ := 0

/-! ### Small pieces -/

/-- `if (fd != -1) close(fd);` -/
def closeOpt : Option ℕ → Prog sh Unit
  | none => pure ()
  | some fd => close fd

/-- `if (pid > 0) waitpid(pid, NULL, 0);` -/
def waitOpt : Option ℕ → Prog sh Unit
  | none => pure ()
  | some pid => do
    let _ ← wait pid false
    pure ()

/-- `dup2(fd, dst)` for a descriptor that exists. -/
def dupOpt (fd : Option ℕ) (dst : ℕ) : Prog sh Unit :=
  match fd with
  | none => pure ()
  | some fd => dup2 fd dst

/-- `printf` -/
def printf (text : Str) : Prog sh Unit := do
  let _ ← book (.printf text)
  pure ()

/-- `perror` -/
def perror (text : String) : Prog sh Unit := do
  let _ ← book (.perror text.toList)
  pure ()

/-- A bookkeeping call whose result is not used. -/
def note (b : Book) : Prog sh Unit := do
  let _ ← book b
  pure ()

/-- `if (setpgid(pid, pgid) < 0 && …) perror("setpgid");` -/
def setpgid (pid : ℕ) (pgid : Option ℕ) : Prog sh Unit := do
  let rc ← book (.setpgid pid pgid)
  if rc < 0 then perror "setpgid" else pure ()

/-- The pid of a `fork` that has succeeded. -/
def pidOf : Forked → Option ℕ
  | .parent pid => some pid
  | _ => none

/-- Both ends of every pipe, in the order they are closed. -/
def pipeEnds (pipefds : List (ℕ × ℕ)) : List ℕ := pipefds.flatMap fun p => [p.1, p.2]

/-- `close_all_pipes` -/
def closeAllPipes (pipefds : List (ℕ × ℕ)) : Prog sh Unit := closeFds (pipeEnds pipefds)

/-- `strncat(out, s, outsize - strlen(out) - 1)` -/
def strncat (outsize : ℕ) (out s : Str) : Str := out ++ s.take (outsize - out.length - 1)

/-- `join_args` -/
def joinArgs (args : List Str) (outsize : ℕ) : Str :=
  match args with
  | [] => []
  | arg :: args =>
    args.foldl (fun out a => strncat outsize (strncat outsize out [' ']) a) (strncat outsize [] arg)

/-- `join_pipeline` -/
def joinPipeline (stages : List CommandStage) (outsize : ℕ) : Str :=
  match stages with
  | [] => []
  | st :: stages =>
    stages.foldl
      (fun out st => strncat outsize (strncat outsize out " | ".toList) (joinArgs st.args 256))
      (strncat outsize [] (joinArgs st.args 256))

/-- `args[0]` -/
def commandName (st : CommandStage) : Str := st.args.headD []

/-- `if (args[0][0] == '%') args[0]++;` -/
def skipPercent : Str → Str
  | '%' :: s => s
  | s => s

/-- The argument vector given to `execv`. -/
def execArgs (args : List Str) : List Str :=
  match args with
  | [] => []
  | arg :: args => skipPercent arg :: args

/-- The message for a command that does not resolve. -/
def notFound (st : CommandStage) : Str :=
  "cshell: command not found (".toList ++ skipPercent (commandName st) ++ ")\n".toList

/-- `execv` and what follows if it fails. -/
def execStage {α : Type} (path : Str) (st : CommandStage) : Prog sh α := do
  exec (.program path (execArgs st.args))
  perror "execv"
  exit 127

/-! ### The helper processes -/

/-- Open files in order; on failure, the descriptors opened so far. -/
def openEach : List FileName → List ℕ → Prog sh (Except (List ℕ) (List ℕ))
  | [], fds => pure (.ok fds)
  | file :: files, fds => do
    match ← openFile file with
    | none => pure (.error fds)
    | some fd => openEach files (fds ++ [fd])

/-- The loop that opens the input files. -/
def openInputs (inputFiles : List Str) : Prog sh (Except (List ℕ) (List ℕ)) :=
  openEach (inputFiles.map .input) []

/-- The copy loop of the writer. -/
def feedFiles (env : Env) (out : ℕ) : List (ℕ × Str) → Prog sh Unit
  | [] => pure ()
  | (fd, file) :: files => do
    feed out (env.size file)
    close fd
    feedFiles env out files

/-- The child of `setup_input_redirection`. -/
def writerChild {α : Type} (env : Env) (pipefds : List (ℕ × ℕ)) (pipefd : ℕ × ℕ)
    (files : List (ℕ × Str)) : Prog sh α := do
  close pipefd.1
  closeAllPipes pipefds
  feedFiles env pipefd.2 files
  close pipefd.2
  exit 0

/-- Fork a helper that runs `child`; the shell closes the files and one end of the pipe, and
keeps the other one. -/
def forkHelper (r : Role) (child : Prog sh (Option (ℕ × Option ℕ))) (fds : List ℕ)
    (keep drop : ℕ) : Prog sh (Option (ℕ × Option ℕ)) := do
  match ← fork r with
  | .child => child
  | forked =>
    closeFds fds
    close drop
    pure (some (keep, pidOf forked))

/-- `setup_input_redirection` for stage `i`: the read end of the pipe and the pid
of the writer. -/
def setupInputRedirection (env : Env) (i : ℕ) (inputFiles : List Str)
    (pipefds : List (ℕ × ℕ)) : Prog sh (Option (ℕ × Option ℕ)) := do
  match ← pipe (.input i) with
  | none =>
    perror "pipe"
    pure none
  | some pipefd =>
    match ← openInputs inputFiles with
    | .error fds =>
      printf "cshell: no such file or directory\n".toList
      closeFds fds
      close pipefd.1
      close pipefd.2
      pure none
    | .ok fds =>
      forkHelper (.writer i) (writerChild env pipefds pipefd (fds.zip inputFiles)) fds
        pipefd.1 pipefd.2

/-- The loop of `open_output_files`. -/
def openOutputs (outputFiles : List (Str × Bool)) : Prog sh (Except (List ℕ) (List ℕ)) :=
  openEach (outputFiles.map fun file => .output file.1 file.2) []

/-- `open_output_files` -/
def openOutputFiles (outputFiles : List (Str × Bool)) : Prog sh (Option (List ℕ)) := do
  match ← openOutputs outputFiles with
  | .error fds =>
    printf "cshell: unable to create file for writing\n".toList
    closeFds fds
    pure none
  | .ok fds => pure (some fds)

/-- The child of `setup_output_redirection`. -/
def readerChild {α : Type} (pipefds : List (ℕ × ℕ)) (pipefd : ℕ × ℕ) (outFds : List ℕ) :
    Prog sh α := do
  close pipefd.2
  closeAllPipes pipefds
  drain pipefd.1
  close pipefd.1
  closeFds outFds
  exit 0

/-- `setup_output_redirection` for stage `i`: the write end of the pipe and the
pid of the reader. -/
def setupOutputRedirection (i : ℕ) (outputFiles : List (Str × Bool))
    (pipefds : List (ℕ × ℕ)) : Prog sh (Option (ℕ × Option ℕ)) := do
  match ← openOutputFiles outputFiles with
  | none => pure none
  | some outFds =>
    match ← pipe (.output i) with
    | none =>
      perror "pipe"
      closeFds outFds
      pure none
    | some pipefd =>
      forkHelper (.reader i) (readerChild pipefds pipefd outFds) outFds pipefd.2 pipefd.1

/-- `in_fd`, `out_fd`, `writer_pid` and `reader_pid` of a stage. -/
structure StageIo where
  inFd : Option ℕ := none
  outFd : Option ℕ := none
  writer : Option ℕ := none
  reader : Option ℕ := none
  deriving DecidableEq, Repr

/-- The input half of a stage: nothing to do without input files. -/
def setupIn (env : Env) (i : ℕ) (st : CommandStage) (pipefds : List (ℕ × ℕ)) :
    Prog sh (Option (Option ℕ × Option ℕ)) :=
  if st.inputFiles = [] then pure (some (none, none))
  else do
    match ← setupInputRedirection env i st.inputFiles pipefds with
    | none => pure none
    | some (fd, pid) => pure (some (some fd, pid))

/-- The output half of a stage. -/
def setupOut (i : ℕ) (st : CommandStage) (pipefds : List (ℕ × ℕ)) :
    Prog sh (Option (Option ℕ × Option ℕ)) :=
  if st.outputFiles = [] then pure (some (none, none))
  else do
    match ← setupOutputRedirection i st.outputFiles pipefds with
    | none => pure none
    | some (fd, pid) => pure (some (some fd, pid))

/-- The output half, after an input half that has left `inFd` and `writer`. -/
def setupStageOut (i : ℕ) (st : CommandStage) (pipefds : List (ℕ × ℕ))
    (inFd writer : Option ℕ) : Prog sh (StageIo × Bool) := do
  match ← setupOut i st pipefds with
  | none => pure ({ inFd := inFd, writer := writer }, false)
  | some (outFd, reader) => pure (⟨inFd, outFd, writer, reader⟩, true)

/-- Both halves; `false` if one of them fails. -/
def setupStage (env : Env) (i : ℕ) (st : CommandStage) (pipefds : List (ℕ × ℕ)) :
    Prog sh (StageIo × Bool) := do
  match ← setupIn env i st pipefds with
  | none => pure ({}, false)
  | some (inFd, writer) => setupStageOut i st pipefds inFd writer

/-- Close what a stage has open and wait for its helpers. -/
def undoStage (io : StageIo) : Prog sh Unit := do
  closeOpt io.inFd
  closeOpt io.outFd
  waitOpt io.writer
  waitOpt io.reader

/-- Put a helper, if there is one, into the group `pgid`. -/
def addHelper (pgid : ℕ) (pid : Option ℕ) (name : Str) : Prog sh Unit :=
  match pid with
  | none => pure ()
  | some pid => do
    setpgid pid (some pgid)
    note (.groupAddMember pgid pid name)

/-- Put the helpers of a stage into the group `pgid`. -/
def addHelpers (pgid : ℕ) (io : StageIo) : Prog sh Unit := do
  addHelper pgid io.writer "<redirect_in>".toList
  addHelper pgid io.reader "<redirect_out>".toList

/-! ### One command -/

/-- The message for a job that has been stopped. -/
def stoppedMessage (jid : ℤ) (cmdline : Str) : Str :=
  '[' :: (toString jid).toList ++ "] + Stopped\t".toList ++ cmdline ++ ['\n']

/-- The end of a launch in the foreground: a job that has stopped is marked and reported, any
other one is removed. -/
def finishJob (pgid : ℕ) (status : Status) (cmdline : Str) : Prog sh ℤ :=
  if status = .stopped then do
    let jid ← book (.markGroupStopped pgid)
    printf (stoppedMessage jid cmdline)
    pure 0
  else do
    note (.groupRemove pgid)
    pure 0

/-- The first half of a single command, the same in the foreground and in the background:
set up its redirections, block the signal, and go on with `launch` unless something fails. -/
def prepareCommand {α : Type} (env : Env) (st : CommandStage) (failed : α)
    (launch : Str → StageIo → Prog sh α) : Prog sh α :=
  match env.resolve (commandName st) with
  | none => do
    printf (notFound st)
    pure failed
  | some path => do
    match ← setupStage env 0 st [] with
    | (io, false) =>
      closeOpt io.inFd
      waitOpt io.writer
      pure failed
    | (io, true) =>
      note .block
      launch path io

/-- The child of `execute_with_redirection`. -/
def commandChild {α : Type} (path : Str) (st : CommandStage) (io : StageIo) : Prog sh α := do
  note .restore
  note (.setpgid 0 (some 0))
  dupOpt io.inFd 0
  closeOpt io.inFd
  dupOpt io.outFd 1
  closeOpt io.outFd
  execStage path st

/-- The parent of `execute_with_redirection`. -/
def commandParent (pid : ℕ) (st : CommandStage) (io : StageIo) : Prog sh ℤ := do
  setpgid pid (some pid)
  addHelpers pid io
  let cmdline := joinArgs st.args 256
  note (.groupAdd pid cmdline)
  note (.groupAddMember pid pid cmdline)
  note (.giveTerminalTo pid)
  closeOpt io.inFd
  closeOpt io.outFd
  note .restore
  let status ← wait pid true
  note .reclaimTerminal
  waitOpt io.writer
  waitOpt io.reader
  finishJob pid status cmdline

/-- The second half of `execute_with_redirection`. -/
def launchCommand (st : CommandStage) (path : Str) (io : StageIo) : Prog sh ℤ := do
  match ← fork (.stage 0) with
  | .child => commandChild path st io
  | .parent pid => commandParent pid st io
  | .failed =>
    perror "fork"
    note .restore
    undoStage io
    pure (-1)

/-- `execute_with_redirection` -/
def executeWithRedirection (env : Env) (st : CommandStage) : Prog sh ℤ :=
  prepareCommand env st (-1) (launchCommand st)

/-! ### Pipelines -/

/-- What is known of a stage before the forks. -/
structure Setup where
  io : StageIo
  resolved : Option Str
  deriving DecidableEq, Repr

/-- The loop that creates every pipe up front. -/
def makePipes : ℕ → ℕ → List (ℕ × ℕ) → Prog sh (List (ℕ × ℕ) × Bool)
  | 0, _, pipefds => pure (pipefds, true)
  | n + 1, k, pipefds => do
    match ← pipe (.link k) with
    | none =>
      perror "pipe"
      pure (pipefds, false)
    | some pipefd => makePipes n (k + 1) (pipefds ++ [pipefd])

/-- The loop that sets up redirections and resolves commands; `false` if it is
aborted.  A command that does not resolve does not abort it. -/
def setupStages (env : Env) (pipefds : List (ℕ × ℕ)) :
    List CommandStage → ℕ → List Setup → Prog sh (List Setup × Bool)
  | [], _, setups => pure (setups, true)
  | st :: stages, i, setups => do
    match ← setupStage env i st pipefds with
    | (io, false) => pure (setups ++ [⟨io, none⟩], false)
    | (io, true) =>
      let resolved := env.resolve (commandName st)
      if resolved = none then printf (notFound st) else pure ()
      setupStages env pipefds stages (i + 1) (setups ++ [⟨io, resolved⟩])

/-- The cleanup of an aborted pipeline. -/
def undoStages : List Setup → Prog sh Unit
  | [] => pure ()
  | s :: setups => do
    undoStage s.io
    undoStages setups

/-- The shell closes the descriptors of the redirections. -/
def closeStages : List Setup → Prog sh Unit
  | [] => pure ()
  | s :: setups => do
    closeOpt s.io.inFd
    closeOpt s.io.outFd
    closeStages setups

/-- Standard input: file redirection, then the previous pipe, then what it was. -/
def stageStdin (i : ℕ) (st : CommandStage) (io : StageIo) (pipefds : List (ℕ × ℕ)) : Option ℕ :=
  if st.inputFiles ≠ [] then io.inFd
  else if 0 < i then pipefds[i - 1]?.map Prod.fst
  else none

/-- Standard output: file redirection, then the next pipe, then what it was. -/
def stageStdout (i : ℕ) (st : CommandStage) (io : StageIo) (pipefds : List (ℕ × ℕ)) :
    Option ℕ :=
  if st.outputFiles ≠ [] then io.outFd else pipefds[i]?.map Prod.snd

/-- A stage process connects its ends and closes every pipe it does not need. -/
def wireStage (i : ℕ) (st : CommandStage) (io : StageIo) (pipefds : List (ℕ × ℕ)) :
    Prog sh Unit := do
  dupOpt (stageStdin i st io pipefds) 0
  dupOpt (stageStdout i st io pipefds) 1
  closeAllPipes pipefds
  closeOpt io.inFd
  closeOpt io.outFd

/-- `child_pid[0]` -/
def leaderOf (pids : List (Option ℕ)) : Option ℕ := pids.head?.join

/-- The group a stage process joins: the first one leads. -/
def joinGroup (i : ℕ) (self : ℕ) (pids : List (Option ℕ)) : Option ℕ :=
  if i = 0 then some self else leaderOf pids

/-- What a stage process runs. -/
abbrev StageProg := ℕ → CommandStage → StageIo → Str → List (Option ℕ) → Prog sh (List (Option ℕ))

/-- The loop that forks the stages that have resolved. -/
def forkStages (child : StageProg) :
    List (CommandStage × Setup) → ℕ → List (Option ℕ) → Prog sh (List (Option ℕ))
  | [], _, pids => pure pids
  | (st, s) :: rest, i, pids =>
    match s.resolved with
    | none => forkStages child rest (i + 1) (pids ++ [none])
    | some path => do
      match ← fork (.stage i) with
      | .child => child i st s.io path pids
      | .parent pid =>
        setpgid pid (joinGroup i pid pids)
        forkStages child rest (i + 1) (pids ++ [some pid])
      | .failed =>
        perror "fork"
        forkStages child rest (i + 1) (pids ++ [none])

/-- The stage process of `execute_pipeline`. -/
def stageChild {α : Type} (pipefds : List (ℕ × ℕ)) (i : ℕ) (st : CommandStage) (io : StageIo)
    (path : Str) (pids : List (Option ℕ)) : Prog sh α := do
  note .restore
  note (.setpgid 0 (joinGroup i 0 pids))
  wireStage i st io pipefds
  execStage path st

/-- A stage, its set-up and the process that was forked for it. -/
abbrev Row := CommandStage × Setup × Option ℕ

/-- The loop that registers the members of a group; `first` is what it does before it
registers the process of a stage. -/
def registerEach (pgid : ℕ) (first : ℕ → ℕ → Prog sh Unit) :
    List Row → ℕ → Prog sh Unit
  | [], _ => pure ()
  | (st, s, child) :: rest, i => do
    match child with
    | none => pure ()
    | some pid =>
      first i pid
      note (.groupAddMember pgid pid (joinArgs st.args 256))
    addHelpers pgid s.io
    registerEach pgid first rest (i + 1)

/-- The members of the group of a foreground pipeline. -/
def registerStages (pgid : ℕ) (rows : List Row) : Prog sh Unit :=
  registerEach pgid (fun _ _ => pure ()) rows 0

/-- The loop that waits for the stages, with `leader_status`. -/
def waitStages : List (Setup × Option ℕ) → ℕ → Status → Prog sh Status
  | [], _, leaderStatus => pure leaderStatus
  | (_, none) :: rest, i, leaderStatus => waitStages rest (i + 1) leaderStatus
  | (s, some pid) :: rest, i, leaderStatus => do
    let status ← wait pid true
    waitOpt s.io.writer
    waitOpt s.io.reader
    waitStages rest (i + 1) (if i = 0 then status else leaderStatus)

/-- What `execute_pipeline` does in the shell once every stage is forked. -/
def pipelineParent (stages : List CommandStage) (pipefds : List (ℕ × ℕ)) (setups : List Setup)
    (pids : List (Option ℕ)) : Prog sh ℤ := do
  match leaderOf pids with
  | none => pure ()
  | some leader =>
    note (.groupAdd leader (joinPipeline stages 256))
    registerStages leader (stages.zip (setups.zip pids))
  note .restore
  match leaderOf pids with
  | none => pure ()
  | some leader => note (.giveTerminalTo leader)
  closeAllPipes pipefds
  closeStages setups
  let leaderStatus ← waitStages (setups.zip pids) 0 .exited
  match leaderOf pids with
  | none => pure 0
  | some leader =>
    note .reclaimTerminal
    finishJob leader leaderStatus (joinPipeline stages 256)

/-- The first half of a pipeline of two or more stages, the same in the foreground
and in the background: create every pipe, set up every stage, and go on with
`launch` unless something fails. -/
def preparePipeline (env : Env) (stages : List CommandStage)
    (launch : List (ℕ × ℕ) → List Setup → Prog sh ℤ) : Prog sh ℤ := do
  match ← makePipes (stages.length - 1) 0 [] with
  | (pipefds, false) =>
    closeAllPipes pipefds
    pure (-1)
  | (pipefds, true) =>
    match ← setupStages env pipefds stages 0 [] with
    | (setups, false) =>
      undoStages setups
      closeAllPipes pipefds
      pure (-1)
    | (setups, true) => launch pipefds setups

/-- The second half of `execute_pipeline`. -/
def launchPipeline (stages : List CommandStage) (pipefds : List (ℕ × ℕ)) (setups : List Setup) :
    Prog sh ℤ := do
  note .block
  let pids ← forkStages (stageChild pipefds) (stages.zip setups) 0 []
  pipelineParent stages pipefds setups pids

/-- `execute_pipeline` -/
def executePipeline (env : Env) (stages : List CommandStage) : Prog sh ℤ :=
  match stages with
  | [] => pure 0
  | [st] => executeWithRedirection env st
  | stages => preparePipeline env stages (launchPipeline stages)

/-! ### Background -/

/-- The message for a job that has been launched. -/
def launchedMessage (jobId : ℤ) (pid : ℕ) : Str :=
  '[' :: (toString jobId).toList ++ "] ".toList ++ (toString pid).toList ++ ['\n']

/-- Wait at the gate, if there is one. -/
def passGate : Option (ℕ × ℕ) → Prog sh Unit
  | none => pure ()
  | some sync => do
    readByte sync.1
    close sync.1

/-- The child of `execute_with_redirection_bg`. -/
def commandChildBg {α : Type} (sync : Option (ℕ × ℕ)) (path : Str) (st : CommandStage)
    (io : StageIo) : Prog sh α := do
  note .restore
  setpgid 0 (some 0)
  closeOpt (sync.map Prod.snd)
  dupOpt io.inFd 0
  closeOpt io.inFd
  dupOpt io.outFd 1
  closeOpt io.outFd
  passGate sync
  execStage path st

/-- The parent of `execute_with_redirection_bg`. -/
def commandParentBg (pid : ℕ) (io : StageIo) : Prog sh (Option ℕ) := do
  setpgid pid (some pid)
  addHelpers pid io
  closeOpt io.inFd
  closeOpt io.outFd
  note .restore
  pure (some pid)

/-- The second half of `execute_with_redirection_bg`. -/
def launchCommandBg (st : CommandStage) (sync : Option (ℕ × ℕ)) (path : Str) (io : StageIo) :
    Prog sh (Option ℕ) := do
  match ← fork (.stage 0) with
  | .child => commandChildBg sync path st io
  | .parent pid => commandParentBg pid io
  | .failed =>
    perror "fork"
    undoStage io
    note .restore
    pure none

/-- `execute_with_redirection_bg`: the pid of the command. -/
def executeWithRedirectionBg (env : Env) (st : CommandStage) (sync : Option (ℕ × ℕ)) :
    Prog sh (Option ℕ) :=
  prepareCommand env st none (launchCommandBg st sync)

/-- `execute_background` for a single command. -/
def backgroundCommand (env : Env) (st : CommandStage) : Prog sh ℤ := do
  let sync ← pipe .gate
  let child ← executeWithRedirectionBg env st sync
  closeOpt (sync.map Prod.fst)
  match child with
  | none =>
    closeOpt (sync.map Prod.snd)
    pure (-1)
  | some pid =>
    let cmdline := joinArgs st.args 256
    let jobId ← book (.jobAdd pid cmdline)
    note (.groupAdd pid cmdline)
    note (.groupAddMember pid pid cmdline)
    printf (launchedMessage jobId pid)
    closeOpt (sync.map Prod.snd)
    pure 0

/-- The stage process of `execute_background`: it keeps the write end of the gate. -/
def stageChildBg {α : Type} (pipefds : List (ℕ × ℕ)) (sync : Option (ℕ × ℕ)) (i : ℕ)
    (st : CommandStage) (io : StageIo) (path : Str) (pids : List (Option ℕ)) : Prog sh α := do
  note .restore
  setpgid 0 (joinGroup i 0 pids)
  wireStage i st io pipefds
  passGate sync
  execStage path st

/-- The members of the group of a background pipeline; the stages after the first
are also members of the job. -/
def registerStagesBg (jobId : ℤ) (pgid : ℕ) (rows : List Row) : Prog sh Unit :=
  registerEach pgid (fun i pid => if 0 < i then note (.jobAddMemberBg jobId pid) else pure ())
    rows 0

/-- What `execute_background` does in the shell once every stage is forked. -/
def backgroundParent (stages : List CommandStage) (pipefds : List (ℕ × ℕ))
    (setups : List Setup) (sync : Option (ℕ × ℕ)) (pids : List (Option ℕ)) : Prog sh ℤ := do
  closeAllPipes pipefds
  closeStages setups
  closeOpt (sync.map Prod.fst)
  match leaderOf pids with
  | none =>
    closeOpt (sync.map Prod.snd)
    note .restore
    pure (-1)
  | some leader =>
    let cmdline := joinPipeline stages 256
    let jobId ← book (.jobAdd leader cmdline)
    note (.groupAdd leader cmdline)
    registerStagesBg jobId leader (stages.zip (setups.zip pids))
    printf (launchedMessage jobId leader)
    closeOpt (sync.map Prod.snd)
    note .restore
    pure 0

/-- The second half of `execute_background`. -/
def launchBackground (stages : List CommandStage) (pipefds : List (ℕ × ℕ))
    (setups : List Setup) : Prog sh ℤ := do
  note .block
  let sync ← pipe .gate
  let pids ← forkStages (stageChildBg pipefds sync) (stages.zip setups) 0 []
  backgroundParent stages pipefds setups sync pids

/-- `execute_background` -/
def executeBackground (env : Env) (stages : List CommandStage) : Prog sh ℤ :=
  match stages with
  | [] => pure 0
  | [st] => backgroundCommand env st
  | stages => preparePipeline env stages (launchBackground stages)

/-- `execute_background` or `execute_pipeline`. -/
def launchJob (background : Bool) (env : Env) (stages : List CommandStage) : Prog sh ℤ :=
  if background then executeBackground env stages else executePipeline env stages

/-- `a | b` -/
def aPipeB : List CommandStage := [⟨[['a']], [], []⟩, ⟨[['b']], [], []⟩]

end Redirect
end RuShell
