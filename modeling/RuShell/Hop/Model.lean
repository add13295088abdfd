import Mathlib.Data.List.DropRight
import RuShell.Lexer
import RuShell.Lib.Decimal
import RuShell.Lib.Run
import RuShell.Lib.Stdio
import RuShell.Lib.Table

/-!
# The builtins `hop` and `reveal -`

`hop` of `c-shell/src/hop.c` changes the working directory.  It keeps the
directory it left in `previous_dir` and, for `reveal`, in the file
`prev_dir.txt`; and it keeps a list of the directories it went to, with how often
and when, that is written to `hop_history.txt` after every hop and read back by
the first `hop` of the next session.  `reveal` of `c-shell/src/reveal.c` finds
the directory it is to list for `-` in `prev_dir.txt`.

Files are a map from absolute names to contents.  What the system answers while
one argument is processed is an `Env`.  `int` has 32 bits, `long` has 64;
allocation is taken to succeed.

## Main definitions

* `HopNode`, `Shell` — an entry of the list, and the state of a session.
* `saveHistory`, `loadHistory` — the list as a text, and back.
* `changeDirectory`, `findBestMatch`, `hop` — the command.
* `readPrevDir`, `resolveRevealPath` — the path that `reveal` lists.
* `Event`, `step`, `after` — sessions, one after the other.

## Main results

* `changeDirectory_cases` — what a successful hop does.
* `after_invariant` — what hops and restarts keep holds in every session.
-/

namespace RuShell
namespace Hop

open Lib

/-- `STRING_SIZE` -/
def stringSize : ℕ := 4096

/-- `BIGGER_BUFFER` of `reveal.c`. -/
def biggerBuffer : ℕ := 8192

/-- An absolute path. -/
structure AbsPath where
  path : Str
  absolute : path.head? = some '/'
  nulFree : nul ∉ path

/-- `HopNode`, a directory in the store; `next` is the rest of the list. -/
structure HopNode where
  path : Str
  freq : Int32
  lastVisit : Int64
  deriving DecidableEq, Repr

/-- What the system answers. -/
structure Env where
  /-- The directory that `chdir` leads to, if it succeeds. -/
  chdir : Str → Option AbsPath
  /-- `directory_exists` -/
  directoryExists : Str → Bool
  /-- `time(NULL)` -/
  time : Int64
  /-- Whether `fopen(name, "w")` succeeds. -/
  writable : Str → Bool

/-- The state of a session. -/
structure Shell where
  hopps : List HopNode
  /-- `previous_dir`, the empty string at first. -/
  previousDir : Str
  isInitialized : Bool
  cwd : AbsPath
  files : Str → Option Str

/-- `snprintf` into a buffer of `size` bytes. -/
def snprintf (size : ℕ) (s : Str) : Str := s.take (size - 1)

theorem snprintf_of_fits {size : ℕ} {t : Str} (h : t.length < size) : snprintf size t = t :=
  List.take_of_length_le (Nat.le_sub_one_of_lt h)

/-- `getcwd` into a buffer of 4096 bytes, which fails if the path does not fit. -/
def getcwd (cwd : AbsPath) : Option Str :=
  if cwd.path.length < stringSize then some cwd.path else none

/-- Writing a file. -/
def write (files : Str → Option Str) (name contents : Str) : Str → Option Str :=
  fun n => if n = name then some contents else files n

/-! ### The history -/

/-- `get_history_path` -/
def getHistoryPath (home : AbsPath) : Str :=
  snprintf stringSize (home.path ++ "/hop_history.txt".toList)

/-- `fprintf(file, "%s\t%d\t%ld\n", ...)` -/
def formatNode (n : HopNode) : Str :=
  n.path ++ '\t' :: (decimal n.freq.toInt ++ '\t' :: (decimal n.lastVisit.toInt ++ ['\n']))

/-- What `save_history` writes. -/
def saveHistory (hopps : List HopNode) : Str := hopps.flatMap formatNode

/-- The value that `strtol` returns for a number: it stays within a `long`. -/
def clampLong (z : ℤ) : ℤ := max (-2 ^ 63) (min z (2 ^ 63 - 1))

/-- `sscanf(line, "%4095[^\t]\t%d\t%ld", ...) == 3`: a path without tabs, any white
space, and two numbers. -/
def scanNode (line : Str) : Option HopNode :=
  let path := (line.takeWhile (· ≠ '\t')).take (stringSize - 1)
  if path = [] then none
  else
    match scanInt ((line.drop path.length).dropWhile isspace) with
    | none => none
    | some (freq, rest) =>
      match scanInt (rest.dropWhile isspace) with
      | none => none
      | some (lastVisit, _) =>
        some ⟨path, Int32.ofInt (clampLong freq), Int64.ofInt (clampLong lastVisit)⟩

/-- The loop of `load_history`: a line that is not three fields is skipped, every
other one becomes the new head of the list. -/
def loadHistory (file : File Char) (hopps : List HopNode) : List HopNode :=
  match _ : file.fgets '\n' stringSize with
  | (.line line, file') =>
    match scanNode (cString line) with
    | none => loadHistory file' hopps
    | some node => loadHistory file' (node :: hopps)
  | (.eof, _) => hopps
  | (.eintr _, _) => hopps
  | (.fail _, _) => hopps
termination_by file.left
decreasing_by
  all_goals
    have hspec := File.fgets_spec '\n' stringSize file
    rw [‹file.fgets '\n' stringSize = _›] at hspec
    exact (hspec.2.2.2.2 (by decide) rfl).2

/-- `fopen(name, "r")` and reading all of it, on a file system that reads without
errors. -/
def openRead (files : Str → Option Str) (name : Str) : Option (File Char) :=
  if name.length < stringSize then
    (files name).map fun contents => ⟨[], ⟨contents, 0, []⟩⟩
  else none

/-- `record_visit`, with `find_node` and `create_node`. -/
def recordVisit (time : Int64) (path : Str) (hopps : List HopNode) : List HopNode :=
  if (hopps.find? (·.path == path)).isSome then
    updateFirst (·.path == path)
      (fun n => { n with freq := n.freq + 1, lastVisit := time }) hopps
  else ⟨path.take (stringSize - 1), 1, time⟩ :: hopps

/-- `freq*1000000000LL + last_visit` -/
def score (n : HopNode) : Int64 := n.freq.toInt64 * 1000000000 + n.lastVisit

/-- The loop of `find_best_match`, with the best entry so far and its score. -/
def bestMatch (directoryExists : Str → Bool) (name : Str) :
    List HopNode → Option HopNode → Int64 → Option HopNode
  | [], best, _ => best
  | curr :: rest, best, bestScore =>
    if name <:+: curr.path then
      if directoryExists curr.path then
        if bestScore < score curr then
          bestMatch directoryExists name rest (some curr) (score curr)
        else bestMatch directoryExists name rest best bestScore
      else bestMatch directoryExists name rest best bestScore
    else bestMatch directoryExists name rest best bestScore

/-- `find_best_match`: the first of the entries with the highest score, or `NULL`. -/
def findBestMatch (directoryExists : Str → Bool) (name : Str) (hopps : List HopNode) :
    Option HopNode :=
  bestMatch directoryExists name hopps none (-1)

/-! ### `hop` -/

/-- The name under which `hop` writes the directory it left. -/
def prevPath (home : AbsPath) : Str := snprintf stringSize (home.path ++ "/prev_dir.txt".toList)

/-- `change_directory`; `none` is a return value of 0. -/
def changeDirectory (home : AbsPath) (env : Env) (target : Str) (s : Shell) : Option Shell :=
  match getcwd s.cwd with
  | none => none
  | some currentDir =>
    match env.chdir target with
    | none => none
    | some newDir =>
      let files :=
        if env.writable (prevPath home) then
          write s.files (prevPath home) (currentDir ++ ['\n'])
        else s.files
      let s := { s with previousDir := currentDir, cwd := newDir, files }
      match getcwd newDir with
      | none => some s
      | some newPath =>
        let hopps := recordVisit env.time newPath s.hopps
        let files :=
          if env.writable (getHistoryPath home) then
            write s.files (getHistoryPath home) (saveHistory hopps)
          else s.files
        some { s with hopps, files }

/-- What `hop` prints when it can go nowhere. -/
def noSuchDirectory : Str := "hop: no such directory\n".toList

/-- The loop of `hop` over its arguments, each with what the system answers to it;
the output is what is printed. -/
def hopLoop (home : AbsPath) : List (Str × Env) → Shell → Shell × Str
  | [], s => (s, [])
  | (argument, env) :: arguments, s =>
    if argument = "~".toList then
      match changeDirectory home env home.path s with
      | none => (s, noSuchDirectory)
      | some s => hopLoop home arguments s
    else if argument = ".".toList then hopLoop home arguments s
    else if argument = "..".toList then
      match changeDirectory home env "..".toList s with
      | none => (s, noSuchDirectory)
      | some s => hopLoop home arguments s
    else if argument = "-".toList then
      if s.previousDir = [] then hopLoop home arguments s
      else
        match changeDirectory home env s.previousDir s with
        | none => (s, noSuchDirectory)
        | some s => hopLoop home arguments s
    else
      match changeDirectory home env argument s with
      | some s => hopLoop home arguments s
      | none =>
        match findBestMatch env.directoryExists argument s.hopps with
        | none => (s, noSuchDirectory)
        | some best =>
          match changeDirectory home env best.path s with
          | none => (s, noSuchDirectory)
          | some s => hopLoop home arguments s

/-- The first call of `hop` in a session reads the history. -/
def loadOnce (home : AbsPath) (s : Shell) : Shell :=
  if s.isInitialized then s
  else
    let hopps :=
      match openRead s.files (getHistoryPath home) with
      | none => s.hopps
      | some file => loadHistory file s.hopps
    { s with hopps, isInitialized := true }

/-- `hop`; `env` is what the system answers if there is no argument. -/
def hop (home : AbsPath) (env : Env) (arguments : List (Str × Env)) (s : Shell) : Shell × Str :=
  let s := loadOnce home s
  if arguments = [] then
    match changeDirectory home env home.path s with
    | none => (s, noSuchDirectory)
    | some s => (s, [])
  else hopLoop home arguments s

/-! ### `reveal -` -/

/-- `read_prev_dir`; `none` is a return value of 0. -/
def readPrevDir (home : AbsPath) (files : Str → Option Str) : Option Str :=
  match openRead files (snprintf biggerBuffer (home.path ++ "/prev_dir.txt".toList)) with
  | none => none
  | some file =>
    match (file.fgets '\n' biggerBuffer).1 with
    | .line line =>
      -- the loop over the trailing white space, a newline being one
      let line := (cString line).rdropWhile isspace
      if line = [] then none else some (snprintf biggerBuffer line)
    | _ => none

/-- The path that `resolve_reveal_path` computes before it asks whether it is a
directory; `none` where it returns -1 without one. -/
def resolvedPath (home : AbsPath) (s : Shell) (arg : Option Str) : Option Str :=
  match getcwd s.cwd with
  | none => none
  | some cwd =>
    match arg with
    | none => some (snprintf biggerBuffer cwd)
    | some arg =>
      if arg = ".".toList then some (snprintf biggerBuffer cwd)
      else if arg = "~".toList then some (snprintf biggerBuffer home.path)
      else if arg = "..".toList then
        -- cut at the last slash, but not the root itself
        let parent := (cwd.rdropWhile (· ≠ '/')).dropLast
        some (if parent = [] then ['/'] else parent)
      else if arg = "-".toList then
        (readPrevDir home s.files).map (snprintf biggerBuffer)
      else if arg.head? = some '/' then some (snprintf biggerBuffer arg)
      else if "~/".toList <+: arg then
        some (snprintf biggerBuffer (home.path ++ '/' :: arg.drop 2))
      else some (snprintf biggerBuffer (cwd ++ '/' :: arg))

/-- `resolve_reveal_path`; `none` is a return value of -1. -/
def resolveRevealPath (home : AbsPath) (env : Env) (s : Shell) (arg : Option Str) : Option Str :=
  (resolvedPath home s arg).filter env.directoryExists

/-! ### Sessions -/

/-- The state in which `main` starts, in the directory `home`: `prev_dir.txt` is
made empty there. -/
def start (home : AbsPath) (files : Str → Option Str) : Shell :=
  ⟨[], [], false, home, write files (home.path ++ "/prev_dir.txt".toList) []⟩

/-- What happens in a session. -/
inductive Event
  | hop (env : Env) (arguments : List (Str × Env))
  /-- The session ends and a new one starts in the same directory. -/
  | restart

/-- One event of a session. -/
def step (home : AbsPath) (s : Shell) : Event → Shell
  | .hop env arguments => (hop home env arguments s).1
  | .restart => start home s.files

/-- The state after the events, from a first session with the given files. -/
def after (home : AbsPath) (files : Str → Option Str) (events : List Event) : Shell :=
  events.foldl (step home) (start home files)

/-- A system in which every file can be written and `chdir` leads to one directory. -/
def towards (dir : AbsPath) (time : Int64) : Env where
  chdir target := if target = dir.path then some dir else none
  directoryExists _ := true
  time := time
  writable _ := true

/-- A session that hops to one directory after the other. -/
def visits (home : AbsPath) (dirs : List (AbsPath × Int64)) : Shell :=
  after home (fun _ => none)
    (dirs.map fun d => .hop (towards home 0) [(d.1.path, towards d.1 d.2)])

/-- The directory in which the shell is started. -/
def homeDir : AbsPath := ⟨"/h".toList, rfl, by decide⟩

/-! ### What a step can do -/

variable {home : AbsPath} {s s' : Shell} {I : Shell → Prop}

theorem getcwd_some {cwd : AbsPath} {dir : Str} (h : getcwd cwd = some dir) :
    dir = cwd.path ∧ dir.length < stringSize := by
  unfold getcwd at h
  split at h
  · obtain rfl := Option.some.inj h
    exact ⟨rfl, ‹_›⟩
  · cases h

/-- What a successful hop does. -/
theorem changeDirectory_cases {env : Env} {target : Str}
    (h : changeDirectory home env target s = some s') :
    ∃ currentDir newDir, getcwd s.cwd = some currentDir ∧ env.chdir target = some newDir ∧
      s'.previousDir = currentDir ∧ s'.cwd = newDir ∧
      ((getcwd newDir = none ∧ s'.hopps = s.hopps ∧
          s'.files = if env.writable (prevPath home) then
            write s.files (prevPath home) (currentDir ++ ['\n']) else s.files) ∨
        ∃ newPath files, getcwd newDir = some newPath ∧
          s'.hopps = recordVisit env.time newPath s.hopps ∧
          files = (if env.writable (prevPath home) then
            write s.files (prevPath home) (currentDir ++ ['\n']) else s.files) ∧
          s'.files = if env.writable (getHistoryPath home) then
            write files (getHistoryPath home) (saveHistory s'.hopps) else files) := by
  unfold changeDirectory at h
  split at h
  · cases h
  · rename_i currentDir hcur
    split at h
    · cases h
    · rename_i newDir hnew
      refine ⟨currentDir, newDir, hcur, hnew, ?_⟩
      simp only at h
      split at h
      · rename_i hget
        obtain rfl := Option.some.inj h
        exact ⟨rfl, rfl, .inl ⟨hget, rfl, rfl⟩⟩
      · rename_i newPath hget
        obtain rfl := Option.some.inj h
        exact ⟨rfl, rfl, .inr ⟨newPath, _, hget, rfl, rfl, rfl⟩⟩

/-- What every successful hop keeps, the loop over the arguments keeps. -/
theorem hopLoop_invariant (arguments : List (Str × Env))
    (hchange : ∀ a ∈ arguments, ∀ target s s', I s →
      changeDirectory home a.2 target s = some s' → I s') (s : Shell) (hs : I s) :
    I (hopLoop home arguments s).1 := by
  induction arguments generalizing s with
  | nil => exact hs
  | cons a arguments ih =>
    obtain ⟨argument, env⟩ := a
    have hrest : ∀ s, I s → I (hopLoop home arguments s).1 :=
      ih fun b hb => hchange b (List.mem_cons_of_mem _ hb)
    have hstep : ∀ target s', changeDirectory home env target s = some s' →
        I (hopLoop home arguments s').1 :=
      fun target s' h => hrest s' (hchange _ List.mem_cons_self target s s' hs h)
    unfold hopLoop
    -- every branch leaves the state alone or makes one hop
    split
    · split
      · exact hs
      · exact hstep _ _ ‹_›
    split
    · exact hrest s hs
    split
    · split
      · exact hs
      · exact hstep _ _ ‹_›
    split
    · split
      · exact hrest s hs
      · split
        · exact hs
        · exact hstep _ _ ‹_›
    split
    · exact hstep _ _ ‹_›
    · split
      · exact hs
      · split
        · exact hs
        · exact hstep _ _ ‹_›

theorem hop_invariant (env : Env) (arguments : List (Str × Env))
    (hchange : ∀ env' ∈ env :: arguments.map Prod.snd, ∀ target s s', I s →
      changeDirectory home env' target s = some s' → I s')
    (hload : I (loadOnce home s)) : I (hop home env arguments s).1 := by
  unfold hop
  simp only
  split
  · split
    · exact hload
    · exact hchange env List.mem_cons_self _ _ _ hload ‹_›
  · apply hopLoop_invariant arguments _ _ hload
    intro a ha
    exact hchange a.2 (List.mem_cons_of_mem _ (List.mem_map_of_mem ha))

/-- What the system answers during an event. -/
def Event.envs : Event → List Env
  | .hop env arguments => env :: arguments.map Prod.snd
  | .restart => []

/-- **The invariant rule for sessions**: what holds at the start and is kept by
reading the history, by every successful hop and by a restart, holds always. -/
theorem after_invariant {P : Env → Prop} (files : Str → Option Str)
    (events : List Event) (hP : ∀ e ∈ events, ∀ env ∈ e.envs, P env)
    (hfirst : I (start home files)) (hload : ∀ s, I s → I (loadOnce home s))
    (hchange : ∀ env, P env → ∀ target s s', I s →
      changeDirectory home env target s = some s' → I s')
    (hstart : ∀ s, I s → I (start home s.files)) : I (after home files events) := by
  suffices h : ∀ (events : List Event) (s : Shell), (∀ e ∈ events, ∀ env ∈ e.envs, P env) →
      I s → I (events.foldl (step home) s) from h events _ hP hfirst
  intro events
  induction events with
  | nil => exact fun s _ hs => hs
  | cons e events ih =>
    intro s hP hs
    apply ih _ fun e' he' => hP e' (List.mem_cons_of_mem _ he')
    have henvs := hP e List.mem_cons_self
    cases e with
    | restart => exact hstart s hs
    | hop env arguments =>
      exact hop_invariant env arguments (fun env' henv => hchange env' (henvs env' henv))
        (hload s hs)

end Hop
end RuShell
