import RuShell.JobNames
import RuShell.Lib.Stdio
import Mathlib.Data.List.DropRight

/-!
# The history line editor

`history_read_line` of `c-shell/src/history.c` reads a line from the terminal key by key,
into an array of the caller.  The arrow keys exchange what has been typed for earlier
lines and back.

The loop is a machine here that takes one `read` of a single byte at a time.  An arrow is
an escape sequence of three bytes, and each of them is a `read` of its own that may fail,
so the machine has a phase for each place in the loop at which it waits.

All accesses to `buf`, `saved_current` and `tmp` are checked, and so are those to
`hist_lines`.

## Main definitions

* `Hist` — `hist_lines`, `hist_count` and the file; `historyInit`, `historyAppend`.
* `Editor` — the variables of `history_read_line`.
* `step` — what the loop does with one `read`; `editLoop` is the loop.
* `finish` — what is behind the loop.
* `historyReadLine` — the function.

## Main results

* `session_logs` — **the history holds the last `MAX_HIST` lines of the session**, and the
  file all of them.
-/

namespace RuShell
namespace History

open Lib (CArray Pointer Fault chars)
open JobNames (CStr)

/-! ### The history -/

/-- `MAX_HIST` -/
def maxHist : ℕ := 1024

/-- The lines that are remembered, oldest first, and the text of `HISTFILE`. -/
structure Hist where
  /-- The entries of `hist_lines` up to `hist_count`. -/
  lines : List CStr
  bounded : lines.length ≤ maxHist
  file : Str

namespace Hist

/-- `hist_count` -/
def count (hist : Hist) : ℤ := hist.lines.length

/-- `hist_lines[pos]`; behind `hist_count` there is no string. -/
def line (hist : Hist) (pos : ℤ) : Except Fault (Pointer Char) :=
  if 0 ≤ pos then
    match hist.lines[pos.toNat]? with
    | some l => .ok (chars nul l.val)
    | none => .error .outOfRange
  else .error .outOfRange

end Hist

/-- `history_init`; `opens` says whether the file can be opened. -/
def historyInit (opens : Bool) (hist : Hist) : Hist where
  lines := []
  bounded := Nat.zero_le _
  file := if opens then [] else hist.file

/-- `history_append` -/
def historyAppend (opens : Bool) (hist : Hist) (line : CStr) : Hist :=
  if line.val = [] then hist
  else
    let file := if opens then hist.file ++ line.val ++ ['\n'] else hist.file
    if hlt : hist.lines.length < maxHist then
      ⟨hist.lines ++ [line], by simpa using hlt, file⟩
    else
      -- drop oldest, shift up
      ⟨hist.lines.tail ++ [line], by
        have hle := hist.bounded
        simp only [List.length_append, List.length_tail, List.length_singleton]
        unfold maxHist at hlt hle ⊢
        omega, file⟩

/-- What a session has entered so far: its last lines are in `hist_lines`, all of them in
the file. -/
structure Logs (hist : Hist) (entered : List CStr) : Prop where
  lines : hist.lines = entered.rtake maxHist
  file : hist.file = entered.flatMap fun line => line.val ++ ['\n']

section Logs

variable {hist : Hist} {entered : List CStr} {line : CStr}

theorem Logs.append (h : Logs hist entered) (hline : line.val ≠ []) :
    Logs (historyAppend true hist line) (entered ++ [line]) := by
  have hlen : hist.lines.length = entered.length - (entered.length - maxHist) := by
    rw [h.lines, List.rtake, List.length_drop]
  have hfile : hist.file ++ line.val ++ ['\n'] =
      (entered ++ [line]).flatMap fun line => line.val ++ ['\n'] := by
    rw [h.file, List.flatMap_append, List.flatMap_singleton, List.append_assoc]
  by_cases hlt : hist.lines.length < maxHist
  · -- nothing has been dropped so far, and nothing is now
    simp only [historyAppend, if_neg hline, dif_pos hlt, if_true]
    refine ⟨?_, hfile⟩
    show hist.lines ++ [line] = (entered ++ [line]).rtake maxHist
    rw [h.lines, List.rtake, List.rtake, List.length_append, List.length_singleton,
      Nat.sub_eq_zero_of_le (by omega), Nat.sub_eq_zero_of_le (by omega), List.drop_zero,
      List.drop_zero]
  · simp only [historyAppend, if_neg hline, dif_neg hlt, if_true]
    refine ⟨?_, hfile⟩
    show hist.lines.tail ++ [line] = (entered ++ [line]).rtake maxHist
    have hfull : maxHist ≤ entered.length := by omega
    rw [h.lines, List.rtake, List.rtake, List.tail_drop, List.length_append,
      List.length_singleton, List.drop_append_of_le_length (by unfold maxHist at *; omega),
      Nat.sub_add_comm hfull]

/-- **A session**, from any history on: empty lines are not entered. -/
theorem Logs.foldl (h : Logs hist entered) (lines : List CStr) :
    Logs (lines.foldl (historyAppend true) hist)
      (entered ++ lines.filter fun line => line.val ≠ []) := by
  induction lines generalizing hist entered with
  | nil => rwa [List.filter_nil, List.append_nil]
  | cons line lines ih =>
    rw [List.foldl_cons]
    by_cases hline : line.val = []
    · have hskip : historyAppend true hist line = hist := if_pos hline
      rw [hskip, List.filter_cons_of_neg (by simpa using hline)]
      exact ih h
    · have hstep := ih (h.append hline)
      rwa [List.append_assoc, List.singleton_append,
        ← List.filter_cons_of_pos (p := fun line : CStr => line.val ≠ []) (by simpa using hline)]
        at hstep

/-- **The history of a session** that can open its file. -/
theorem session_logs (hist : Hist) (lines : List CStr) :
    Logs (lines.foldl (historyAppend true) (historyInit true hist))
      (lines.filter fun line => line.val ≠ []) := by
  have hinit : Logs (historyInit true hist) [] := ⟨rfl, rfl⟩
  exact hinit.foldl lines

end Logs

/-! ### The editor -/

/-- What a `read` of one byte comes to. -/
inductive Got
  | byte (c : Char)
  /-- It returns 0. -/
  | eof
  /-- It returns -1; `eintr` says whether `errno` is `EINTR`. -/
  | error (eintr : Bool)
  deriving DecidableEq, Repr

/-- A `read`, and whether `SIGINT` has been delivered since the last one. -/
structure Read where
  got : Got
  sigint : Bool
  deriving DecidableEq, Repr

/-- Where the loop waits in a `read`. -/
inductive Phase
  /-- The `read` at the beginning of the loop. -/
  | main
  /-- The `read` of `seq[0]`. -/
  | escape
  /-- The `read` of `seq[1]`. -/
  | bracket
  /-- The loop has been left. -/
  | left
  deriving DecidableEq, Repr

/-- `sizeof(saved_current)` and `sizeof(tmp)` -/
def lineSize : ℕ := 4096

/-- The variables of `history_read_line`, and the text on the terminal. -/
structure Editor (bufsize : ℕ) where
  buf : CArray bufsize Char
  len : ℕ
  histPos : ℤ
  savedCurrent : CArray lineSize Char
  gotEof : Bool
  gotSigint : Bool
  phase : Phase
  output : Str

variable {bufsize : ℕ}

/-- `redraw_line` -/
def redrawLine (prompt : CStr) (s : Editor bufsize) : Except Fault (Editor bufsize) := do
  let shown ← (List.range s.len).mapM s.buf.read
  .ok { s with output := s.output ++ "\r\x1b[K".toList ++ prompt.val ++ [' '] ++ shown }

/-- What both arrows do with the line they go to: copy it to `buf` and draw it. -/
def load (prompt : CStr) (s : Editor bufsize) (p : Pointer Char) :
    Except Fault (Editor bufsize) := do
  let buf ← Lib.strncpyCut nul s.buf p
  let len ← Lib.strlen nul buf
  redrawLine prompt { s with buf, len }

/-- Backspace. -/
def backspace (prompt : CStr) (s : Editor bufsize) : Except Fault (Editor bufsize) :=
  if 0 < s.len then do
    let buf ← s.buf.write (s.len - 1) nul
    redrawLine prompt { s with buf, len := s.len - 1 }
  else .ok s

/-- A printable character. -/
def insert (s : Editor bufsize) (c : Char) : Except Fault (Editor bufsize) :=
  if s.len + 1 < bufsize then do
    let buf ← s.buf.write s.len c >>= fun buf => buf.write (s.len + 1) nul
    .ok { s with buf, len := s.len + 1, output := s.output ++ [c] }
  else .ok s

/-- What has been typed is put aside when the bottom is left. -/
def stash (hist : Hist) (s : Editor bufsize) : Except Fault (Editor bufsize) :=
  if s.histPos = hist.count then do
    let savedCurrent ← Lib.strncpyCut nul s.savedCurrent s.buf.read
    .ok { s with savedCurrent }
  else .ok s

/-- The up arrow. -/
def arrowUp (hist : Hist) (prompt : CStr) (s : Editor bufsize) : Except Fault (Editor bufsize) :=
  if hist.count = 0 then .ok s
  else do
    let s ← stash hist s
    if 0 < s.histPos then do
      let p ← hist.line (s.histPos - 1)
      load prompt { s with histPos := s.histPos - 1 } p
    else .ok s

/-- The down arrow. -/
def arrowDown (hist : Hist) (prompt : CStr) (s : Editor bufsize) :
    Except Fault (Editor bufsize) :=
  if s.histPos < hist.count then do
    let p ← if s.histPos + 1 = hist.count then .ok s.savedCurrent.read
      else hist.line (s.histPos + 1)
    load prompt { s with histPos := s.histPos + 1 } p
  else .ok s

/-- A byte at the beginning of the loop. -/
def mainByte (prompt : CStr) (s : Editor bufsize) (c : Char) : Except Fault (Editor bufsize) :=
  if c = '\n' ∨ c = '\r' then .ok { s with output := s.output ++ ['\n'], phase := .left }
  -- Ctrl-D on an empty line
  else if c.toNat = 4 ∧ s.len = 0 then .ok { s with gotEof := true, phase := .left }
  else if c.toNat = 127 ∨ c.toNat = 8 then backspace prompt s
  else if c.toNat = 27 then .ok { s with phase := .escape }
  else if 32 ≤ c.toNat ∧ c.toNat < 127 then insert s c
  else .ok s

/-- What a `read` at the beginning of the loop leads to. -/
def mainRead (prompt : CStr) (s : Editor bufsize) (got : Got) : Except Fault (Editor bufsize) :=
  if s.gotSigint then do
    let buf ← s.buf.write 0 nul
    .ok { s with gotSigint := false, len := 0, buf, gotEof := false, phase := .left }
  else
    match got with
    | .byte c => mainByte prompt s c
    | .error true => .ok s
    | .eof | .error false => .ok { s with gotEof := true, phase := .left }

/-- **The loop, from one `read` to the next.**  `got_sigint` is only looked at behind the
first `read` of a round. -/
def step (hist : Hist) (prompt : CStr) (s : Editor bufsize) (r : Read) :
    Except Fault (Editor bufsize) :=
  let s := { s with gotSigint := s.gotSigint || r.sigint }
  match s.phase, r.got with
  | .main, got => mainRead prompt s got
  | .escape, .byte c => .ok { s with phase := if c = '[' then .bracket else .main }
  | .bracket, .byte c =>
    let s := { s with phase := .main }
    if c = 'A' then arrowUp hist prompt s
    else if c = 'B' then arrowDown hist prompt s
    else .ok s
  -- `continue`
  | .escape, _ | .bracket, _ => .ok { s with phase := .main }
  | .left, _ => .ok s

/-- The variables when the loop begins. -/
def start (hist : Hist) (buf : CArray bufsize Char) : Except Fault (Editor bufsize) := do
  let savedCurrent ← (.blank : CArray lineSize Char).write 0 nul
  let buf ← buf.write 0 nul
  .ok { buf, len := 0, histPos := hist.count, savedCurrent, gotEof := false, gotSigint := false,
        phase := .main, output := [] }

/-- The loop, on the results of its `read`s.  If there are none left it is waiting. -/
def editLoop (hist : Hist) (prompt : CStr) :
    List Read → Editor bufsize → Except Fault (Editor bufsize)
  | [], s => .ok s
  | r :: reads, s =>
    if s.phase = .left then .ok s
    else do
      let s ← step hist prompt s r
      editLoop hist prompt reads s

/-- The variables and the loop. -/
def edit (hist : Hist) (prompt : CStr) (buf : CArray bufsize Char) (reads : List Read) :
    Except Fault (Editor bufsize) := do
  let s ← start hist buf
  editLoop hist prompt reads s

/-! ### The end of the function -/

/-- What a pointer to a string refers to, as the argument of `history_append`. -/
def argument {size : ℕ} (b : CArray size Char) : Except Fault CStr := do
  let s ← Lib.text nul b
  if h : nul ∉ s then .ok ⟨s, h⟩ else .error .unreachable

/-- `if (tl > 0 && tmp[tl - 1] == '\n') tmp[tl - 1] = 0` -/
def stripNewline (tmp : CArray lineSize Char) : Except Fault (CArray lineSize Char) := do
  let tl ← Lib.strlen nul tmp
  if 0 < tl then do
    let c ← tmp.read (tl - 1)
    if c = '\n' then tmp.write (tl - 1) nul else .ok tmp
  else .ok tmp

/-- A line that is not empty goes to the history, without its newline. -/
def record (opens : Bool) (hist : Hist) (buf : CArray bufsize Char) : Except Fault Hist := do
  let tmp ← Lib.strncpyCut nul (.blank : CArray lineSize Char) buf.read
  let tmp ← stripNewline tmp
  let line ← argument tmp
  .ok (historyAppend opens hist line)

/-- What the function has done when it returns. -/
structure Answer (bufsize : ℕ) where
  /-- It returns `NULL`. -/
  null : Bool
  buf : CArray bufsize Char
  hist : Hist

/-- What is behind the loop. -/
def finish (opens : Bool) (hist : Hist) (s : Editor bufsize) : Except Fault (Answer bufsize) :=
  if s.gotEof ∧ s.len = 0 then .ok ⟨true, s.buf, hist⟩
  else do
    let buf ← s.buf.write s.len '\n' >>= fun buf => buf.write (s.len + 1) nul
    let hist ← if 1 < s.len + 1 then record opens hist buf else .ok hist
    .ok ⟨false, buf, hist⟩

/-! ### The function -/

/-- `fgets(buf, (int)bufsize, stdin)`.  The bytes that a failed call has taken by then are in
the array, without a terminator. -/
def fgets (hist : Hist) (buf : CArray bufsize Char) (stdin : Lib.File Char) :
    Except Fault (Answer bufsize) :=
  match (Lib.File.fgets '\n' bufsize stdin).1 with
  | .line l => do
    let buf ← Lib.memcpy buf (chars nul l) (l.length + 1)
    .ok ⟨false, buf, hist⟩
  | failed => do
    let buf ← Lib.memcpy buf (chars nul failed.taken) failed.taken.length
    .ok ⟨true, buf, hist⟩

/-- What standard input is: `tcgetattr` fails for anything but a terminal. -/
inductive Input
  | terminal (reads : List Read)
  | other (stdin : Lib.File Char)

/-- `history_read_line`; without a result while it waits for a key. -/
def historyReadLine (opens : Bool) (hist : Hist) (prompt : CStr) (buf : CArray bufsize Char) :
    Input → Except Fault (Option (Answer bufsize))
  | .other stdin => do
    let answer ← fgets hist buf stdin
    .ok (some answer)
  | .terminal reads => do
    let s ← edit hist prompt buf reads
    if s.phase = .left then do
      let answer ← finish opens hist s
      .ok (some answer)
    else .ok none

end History
end RuShell
