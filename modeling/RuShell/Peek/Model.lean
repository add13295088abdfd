import RuShell.Lexer
import RuShell.Lib.Lines
import RuShell.Lib.Reading

/-!
# The builtin `peek`

`peek` of `c-shell/src/peek.c` prints files, with `-n` numbering the lines that
are not empty and with `-r` in reverse order.  There are three readers: one
streams forwards, one walks backwards through a file in chunks, and one collects
the lines of a source that cannot be seeked.

A length or a capacity is an `int`.  Where the source adds or doubles one
without a test and the result does not fit, the size it hands to `malloc` or
`realloc` is negative, that is, a huge `size_t`; the allocation is refused and
`peek` prints `peek: out of memory` and calls `exit(1)`.  Every other allocation
is taken to succeed, and the line numbers, of type `long`, to be unbounded.
`int` has 32 bits.

## Main definitions

* `Printed` — one line as it goes to standard output, with its number.
* `peekForwardFd`, `peekReverseSeekFd`, `peekReverseBufferedFd` — the readers.
* `peekProcessSource`, `peekCommand` — one source, and the whole command.
-/

namespace RuShell
namespace Peek

open Lib

/-- `CHUNK_SIZE` -/
def chunkSize : ℕ := 4096

/-- `INITIAL_LINE_CAP` -/
def initialLineCap : ℕ := 128

/-- The largest `int`. -/
def intMax : ℕ := 2 ^ 31 - 1

/-- `PeekOptions`: the flags `-n` and `-r`. -/
structure PeekOptions where
  numbered : Bool
  reversed : Bool
  deriving DecidableEq, Repr

/-- A line and its number; `orig_number` is 0 until one is assigned. -/
structure PeekLine where
  data : Str
  origNumber : ℕ
  deriving DecidableEq, Repr

/-- The growing array of lines; its `count` is the length of `lines`. -/
structure PeekLineList where
  lines : List PeekLine
  cap : ℕ
  deriving DecidableEq, Repr

/-- What one line adds to standard output: a number and a space, unless the
number is 0, and the bytes of the line. -/
structure Printed where
  number : ℕ
  data : Str
  deriving DecidableEq, Repr

/-- The bytes that are written: `printf("%ld ", ...)` and `fwrite`. -/
def Printed.text (p : Printed) : Str :=
  (if 0 < p.number then Nat.toDigits 10 p.number ++ [' '] else []) ++ p.data

/-- How a function that reads a source ends. -/
inductive Ending
  /-- It returns 0. -/
  | ok
  /-- It returns -1. -/
  | failed
  /-- It calls `exit(1)`, after `peek: out of memory`. -/
  | exited
  deriving DecidableEq, Repr

/-! ### Arguments -/

/-- A flag is a hyphen and at least one of the letters `n` and `r`. -/
def peekIsFlagArg : Str → Bool
  | a :: c :: cs => a == '-' && (c :: cs).all fun p => p == 'n' || p == 'r'
  | _ => false

/-- One letter of a flag. -/
def setFlag (ops : PeekOptions) (p : Char) : PeekOptions :=
  if p = 'n' then { ops with numbered := true }
  else if p = 'r' then { ops with reversed := true }
  else ops

/-- The loop of `peek_parse_args` over the arguments after the first. -/
def parseLoop : List Str → PeekOptions → List Str → Option (PeekOptions × List Str)
  | [], ops, filenames => some (ops, filenames)
  | arg :: args, ops, filenames =>
    if peekIsFlagArg arg then parseLoop args (arg.tail.foldl setFlag ops) filenames
    else if arg.head? = some '-' ∧ arg.tail ≠ [] then none
    else parseLoop args ops (filenames ++ [arg])

/-- The options and the file names, or `none` for a return value of -1. -/
def peekParseArgs (argv : List Str) : Option (PeekOptions × List Str) :=
  parseLoop argv.tail ⟨false, false⟩ []

/-! ### Lines -/

/-- `peek_linelist_init` -/
def peekLinelistInit : PeekLineList := ⟨[], 0⟩

/-- `none` stands for `exit(1)`: the doubled capacity is not an `int`. -/
def peekLinelistPush (ll : PeekLineList) (data : Str) : Option PeekLineList :=
  if ll.lines.length = ll.cap then
    let newCap := if ll.cap = 0 then initialLineCap else ll.cap * 2
    if intMax < newCap then none else some ⟨ll.lines ++ [⟨data, 0⟩], newCap⟩
  else some { ll with lines := ll.lines ++ [⟨data, 0⟩] }

/-- `peek_line_is_nonempty`: the lines that get a number. -/
def peekLineIsNonempty (data : Str) : Bool :=
  if data.length = 0 then false
  else if data.length = 1 ∧ data.head? = some '\n' then false
  else true

/-- The loop of `peek_linelist_assign_numbers` in the order of the array. -/
def assignNumbers : List PeekLine → ℕ → List PeekLine × ℕ
  | [], no => ([], no)
  | ln :: lines, no =>
    if peekLineIsNonempty ln.data then
      ({ ln with origNumber := no + 1 } :: (assignNumbers lines (no + 1)).1,
        (assignNumbers lines (no + 1)).2)
    else (ln :: (assignNumbers lines no).1, (assignNumbers lines no).2)

/-- The numbers are assigned from the front of the array if it is in forward
order, and from its back if it is not. -/
def peekLinelistAssignNumbers (ll : PeekLineList) (storedInForwardOrder : Bool)
    (runningNo : ℕ) : PeekLineList × ℕ :=
  if storedInForwardOrder then
    let (lines, no) := assignNumbers ll.lines runningNo
    ({ ll with lines }, no)
  else
    let (lines, no) := assignNumbers ll.lines.reverse runningNo
    ({ ll with lines := lines.reverse }, no)

/-- `peek_print_line` -/
def peekPrintLine (ops : PeekOptions) (ln : PeekLine) : Printed :=
  ⟨if ops.numbered && 0 < ln.origNumber then ln.origNumber else 0, ln.data⟩

/-- The line that is printed, and the running number after it. -/
def printAndMaybeNumber (data : Str) (ops : PeekOptions) (runningNo : ℕ) : Printed × ℕ :=
  if ops.numbered && peekLineIsNonempty data then (⟨runningNo + 1, data⟩, runningNo + 1)
  else (⟨0, data⟩, runningNo)

/-! ### Streaming forwards -/

/-- The variables of `peek_forward_fd` that live from one read to the next. -/
structure Stream where
  pending : Str
  runningNo : ℕ
  printed : List Printed
  deriving DecidableEq, Repr

/-- `print_and_maybe_number` on the variables of the loop. -/
def Stream.print (s : Stream) (ops : PeekOptions) (data : Str) : Stream :=
  let (line, no) := printAndMaybeNumber data ops s.runningNo
  { s with runningNo := no, printed := s.printed ++ [line] }

/-- The `for` loop over one buffer and what follows it; `seg` holds the bytes
from `start` on.  An error is `exit(1)`. -/
def forwardScan (ops : PeekOptions) : Str → Str → Stream → Except Stream Stream
  | [], seg, s =>
    if 0 < seg.length then
      if intMax < s.pending.length + seg.length then .error s
      else .ok { s with pending := s.pending ++ seg }
    else .ok s
  | c :: buf, seg, s =>
    if c = '\n' then
      if 0 < s.pending.length then
        if intMax < s.pending.length + (seg.length + 1) then .error s
        else
          forwardScan ops buf []
            { s.print ops (s.pending ++ (seg ++ [c])) with pending := [] }
      else forwardScan ops buf [] (s.print ops (seg ++ [c]))
    else forwardScan ops buf (seg ++ [c]) s

/-- The `while` loop and what follows it. -/
def forwardLoop (ops : PeekOptions) (fd : Reader Char) (s : Stream) :
    Stream × Ending × Reader Char :=
  match _ : fd.read chunkSize with
  | (.data [], fd') =>
    (if 0 < s.pending.length then s.print ops s.pending else s, .ok, fd')
  | (.eintr, fd') => forwardLoop ops fd' s
  | (.fail, fd') => (s, .failed, fd')
  | (.data (c :: buf), fd') =>
    match forwardScan ops (c :: buf) [] s with
    | .error s => (s, .exited, fd')
    | .ok s => forwardLoop ops fd' s
termination_by fd.left
decreasing_by
  · exact Reader.read_left ‹_› (.inl rfl)
  · exact Reader.read_left ‹_› (.inr ⟨c, buf, rfl⟩)

/-- What a source is left as: the lines printed, the running number, how the
reader ended, and the descriptor. -/
structure Outcome where
  printed : List Printed
  runningNo : ℕ
  ending : Ending
  fd : Reader Char

/-- `peek_forward_fd` -/
def peekForwardFd (fd : Reader Char) (ops : PeekOptions) (runningNo : ℕ) : Outcome :=
  let (s, ending, fd) := forwardLoop ops fd ⟨[], runningNo, []⟩
  ⟨s.printed, s.runningNo, ending, fd⟩

/-! ### Collecting lines -/

/-- Room for one more byte in a buffer of `cap` bytes, `len` of them used: the
capacity, doubled if need be.  `none` is `exit(1)`. -/
def growBuf (cap len : ℕ) : Option ℕ :=
  if cap < len + 1 then
    if intMax < cap * 2 then none else some (cap * 2)
  else some cap

/-- The loop of `read_line_fd`: the line, whether any byte was read, and the
descriptor.  `none` is `exit(1)`. -/
def readLineLoop (fd : Reader Char) (buf : Str) (cap : ℕ) (gotAny : Bool) :
    Option (Str × Bool × Reader Char) :=
  match _ : fd.read 1 with
  | (.eintr, fd') => readLineLoop fd' buf cap gotAny
  | (.fail, fd') => some ([], gotAny, fd')
  | (.data [], fd') => some (buf, gotAny, fd')
  | (.data (c :: _), fd') =>
    match growBuf cap buf.length with
    | none => none
    | some cap =>
      if c = '\n' then some (buf ++ [c], true, fd')
      else readLineLoop fd' (buf ++ [c]) cap true
termination_by fd.left
decreasing_by
  · exact Reader.read_left ‹_› (.inl rfl)
  · exact Reader.read_left ‹_› (.inr ⟨_, _, rfl⟩)

/-- `read_line_fd`, with its first buffer of 256 bytes. -/
def readLineFd (fd : Reader Char) : Option (Str × Bool × Reader Char) :=
  readLineLoop fd [] 256 false

/-- A call of `read_line_fd` that got something used something up. -/
theorem readLineLoop_left (fd : Reader Char) (buf : Str) (cap : ℕ) (gotAny : Bool) :
    ∀ line got fd', readLineLoop fd buf cap gotAny = some (line, got, fd') →
      fd'.left ≤ fd.left ∧ (gotAny = false → got = true → fd'.left < fd.left) := by
  fun_induction readLineLoop fd buf cap gotAny with
  | case1 fd buf cap gotAny fd' hread ih =>
    intro line got fd'' h
    have hlt : fd'.left < fd.left := Reader.read_left hread (.inl rfl)
    have := ih line got fd'' h
    grind
  | case2 fd buf cap gotAny fd' hread | case3 fd buf cap gotAny fd' hread =>
    intro line got fd'' h
    have := Reader.read_left_le hread
    grind
  | case4 => nofun
  | case5 fd buf cap gotAny tail fd' cap' hgrow hread =>
    intro line got fd'' h
    have hlt := Reader.read_left hread (.inr ⟨_, _, rfl⟩)
    grind
  | case6 fd buf cap gotAny c tail fd' hread cap' hgrow hc ih =>
    intro line got fd'' h
    have hlt := Reader.read_left hread (.inr ⟨_, _, rfl⟩)
    have := ih line got fd'' h
    grind

/-- The loop of `peek_reverse_buffered_fd`; `none` is `exit(1)`. -/
def bufferedLoop (fd : Reader Char) (ll : PeekLineList) :
    Option (PeekLineList × Reader Char) :=
  match _ : readLineFd fd with
  | none => none
  | some (_, false, fd') => some (ll, fd')
  | some (line, true, fd') =>
    match peekLinelistPush ll line with
    | none => none
    | some ll => bufferedLoop fd' ll
termination_by fd.left
decreasing_by
  exact (readLineLoop_left fd [] 256 false line true fd' ‹_›).2 rfl rfl

/-- A list that was built, the running number, how the reader ended, and the
descriptor. -/
structure Listing where
  ll : PeekLineList
  runningNo : ℕ
  ending : Ending
  fd : Reader Char

/-- `peek_reverse_buffered_fd`: all lines are read, then numbered in order. -/
def peekReverseBufferedFd (fd : Reader Char) (ll : PeekLineList) (runningNo : ℕ) : Listing :=
  match bufferedLoop fd ll with
  | none => ⟨ll, runningNo, .exited, fd⟩
  | some (ll, fd) =>
    let (ll, no) := peekLinelistAssignNumbers ll true runningNo
    ⟨ll, no, .ok, fd⟩

/-! ### Walking backwards -/

/-- What `lseek` says about an open file. -/
structure Seeking where
  /-- Whether `lseek(fd, 0, SEEK_CUR)` succeeds. -/
  cur : Bool
  /-- What `lseek(fd, 0, SEEK_END)` returns, if it succeeds. -/
  size : Option ℕ
  /-- Whether `lseek(fd, pos, SEEK_SET)` succeeds. -/
  set : Bool
  deriving DecidableEq, Repr

/-- The loop that fills `chunk`; `none` is a return value of -1. -/
def fillChunk (toRead : ℕ) (fd : Reader Char) (chunk : Str) : Option (Str × Reader Char) :=
  if chunk.length < toRead then
    match _ : fd.read (toRead - chunk.length) with
    | (.eintr, fd') => fillChunk toRead fd' chunk
    | (.fail, _) => none
    | (.data [], fd') => some (chunk, fd')
    | (.data (c :: p), fd') => fillChunk toRead fd' (chunk ++ c :: p)
  else some (chunk, fd)
termination_by fd.left
decreasing_by
  · exact Reader.read_left ‹_› (.inl rfl)
  · exact Reader.read_left ‹_› (.inr ⟨_, _, rfl⟩)

/-- The loop over `combined` from its last byte to its first; `seg` holds the
bytes from `i + 1` up to `seg_end`.  The result is the list and the bytes before
`seg_end`; `none` is `exit(1)`. -/
def scanBack : Str → Str → PeekLineList → Option (PeekLineList × Str)
  | [], seg, ll => some (ll, seg)
  | c :: before, seg, ll =>
    if c = '\n' then
      if 0 < seg.length then
        match peekLinelistPush ll seg with
        | none => none
        | some ll => scanBack before [c] ll
      else scanBack before [c] ll
    else scanBack before (c :: seg) ll

/-- How much is read before the offset `pos`: a chunk, or all there is. -/
def toRead (pos : ℕ) : ℕ := if chunkSize ≤ pos then chunkSize else pos

theorem toRead_pos {pos : ℕ} (h : 0 < pos) : 0 < toRead pos := by
  unfold toRead chunkSize
  split <;> omega

theorem toRead_le (pos : ℕ) : toRead pos ≤ pos := by
  unfold toRead
  split <;> omega

/-- The `while` loop over the chunks, from the end of the file. -/
def seekLoop (sk : Seeking) (fd : Reader Char) (pos : ℕ) (tail : Str) (ll : PeekLineList) :
    PeekLineList × Ending × Reader Char :=
  if 0 < pos then
    let pos' := pos - toRead pos
    if sk.set then
      match fillChunk (toRead pos) (fd.seek pos') [] with
      | none => (ll, .failed, fd)
      | some (chunk, fd) =>
        if intMax < chunk.length + tail.length then (ll, .exited, fd)
        else
          match scanBack (chunk ++ tail).reverse [] ll with
          | none => (ll, .exited, fd)
          | some (ll, seg) =>
            if pos' = 0 then
              if 0 < seg.length then
                match peekLinelistPush ll seg with
                | none => (ll, .exited, fd)
                | some ll => seekLoop sk fd pos' [] ll
              else seekLoop sk fd pos' [] ll
            else seekLoop sk fd pos' seg ll
    else (ll, .failed, fd)
  else (ll, .ok, fd)
termination_by pos
decreasing_by all_goals exact Nat.sub_lt ‹_› (toRead_pos ‹_›)

/-- `peek_reverse_seek_fd`.  Where the end of the file cannot be found the lines
are collected instead, and then the list is in forward order. -/
def peekReverseSeekFd (sk : Seeking) (fd : Reader Char) (ll : PeekLineList)
    (runningNo : ℕ) : Listing :=
  match sk.size with
  | none =>
    if sk.set then peekReverseBufferedFd (fd.seek 0) ll runningNo
    else ⟨ll, runningNo, .failed, fd⟩
  | some 0 => ⟨ll, runningNo, .ok, fd⟩
  | some (n + 1) =>
    match seekLoop sk fd (n + 1) [] ll with
    | (ll, .ok, fd) =>
      let (ll, no) := peekLinelistAssignNumbers ll false runningNo
      ⟨ll, no, .ok, fd⟩
    | (ll, ending, fd) => ⟨ll, runningNo, ending, fd⟩

/-! ### Sources and the command -/

/-- `peek_fd_is_seekable`: `lseek` with `SEEK_CUR` works. -/
def peekFdIsSeekable (sk : Seeking) : Bool := sk.cur

/-- What `stat` and `open` find under a name. -/
inductive Opening
  /-- `stat` fails. -/
  | missing
  | directory
  /-- `open` fails. -/
  | refused
  /-- A file with its contents. -/
  | file (sk : Seeking) (content : Str)
  deriving DecidableEq, Repr

/-- The part of `peek_process_source` after the source is open. -/
def processFd (isStdin : Bool) (sk : Seeking) (fd : Reader Char) (ops : PeekOptions)
    (runningNo : ℕ) : Outcome :=
  if ops.reversed then
    if !isStdin && peekFdIsSeekable sk then
      let r := peekReverseSeekFd sk fd peekLinelistInit runningNo
      -- nothing is printed once `exit` has been called
      ⟨if r.ending = .exited then [] else r.ll.lines.map (peekPrintLine ops),
        r.runningNo, r.ending, r.fd⟩
    else
      let r := peekReverseBufferedFd fd peekLinelistInit runningNo
      ⟨if r.ending = .exited then [] else r.ll.lines.reverse.map (peekPrintLine ops),
        r.runningNo, r.ending, r.fd⟩
  else peekForwardFd fd ops runningNo

/-- The state of the command between two sources. -/
structure Progress where
  /-- What each source printed to standard output. -/
  printed : List (List Printed)
  /-- The messages on standard error. -/
  errors : List Str
  runningNo : ℕ
  anyError : Bool
  /-- Whether `exit(1)` has been called. -/
  exited : Bool
  /-- The contents of standard input and how much of it has been read. -/
  stdin : Str × ℕ

/-- What the command finds when it runs. -/
structure World where
  /-- What is found under a name. -/
  files : Str → Opening
  /-- How the reads from the `i`-th source go. -/
  moods : ℕ → List Mood

/-- A source that cannot be opened. -/
def Progress.fail (p : Progress) (message : String) : Progress :=
  { p with printed := p.printed ++ [[]], errors := p.errors ++ [message.toList],
           anyError := true }

/-- A source that has been read. -/
def Progress.add (p : Progress) (o : Outcome) : Progress :=
  { p with
    printed := p.printed ++ [o.printed]
    errors := if o.ending = .exited then p.errors ++ ["peek: out of memory\n".toList]
              else p.errors
    runningNo := o.runningNo
    anyError := p.anyError || o.ending != .ok
    exited := o.ending == .exited }

/-- One call of `peek_process_source`, for the `i`-th source; `none` as a name is
standard input. -/
def peekProcessSource (w : World) (i : ℕ) (name : Option Str) (ops : PeekOptions)
    (p : Progress) : Progress :=
  match name with
  | none =>
    let o := processFd true ⟨false, none, false⟩ ⟨p.stdin.1, p.stdin.2, w.moods i⟩ ops
      p.runningNo
    { p.add o with stdin := (p.stdin.1, o.fd.pos) }
  | some name =>
    match w.files name with
    | .missing => p.fail "peek: no such file or directory\n"
    | .directory => p.fail "peek: is a directory\n"
    | .refused => p.fail "peek: no such file or directory\n"
    | .file sk content => p.add (processFd false sk ⟨content, 0, w.moods i⟩ ops p.runningNo)

/-- The loop over the file names. -/
def sourceLoop (w : World) (ops : PeekOptions) : ℕ → List Str → Progress → Progress
  | _, [], p => p
  | i, name :: names, p =>
    let p := peekProcessSource w i (if name = ['-'] then none else some name) ops p
    if p.exited then p else sourceLoop w ops (i + 1) names p

/-- What the command leaves behind: the lines that each source printed, the
messages on standard error and whether the status is 1. -/
structure Result where
  printed : List (List Printed)
  errors : List Str
  anyError : Bool
  exited : Bool

/-- `peek_command`, with the contents of standard input. -/
def peekCommand (w : World) (stdin : Str) (argv : List Str) : Result :=
  match peekParseArgs argv with
  | none => ⟨[[⟨0, "peek: invalid syntax\n".toList⟩]], [], true, false⟩
  | some (ops, filenames) =>
    let p : Progress := ⟨[], [], 0, false, false, (stdin, 0)⟩
    let p :=
      if filenames = [] then peekProcessSource w 0 none ops p
      else sourceLoop w ops 0 filenames p
    ⟨p.printed, p.errors, p.anyError, p.exited⟩

/-! ### What is to be printed -/

/-- The lines of a source in reading order, the `k`-th one that is not empty with
the number `no + k`. -/
def listing (ops : PeekOptions) (no : ℕ) (lines : List Str) : List Printed :=
  lines.mapIdx fun i line =>
    ⟨if ops.numbered && peekLineIsNonempty line
      then no + (lines.take (i + 1)).countP peekLineIsNonempty else 0, line⟩

/-- The lines of a file. -/
abbrev linesIn (content : Str) : List Str := linesOf '\n' content

@[simp] theorem listing_nil (ops : PeekOptions) (no : ℕ) : listing ops no [] = [] := rfl

/-- The first line takes the next number, and the others go on from there. -/
theorem listing_cons (ops : PeekOptions) (no : ℕ) (line : Str) (lines : List Str) :
    listing ops no (line :: lines) =
      ⟨if ops.numbered && peekLineIsNonempty line then no + 1 else 0, line⟩ ::
        listing ops (no + if peekLineIsNonempty line then 1 else 0) lines := by
  unfold listing
  rw [List.mapIdx_cons]
  refine congrArg₂ List.cons ?_ ?_
  · cases h : peekLineIsNonempty line <;> simp [h]
  · refine congrArg (fun f => lines.mapIdx f) (funext fun i => funext fun l => ?_)
    simp only [List.take_succ_cons, List.countP_cons]
    refine congrArg₂ Printed.mk ?_ rfl
    split
    · split <;> omega
    · rfl

end Peek
end RuShell
