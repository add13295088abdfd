import Mathlib.Data.List.TakeWhile
import Mathlib.Tactic

/-!
# The lexer of the shell

`lex_line` of `c-shell/src/lexer.c` turns one command line into a list of
tokens.  It walks the line with an index `i`; here the index is replaced by the
part of the line that is still to be read, so `line[*i]` is the head of that
list, `*i < n` says that it is not empty and `*i += 2` drops two characters.
The growing buffer `Buf` of the source is the list of the characters pushed so
far.  Allocation is taken to succeed.

## Main definitions

* `Token` — the tokens of `lexer.h`; only a word carries a value.
* `readWord` — one word, with its three inner loops `readEscape`, `readDouble`
  and `readSingle`.
* `lexLine` — the whole line, with its return value and what it prints.
-/

namespace RuShell

/-- The contents of a C string. -/
abbrev Str := List Char

/-- The terminator of a C string. -/
def nul : Char := Char.ofNat 0

/-- What `strlen` and every later index see of a buffer: the characters before
the terminator. -/
def cString (buf : Str) : Str := buf.takeWhile (· ≠ nul)

variable {buf : Str}

theorem cString_of_not_mem (h : nul ∉ buf) : cString buf = buf := by
  unfold cString
  rw [List.takeWhile_eq_self_iff]
  intro c hc
  exact decide_eq_true fun hnul => h (hnul ▸ hc)

/-- A token.  The source pairs a `TokenType` with a `value` pointer that is
`NULL` unless the type is `TOK_WORD`. -/
inductive Token
  /-- `TOK_WORD` and its value. -/
  | word (value : Str)
  /-- `|` -/
  | pipe
  /-- `&` -/
  | amp
  /-- `;` -/
  | semi
  /-- `<` -/
  | lt
  /-- `>` -/
  | gt
  /-- `>>` -/
  | gtgt
  /-- The end of the line. -/
  | eof
  deriving DecidableEq, Repr, Inhabited

/-- The linked list of tokens, with its head, tail and count. -/
abbrev TokenList := List Token

namespace Lexer

/-- The operator characters. -/
def isSpecial (c : Char) : Bool :=
  c == '|' || c == '&' || c == '>' || c == '<' || c == ';'

/-- The characters between words. -/
def isSpace (c : Char) : Bool :=
  c == ' ' || c == '\t' || c == '\n' || c == '\r'

/-- A character at which an unquoted word ends. -/
def endsWord (c : Char) : Bool := isSpace c || isSpecial c

/-! ### Reading one word

Each reader takes the rest of the line and the buffer, and returns what is left
of the line together with the buffer, or `none` where the source returns `-1`. -/

/-- After a backslash outside quotes: the next character is taken as it is. -/
def readEscape : Str → Str → Option (Str × Str)
  | [], _ => none
  | c :: rest, buf => some (rest, buf ++ [c])

/-- The loop behind an opening double quote, up to and with the closing one. -/
def readDouble : Str → Str → Option (Str × Str)
  | [], _ => none
  | c :: rest, buf =>
    if c = '"' then some (rest, buf)
    else if c = '\\' then
      match rest with
      | [] => none
      | nc :: rest' =>
        if nc = '"' ∨ nc = '\\' then readDouble rest' (buf ++ [nc])
        else readDouble rest' (buf ++ ['\\', nc])
    else readDouble rest (buf ++ [c])

@[simp] theorem readDouble_close (rest buf : Str) :
    readDouble ('"' :: rest) buf = some (rest, buf) := by
  rw [readDouble.eq_def]
  simp

variable {c : Char} {s r : Str}

/-- The loop behind an opening single quote, up to and with the closing one. -/
def readSingle : Str → Str → Option (Str × Str)
  | [], _ => none
  | c :: rest, buf =>
    if c = '\'' then some (rest, buf) else readSingle rest (buf ++ [c])

variable {buf' : Str}

theorem readEscape_length (h : readEscape s buf = some (r, buf')) :
    r.length < s.length := by
  cases s with
  | nil => simp [readEscape] at h
  | cons c rest =>
    simp only [readEscape, Option.some.injEq, Prod.mk.injEq] at h
    simp [← h.1]

theorem readDouble_length (h : readDouble s buf = some (r, buf')) :
    r.length < s.length := by
  fun_induction readDouble s buf with
  | case1 | case3 => simp at h
  | case2 => simp_all
  | case4 buf _ nc rest' hnc ih | case5 buf _ nc rest' hnc ih | case6 c rest buf hq hb ih =>
    have := ih h
    simp only [List.length_cons]
    omega

theorem readSingle_length (h : readSingle s buf = some (r, buf')) :
    r.length < s.length := by
  fun_induction readSingle s buf with
  | case1 => simp at h
  | case2 => simp_all
  | case3 c rest buf hq ih =>
    have := ih h
    simp only [List.length_cons]
    omega

/-- One piece of a word that starts with the character `c`, which does not end
the word. -/
def readFragment (c : Char) (rest buf : Str) : Option (Str × Str) :=
  if c = '\\' then readEscape rest buf
  else if c = '"' then readDouble rest buf
  else if c = '\'' then readSingle rest buf
  else some (rest, buf ++ [c])

theorem readFragment_length (h : readFragment c s buf = some (r, buf')) :
    r.length < (c :: s).length := by
  unfold readFragment at h
  rw [List.length_cons]
  split_ifs at h with h1 h2 h3
  · exact Nat.lt_succ_of_lt (readEscape_length h)
  · exact Nat.lt_succ_of_lt (readDouble_length h)
  · exact Nat.lt_succ_of_lt (readSingle_length h)
  · simp only [Option.some.injEq, Prod.mk.injEq] at h
    rw [h.1]
    exact Nat.lt_succ_self _

/-- The word loop: it stops in front of a blank or an operator, or at the end of
the line. -/
def readWord (line buf : Str) : Option (Str × Str) :=
  match line with
  | [] => some ([], buf)
  | c :: rest =>
    if endsWord c then some (c :: rest, buf)
    else
      match _h : readFragment c rest buf with
      | none => none
      | some (rest', buf') => readWord rest' buf'
termination_by line.length
decreasing_by exact readFragment_length ‹_›

theorem readWord_length_le (h : readWord s buf = some (r, buf')) :
    r.length ≤ s.length := by
  fun_induction readWord s buf with
  | case1 | case2 | case3 => simp_all
  | case4 buf c rest hc rest' buf1 hf ih =>
    exact (ih h).trans (readFragment_length hf).le

/-- A word that starts at a character which does not end it uses up at least
that character. -/
theorem readWord_length_lt (hc : endsWord c = false)
    (h : readWord (c :: s) buf = some (r, buf')) : r.length < (c :: s).length := by
  rw [readWord] at h
  rw [if_neg (by simp [hc])] at h
  split at h
  · simp at h
  · next rest' buf1 hf => exact (readWord_length_le h).trans_lt (readFragment_length hf)

/-! ### Reading the line -/

/-- The text `lex_error` prints. -/
def lexError : String := "cshell: invalid syntax\n"

/-- What a call of `lex_line` gives back: its return value, the list behind its
out-parameter and the text it prints. -/
structure Result where
  /-- The return value. -/
  ret : ℤ
  /-- `*out` after the call. -/
  out : TokenList
  /-- Standard output. -/
  printed : String
  deriving DecidableEq, Repr

/-- The main loop.  `out` holds the tokens appended so far, `none` stands for
the exit through `lex_error`. -/
def lexLoop (line : Str) (out : TokenList) : Option TokenList :=
  match line with
  | [] => some (out ++ [.eof])
  | c :: rest =>
    if isSpace c then lexLoop rest out
    else if c = '|' then lexLoop rest (out ++ [.pipe])
    else if c = '&' then lexLoop rest (out ++ [.amp])
    else if c = ';' then lexLoop rest (out ++ [.semi])
    else if c = '<' then lexLoop rest (out ++ [.lt])
    else if c = '>' then
      -- `i + 1 < n && line[i + 1] == '>'`
      if rest.head? = some '>' then lexLoop rest.tail (out ++ [.gtgt])
      else lexLoop rest (out ++ [.gt])
    else
      match h : readWord (c :: rest) [] with
      | none => none
      | some (rest', buf) => lexLoop rest' (out ++ [.word buf])
termination_by line.length
decreasing_by
  · simp
  · simp
  · simp
  · simp
  · simp
  · simp only [List.length_tail, List.length_cons]
    omega
  · simp
  · refine readWord_length_lt ?_ h
    simp_all [endsWord, isSpecial]

/-- `lex_line`: `0` and the tokens, or `-1`, an empty list and the message. -/
def lexLine (line : Str) : Result :=
  match lexLoop (cString line) [] with
  | some ts => { ret := 0, out := ts, printed := "" }
  | none => { ret := -1, out := [], printed := lexError }

end Lexer
end RuShell
