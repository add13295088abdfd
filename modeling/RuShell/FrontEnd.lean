import RuShell.Limits

/-!
# From a command line to its dispatches

The part of `main` of `shell.c` between reading a line and its last dispatch:
`lex_line`, `parse_validate` and the loop over the segments with its arrays, one after
the other.

## Main results

* `commandLine_spec` — every line is run as its tree, within the limits, or refused with a
  message.
-/

namespace RuShell
namespace Segment

open RuShell.Lexer RuShell.Parser RuShell.Lib

/-- What `main` does with a line; nothing if the shell leaves. -/
def commandLine (results : ℕ → ℤ) (command : Str) : Except Fault (Option LineRun) :=
  if command = "exit()".toList then .ok none
  else if (lexLine command).ret ≠ 0 then .ok (some { printed := (lexLine command).printed })
  else if parseValidate (lexLine command).out = false then
    .ok (some { printed := "cshell: invalid syntax\n" })
  else if command.length = 0 then .ok (some {})
  else (mainLoop results (lexLine command).out 0).map some

variable {results : ℕ → ℤ} {line : Str} {l : Line}

/-- A line that reads as the tokens of a tree is run by the loops over the arrays. -/
theorem commandLine_of_lexes (hnul : nul ∉ line) (hexit : line ≠ "exit()".toList)
    (h : Lexes line (l.tokens ++ [.eof])) :
    commandLine results line = .ok (some (runLine results (l.tokens ++ [.eof]) 0)) := by
  have hloop : lexLoop line [] = some (l.tokens ++ [.eof]) := lexLoop_eq_some_iff.mpr ⟨_, h, rfl⟩
  have hlex : lexLine line = { ret := 0, out := l.tokens ++ [.eof], printed := "" } := by
    rw [lexLine, cString_of_not_mem hnul, hloop]
  obtain ⟨ts, heof, hts⟩ := lexShape_of_lexes h
  rw [← List.append_cancel_right hts] at heof
  have hvalid : parseValidate (l.tokens ++ [.eof]) = true :=
    (parseValidate_append_eof heof).mpr ⟨l, rfl⟩
  rw [commandLine, if_neg hexit]
  simp only [hlex, hvalid, ne_eq, not_true_eq_false, if_false, Bool.true_eq_false]
  by_cases hempty : line.length = 0
  · -- an empty line has the empty tree
    rw [List.eq_nil_of_length_eq_zero hempty, lexLoop, Option.some.injEq] at hloop
    rw [if_pos hempty, ← hloop, List.nil_append, runLine]
    simp
  · rw [if_neg hempty, mainLoop_eq_runLine _ _ _ (runLine_accepted _ _ _ hvalid)]
    rfl

/-- **Every line is run as its tree, within the limits, or refused.**  A line other than
`exit()` either reads as the tokens of a tree of the grammar, and no array of `main` is
exceeded on the way to its dispatches, which are the pipelines of that tree with all their
words and files, or nothing at all, exactly if it is within the limits; or it does not, and
`main` prints a message and dispatches nothing. -/
theorem commandLine_spec (results : ℕ → ℤ) (line : Str) (hnul : nul ∉ line)
    (hexit : line ≠ "exit()".toList) :
    (∀ l : Line, Lexes line (l.tokens ++ [.eof]) → ∃ r, commandLine results line = .ok (some r) ∧
      (WholeOrRejected results l r ↔ WithinLimits results l)) ∧
    ((¬ ∃ l : Line, Lexes line (l.tokens ++ [.eof])) →
      commandLine results line = .ok (some { printed := lexError }) ∨
        commandLine results line = .ok (some { printed := "cshell: invalid syntax\n" })) := by
  constructor
  · intro l hl
    exact ⟨_, commandLine_of_lexes hnul hexit hl, wholeOrRejected_iff results l⟩
  · intro htree
    rw [commandLine, if_neg hexit, lexLine, cString_of_not_mem hnul]
    cases hloop : lexLoop line [] with
    | none => exact .inl rfl
    | some ts =>
      obtain ⟨us, hlexes, rfl⟩ := lexLoop_eq_some_iff.mp hloop
      obtain ⟨ts, heof, rfl⟩ := lexShape_of_lexes hlexes
      have hinvalid : parseValidate (ts ++ [.eof]) = false := by
        rw [← Bool.not_eq_true, parseValidate_append_eof heof]
        rintro ⟨l, rfl⟩
        exact htree ⟨l, hlexes⟩
      exact .inr (by simp [hinvalid])

/-- The tree of `ls`. -/
def lsLine : Line := .cmds ⟨⟨"ls".toList, []⟩, []⟩ [] false

/-- The line `ls` is run as its tree. -/
theorem commandLine_spec_ls : Lexes "ls".toList (lsLine.tokens ++ [.eof]) ∧
    ∃ r, commandLine 0 "ls".toList = .ok (some r) ∧ WholeOrRejected 0 lsLine r := by
  have hloop : lexLoop "ls".toList [] = some (lsLine.tokens ++ [.eof]) := by decide +kernel
  obtain ⟨us, hlexes, hus⟩ := lexLoop_eq_some_iff.mp hloop
  obtain rfl : lsLine.tokens ++ [.eof] = us := hus
  obtain ⟨r, hr, hiff⟩ :=
    (commandLine_spec 0 "ls".toList (by decide) (by decide)).1 lsLine hlexes
  exact ⟨hlexes, r, hr, hiff.mpr (by decide)⟩

end Segment
end RuShell
