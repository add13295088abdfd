import RuShell.LexGrammar

/-!
# Writing a token list down and reading it back

Three quoting disciplines protect the text of a word: single quotes, double
quotes with a backslash in front of every quote and backslash, and a backslash
in front of every character.  The lexer has one word loop for all three; it
undoes each of them, whatever the word holds.

## Main definitions

* `Quoting`, `Quoting.Admits`, `Quoting.write` — the disciplines, the words each
  of them can write, and the text it writes.
* `Spelling` — a token together with a discipline that can write it.
* `render` — the spellings of a line, separated by single blanks.

## Main results

* `Quoting.word_write` — what a discipline writes is a word of the lexical
  grammar with the value it was given.
* `lexes_render` — a rendered line is cut back into its tokens.
* `lexLine_render` — **every token list can be written and read back.**
-/

namespace RuShell
namespace Lexer

/-! ### The disciplines -/

/-- A way to write a word. -/
inductive Quoting
  /-- Between single quotes, as it is. -/
  | single
  /-- Between double quotes, with a backslash before each quote and backslash. -/
  | double
  /-- With a backslash before every character. -/
  | backslash
  deriving DecidableEq, Repr

namespace Quoting

/-- The words a discipline can write: single quotes cannot hold a single quote,
and backslashes alone cannot show an empty word. -/
def Admits : Quoting → Str → Prop
  | .single, v => '\'' ∉ v
  | .double, _ => True
  | .backslash, v => v ≠ []

instance (q : Quoting) (v : Str) : Decidable (q.Admits v) := by
  cases q <;> unfold Admits <;> infer_instance

/-- The text of one character between double quotes. -/
def escapeChar (c : Char) : Str := if c = '"' ∨ c = '\\' then ['\\', c] else [c]

/-- The text a discipline writes for a word. -/
def write : Quoting → Str → Str
  | .single, v => '\'' :: (v ++ ['\''])
  | .double, v => '"' :: (v.flatMap escapeChar ++ ['"'])
  | .backslash, v => v.flatMap fun c => ['\\', c]

/-- Escaped text stands for the text it was made from. -/
theorem dqText_escape (v : Str) : DqText (v.flatMap escapeChar) v := by
  induction v with
  | nil => exact .nil
  | cons c v ih =>
    rw [List.flatMap_cons]
    by_cases hc : c = '"' ∨ c = '\\'
    · rw [escapeChar, if_pos hc]
      exact .escape hc ih
    · rw [escapeChar, if_neg hc]
      rw [not_or] at hc
      exact .plain hc.1 hc.2 ih

/-- A backslash before every character makes one fragment of each. -/
theorem fragments_backslash (v : Str) : Fragments (v.flatMap fun c => ['\\', c]) v := by
  induction v with
  | nil => exact .nil
  | cons c v ih =>
    rw [List.flatMap_cons]
    exact .cons (.escape c) ih

/-- **What a discipline writes is a word with the value it was given.** -/
theorem word_write {q : Quoting} {v : Str} (h : q.Admits v) : Word (q.write v) v := by
  cases q with
  | single =>
    have hw : Word ('\'' :: (v ++ ['\'']) ++ []) (v ++ []) := .mk (.single h) .nil
    rwa [List.append_nil, List.append_nil] at hw
  | double =>
    have hw : Word ('"' :: (v.flatMap escapeChar ++ ['"']) ++ []) (v ++ []) :=
      .mk (.double (dqText_escape v)) .nil
    rwa [List.append_nil, List.append_nil] at hw
  | backslash =>
    cases v with
    | nil => exact absurd rfl h
    | cons c v =>
      show Word ((c :: v).flatMap fun c => ['\\', c]) (c :: v)
      rw [List.flatMap_cons]
      exact .mk (.escape c) (fragments_backslash v)

/-- No discipline writes a terminator of its own. -/
theorem nul_not_mem_write (q : Quoting) {v : Str} (h : nul ∉ v) : nul ∉ q.write v := by
  have hq : nul ≠ '\'' ∧ nul ≠ '"' ∧ nul ≠ '\\' := by decide
  obtain ⟨h1, h2, h3⟩ := hq
  intro hm
  cases q with
  | single => simp [write, h1, h] at hm
  | double =>
    simp only [write, List.mem_cons, List.mem_append, List.mem_flatMap, h2, List.not_mem_nil,
      or_false, false_or] at hm
    obtain ⟨c, hc, hn⟩ := hm
    have hne : nul ≠ c := fun e => h (e ▸ hc)
    unfold escapeChar at hn
    split at hn <;> simp [h3, hne] at hn
  | backslash =>
    simp only [write, List.mem_flatMap, List.mem_cons, h3, List.not_mem_nil, or_false,
      false_or] at hm
    obtain ⟨c, hc, rfl⟩ := hm
    exact h hc

end Quoting

/-! ### A line of spellings -/

/-- A token that has a written form: not `eof`, and no terminator inside a word. -/
def Writable (t : Token) : Prop := t ≠ .eof ∧ ∀ v, t = .word v → nul ∉ v

/-- A token and a discipline that can write it.  The discipline of an operator
is not looked at. -/
structure Spelling where
  /-- The token that is written. -/
  token : Token
  /-- How it is written if it is a word. -/
  quoting : Quoting
  /-- The token has a written form. -/
  writable : Writable token
  /-- The discipline can write the word. -/
  admits : ∀ v, token = .word v → quoting.Admits v

/-- The text of a token: an operator as itself, a word in the discipline `q`. -/
def spell (q : Quoting) : Token → Str
  | .word v => q.write v
  | .pipe => ['|']
  | .amp => ['&']
  | .semi => [';']
  | .lt => ['<']
  | .gt => ['>']
  | .gtgt => ['>', '>']
  | .eof => []

/-- The text of one spelling. -/
def Spelling.text (w : Spelling) : Str := spell w.quoting w.token

/-- The line: the texts joined with single blanks. -/
def render (ws : List Spelling) : Str := [' '].intercalate (ws.map Spelling.text)

@[simp] theorem render_nil : render [] = [] := rfl

@[simp] theorem render_singleton (w : Spelling) : render [w] = w.text := by
  simp [render]

@[simp] theorem render_cons_cons (w w' : Spelling) (ws : List Spelling) :
    render (w :: w' :: ws) = w.text ++ ' ' :: render (w' :: ws) := by
  simp [render, List.intercalate_cons_cons]

/-- What stands behind a spelling: nothing, or a blank. -/
def Gap (rest : Str) : Prop := rest = [] ∨ ∃ r, rest = ' ' :: r

theorem Gap.atEnd {rest : Str} (h : Gap rest) : AtEnd rest := by
  obtain rfl | ⟨r, rfl⟩ := h
  · exact atEnd_nil
  · exact atEnd_cons (by decide)

theorem Gap.head_ne {rest : Str} (h : Gap rest) : rest.head? ≠ some '>' := by
  obtain rfl | ⟨r, rfl⟩ := h
  · simp
  · simp

/-- One spelling in front of a gap is read as its token. -/
theorem Spelling.lexes (w : Spelling) {rest : Str} {ts : TokenList} (hgap : Gap rest)
    (h : Lexes rest ts) : Lexes (w.text ++ rest) (w.token :: ts) := by
  obtain ⟨t, q, ⟨hne, -⟩, hadm⟩ := w
  show Lexes (spell q t ++ rest) (t :: ts)
  cases t with
  | word v => exact .word (Quoting.word_write (hadm v rfl)) hgap.atEnd.maximal h
  | pipe => exact .op .pipe h
  | amp => exact .op .amp h
  | semi => exact .op .semi h
  | lt => exact .op .lt h
  | gt => exact .gt hgap.head_ne h
  | gtgt => exact .gtgt h
  | eof => exact absurd rfl hne

/-- **A rendered line is cut back into its tokens.** -/
theorem lexes_render (ws : List Spelling) :
    Lexes (render ws) (ws.map Spelling.token ++ [.eof]) := by
  induction ws with
  | nil => exact .eof
  | cons w ws ih =>
    cases ws with
    | nil =>
      have h := w.lexes (.inl rfl) Lexes.eof
      rw [List.append_nil] at h
      rw [render_singleton]
      exact h
    | cons w' ws =>
      rw [render_cons_cons]
      exact w.lexes (.inr ⟨_, rfl⟩) (.space (by decide) ih)

theorem Spelling.nul_not_mem_text (w : Spelling) : nul ∉ w.text := by
  obtain ⟨t, q, ⟨-, hnul⟩, hadm⟩ := w
  show nul ∉ spell q t
  cases t with
  | word v => exact q.nul_not_mem_write (hnul v rfl)
  | _ => simp only [spell]; decide

theorem nul_not_mem_render (ws : List Spelling) : nul ∉ render ws := by
  induction ws with
  | nil => exact List.not_mem_nil
  | cons w ws ih =>
    cases ws with
    | nil => rw [render_singleton]; exact w.nul_not_mem_text
    | cons w' ws =>
      rw [render_cons_cons]
      refine List.not_mem_append w.nul_not_mem_text ?_
      rw [List.mem_cons, not_or]
      exact ⟨by decide, ih⟩

/-- Every writable list has a spelling: double quotes can hold any word. -/
theorem exists_spellings {ts : TokenList} (hts : ∀ t ∈ ts, Writable t) :
    ∃ ws : List Spelling, ws.map Spelling.token = ts := by
  induction ts with
  | nil => exact ⟨[], rfl⟩
  | cons t ts ih =>
    obtain ⟨ws, hws⟩ := ih fun u hu => hts u (List.mem_cons_of_mem t hu)
    refine ⟨⟨t, .double, hts t List.mem_cons_self, fun _ _ => trivial⟩ :: ws, ?_⟩
    rw [List.map_cons, hws]

/-- **Every token list can be written and read back.**  A list of tokens other
than `eof`, with words free of the terminator, has a spelling, and whichever
spelling is chosen for each token, `lex_line` of the rendered line returns `0`
and the list followed by `eof`. -/
theorem lexLine_render (ts : TokenList) (hts : ∀ t ∈ ts, Writable t) :
    (∃ ws : List Spelling, ws.map Spelling.token = ts) ∧
      ∀ ws : List Spelling, ws.map Spelling.token = ts →
        lexLine (render ws) = { ret := 0, out := ts ++ [.eof], printed := "" } := by
  refine ⟨exists_spellings hts, ?_⟩
  rintro ws rfl
  have hloop : lexLoop (render ws) [] = some (ws.map Spelling.token ++ [.eof]) :=
    lexLoop_eq_some_iff.mpr ⟨_, lexes_render ws, rfl⟩
  rw [lexLine, cString_of_not_mem (nul_not_mem_render ws), hloop]

/-- An empty word, a word made of a quote, a newline and an operator, and `>>`
between them. -/
theorem lexLine_render_quoted :
    (∀ t ∈ [Token.word [], .gtgt, .word ['"', '\n', '|']], Writable t) ∧
      lexLine ['\'', '\'', ' ', '>', '>', ' ', '"', '\\', '"', '\n', '|', '"'] =
        { ret := 0, out := [.word [], .gtgt, .word ['"', '\n', '|'], .eof], printed := "" } := by
  have hw : ∀ t ∈ [Token.word [], .gtgt, .word ['"', '\n', '|']], Writable t := by
    intro t ht
    simp only [List.mem_cons, List.not_mem_nil, or_false] at ht
    obtain rfl | rfl | rfl := ht <;> refine ⟨by decide, ?_⟩ <;> intro v h <;> cases h <;> decide
  refine ⟨hw, ?_⟩
  exact (lexLine_render _ hw).2
    [⟨.word [], .single, hw _ (by simp), by rintro v h; cases h; decide⟩,
      ⟨.gtgt, .single, hw _ (by simp), by rintro v h; cases h⟩,
      ⟨.word ['"', '\n', '|'], .double, hw _ (by simp), by rintro v h; cases h; decide⟩] rfl

end Lexer
end RuShell
