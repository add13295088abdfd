import RuShell.LexGrammar

/-!
# The command grammar and its recogniser

`parse_validate` of `c-shell/src/parser.c` looks at the tokens of a line one by
one and says whether they follow the grammar of command lines

    line     → empty | pipeline ((';' | '&') pipeline)* '&'?
    pipeline → stage ('|' stage)*
    stage    → WORD (WORD | ('<' | '>' | '>>') WORD)*

It is a flat loop: it never builds the tree, and only remembers where it is in
the token list.  The trees of the grammar are the types `Line`, `Pipeline` and
`Stage` below, and a token list is derivable when it is the yield of a tree.

## Main definitions

* `parseValidate`, `parseLoop` — the recogniser.
* `Item`, `Stage`, `Pipeline`, `Line` — the trees, each with its `tokens`.
* `LexShape` — the token lists `lex_line` produces.
* `Rest` — what can still follow inside a line once a stage has been started;
  the loop of `parse_validate` accepts exactly the yields of these.

## Main results

* `parseLoop_iff` — the loop accepts exactly what can follow a started stage.
* `parseValidate_iff_derivable` — **the parser accepts exactly its grammar.**
-/

namespace RuShell
namespace Parser

/-! ### The recogniser -/

/-- The `while(1)` loop at the token `curr`; the end of the list is a `NULL`
pointer.  Every operator looks one token ahead. -/
def parseLoop : TokenList → Bool
  | [] => true
  | .eof :: _ => true
  | .word _ :: rest => parseLoop rest
  | .lt :: .word _ :: rest => parseLoop rest
  | .lt :: _ => false
  | .gt :: .word _ :: rest => parseLoop rest
  | .gt :: _ => false
  | .gtgt :: .word _ :: rest => parseLoop rest
  | .gtgt :: _ => false
  | .semi :: .word _ :: rest => parseLoop rest
  | .semi :: _ => false
  | .pipe :: .word _ :: rest => parseLoop rest
  | .pipe :: _ => false
  -- a trailing `&` is fine, a trailing `;` is not
  | .amp :: [] => true
  | .amp :: .eof :: _ => true
  | .amp :: .word _ :: rest => parseLoop rest
  | .amp :: _ => false

/-- `parse_validate`; the return values `1` and `0` are `true` and `false`. -/
def parseValidate : TokenList → Bool
  | [] => true
  | .eof :: _ => true
  | .word _ :: rest => parseLoop rest
  | _ => false

/-! ### The grammar -/

/-- What may follow the command word of a stage. -/
inductive Item
  /-- An argument. -/
  | arg (w : Str)
  /-- `< file` -/
  | input (file : Str)
  /-- `> file` -/
  | output (file : Str)
  /-- `>> file` -/
  | append (file : Str)
  deriving DecidableEq, Repr

/-- The tokens of an item. -/
def Item.tokens : Item → TokenList
  | .arg w => [.word w]
  | .input f => [.lt, .word f]
  | .output f => [.gt, .word f]
  | .append f => [.gtgt, .word f]

/-- A stage: its command word and the items behind it. -/
structure Stage where
  /-- The first word. -/
  cmd : Str
  /-- The arguments and redirections, in source order. -/
  items : List Item
  deriving DecidableEq, Repr

/-- The tokens of a stage. -/
def Stage.tokens (s : Stage) : TokenList := .word s.cmd :: s.items.flatMap Item.tokens

/-- A pipeline has at least one stage. -/
structure Pipeline where
  /-- The first stage. -/
  first : Stage
  /-- The stages behind a `|`. -/
  more : List Stage
  deriving DecidableEq, Repr

/-- The stages of a pipeline, in order. -/
def Pipeline.stages (p : Pipeline) : List Stage := p.first :: p.more

/-- Stages, each behind its `|`. -/
def pipedTokens (ss : List Stage) : TokenList := ss.flatMap fun s => .pipe :: s.tokens

/-- The tokens of a pipeline. -/
def Pipeline.tokens (p : Pipeline) : TokenList := p.first.tokens ++ pipedTokens p.more

/-- What separates two pipelines. -/
inductive Sep
  /-- `;` -/
  | semi
  /-- `&` -/
  | amp
  deriving DecidableEq, Repr

/-- The token of a separator. -/
def Sep.token : Sep → Token
  | .semi => .semi
  | .amp => .amp

/-- Pipelines, each behind its separator. -/
def separatedTokens (ps : List (Sep × Pipeline)) : TokenList :=
  ps.flatMap fun p => p.1.token :: p.2.tokens

/-- A command line. -/
inductive Line
  /-- Nothing was typed. -/
  | empty
  /-- Pipelines and their separators, and whether a last `&` follows. -/
  | cmds (first : Pipeline) (more : List (Sep × Pipeline)) (amp : Bool)
  deriving DecidableEq, Repr

/-- The optional `&` at the end. -/
def ampTokens (amp : Bool) : TokenList := if amp then [.amp] else []

/-- The tokens of a line, without the final `eof`. -/
def Line.tokens : Line → TokenList
  | .empty => []
  | .cmds first more amp => first.tokens ++ separatedTokens more ++ ampTokens amp

/-- The shape of what `lex_line` returns: one `eof`, at the end. -/
def LexShape (toks : TokenList) : Prop := ∃ ts, .eof ∉ ts ∧ toks = ts ++ [.eof]

/-- The lexer only produces lists of that shape. -/
theorem lexShape_of_lexes {line : Str} {ts : TokenList} (h : Lexer.Lexes line ts) :
    LexShape ts := by
  -- every token in front of the final `eof` is an operator or a word
  have cons : ∀ {t : Token} {ts : TokenList}, t ≠ .eof → LexShape ts → LexShape (t :: ts) := by
    rintro t _ ht ⟨us, hu, rfl⟩
    exact ⟨t :: us, by simp [hu, Ne.symm ht], by simp⟩
  induction h with
  | eof => exact ⟨[], by simp, by simp⟩
  | space _ _ ih => exact ih
  | op ho _ ih => exact cons (by cases ho <;> simp) ih
  | gtgt _ ih | gt _ _ ih | word _ _ _ ih => exact cons (by simp) ih

/-! ### What can follow inside a line -/

/-- The rest of a line once the command word of a stage has been read: more
items of that stage, more stages of its pipeline, more pipelines, and the last
`&`.  This is the state invariant of the loop. -/
structure Rest where
  /-- The items still to come in the current stage. -/
  items : List Item
  /-- The stages still to come in the current pipeline. -/
  stages : List Stage
  /-- The pipelines still to come. -/
  pipelines : List (Sep × Pipeline)
  /-- Whether a last `&` follows. -/
  amp : Bool

/-- The tokens of what is still to come. -/
def Rest.tokens (r : Rest) : TokenList :=
  r.items.flatMap Item.tokens ++ pipedTokens r.stages ++ separatedTokens r.pipelines ++
    ampTokens r.amp

/-- The tree of a line whose first word and rest are known. -/
def Rest.line (w : Str) (r : Rest) : Line := .cmds ⟨⟨w, r.items⟩, r.stages⟩ r.pipelines r.amp

theorem Rest.line_tokens (w : Str) (r : Rest) : (r.line w).tokens = .word w :: r.tokens := by
  simp [Rest.line, Rest.tokens, Line.tokens, Pipeline.tokens, Stage.tokens]

/-- Another item of the current stage. -/
def Rest.consItem (i : Item) (r : Rest) : Rest := { r with items := i :: r.items }

/-- A stage with the command word `w` is started behind a `|`. -/
def Rest.consStage (w : Str) (r : Rest) : Rest :=
  { r with items := [], stages := ⟨w, r.items⟩ :: r.stages }

/-- A pipeline with the command word `w` is started behind a separator. -/
def Rest.consPipeline (sep : Sep) (w : Str) (r : Rest) : Rest :=
  { r with items := [], stages := [], pipelines := (sep, ⟨⟨w, r.items⟩, r.stages⟩) :: r.pipelines }

@[simp] theorem Rest.consItem_tokens (i : Item) (r : Rest) :
    (r.consItem i).tokens = i.tokens ++ r.tokens := by
  simp [Rest.consItem, Rest.tokens]

@[simp] theorem Rest.consStage_tokens (w : Str) (r : Rest) :
    (r.consStage w).tokens = .pipe :: .word w :: r.tokens := by
  simp [Rest.consStage, Rest.tokens, pipedTokens, Stage.tokens]

@[simp] theorem Rest.consPipeline_tokens (sep : Sep) (w : Str) (r : Rest) :
    (r.consPipeline sep w).tokens = sep.token :: .word w :: r.tokens := by
  simp [Rest.consPipeline, Rest.tokens, pipedTokens, separatedTokens, Stage.tokens,
    Pipeline.tokens]

/-! ### The loop and the rest of a line -/

/-- Every operator but `&` needs a word behind it. -/
theorem parseLoop_lookahead {t : Token}
    (ht : t = .lt ∨ t = .gt ∨ t = .gtgt ∨ t = .semi ∨ t = .pipe) {tail : TokenList}
    (hne : ∀ w rest, tail = .word w :: rest → False) :
    parseLoop (t :: (tail ++ [.eof])) = false := by
  cases tail with
  | nil => rcases ht with rfl | rfl | rfl | rfl | rfl <;> rfl
  | cons u us =>
    cases u with
    | word w => exact (hne w us rfl).elim
    | _ => rcases ht with rfl | rfl | rfl | rfl | rfl <;> rfl

/-- Behind `&` the loop needs a word or the end. -/
theorem parseLoop_amp_lookahead {tail : TokenList} (hnil : tail ≠ [])
    (heof : ∀ rest, tail = .eof :: rest → False)
    (hne : ∀ w rest, tail = .word w :: rest → False) :
    parseLoop (.amp :: (tail ++ [.eof])) = false := by
  cases tail with
  | nil => exact absurd rfl hnil
  | cons u us =>
    cases u with
    | word w => exact (hne w us rfl).elim
    | eof => exact (heof us rfl).elim
    | _ => rfl

/-- Soundness of the loop: an accepted list is the yield of some rest. -/
theorem rest_of_parseLoop (ts : TokenList) (heof : .eof ∉ ts)
    (h : parseLoop (ts ++ [.eof]) = true) : ∃ r : Rest, r.tokens = ts := by
  -- the cases are those of the loop; each word it passes extends the rest at the front
  induction ts using parseLoop.induct with
  | case1 => exact ⟨⟨[], [], [], false⟩, rfl⟩
  | case2 | case15 => simp at heof
  | case3 w rest ih =>
    obtain ⟨r, hr⟩ := ih (by simp_all) (by simpa [parseLoop] using h)
    exact ⟨r.consItem (.arg w), by simp [Item.tokens, hr]⟩
  | case4 f rest ih =>
    obtain ⟨r, hr⟩ := ih (by simp_all) (by simpa [parseLoop] using h)
    exact ⟨r.consItem (.input f), by simp [Item.tokens, hr]⟩
  | case5 tail hne | case7 tail hne | case9 tail hne | case11 tail hne | case13 tail hne =>
    rw [List.cons_append, parseLoop_lookahead (by simp) hne] at h
    exact Bool.noConfusion h
  | case6 f rest ih =>
    obtain ⟨r, hr⟩ := ih (by simp_all) (by simpa [parseLoop] using h)
    exact ⟨r.consItem (.output f), by simp [Item.tokens, hr]⟩
  | case8 f rest ih =>
    obtain ⟨r, hr⟩ := ih (by simp_all) (by simpa [parseLoop] using h)
    exact ⟨r.consItem (.append f), by simp [Item.tokens, hr]⟩
  | case10 w rest ih =>
    obtain ⟨r, hr⟩ := ih (by simp_all) (by simpa [parseLoop] using h)
    exact ⟨r.consPipeline .semi w, by simp [Sep.token, hr]⟩
  | case12 w rest ih =>
    obtain ⟨r, hr⟩ := ih (by simp_all) (by simpa [parseLoop] using h)
    exact ⟨r.consStage w, by simp [hr]⟩
  | case14 => exact ⟨⟨[], [], [], true⟩, rfl⟩
  | case16 w rest ih =>
    obtain ⟨r, hr⟩ := ih (by simp_all) (by simpa [parseLoop] using h)
    exact ⟨r.consPipeline .amp w, by simp [Sep.token, hr]⟩
  | case17 tail hnil hne hw =>
    rw [List.cons_append, parseLoop_amp_lookahead hnil hne hw] at h
    exact Bool.noConfusion h

theorem parseLoop_items (items : List Item) (t : TokenList) :
    parseLoop (items.flatMap Item.tokens ++ t) = parseLoop t := by
  induction items with
  | nil => rfl
  | cons i items ih =>
    rw [List.flatMap_cons, List.append_assoc]
    cases i <;> simpa [Item.tokens, parseLoop] using ih

theorem parseLoop_piped (ss : List Stage) (t : TokenList) :
    parseLoop (pipedTokens ss ++ t) = parseLoop t := by
  induction ss with
  | nil => rfl
  | cons s ss ih =>
    have hs : pipedTokens (s :: ss) = .pipe :: s.tokens ++ pipedTokens ss := by
      simp [pipedTokens]
    rw [hs, List.append_assoc, List.cons_append, Stage.tokens, List.cons_append, parseLoop,
      parseLoop_items, ih]

theorem parseLoop_separated (ps : List (Sep × Pipeline)) (t : TokenList) :
    parseLoop (separatedTokens ps ++ t) = parseLoop t := by
  induction ps with
  | nil => rfl
  | cons p ps ih =>
    obtain ⟨sep, q⟩ := p
    have hp : separatedTokens ((sep, q) :: ps) =
        sep.token :: .word q.first.cmd :: (q.first.items.flatMap Item.tokens ++
          (pipedTokens q.more ++ separatedTokens ps)) := by
      simp [separatedTokens, Pipeline.tokens, Stage.tokens]
    rw [hp]
    cases sep <;>
      rw [Sep.token, List.cons_append, List.cons_append, parseLoop, List.append_assoc,
        parseLoop_items, List.append_assoc, parseLoop_piped, ih]

/-- Completeness of the loop: the yield of a rest is accepted. -/
theorem parseLoop_of_rest (r : Rest) : parseLoop (r.tokens ++ [.eof]) = true := by
  rw [Rest.tokens, List.append_assoc, List.append_assoc, List.append_assoc, parseLoop_items,
    parseLoop_piped, parseLoop_separated]
  cases r.amp <;> rfl

/-- The loop accepts exactly what can follow a started stage. -/
theorem parseLoop_iff {ts : TokenList} (heof : .eof ∉ ts) :
    parseLoop (ts ++ [.eof]) = true ↔ ∃ r : Rest, r.tokens = ts := by
  constructor
  · exact rest_of_parseLoop ts heof
  · rintro ⟨r, rfl⟩
    exact parseLoop_of_rest r

/-- The tokens in front of the end are accepted exactly when a line yields them. -/
theorem parseValidate_append_eof {ts : TokenList} (heof : .eof ∉ ts) :
    parseValidate (ts ++ [.eof]) = true ↔ ∃ l : Line, l.tokens = ts := by
  cases ts with
  | nil => exact ⟨fun _ => ⟨.empty, rfl⟩, fun _ => rfl⟩
  | cons t ts =>
    cases t with
    | word w =>
      rw [List.cons_append, parseValidate, parseLoop_iff (by simp_all)]
      constructor
      · rintro ⟨r, rfl⟩
        exact ⟨r.line w, r.line_tokens w⟩
      · rintro ⟨l, hl⟩
        cases l with
        | empty => simp [Line.tokens] at hl
        | cmds first more amp =>
          -- a line that starts with `w` is the line of its rest
          refine ⟨⟨first.first.items, first.more, more, amp⟩, ?_⟩
          simp only [Line.tokens, Pipeline.tokens, Stage.tokens, List.cons_append,
            List.cons.injEq] at hl
          simpa [Rest.tokens] using hl.2
    | eof => simp at heof
    | _ =>
      -- no line starts with an operator
      refine ⟨fun h => Bool.noConfusion h, ?_⟩
      rintro ⟨l, hl⟩
      cases l <;> simp [Line.tokens, Pipeline.tokens, Stage.tokens] at hl

/-- **The parser accepts exactly its grammar.**  On a token list of the shape
the lexer produces, `parse_validate` returns `1` exactly when the list without
its `eof` is the yield of a tree of the grammar. -/
theorem parseValidate_iff_derivable (toks : TokenList) (h : LexShape toks) :
    parseValidate toks = true ↔ ∃ l : Line, l.tokens = toks.dropLast := by
  obtain ⟨ts, heof, rfl⟩ := h
  rw [parseValidate_append_eof heof, List.dropLast_concat]

/-- `a | b < f &` is a line. -/
theorem parseValidate_iff_derivable_background :
    ∃ l : Line, l.tokens = [.word ['a'], .pipe, .word ['b'], .lt, .word ['f'], .amp] :=
  (parseValidate_iff_derivable
    [.word ['a'], .pipe, .word ['b'], .lt, .word ['f'], .amp, .eof]
    ⟨[.word ['a'], .pipe, .word ['b'], .lt, .word ['f'], .amp], by decide, rfl⟩).mp (by decide)

end Parser
end RuShell
