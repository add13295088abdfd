import RuShell.Lexer

/-!
# The lexical grammar, and that the lexer decides it

The grammar is stated without any reading order: a word is a run of touching
fragments, a line is cut into blanks, operators and words, and every cut is as
long as it can be.  `lex_line` walks the line from left to right with four
modes; it accepts exactly the lines that have such a cut, and returns it.

## Main definitions

* `DqText`, `Fragment`, `Fragments`, `Word` — the text of a word and its value.
* `Lexes line ts` — `ts` is the maximal-munch decomposition of `line`.

## Main results

* `readWord_eq_some_iff` — the word loop reads exactly a maximal run of
  fragments.
* `lexLoop_eq_some_iff` — the main loop finds exactly the decomposition.
* `lexLine_decides` — **the lexer decides its lexical grammar.**
-/

namespace RuShell
namespace Lexer

/-! ### The grammar -/

/-- A character that stands for itself in a word. -/
def PlainChar (c : Char) : Prop :=
  endsWord c = false ∧ c ≠ '\\' ∧ c ≠ '"' ∧ c ≠ '\''

/-- The text between double quotes and its value: a backslash protects a quote
or a backslash and is kept in front of anything else. -/
inductive DqText : Str → Str → Prop
  | nil : DqText [] []
  | plain {c : Char} {s v : Str} :
      c ≠ '"' → c ≠ '\\' → DqText s v → DqText (c :: s) (c :: v)
  | escape {c : Char} {s v : Str} :
      c = '"' ∨ c = '\\' → DqText s v → DqText ('\\' :: c :: s) (c :: v)
  | keep {c : Char} {s v : Str} :
      c ≠ '"' → c ≠ '\\' → DqText s v → DqText ('\\' :: c :: s) ('\\' :: c :: v)

/-- One fragment of a word and its value. -/
inductive Fragment : Str → Str → Prop
  | plain {c : Char} : PlainChar c → Fragment [c] [c]
  | escape (c : Char) : Fragment ['\\', c] [c]
  | single {s : Str} : '\'' ∉ s → Fragment ('\'' :: (s ++ ['\''])) s
  | double {s v : Str} : DqText s v → Fragment ('"' :: (s ++ ['"'])) v

/-- A run of touching fragments; its value is the concatenation of theirs. -/
inductive Fragments : Str → Str → Prop
  | nil : Fragments [] []
  | cons {f v s w : Str} : Fragment f v → Fragments s w → Fragments (f ++ s) (v ++ w)

/-- A word: a non-empty run of fragments, with a value that may be empty. -/
inductive Word : Str → Str → Prop
  | mk {f v s w : Str} : Fragment f v → Fragments s w → Word (f ++ s) (v ++ w)

/-- No fragment starts `rest`, so a word in front of it cannot be made longer. -/
def Maximal (rest : Str) : Prop := ∀ f v, Fragment f v → ¬ f <+: rest

/-- The operators of one character. -/
inductive Operator : Char → Token → Prop
  | pipe : Operator '|' .pipe
  | amp : Operator '&' .amp
  | semi : Operator ';' .semi
  | lt : Operator '<' .lt

/-- `Lexes line ts`: the line is cut into blanks, operators and words, each as
long as possible, and `ts` lists the operators and words, closed by one `eof`. -/
inductive Lexes : Str → TokenList → Prop
  | eof : Lexes [] [.eof]
  | space {c : Char} {rest : Str} {ts : TokenList} :
      isSpace c = true → Lexes rest ts → Lexes (c :: rest) ts
  | op {c : Char} {t : Token} {rest : Str} {ts : TokenList} :
      Operator c t → Lexes rest ts → Lexes (c :: rest) (t :: ts)
  | gtgt {rest : Str} {ts : TokenList} :
      Lexes rest ts → Lexes ('>' :: '>' :: rest) (.gtgt :: ts)
  | gt {rest : Str} {ts : TokenList} :
      rest.head? ≠ some '>' → Lexes rest ts → Lexes ('>' :: rest) (.gt :: ts)
  | word {s v rest : Str} {ts : TokenList} :
      Word s v → Maximal rest → Lexes rest ts → Lexes (s ++ rest) (.word v :: ts)

/-! ### Where a fragment can start -/

/-- The rest of a line behind a complete word: nothing, or a blank or an
operator. -/
def AtEnd (rest : Str) : Prop := ∀ c r, rest = c :: r → endsWord c = true

theorem atEnd_nil : AtEnd [] := by
  intro c r h
  simp at h

variable {c : Char} {r s buf buf' rest v : Str}

theorem atEnd_cons (h : endsWord c = true) : AtEnd (c :: r) := by
  intro d r' hd
  obtain ⟨rfl, -⟩ := List.cons.inj hd
  exact h

/-- A fragment starts with a character that does not end a word. -/
theorem Fragment.head {f : Str} (h : Fragment f v) :
    ∃ c s, f = c :: s ∧ endsWord c = false := by
  cases h with
  | plain hc => exact ⟨_, [], rfl, hc.1⟩
  | escape c => exact ⟨'\\', [c], rfl, by decide⟩
  | single _ => exact ⟨'\'', _, rfl, by decide⟩
  | double _ => exact ⟨'"', _, rfl, by decide⟩

theorem AtEnd.maximal (h : AtEnd rest) : Maximal rest := by
  rintro f v hf ⟨r, hr⟩
  obtain ⟨c, s, rfl, hc⟩ := hf.head
  rw [List.cons_append] at hr
  have := h c (s ++ r) hr.symm
  rw [hc] at this
  exact Bool.noConfusion this

/-- In a decomposable line a maximal cut is a cut in front of a blank, an
operator or the end. -/
theorem Lexes.atEnd {ts : TokenList} (h : Lexes rest ts) (hm : Maximal rest) :
    AtEnd rest := by
  cases h with
  | eof => exact atEnd_nil
  | space hc _ => exact atEnd_cons (by simp [Lexer.endsWord, hc])
  | op ho _ => exact atEnd_cons (by cases ho <;> decide)
  | gtgt _ | gt _ _ => exact atEnd_cons (by decide)
  | word hw _ _ =>
    cases hw with
    | mk hf _ =>
      rw [List.append_assoc] at hm
      exact absurd (List.prefix_append _ _) (hm _ _ hf)

/-! ### The readers and the fragments -/

/-- The double-quote loop reads exactly a quoted text and its closing quote. -/
theorem readDouble_eq_some_iff :
    readDouble s buf = some (r, buf') ↔
      ∃ t v, DqText t v ∧ s = t ++ '"' :: r ∧ buf' = buf ++ v := by
  constructor
  · intro h
    fun_induction readDouble s buf with
    | case1 | case3 => simp at h
    | case2 rest buf =>
      simp only [Option.some.injEq, Prod.mk.injEq] at h
      exact ⟨[], [], .nil, by simp [h.1], by simp [h.2]⟩
    | case4 buf nc rest' hnc _ ih =>
      obtain ⟨t, v, ht, rfl, rfl⟩ := ih h
      exact ⟨'\\' :: nc :: t, nc :: v, .escape hnc ht, by simp, by simp⟩
    | case5 buf nc rest' hnc _ ih =>
      obtain ⟨t, v, ht, rfl, rfl⟩ := ih h
      rw [not_or] at hnc
      exact ⟨'\\' :: nc :: t, '\\' :: nc :: v, .keep hnc.1 hnc.2 ht, by simp, by simp⟩
    | case6 c rest buf hq hb ih =>
      obtain ⟨t, v, ht, rfl, rfl⟩ := ih h
      exact ⟨c :: t, c :: v, .plain hq hb ht, by simp, by simp⟩
  · rintro ⟨t, v, ht, rfl, rfl⟩
    induction ht generalizing buf with
    | nil => simp
    | plain hq hb _ ih | keep hq hb _ ih =>
      rw [List.cons_append, readDouble.eq_def]
      simp [hq, hb, ih]
    | escape hc _ ih =>
      rw [List.cons_append, readDouble.eq_def]
      simp [hc, ih]

/-- The single-quote loop reads up to the next single quote, whatever it passes. -/
theorem readSingle_eq_some_iff :
    readSingle s buf = some (r, buf') ↔
      ∃ t, '\'' ∉ t ∧ s = t ++ '\'' :: r ∧ buf' = buf ++ t := by
  constructor
  · intro h
    fun_induction readSingle s buf with
    | case1 => simp at h
    | case2 rest buf =>
      simp only [Option.some.injEq, Prod.mk.injEq] at h
      exact ⟨[], by simp, by simp [h.1], by simp [h.2]⟩
    | case3 c rest buf hq ih =>
      obtain ⟨t, ht, rfl, rfl⟩ := ih h
      exact ⟨c :: t, by simp [ht, Ne.symm hq], by simp, by simp⟩
  · rintro ⟨t, ht, rfl, rfl⟩
    induction t generalizing buf with
    | nil => simp [readSingle]
    | cons c t ih =>
      rw [List.mem_cons, not_or] at ht
      simp [readSingle, Ne.symm ht.1, ih ht.2]

/-- One pass of the word loop reads exactly one fragment. -/
theorem readFragment_eq_some_iff (hc : endsWord c = false) :
    readFragment c rest buf = some (r, buf') ↔
      ∃ f v, Fragment f v ∧ c :: rest = f ++ r ∧ buf' = buf ++ v := by
  constructor
  · intro h
    unfold readFragment at h
    split_ifs at h with h1 h2 h3
    · subst h1
      cases rest with
      | nil => simp [readEscape] at h
      | cons d rest =>
        simp only [readEscape, Option.some.injEq, Prod.mk.injEq] at h
        exact ⟨_, _, .escape d, by simp [h.1], h.2.symm⟩
    · subst h2
      obtain ⟨t, v, ht, rfl, rfl⟩ := readDouble_eq_some_iff.mp h
      exact ⟨_, v, .double ht, by simp, rfl⟩
    · subst h3
      obtain ⟨t, ht, rfl, rfl⟩ := readSingle_eq_some_iff.mp h
      exact ⟨_, t, .single ht, by simp, rfl⟩
    · simp only [Option.some.injEq, Prod.mk.injEq] at h
      exact ⟨[c], [c], .plain ⟨hc, h1, h2, h3⟩, by simp [h.1], h.2.symm⟩
  · rintro ⟨f, v, hf, hs, rfl⟩
    cases hf with
    | plain hp =>
      obtain ⟨rfl, rfl⟩ := List.cons.inj hs
      simp [readFragment, hp.2.1, hp.2.2.1, hp.2.2.2]
    | escape d =>
      obtain ⟨rfl, rfl⟩ := List.cons.inj hs
      simp [readFragment, readEscape]
    | single ht =>
      obtain ⟨rfl, rfl⟩ := List.cons.inj hs
      rw [readFragment, if_neg (by decide), if_neg (by decide), if_pos rfl]
      exact readSingle_eq_some_iff.mpr ⟨_, ht, by simp, rfl⟩
    | double ht =>
      obtain ⟨rfl, rfl⟩ := List.cons.inj hs
      rw [readFragment, if_neg (by decide), if_pos rfl]
      exact readDouble_eq_some_iff.mpr ⟨_, _, ht, by simp, rfl⟩

theorem readWord_of_atEnd (h : AtEnd r) (buf : Str) :
    readWord r buf = some (r, buf) := by
  cases r with
  | nil => rw [readWord]
  | cons c rest => rw [readWord, if_pos (h c rest rfl)]

/-- Reading past one fragment. -/
theorem readWord_fragment {f : Str} (hf : Fragment f v) (s buf : Str) :
    readWord (f ++ s) buf = readWord s (buf ++ v) := by
  obtain ⟨c, t, rfl, hc⟩ := hf.head
  have hr : readFragment c (t ++ s) buf = some (s, buf ++ v) :=
    (readFragment_eq_some_iff hc).mpr ⟨_, v, hf, rfl, rfl⟩
  rw [List.cons_append, readWord, if_neg (by simp [hc])]
  split
  · next h => simp [hr] at h
  · next rest' buf' h =>
    rw [hr, Option.some.injEq, Prod.mk.injEq] at h
    rw [h.1, h.2]

/-- The word loop reads exactly a run of fragments that it cannot continue. -/
theorem readWord_eq_some_iff :
    readWord s buf = some (r, buf') ↔
      ∃ t v, Fragments t v ∧ s = t ++ r ∧ AtEnd r ∧ buf' = buf ++ v := by
  constructor
  · intro h
    fun_induction readWord s buf with
    | case1 buf =>
      simp only [Option.some.injEq, Prod.mk.injEq] at h
      exact ⟨[], [], .nil, by simp [h.1], h.1 ▸ atEnd_nil, by simp [h.2]⟩
    | case2 buf c rest hc =>
      simp only [Option.some.injEq, Prod.mk.injEq] at h
      exact ⟨[], [], .nil, by simp [h.1], h.1 ▸ atEnd_cons hc, by simp [h.2]⟩
    | case3 => simp at h
    | case4 buf c rest hc rest' buf1 hf ih =>
      obtain ⟨f, v, hfv, hs, rfl⟩ :=
        (readFragment_eq_some_iff (Bool.eq_false_iff.mpr hc)).mp hf
      obtain ⟨t, w, ht, rfl, hr, rfl⟩ := ih h
      exact ⟨f ++ t, v ++ w, .cons hfv ht, by simp [hs], hr, by simp⟩
  · rintro ⟨t, v, ht, rfl, hr, rfl⟩
    induction ht generalizing buf with
    | nil => simpa using readWord_of_atEnd hr buf
    | cons hf _ ih => rw [List.append_assoc, readWord_fragment hf, ih, List.append_assoc]

/-! ### The main loop -/

/-- At a character that is neither a blank nor an operator a word is read. -/
theorem lexLoop_word (hc : endsWord c = false)
    (h : readWord (c :: s) [] = some (r, v)) (out : TokenList) :
    lexLoop (c :: s) out = lexLoop r (out ++ [.word v]) := by
  have hne : isSpace c = false ∧ c ≠ '|' ∧ c ≠ '&' ∧ c ≠ ';' ∧ c ≠ '<' ∧ c ≠ '>' := by
    refine ⟨?_, ?_, ?_, ?_, ?_, ?_⟩
    · simp_all [endsWord]
    all_goals
      rintro rfl
      simp [endsWord, isSpecial] at hc
  obtain ⟨h0, h1, h2, h3, h4, h5⟩ := hne
  rw [lexLoop, if_neg (by simp [h0]), if_neg h1, if_neg h2, if_neg h3, if_neg h4, if_neg h5]
  split
  · next hr => simp [h] at hr
  · next r' v' hr =>
    rw [h, Option.some.injEq, Prod.mk.injEq] at hr
    rw [hr.1, hr.2]

/-- A word read from the line is a maximal word of the grammar. -/
theorem word_of_readWord (hc : endsWord c = false)
    (h : readWord (c :: s) [] = some (r, v)) :
    ∃ t, Word t v ∧ c :: s = t ++ r ∧ Maximal r := by
  obtain ⟨t, w, ht, hs, hr, rfl⟩ := readWord_eq_some_iff.mp h
  cases ht with
  | nil =>
    -- an empty run would leave `c` behind, which does not end a word
    have := hr c s hs.symm
    rw [hc] at this
    exact Bool.noConfusion this
  | cons hf ht => exact ⟨_, .mk hf ht, hs, hr.maximal⟩

/-- The main loop finds exactly the decomposition of the rest of the line. -/
theorem lexLoop_eq_some_iff {line : Str} {out ts : TokenList} :
    lexLoop line out = some ts ↔ ∃ us, Lexes line us ∧ ts = out ++ us := by
  constructor
  · intro h
    fun_induction lexLoop line out with
    | case1 out =>
      rw [Option.some.injEq] at h
      exact ⟨_, .eof, h.symm⟩
    | case2 out c rest hc ih =>
      obtain ⟨us, hu, rfl⟩ := ih h
      exact ⟨us, .space hc hu, rfl⟩
    | case3 out rest hc ih =>
      obtain ⟨us, hu, rfl⟩ := ih h
      exact ⟨_, .op .pipe hu, by simp⟩
    | case4 out rest hc hn ih =>
      obtain ⟨us, hu, rfl⟩ := ih h
      exact ⟨_, .op .amp hu, by simp⟩
    | case5 out rest hc hn hn' ih =>
      obtain ⟨us, hu, rfl⟩ := ih h
      exact ⟨_, .op .semi hu, by simp⟩
    | case6 out rest hc hn hn' hn'' ih =>
      obtain ⟨us, hu, rfl⟩ := ih h
      exact ⟨_, .op .lt hu, by simp⟩
    | case7 out rest hg hc _ _ _ _ ih =>
      obtain ⟨us, hu, rfl⟩ := ih h
      obtain ⟨rest', rfl⟩ := List.head?_eq_some_iff.mp hg
      exact ⟨_, .gtgt hu, by simp⟩
    | case8 out rest hg hc _ _ _ _ ih =>
      obtain ⟨us, hu, rfl⟩ := ih h
      exact ⟨_, .gt hg hu, by simp⟩
    | case9 => simp at h
    | case10 out c rest h0 h1 h2 h3 h4 h5 r v hr ih =>
      obtain ⟨us, hu, rfl⟩ := ih h
      have hc : endsWord c = false := by simp_all [endsWord, isSpecial]
      obtain ⟨t, ht, hs, hm⟩ := word_of_readWord hc hr
      exact ⟨.word v :: us, hs ▸ .word ht hm hu, by simp⟩
  · rintro ⟨us, hu, rfl⟩
    induction hu generalizing out with
    | eof => rw [lexLoop]
    | space hc _ ih => rw [lexLoop, if_pos hc, ih]
    | op ho _ ih => cases ho <;> rw [lexLoop] <;> simp [isSpace, ih]
    | gtgt _ ih =>
      rw [lexLoop]
      simp [isSpace, ih]
    | gt hg _ ih =>
      rw [lexLoop]
      simp [isSpace, hg, ih]
    | word hw hm hr ih =>
      cases hw with
      | mk hf hs =>
        obtain ⟨c, t, rfl, hc⟩ := hf.head
        have hread : readWord (c :: t ++ _ ++ _) [] = some (_, [] ++ (_ ++ _)) :=
          readWord_eq_some_iff.mpr ⟨_, _, .cons hf hs, rfl, hr.atEnd hm, rfl⟩
        rw [List.cons_append, List.cons_append] at hread ⊢
        rw [lexLoop_word hc hread, ih, List.append_assoc, List.singleton_append, List.nil_append]

/-! ### The line -/

/-- **The lexer decides its lexical grammar.**  On a line without a terminator
inside it, `lex_line` returns `0` with the token list `ts` exactly when `ts` is
the maximal-munch decomposition of the line, and `-1` with an empty list exactly
when there is none. -/
theorem lexLine_decides (line : Str) (hline : nul ∉ line) :
    (∀ ts, ((lexLine line).ret = 0 ∧ (lexLine line).out = ts) ↔ Lexes line ts) ∧
      (((lexLine line).ret = -1 ∧ (lexLine line).out = []) ↔ ¬ ∃ ts, Lexes line ts) := by
  have hc : cString line = line := cString_of_not_mem hline
  have key : ∀ ts, lexLoop line [] = some ts ↔ Lexes line ts := by
    intro ts
    simp [lexLoop_eq_some_iff]
  cases hl : lexLoop line [] with
  | some us =>
    have hu : Lexes line us := (key us).mp hl
    have hres : lexLine line = { ret := 0, out := us, printed := "" } := by
      rw [lexLine, hc, hl]
    refine ⟨fun ts => ?_, ?_⟩
    · rw [hres, ← key ts, hl, Option.some.injEq]
      simp
    · rw [hres]
      simpa using ⟨us, hu⟩
  | none =>
    have hnone : ∀ ts, ¬ Lexes line ts := by
      intro ts ht
      rw [(key ts).mpr ht] at hl
      simp at hl
    have hres : lexLine line = { ret := -1, out := [], printed := lexError } := by
      rw [lexLine, hc, hl]
    refine ⟨fun ts => ?_, ?_⟩
    · simp [hres, hnone ts]
    · simp [hres, hnone]

/-- The fragments of `a"b|"'c'` touch, so they make one word. -/
theorem lexLine_decides_touching :
    Lexes ['a', '"', 'b', '|', '"', '\'', 'c', '\'', ' ', '>', '>', 'f']
      [.word ['a', 'b', '|', 'c'], .gtgt, .word ['f'], .eof] :=
  ((lexLine_decides _ (by decide)).1 _).mp ⟨by decide +kernel, by decide +kernel⟩

end Lexer
end RuShell
