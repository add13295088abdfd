import RuShell.Lexer
import RuShell.Lib.Stdio

/-!
# Command lines

`main` of `c-shell/src/shell.c` reads a command line with `fgets` into a buffer
of 4096 bytes, takes the newline off if there is one, and hands the string to
`lex_line`, unless it is `exit()`.  A line that does not fit the buffer together
with its newline becomes two command lines or more, and a line in the middle of
which a read is interrupted loses its beginning.

The stream is what `fgets` reads; what a command takes from the descriptor itself
is not in it.

## Main definitions

* `mainLoop` — the strings that are passed to `lex_line`.
* `chomp` — a line without its newline.
* `Intact` — the lines up to the first `exit()` fit the buffer, and no interruption
  strikes inside one of them.

## Main results

* `mainLoop_iff` — the loop from any state of the stream.
* `one_line_one_command` — **every line is passed whole**, up to the first `exit()`,
  exactly if they are intact.
* `long_line_split` — a line of 4096 bytes and its newline is not passed as one.
-/

namespace RuShell
namespace CommandLines

open Lib

/-- `STRING_SIZE` -/
def stringSize : ℕ := 4096

/-- What a turn of the loop leaves in `command`: the bytes before the terminator,
with the newline taken off. -/
def trim (buf : Str) : Str :=
  let command := cString buf
  if command.getLast? = some '\n' then command.dropLast else command

/-- The line that ends the shell. -/
def exitCommand : Str := "exit()".toList

/-- The loop of `main`: the strings that are passed to `lex_line`.  After an
interrupted call it goes around once more; after another `NULL` it does so while
`again` says so, because of stopped jobs or of an `errno` that is still `EINTR`, and
returns otherwise. -/
def mainLoop (again : List Bool) (f : File Char) : List Str :=
  match _ : f.fgets '\n' stringSize with
  | (.line buf, f') => if trim buf = exitCommand then [] else trim buf :: mainLoop again f'
  | (.eintr _, f') => mainLoop again f'
  | (.eof, f') =>
    match again with
    | true :: again => mainLoop again f'
    | _ => []
  | (.fail _, f') =>
    match again with
    | true :: again => mainLoop again f'
    | _ => []
termination_by again.length + f.left
decreasing_by
  all_goals
    have hspec := File.fgets_spec '\n' stringSize f
    rw [‹f.fgets '\n' stringSize = _›] at hspec
  · have := (hspec.2.2.2.2 (by decide) rfl).2
    omega
  · have := hspec.2.2.1
    omega
  · have := hspec.2.2.2.2
    simp only [List.length_cons]
    omega
  · have := hspec.1
    simp only [List.length_cons]
    omega

/-- A line without the newline that ends it. -/
def chomp (line : Str) : Str := if line.getLast? = some '\n' then line.dropLast else line

theorem trim_of_nul_free {line : Str} (h : nul ∉ line) : trim line = chomp line := by
  unfold trim chomp
  rw [cString_of_not_mem h]

theorem chomp_of_not_mem {line : Str} (h : '\n' ∉ line) : chomp line = line :=
  if_neg fun hlast => h (List.mem_of_getLast? hlast)

variable {f g : File Char} {buf : Str}

/-- A call that returns a line takes it from the stream. -/
theorem fgets_taken
    (hget : f.fgets '\n' stringSize = (.line buf, g)) : buf ≠ [] ∧ f.unread = buf ++ g.unread := by
  obtain ⟨hbuf, hunread, -, -, hne⟩ := File.of_fgets hget
  exact ⟨(hne (by decide) rfl).1, hunread.trans (congrArg (· ++ g.unread) hbuf.symm)⟩

/-- The command lines that the lines of a stream are: up to the first `exit()`. -/
def commands (lines : List Str) : List Str := (lines.map chomp).takeWhile (· ≠ exitCommand)

/-- An interruption at the offset `s` takes `fgets` out of the middle of the line: it
has neither met a newline nor filled the buffer. -/
def Inside (line : Str) (s : ℕ) : Prop :=
  0 < s ∧ (s < line.length ∨ s = line.length ∧ '\n' ∉ line ∧ line.length < stringSize - 1)

/-- A line fits the buffer, and no interruption strikes inside it.  A last line
`exit()` without a newline may also be lost as a whole. -/
def LineIntact (line : Str) (struck : List ℕ) : Prop :=
  line.length ≤ stringSize - 1 ∧
    ((∀ s ∈ struck, ¬ Inside line s) ∨ line = exitCommand ∧ line.length ∈ struck)

/-- The condition on the lines up to the first `exit()`; `struck` are the offsets at
which reads are interrupted. -/
def Intact : List Str → List ℕ → Prop
  | [], _ => True
  | line :: lines, struck =>
    LineIntact line struck ∧ (chomp line = exitCommand ∨
      Intact lines ((struck.filter (line.length ≤ ·)).map (· - line.length)))

instance (line : Str) (s : ℕ) : Decidable (Inside line s) := inferInstanceAs (Decidable (_ ∧ _))

instance (line : Str) (struck : List ℕ) : Decidable (LineIntact line struck) :=
  inferInstanceAs (Decidable (_ ∧ _))

instance decidableIntact : ∀ lines struck, Decidable (Intact lines struck)
  | [], _ => isTrue trivial
  | _ :: lines, _ =>
    have := decidableIntact lines
    inferInstanceAs (Decidable (_ ∧ _))

/-! ### The first line -/

/-- The first line of `u` is `c` and its end `e`, and `r` follows it. -/
structure First (u c e r : Str) : Prop where
  inner : '\n' ∉ c
  eq : u = c ++ (e ++ r)
  ends : e = ['\n'] ∨ e = [] ∧ r = [] ∧ c ≠ []

theorem exists_first {u : Str} (hu : u ≠ []) : ∃ c e r, First u c e r := by
  by_cases h : '\n' ∈ u
  · obtain ⟨c, r, rfl, hc⟩ := List.eq_append_cons_of_mem h
    exact ⟨c, ['\n'], r, hc, rfl, .inl rfl⟩
  · exact ⟨u, [], [], h, by simp, .inr ⟨rfl, rfl, hu⟩⟩

namespace First

variable {u c e r p : Str}

theorem prepend (h : First u c e r) (hp : '\n' ∉ p) : First (p ++ u) (p ++ c) e r := by
  refine ⟨?_, by rw [h.eq, List.append_assoc], h.ends.imp_right fun hend => ?_⟩
  · rw [List.mem_append]
    exact not_or.mpr ⟨hp, h.inner⟩
  · exact ⟨hend.1, hend.2.1, List.append_ne_nil_of_right_ne_nil _ hend.2.2⟩

theorem lines (h : First u c e r) : linesOf '\n' u = (c ++ e) :: linesOf '\n' r := by
  rw [h.eq]
  rcases h.ends with rfl | ⟨rfl, rfl, hc⟩
  · exact linesOf_append_sep h.inner
  · rw [List.append_nil, List.append_nil, linesOf_of_not_mem h.inner hc]
    rfl

theorem chomp (h : First u c e r) : chomp (c ++ e) = c := by
  rcases h.ends with rfl | ⟨rfl, -, -⟩
  · simp [CommandLines.chomp]
  · rw [List.append_nil, chomp_of_not_mem h.inner]

theorem commands (h : First u c e r) : commands (linesOf '\n' u) =
    if c = exitCommand then [] else c :: commands (linesOf '\n' r) := by
  unfold CommandLines.commands
  rw [h.lines, List.map_cons, h.chomp, List.takeWhile_cons]
  simp only [ne_eq, decide_not, Bool.not_eq_true', decide_eq_false_iff_not, ite_not]

theorem ne_nil (h : First u c e r) : c ++ e ≠ [] :=
  ne_nil_of_mem_linesOf (h.lines ▸ List.mem_cons_self)

/-- What a call of `fgets` that returns a line takes of it. -/
theorem fgets (h : First u c e r) (hu : f.unread = u)
    (hget : f.fgets '\n' stringSize = (.line buf, g)) : buf = (c ++ e).take (stringSize - 1) := by
  have hbuf := (File.of_fgets hget).1
  rwa [hu, firstLine, h.lines, List.headD_cons] at hbuf

end First

/-! ### The loop -/

theorem commands_nil : commands (linesOf '\n' []) = [] := rfl

/-- **A newline more is a command line more**: what is read from a newline and `r` is
not what is read from `r`. -/
theorem mainLoop_ne_of_newline (again : List Bool) (f : File Char) {r : Str} (hcalm : f.Calm)
    (hunread : f.unread = '\n' :: r) : mainLoop again f ≠ commands (linesOf '\n' r) := by
  have hfirst : First ('\n' :: r) [] ['\n'] r := ⟨List.not_mem_nil, rfl, .inl rfl⟩
  fun_induction mainLoop again f generalizing r with
  | case1 again f buf f' hget hexit =>
    obtain rfl := hfirst.fgets hunread hget
    exact absurd hexit (by decide)
  | case2 again f buf f' hget hexit ih =>
    obtain rfl := hfirst.fgets hunread hget
    obtain rfl : r = f'.unread := (List.cons.inj (hunread.symm.trans (fgets_taken hget).2)).2
    have hspec := File.of_fgets hget
    intro heq
    -- then `r` begins with a newline itself
    by_cases hr : f'.unread = []
    · rw [hr, commands_nil] at heq
      cases heq
    obtain ⟨c, e, r', h⟩ := exists_first hr
    rw [h.commands] at heq
    split at heq
    · cases heq
    obtain ⟨hc, htail⟩ := List.cons.inj heq
    obtain rfl : [] = c := hc
    rcases h.ends with rfl | ⟨-, -, hne⟩
    · exact ih (hspec.2.2.1.calm hcalm) h.eq ⟨List.not_mem_nil, rfl, .inl rfl⟩ htail
    · exact hne rfl
  | case3 again f lost f' hget ih =>
    obtain ⟨hnewline, -, hp, -, hkeeps⟩ := File.fgets_eintr hget
    refine ih (hkeeps.calm hcalm) ?_ hfirst
    cases lost with
    | nil => exact hp.symm.trans hunread
    | cons a lost =>
      rw [hunread] at hp
      exact absurd (List.cons.inj hp).1 (List.ne_of_not_mem_cons hnewline)
  | case4 f f' hget again ih | case5 again f f' hget hagain =>
    have hspec := File.of_fgets hget
    rw [hspec.2.1] at hunread
    cases hunread
  | case6 f lost f' hget again ih | case7 again f lost f' hget hagain =>
    have hspec := File.of_fgets hget
    exact absurd hcalm hspec.2

/-! ### The condition -/

theorem First.eq_of_not_mem {u c e r : Str} (h : First u c e r) (he : '\n' ∉ c ++ e) :
    u = c ∧ e = [] := by
  rcases h.ends with rfl | ⟨rfl, rfl, -⟩
  · exact absurd (List.mem_append_right c List.mem_cons_self) he
  · exact ⟨by rw [h.eq, List.append_nil, List.append_nil], rfl⟩

/-- A line that `fgets` has returned whole. -/
theorem intact_whole {c e r : Str} (h : First f.unread c e r)
    (hget : f.fgets '\n' stringSize = (.line (c ++ e), g))
    (hshort : (c ++ e).length ≤ stringSize - 1) (hrest : g.unread = r) :
    Intact (linesOf '\n' f.unread) f.struck ↔
      c = exitCommand ∨ Intact (linesOf '\n' r) g.struck := by
  rw [h.lines, Intact, h.chomp]
  obtain ⟨p, hp, hcase⟩ := File.fgets_struck hget
  obtain rfl : c ++ e = p := hp
  rcases hcase with ⟨hstruck, hfull⟩ | ⟨hstruck, hnil⟩
  · have hline : LineIntact (c ++ e) f.struck := by
      refine ⟨hshort, .inl ?_⟩
      rintro s hs ⟨-, hin⟩
      rw [hstruck] at hs
      obtain ⟨t, -, rfl⟩ := List.mem_map.mp hs
      rcases hin with hlt | ⟨-, hnewline, hlt⟩
      · omega
      · exact hfull.elim hnewline hlt.ne
    have hshift : (f.struck.filter ((c ++ e).length ≤ ·)).map (· - (c ++ e).length) = g.struck := by
      rw [hstruck, List.filter_eq_self.mpr (by simp), List.map_map]
      simp [Function.comp_def]
    rw [hshift, and_iff_right hline]
  · -- the end of the stream has been met
    obtain rfl : r = [] := hrest.symm.trans hnil
    have hline : LineIntact (c ++ e) f.struck := ⟨hshort, .inl (by simp [hstruck])⟩
    simp [hline, Intact]

/-- A line in which an interruption strikes. -/
theorem intact_struck {p v : Str} {struck : List ℕ} (hp : '\n' ∉ p) (hne : p ≠ [])
    (hlen : p.length < stringSize - 1) (hmem : p.length ∈ struck) :
    Intact (linesOf '\n' (p ++ v)) struck ↔
      p ++ v = exitCommand ∧ (p ++ v).length ∈ struck := by
  obtain ⟨c, e, r, h⟩ : ∃ c e r, First (p ++ v) (p ++ c) e r := by
    by_cases hv : v = []
    · exact ⟨[], [], [], by simpa using hp, by simp [hv], .inr ⟨rfl, rfl, by simpa using hne⟩⟩
    · obtain ⟨c, e, r, h⟩ := exists_first hv
      exact ⟨c, e, r, h.prepend hp⟩
  have hin : Inside (p ++ c ++ e) p.length := by
    refine ⟨List.length_pos_iff.mpr hne, ?_⟩
    by_cases hce : c ++ e = []
    · obtain ⟨rfl, rfl⟩ := List.append_eq_nil_iff.mp hce
      rw [List.append_nil, List.append_nil]
      exact .inr ⟨rfl, hp, hlen⟩
    · have := List.length_pos_iff.mpr hce
      rw [List.append_assoc, List.length_append]
      exact .inl (by omega)
  have hexit : '\n' ∉ exitCommand := by decide
  rw [h.lines, Intact, h.chomp]
  constructor
  · rintro ⟨⟨-, hall | ⟨heq, hend⟩⟩, -⟩
    · exact absurd hin (hall _ hmem)
    · obtain ⟨hu, rfl⟩ := h.eq_of_not_mem (heq ▸ hexit)
      rw [List.append_nil] at heq hend
      exact ⟨hu.trans heq, hu ▸ hend⟩
  · rintro ⟨heq, hend⟩
    have hnewline : '\n' ∉ p ++ c ++ e := by
      intro hmem
      apply hexit
      rw [← heq, h.eq, ← List.append_assoc]
      exact List.mem_append_left _ hmem
    obtain ⟨hu, rfl⟩ := h.eq_of_not_mem hnewline
    rw [List.append_nil, ← hu]
    exact ⟨⟨by rw [heq]; decide, .inr ⟨heq, hend⟩⟩, .inl heq⟩

/-- An interruption between two lines. -/
theorem intact_zero {u : Str} {struck : List ℕ} :
    Intact (linesOf '\n' u) (0 :: struck) ↔ Intact (linesOf '\n' u) struck := by
  by_cases hu : u = []
  · subst hu
    exact Iff.rfl
  · obtain ⟨c, e, r, h⟩ := exists_first hu
    have hpos := List.length_pos_iff.mpr h.ne_nil
    rw [h.lines]
    generalize c ++ e = line at hpos
    rw [Intact, Intact, List.filter_cons_of_neg (by simpa using List.length_pos_iff.mp hpos)]
    simp [LineIntact, Inside, List.length_pos_iff.mp hpos]

/-- A string that `main` takes for a command line: a whole line without its newline,
or the part of a line that fills the buffer. -/
theorem trim_spec (hget : f.fgets '\n' stringSize = (.line buf, g))
    (hnul : nul ∉ f.unread) : ∃ c e r, First f.unread c e r ∧ (trim buf).length ≤ c.length ∧
      (buf = c ++ e ∧ trim buf = c ∧ g.unread = r ∧ (c ++ e).length ≤ stringSize - 1 ∨
        trim buf = buf ∧ buf.length = stringSize - 1 ∧ stringSize - 1 < (c ++ e).length ∧
          (buf = c → g.unread = '\n' :: r)) := by
  obtain ⟨hne, hunread⟩ := fgets_taken hget
  have hu : f.unread ≠ [] := hunread ▸ List.append_ne_nil_of_left_ne_nil hne _
  obtain ⟨c, e, r, h⟩ := exists_first hu
  have hbuf := h.fgets rfl hget
  have htrim : trim buf = chomp buf := by
    refine trim_of_nul_free fun hmem => hnul ?_
    rw [hunread]
    exact List.mem_append_left _ hmem
  refine ⟨c, e, r, h, ?_⟩
  rcases Nat.lt_or_ge (stringSize - 1) (c ++ e).length with hlong | hshort
  · have hend : e.length ≤ 1 := by rcases h.ends with rfl | ⟨rfl, -, -⟩ <;> simp
    have hle : stringSize - 1 ≤ c.length := by
      rw [List.length_append] at hlong
      omega
    rw [List.take_append_of_le_length hle] at hbuf
    have hlen : buf.length = stringSize - 1 := hbuf ▸ List.length_take_of_le hle
    have hmem : '\n' ∉ buf := fun hmem => h.inner (List.mem_of_mem_take (hbuf ▸ hmem))
    rw [chomp_of_not_mem hmem] at htrim
    refine ⟨htrim.symm ▸ hlen ▸ hle, .inr ⟨htrim, hlen, hlong, ?_⟩⟩
    rintro rfl
    have hrest := List.append_cancel_left (hunread.symm.trans h.eq)
    rcases h.ends with rfl | ⟨rfl, -, -⟩
    · exact hrest
    · rw [List.append_nil] at hlong
      omega
  · rw [List.take_of_length_le hshort] at hbuf
    subst hbuf
    rw [h.chomp] at htrim
    refine ⟨htrim.symm ▸ Nat.le_refl _, .inl ⟨rfl, htrim, ?_, hshort⟩⟩
    rw [h.eq, ← List.append_assoc] at hunread
    exact (List.append_cancel_left hunread).symm

/-- A last line that has been returned is not lost. -/
theorem not_struck_of_line {p : Str}
    (hget : f.fgets '\n' stringSize = (.line buf, g)) (heq : p ++ f.unread = exitCommand) :
    ¬ (f.unread = [] ∨ f.unread.length ∈ f.struck) := by
  obtain ⟨hne, hunread⟩ := fgets_taken hget
  have hsub : ∀ a ∈ buf, a ∈ exitCommand := by
    intro a ha
    rw [← heq, hunread]
    exact List.mem_append_right _ (List.mem_append_left _ ha)
  have hlen : buf.length ≤ exitCommand.length := by
    rw [← heq, hunread, List.length_append, List.length_append]
    omega
  rintro (hnil | hmem)
  · exact hne (List.append_eq_nil_iff.mp (hunread.symm.trans hnil)).1
  · obtain ⟨q, hq, hcase⟩ := File.fgets_struck hget
    obtain rfl : buf = q := hq
    rcases hcase with ⟨-, hnewline | hfull⟩ | ⟨hstruck, -⟩
    · exact absurd (hsub _ hnewline) (by decide)
    · rw [hfull] at hlen
      exact absurd hlen (by decide)
    · rw [hstruck] at hmem
      cases hmem

/-- The condition after `p` has been lost of the line that `fgets` is in: only the rest of a
last line `exit()` may be lost as well. -/
def Survives (p : Str) (f : File Char) : Prop :=
  p = [] ∧ Intact (linesOf '\n' f.unread) f.struck ∨
    p ≠ [] ∧ p ++ f.unread = exitCommand ∧ (f.unread = [] ∨ f.unread.length ∈ f.struck)

theorem survives_nil : Survives [] f ↔ Intact (linesOf '\n' f.unread) f.struck := by
  simp [Survives]

/-- Where `p` of a line has been lost, its rest is not taken for the line. -/
theorem iff_of_lost {p : Str} {l : List Str}
    (hget : f.fgets '\n' stringSize = (.line buf, g)) (hnul : nul ∉ f.unread)
    (hp : '\n' ∉ p) (hne : p ≠ [])
    (hl : trim buf = exitCommand ∧ l = [] ∨ ∃ l', l = trim buf :: l') :
    l = commands (linesOf '\n' (p ++ f.unread)) ↔ Survives p f := by
  obtain ⟨c, e, r, h, hle, -⟩ := trim_spec hget hnul
  have hlt : (trim buf).length < (p ++ c).length := by
    have := List.length_pos_iff.mpr hne
    rw [List.length_append]
    omega
  refine iff_of_false ?_ ?_
  · rw [(h.prepend hp).commands]
    rcases hl with ⟨hexit, rfl⟩ | ⟨l', rfl⟩
    · rw [if_neg fun heq => hlt.ne (congrArg List.length (heq.trans hexit.symm)).symm]
      exact (List.cons_ne_nil _ _).symm
    · split
      · exact List.cons_ne_nil _ _
      · exact fun heq => hlt.ne (congrArg List.length (List.cons.inj heq).1)
  · rintro (⟨hnil, -⟩ | ⟨-, heq, hstruck⟩)
    · exact hne hnil
    · exact not_struck_of_line hget heq hstruck

/-- A line that is too long for the buffer is not passed whole. -/
theorem iff_of_long {c e r : Str} (again : List Bool) (h : First f.unread c e r) (hcalm : g.Calm)
    (hlong : stringSize - 1 < (c ++ e).length) (hnext : buf = c → g.unread = '\n' :: r) :
    buf :: mainLoop again g = commands (linesOf '\n' f.unread) ↔
      Intact (linesOf '\n' f.unread) f.struck := by
  refine iff_of_false ?_ ?_
  · rw [h.commands]
    split
    · exact List.cons_ne_nil _ _
    · intro heq
      obtain ⟨hc, hrest⟩ := List.cons.inj heq
      exact mainLoop_ne_of_newline again g hcalm (hnext hc) hrest
  · rw [h.lines, Intact]
    exact fun hintact => absurd hintact.1.1 (Nat.not_le.mpr hlong)

/-- An interrupted call loses what it has read. -/
theorem survives_eintr {p lost : Str} (hget : f.fgets '\n' stringSize = (.eintr lost, g)) :
    Survives (p ++ lost) g ↔ Survives p f := by
  obtain ⟨hnewline, hlt, hunread, hstruck, -⟩ := File.fgets_eintr hget
  have hmem : f.unread = [] ∨ f.unread.length ∈ f.struck ↔
      g.unread = [] ∨ g.unread.length ∈ g.struck := by
    rw [hunread, hstruck, List.append_eq_nil_iff, List.length_append, List.mem_cons, List.mem_map]
    constructor
    · rintro (⟨-, hnil⟩ | heq | ⟨s, hs, heq⟩)
      · exact .inl hnil
      · exact .inl (List.eq_nil_of_length_eq_zero (by omega))
      · exact .inr (by rwa [show g.unread.length = s by omega])
    · rintro (hnil | hs)
      · exact .inr (.inl (by rw [hnil, List.length_nil, Nat.add_zero]))
      · exact .inr (.inr ⟨_, hs, Nat.add_comm _ _⟩)
  unfold Survives
  rw [List.append_assoc, ← hunread, ← hmem]
  by_cases hlost : lost = []
  · subst hlost
    rw [List.nil_append] at hunread
    rw [hstruck, List.length_nil, intact_zero, List.append_nil, hunread]
    simp
  · have hu : f.unread ≠ [] := hunread ▸ List.append_ne_nil_of_left_ne_nil hlost _
    have hstr := intact_struck hnewline hlost hlt (v := g.unread) (hstruck ▸ List.mem_cons_self)
    rw [← hunread] at hstr
    rw [hstr]
    simp only [List.append_eq_nil_iff, hlost, hu, and_false, false_and, false_or, ne_eq,
      not_false_eq_true, true_and]
    by_cases hpnil : p = [] <;> simp [hpnil]

/-- At the end of the stream, what has been lost was nothing, or `exit()`. -/
theorem survives_eof {p : Str} (hp : '\n' ∉ p) (hunread : f.unread = []) :
    [] = commands (linesOf '\n' p) ↔ Survives p f := by
  unfold Survives
  rw [hunread]
  by_cases hnil : p = []
  · subst hnil
    simp [Intact, commands]
  · have hfirst : First p p [] [] := ⟨hp, by simp, .inr ⟨rfl, rfl, hnil⟩⟩
    rw [List.append_nil, hfirst.commands]
    simp [hnil]

/-- **The loop, from any state of the stream**, after `p` has been lost of the line
that `fgets` is in. -/
theorem mainLoop_iff (again : List Bool) (f : File Char) (p : Str) (hcalm : f.Calm)
    (hnul : nul ∉ f.unread) (hp : '\n' ∉ p) :
    mainLoop again f = commands (linesOf '\n' (p ++ f.unread)) ↔ Survives p f := by
  fun_induction mainLoop again f generalizing p with
  | case1 again f buf f' hget hexit =>
    by_cases hpnil : p = []
    · subst hpnil
      rw [List.nil_append, survives_nil]
      obtain ⟨c, e, r, h, -, ⟨rfl, hc, hrest, hshort⟩ | ⟨htrim, hlen, -⟩⟩ := trim_spec hget hnul
      · obtain rfl : c = exitCommand := hc.symm.trans hexit
        simp [h.commands, intact_whole h hget hshort hrest]
      · rw [← htrim, hexit] at hlen
        exact absurd hlen (by decide)
    · exact iff_of_lost hget hnul hp hpnil (.inl ⟨hexit, rfl⟩)
  | case2 again f buf f' hget hexit ih =>
    by_cases hpnil : p = []
    · subst hpnil
      rw [List.nil_append, survives_nil]
      have hcalm' := (File.of_fgets hget).2.2.1.calm hcalm
      obtain ⟨c, e, r, h, -, ⟨rfl, hc, hrest, hshort⟩ | ⟨htrim, hlen, hlong, hnext⟩⟩ :=
        trim_spec hget hnul
      · rw [hc] at hexit
        have hnul' : nul ∉ f'.unread :=
          fun hmem => hnul ((fgets_taken hget).2 ▸ List.mem_append_right _ hmem)
        have ih := ih [] hcalm' hnul' List.not_mem_nil
        rw [List.nil_append, survives_nil] at ih
        rw [h.commands, hc, if_neg hexit, List.cons_inj_right, ← hrest, ih,
          intact_whole h hget hshort hrest, ← hrest, or_iff_right hexit]
      · rw [htrim]
        exact iff_of_long again h hcalm' hlong hnext
    · exact iff_of_lost hget hnul hp hpnil (.inr ⟨_, rfl⟩)
  | case3 again f lost f' hget ih =>
    obtain ⟨hnewline, -, hunread, -, hkeeps⟩ := File.fgets_eintr hget
    have hp' : '\n' ∉ p ++ lost := by
      rw [List.mem_append]
      exact not_or.mpr ⟨hp, hnewline⟩
    have hnul' : nul ∉ f'.unread := fun h => hnul (hunread ▸ List.mem_append_right _ h)
    have h := ih (p ++ lost) (hkeeps.calm hcalm) hnul' hp'
    rwa [List.append_assoc, ← hunread, survives_eintr hget] at h
  | case4 f f' hget again ih =>
    have hspec := File.of_fgets hget
    obtain ⟨-, hf, hg, hkeeps, -⟩ := hspec
    have h := ih p (hkeeps.calm hcalm) (hg ▸ List.not_mem_nil) hp
    rw [hg] at h
    rw [hf, h]
    simp [Survives, Intact, hf, hg]
  | case5 again f f' hget hagain =>
    have hunread := (File.of_fgets hget).2.1
    rw [hunread, List.append_nil]
    exact survives_eof hp hunread
  | case6 f lost f' hget again ih | case7 again f lost f' hget hagain =>
    have hspec := File.of_fgets hget
    exact absurd hcalm hspec.2

/-- **One line is one command line exactly if** every line up to the first `exit()`
fits the buffer, and no read is interrupted in the middle of one. -/
theorem one_line_one_command (stream : Str) (moods : List Mood) (again : List Bool)
    (hnul : nul ∉ stream) (hcalm : Mood.fail ∉ moods) :
    mainLoop again ⟨[], ⟨stream, 0, moods⟩⟩ =
        ((linesOf '\n' stream).map chomp).takeWhile (· ≠ exitCommand) ↔
      Intact (linesOf '\n' stream) (File.strikes 0 stream.length moods) := by
  have h := mainLoop_iff again ⟨[], ⟨stream, 0, moods⟩⟩ [] hcalm hnul List.not_mem_nil
  rwa [survives_nil] at h

/-- Three lines and an `exit()`, read in pieces with interruptions at the start of
lines. -/
theorem one_line_one_command_three :
    mainLoop [true] ⟨[], ⟨"ls\n\npwd -x\nexit()\nls".toList, 0, [.eintr, .upTo 2, .eintr]⟩⟩ =
      ["ls".toList, [], "pwd -x".toList] := by
  have h := one_line_one_command "ls\n\npwd -x\nexit()\nls".toList [.eintr, .upTo 2, .eintr]
    [true] (by decide +kernel) (by decide)
  exact (h.mpr (by decide +kernel)).trans (by decide +kernel)

/-- A line that does not fit is not one command line. -/
theorem mainLoop_ne_of_long {c : Str} (again : List Bool) (moods : List Mood) (hc : '\n' ∉ c)
    (hnul : nul ∉ c) (hcalm : Mood.fail ∉ moods) (hlong : stringSize - 1 ≤ c.length) :
    mainLoop again ⟨[], ⟨c ++ ['\n'], 0, moods⟩⟩ ≠ [c] := by
  have hfirst : First (c ++ ['\n']) c ['\n'] [] := ⟨hc, rfl, .inl rfl⟩
  have hexit : c ≠ exitCommand := by
    rintro rfl
    exact absurd hlong (by decide)
  have hnul' : nul ∉ c ++ ['\n'] := by
    rw [List.mem_append]
    exact not_or.mpr ⟨hnul, by decide⟩
  intro heq
  have h := mainLoop_iff again ⟨[], ⟨c ++ ['\n'], 0, moods⟩⟩ [] hcalm hnul' List.not_mem_nil
  rcases h.mp (heq.trans (hfirst.commands.trans (if_neg hexit)).symm) with ⟨-, hintact⟩ | ⟨hne, -⟩
  · have hlines : linesOf '\n' (c ++ ['\n']) = [c ++ ['\n']] := hfirst.lines
    have hshort := ((hlines ▸ hintact : Intact [c ++ ['\n']] _)).1.1
    rw [List.length_append, List.length_singleton] at hshort
    omega
  · exact hne rfl

/-- **A line of 4096 bytes is split.** -/
theorem long_line_split :
    mainLoop [] ⟨[], ⟨List.replicate 4096 'a' ++ ['\n'], 0, []⟩⟩ ≠ [List.replicate 4096 'a'] := by
  have hmem : ∀ b, b ≠ 'a' → b ∉ List.replicate 4096 'a' :=
    fun b hb h => hb (List.eq_of_mem_replicate h)
  apply mainLoop_ne_of_long
  · exact hmem _ (by decide)
  · exact hmem _ (by decide)
  · exact List.not_mem_nil
  · rw [List.length_replicate]
    decide

end CommandLines
end RuShell
