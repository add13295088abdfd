import RuShell.Peek.Reverse

/-!
# `peek -nr` prints what `peek -n` prints, in reverse order

The command goes through its sources in the order of its arguments; the running
number is threaded through them, also past those that cannot be opened.  Forwards
the numbers are given out as the lines are printed, in reverse by a pass over
the list of lines; both give every line the same number.

This needs `lseek` to find the end of every file that it can seek.  Where the end
cannot be found, as with the files under `/proc`, `peek_reverse_seek_fd` collects
the lines in forward order and `peek_process_source` prints them from the front.

## Main definitions

* `Reversible`, `Printable` — the files that are printed as asked for.
* `openings`, `listings` — what is found under the arguments, and what it is printed as.

## Main results

* `processFd_iff`, `sourceLoop_iff` — one source, and all of them.
* `peek_nr_reverses_peek_n` — **source by source the same lines with the same
  numbers, in reverse order**, exactly if the sources are printed in both directions.
* `proc_file_not_reversed` — a file whose end cannot be found.
-/

namespace RuShell
namespace Peek

open Lib

/-- The lines with their numbers are the same in both directions. -/
def Mirrored (lines : List Str) : Prop :=
  lines.reverse = lines ∧ lines.countP peekLineIsNonempty ≤ 1

/-- A file that `lseek` can seek and that is printed in reverse: an end has to be found that
is not before the end of the contents, unless that makes no difference. -/
def SeekReversible (sk : Seeking) (content : Str) : Prop :=
  match sk.size with
  | none =>
    if sk.set then Fits 0 (linesIn content) ∧ Mirrored (linesIn content) else content = []
  | some size =>
    content = [] ∨ sk.set = true ∧ content.length ≤ size ∧ SeekFits content size ∧
      (linesIn content).length ≤ 2 ^ 30

/-- A file that is printed in reverse. -/
def Reversible (sk : Seeking) (content : Str) : Prop :=
  if sk.cur then SeekReversible sk content else Fits 0 (linesIn content)

/-- A file that is printed as asked for. -/
def Printable (ops : PeekOptions) (sk : Seeking) (content : Str) : Prop :=
  if ops.reversed then Reversible sk content
  else ∀ line ∈ linesIn content, line.length ≤ intMax

/-! ### One source -/

/-- The order in which a source is printed. -/
def inOrder (ops : PeekOptions) (printed : List Printed) : List Printed :=
  if ops.reversed then printed.reverse else printed

variable {ops : PeekOptions}

theorem data_listing (no : ℕ) (lines : List Str) :
    (listing ops no lines).map Printed.data = lines := by
  induction lines generalizing no with
  | nil => rfl
  | cons line lines ih => rw [listing_cons, List.map_cons, ih]

/-- The listing tells the contents. -/
theorem listing_inj (ops : PeekOptions) (no : ℕ) {content content' : Str}
    (h : listing ops no (linesIn content) = listing ops no (linesIn content')) :
    content = content' := by
  have hlines := congrArg (List.map Printed.data) h
  rw [data_listing, data_listing] at hlines
  rw [← flatten_linesOf '\n' content, ← flatten_linesOf '\n' content']
  exact congrArg List.flatten hlines

theorem nil_eq_listing_iff {no : ℕ} {content : Str} :
    [] = (listing ops no (linesIn content)).reverse ↔ content = [] := by
  constructor
  · intro h
    apply listing_inj ops no
    rw [List.reverse_eq_nil_iff.mp h.symm]
    rfl
  · rintro rfl
    rfl

/-- The numbers of the lines that have one. -/
def numbers (printed : List Printed) : List ℕ := (printed.map Printed.number).filter (0 < ·)

theorem numbers_append (l l' : List Printed) : numbers (l ++ l') = numbers l ++ numbers l' := by
  simp [numbers]

theorem numbers_listing (hn : ops.numbered = true) (no : ℕ) (lines : List Str) :
    numbers (listing ops no lines) = List.range' (no + 1) (lines.countP peekLineIsNonempty) := by
  induction lines generalizing no with
  | nil => rfl
  | cons line lines ih =>
    rw [listing_cons, List.countP_cons, hn, Bool.true_and]
    by_cases hl : peekLineIsNonempty line = true
    · rw [if_pos hl, if_pos hl, List.range'_succ, ← ih]
      simp [numbers]
    · rw [if_neg hl, if_neg hl]
      exact ih no

/-- With at most one number, the lines alone decide the listing. -/
theorem listing_of_countP_le {no : ℕ} {lines : List Str}
    (h : lines.countP peekLineIsNonempty ≤ 1) :
    listing ops no lines = lines.map fun line =>
      ⟨if ops.numbered && peekLineIsNonempty line then no + 1 else 0, line⟩ := by
  induction lines generalizing no with
  | nil => rfl
  | cons line lines ih =>
    rw [List.countP_cons] at h
    rw [listing_cons, List.map_cons]
    by_cases hl : peekLineIsNonempty line = true
    · -- the others are empty
      rw [if_pos hl] at h
      have hnone : ∀ l ∈ lines, peekLineIsNonempty l = false := by
        intro l hmem
        by_contra hne
        have := List.countP_pos_iff.mpr ⟨l, hmem, by simpa using hne⟩
        omega
      rw [ih (by omega)]
      congr 1
      apply List.map_congr_left
      intro l hmem
      rw [hnone l hmem]
      simp
    · rw [if_neg hl] at h ⊢
      rw [ih h, Nat.add_zero]

theorem listing_eq_reverse_iff (hn : ops.numbered = true) (no : ℕ) (lines : List Str) :
    listing ops no lines = (listing ops no lines).reverse ↔ Mirrored lines := by
  constructor
  · intro h
    have hlines := congrArg (List.map Printed.data) h
    rw [List.map_reverse, data_listing] at hlines
    refine ⟨hlines.symm, ?_⟩
    -- two numbers would have to be equal
    have hnumbers := congrArg numbers h
    rw [numbers, numbers, List.map_reverse, List.filter_reverse, ← numbers,
      numbers_listing hn] at hnumbers
    by_contra hgt
    obtain ⟨n, hcount⟩ : ∃ n, lines.countP peekLineIsNonempty = n + 1 + 1 :=
      Nat.exists_eq_add_of_le' (Nat.not_le.mp hgt)
    rw [hcount, List.range'_concat, List.range'_succ, List.reverse_append] at hnumbers
    have := (List.cons.inj hnumbers).1
    omega
  · rintro ⟨hlines, hcount⟩
    rw [listing_of_countP_le hcount, ← List.map_reverse, hlines]

/-- Exactly if `C` holds, the list is the reverse of the listing of the contents, and the shell
does not exit; and then the running number is right as well. -/
def ReversedIff (ops : PeekOptions) (no : ℕ) (content : Str) (r : Listing) (C : Prop) : Prop :=
  (r.ending ≠ .exited ∧
      r.ll.lines.map (peekPrintLine ops) = (listing ops no (linesIn content)).reverse ↔ C) ∧
    (C → r.runningNo = no + (linesIn content).countP peekLineIsNonempty)

/-- A list that is left empty is right for an empty file only. -/
theorem reversed_empty {fd : Reader Char} {no : ℕ} {e : Ending} (he : e ≠ .exited)
    (content : Str) :
    ReversedIff ops no content ⟨peekLinelistInit, no, e, fd⟩ (content = []) := by
  refine ⟨(and_iff_right he).trans nil_eq_listing_iff, ?_⟩
  rintro rfl
  rfl

/-- A list that is left in forward order. -/
theorem reversed_buffered (hn : ops.numbered = true) {fd : Reader Char} (no : ℕ)
    (hcalm : fd.Calm) :
    ReversedIff ops no fd.rest (peekReverseBufferedFd fd peekLinelistInit no)
      (Fits 0 (linesIn fd.rest) ∧ Mirrored (linesIn fd.rest)) := by
  unfold ReversedIff
  rcases peekReverseBufferedFd_spec ops no fd hcalm with
    ⟨ll, fd', hlist, hprint, -, -, hfits⟩ | ⟨hexit, hnot⟩
  · rw [hlist, hprint, listing_eq_reverse_iff hn]
    exact ⟨and_congr_left fun _ => iff_of_true Ending.noConfusion hfits, fun _ => rfl⟩
  · exact ⟨iff_of_false (fun h => h.1 hexit) fun h => hnot h.1, fun h => absurd h.1 hnot⟩

/-- A file whose end has been found: its first `size` bytes are read backwards. -/
theorem reversed_seeked {sk : Seeking} {size : ℕ} {fd : Reader Char} (no : ℕ)
    (hset : sk.set = true) (hsize : sk.size = some size) (hcalm : fd.Calm) :
    ReversedIff ops no fd.content (peekReverseSeekFd sk fd peekLinelistInit no)
      (fd.content = [] ∨ fd.content.length ≤ size ∧ SeekFits fd.content size ∧
        (linesIn fd.content).length ≤ 2 ^ 30) := by
  have hall : (fd.content = [] ∨ fd.content.length ≤ size ∧ SeekFits fd.content size ∧
      (linesIn fd.content).length ≤ 2 ^ 30) → fd.content.take size = fd.content := by
    rintro (hnil | ⟨hle, -⟩)
    · rw [hnil, List.take_nil]
    · exact List.take_of_length_le hle
  rcases peekReverseSeekFd_spec sk ops no fd hset hsize hcalm rfl with
    ⟨ll, fd', hlist, hprint, hfits⟩ | ⟨hexit, hnot⟩
  · rw [hlist, ReversedIff, hprint]
    refine ⟨⟨?_, ?_⟩, ?_⟩
    · rintro ⟨-, hsame⟩
      have htake := listing_inj ops no (List.reverse_injective hsame)
      rw [htake] at hfits
      exact .inr ⟨(List.take_eq_self_iff _).mp htake, hfits⟩
    · intro h
      rw [hall h]
      exact ⟨Ending.noConfusion, rfl⟩
    · intro h
      rw [hall h]
  · have hbad : ¬ (fd.content = [] ∨ fd.content.length ≤ size ∧ SeekFits fd.content size ∧
        (linesIn fd.content).length ≤ 2 ^ 30) := by
      intro h
      rw [hall h] at hnot
      rcases h with hnil | ⟨-, hfits⟩
      · rw [hnil] at hnot
        exact hnot ⟨seekFits_of_short (by simp [linesIn]) size, by decide⟩
      · exact hnot hfits
    exact ⟨iff_of_false (fun h => h.1 hexit) hbad, fun h => absurd h hbad⟩

/-- **A file that is seeked**, in reverse: when its listing is printed so, and how the running
number ends then. -/
theorem peekReverseSeekFd_iff (hn : ops.numbered = true) (sk : Seeking) (fd : Reader Char)
    (no : ℕ) (hcalm : fd.Calm) :
    ReversedIff ops no fd.content (peekReverseSeekFd sk fd peekLinelistInit no)
      (SeekReversible sk fd.content) := by
  unfold SeekReversible
  cases hsize : sk.size with
  | none =>
    cases hset : sk.set with
    | false =>
      simp only [peekReverseSeekFd, hsize, hset, Bool.false_eq_true, if_false]
      exact reversed_empty (by decide) _
    | true =>
      have hrest : (fd.seek 0).rest = fd.content := by rw [Reader.seek_rest, List.drop_zero]
      simp only [peekReverseSeekFd, hsize, hset, if_true]
      rw [← hrest]
      exact reversed_buffered hn no (hcalm.seek 0)
  | some size =>
    cases hset : sk.set with
    | false =>
      simp only [Bool.false_eq_true, false_and, or_false]
      cases size with
      | zero =>
        simp only [peekReverseSeekFd, hsize]
        exact reversed_empty (by decide) _
      | succ n =>
        simp only [peekReverseSeekFd, hsize]
        unfold seekLoop
        simp only [hset, Bool.false_eq_true, if_false]
        exact reversed_empty (by decide) _
    | true =>
      simp only [true_and]
      exact reversed_seeked no hset hsize hcalm

/-- **One source**: which are printed as asked for, and how the running number ends then. -/
theorem processFd_iff (hn : ops.numbered = true) (isStdin : Bool) (sk : Seeking)
    (fd : Reader Char) (no : ℕ) (hcalm : fd.Calm) (hstdin : isStdin = true → sk.cur = false)
    (hfile : sk.cur = true → fd.rest = fd.content) :
    let o := processFd isStdin sk fd ops no
    (o.ending ≠ .exited ∧ o.printed = inOrder ops (listing ops no (linesIn fd.rest)) ↔
        Printable ops sk fd.rest) ∧
      (Printable ops sk fd.rest →
        o.runningNo = no + (linesIn fd.rest).countP peekLineIsNonempty ∧
        (isStdin = true → o.fd.rest = [] ∧ o.fd.content = fd.content)) := by
  unfold processFd Printable inOrder
  by_cases hr : ops.reversed = true
  · rw [if_pos hr, if_pos hr, if_pos hr]
    unfold Reversible
    by_cases hcur : sk.cur = true
    · have hnot : isStdin = false := by
        by_contra hin
        rw [hstdin (by simpa using hin)] at hcur
        cases hcur
      obtain ⟨hiff, hno⟩ := peekReverseSeekFd_iff hn sk fd no hcalm
      rw [if_pos (by rw [hnot, peekFdIsSeekable, hcur]; rfl), if_pos hcur, hfile hcur, ← hiff]
      refine ⟨?_, fun h => ⟨hno (hiff.mp h), fun hin => ?_⟩⟩
      · refine and_congr_right fun hend => ?_
        have hend : (peekReverseSeekFd sk fd peekLinelistInit no).ending ≠ .exited := hend
        simp only [hend, if_false]
      · rw [hnot] at hin
        cases hin
    · rw [if_neg (by simp [peekFdIsSeekable, hcur]), if_neg hcur]
      rcases peekReverseBufferedFd_spec ops no fd hcalm with
        ⟨ll, fd', hlist, hprint, hend, hcontent, hfits⟩ | ⟨hexit, hnot⟩
      · rw [hlist, ← hprint, ← List.map_reverse]
        exact ⟨iff_of_true ⟨Ending.noConfusion, rfl⟩ hfits,
          fun _ => ⟨rfl, fun _ => ⟨hend, hcontent⟩⟩⟩
      · exact ⟨iff_of_false (fun h => h.1 hexit) hnot, fun h => absurd h hnot⟩
  · rw [if_neg hr, if_neg hr, if_neg hr]
    by_cases hlen : ∀ line ∈ linesIn fd.rest, line.length ≤ intMax
    · obtain ⟨fd', hrun, hend, hcontent⟩ := peekForwardFd_spec ops fd no hcalm hlen
      rw [hrun, advance, if_pos hn]
      exact ⟨iff_of_true ⟨Ending.noConfusion, rfl⟩ hlen,
        fun _ => ⟨rfl, fun _ => ⟨hend, hcontent⟩⟩⟩
    · have hlong : ∃ line ∈ linesIn fd.rest, intMax < line.length := by
        push Not at hlen
        exact hlen
      have hexit := (peekForwardFd_exits ops fd no hcalm hlong).1
      exact ⟨iff_of_false (fun h => h.1 hexit) hlen, fun h => absurd h hlen⟩

/-! ### All the sources -/

/-- What a source has to offer. -/
def Opening.content : Opening → Str
  | .file _ content => content
  | _ => []

/-- What is said about a source that cannot be opened. -/
def Opening.complaint : Opening → List Str
  | .missing => ["peek: no such file or directory\n".toList]
  | .directory => ["peek: is a directory\n".toList]
  | .refused => ["peek: no such file or directory\n".toList]
  | .file _ _ => []

/-- What is found under an argument, where `stdin` is what has not been read of standard
input. -/
def source (files : Str → Opening) (stdin name : Str) : Opening :=
  if name = ['-'] then .file ⟨false, none, false⟩ stdin else files name

/-- What is found under the arguments; standard input is used up by the first `-`. -/
def openings (files : Str → Opening) : Str → List Str → List Opening
  | _, [] => []
  | stdin, name :: names =>
    source files stdin name :: openings files (if name = ['-'] then [] else stdin) names

/-- The listings of the sources, with one running number for all. -/
def listings (ops : PeekOptions) : ℕ → List Str → List (List Printed)
  | _, [] => []
  | no, content :: contents =>
    listing ops no (linesIn content) ::
      listings ops (no + (linesIn content).countP peekLineIsNonempty) contents

/-- What is printed as asked for: a file that is `Printable`, or nothing at all. -/
def Opening.Good (ops : PeekOptions) : Opening → Prop
  | .file sk content => Printable ops sk content
  | _ => True

/-- The part of standard input that the command has not read. -/
def Progress.unread (p : Progress) : Str := p.stdin.1.drop p.stdin.2

/-- What one source adds, whatever it is. -/
theorem peekProcessSource_printed (w : World) (i : ℕ) (name : Option Str) (ops : PeekOptions)
    (p : Progress) : ∃ x, (peekProcessSource w i name ops p).printed = p.printed ++ [x] := by
  unfold peekProcessSource
  split
  · exact ⟨_, rfl⟩
  · split <;> exact ⟨_, rfl⟩

/-- **What one source adds**: its listing if it is good, and otherwise something else, unless
the shell exits. -/
theorem peekProcessSource_iff (hn : ops.numbered = true) {w : World} (i : ℕ) (name : Str)
    {p : Progress} (hcalm : Mood.fail ∉ w.moods i) (hexit : p.exited = false) :
    let p' := peekProcessSource w i (if name = ['-'] then none else some name) ops p
    let content := (source w.files p.unread name).content
    (p'.exited = false ∧
        p'.printed = p.printed ++ [inOrder ops (listing ops p.runningNo (linesIn content))] ↔
      (source w.files p.unread name).Good ops) ∧
    ((source w.files p.unread name).Good ops →
      p'.errors = p.errors ++ (source w.files p.unread name).complaint ∧
      p'.runningNo = p.runningNo + (linesIn content).countP peekLineIsNonempty ∧
      p'.unread = (if name = ['-'] then [] else p.unread)) := by
  have hadd : ∀ (o : Outcome) (l : List Printed), (o.ending == .exited) = false ∧
      p.printed ++ [o.printed] = p.printed ++ [l] ↔ o.ending ≠ .exited ∧ o.printed = l := by
    intro o l
    rw [List.append_cancel_left_eq, List.singleton_inj, beq_eq_false_iff_ne]
  have hnil : inOrder ops (listing ops p.runningNo (linesIn [])) = [] := by
    unfold inOrder
    split <;> rfl
  unfold source
  by_cases hname : name = ['-']
  · -- standard input, from where it has been read to
    simp only [hname, if_true]
    obtain ⟨hiff, hrest⟩ := processFd_iff hn true ⟨false, none, false⟩
      ⟨p.stdin.1, p.stdin.2, w.moods i⟩ p.runningNo hcalm (fun _ => rfl)
      (fun h => absurd h Bool.false_ne_true)
    refine ⟨(hadd _ _).trans hiff, ?_⟩
    intro hgood
    have hend := (hiff.mpr hgood).1
    obtain ⟨hno, hread⟩ := hrest hgood
    obtain ⟨hread, hcontent⟩ := hread rfl
    refine ⟨?_, hno, ?_⟩
    · simp only [peekProcessSource, Progress.add, hend, if_false, Opening.complaint,
        List.append_nil]
    · unfold Reader.rest at hread
      rw [hcontent] at hread
      exact hread
  · simp only [hname, if_false]
    cases hfile : w.files name with
    | file sk content =>
      obtain ⟨hiff, hrest⟩ := processFd_iff hn false sk ⟨content, 0, w.moods i⟩ p.runningNo hcalm
        (fun h => absurd h Bool.false_ne_true) (fun _ => rfl)
      simp only [peekProcessSource, hfile]
      refine ⟨(hadd _ _).trans hiff, ?_⟩
      intro hgood
      have hend := (hiff.mpr hgood).1
      refine ⟨?_, (hrest hgood).1, rfl⟩
      simp only [Progress.add, hend, if_false, Opening.complaint, List.append_nil]
    -- nothing is printed for the others
    | missing =>
      simp only [peekProcessSource, hfile, Opening.content, hnil]
      exact ⟨iff_of_true ⟨hexit, rfl⟩ trivial, fun _ => ⟨rfl, rfl, rfl⟩⟩
    | directory =>
      simp only [peekProcessSource, hfile, Opening.content, hnil]
      exact ⟨iff_of_true ⟨hexit, rfl⟩ trivial, fun _ => ⟨rfl, rfl, rfl⟩⟩
    | refused =>
      simp only [peekProcessSource, hfile, Opening.content, hnil]
      exact ⟨iff_of_true ⟨hexit, rfl⟩ trivial, fun _ => ⟨rfl, rfl, rfl⟩⟩

theorem sourceLoop_printed (w : World) (ops : PeekOptions) (i : ℕ) (names : List Str)
    (p : Progress) : ∃ l, (sourceLoop w ops i names p).printed = p.printed ++ l := by
  induction names generalizing i p with
  | nil => exact ⟨[], (List.append_nil _).symm⟩
  | cons name names ih =>
    obtain ⟨x, hx⟩ :=
      peekProcessSource_printed w i (if name = ['-'] then none else some name) ops p
    dsimp only [sourceLoop]
    generalize peekProcessSource w i (if name = ['-'] then none else some name) ops p = p' at hx
    split
    · exact ⟨[x], hx⟩
    · obtain ⟨l, hl⟩ := ih (i + 1) p'
      exact ⟨x :: l, by rw [hl, hx, List.append_assoc]; rfl⟩

/-- **The loop over the arguments** prints the listings of the sources exactly if all are
good. -/
theorem sourceLoop_iff (hn : ops.numbered = true) {w : World}
    (hcalm : ∀ i, Mood.fail ∉ w.moods i) (i : ℕ) (names : List Str) (p : Progress)
    (hexit : p.exited = false) :
    let q := sourceLoop w ops i names p
    let found := openings w.files p.unread names
    (q.exited = false ∧ q.printed = p.printed ++
        (listings ops p.runningNo (found.map Opening.content)).map (inOrder ops) ↔
      ∀ o ∈ found, o.Good ops) ∧
    ((∀ o ∈ found, o.Good ops) → q.errors = p.errors ++ found.flatMap Opening.complaint) := by
  induction names generalizing i p with
  | nil =>
    exact ⟨iff_of_true ⟨hexit, (List.append_nil _).symm⟩ (by simp [openings]),
      fun _ => (List.append_nil _).symm⟩
  | cons name names ih =>
    obtain ⟨hiff, hrest⟩ := peekProcessSource_iff hn i name (hcalm i) hexit
    set p' := peekProcessSource w i (if name = ['-'] then none else some name) ops p with hp'
    have hstep : sourceLoop w ops i (name :: names) p =
        if p'.exited then p' else sourceLoop w ops (i + 1) names p' := rfl
    simp only [openings, List.map_cons, listings, List.flatMap_cons, List.forall_mem_cons, hstep]
    by_cases hgood : (source w.files p.unread name).Good ops
    · obtain ⟨hexit', hprinted⟩ := hiff.mpr hgood
      obtain ⟨herrors, hno, hunread⟩ := hrest hgood
      obtain ⟨ih₁, ih₂⟩ := ih (i + 1) p' hexit'
      rw [hprinted, hno, hunread, List.append_assoc, List.singleton_append] at ih₁
      rw [hunread, herrors, List.append_assoc] at ih₂
      simp only [hgood, true_and, hexit', Bool.false_eq_true, if_false]
      exact ⟨ih₁, ih₂⟩
    · refine ⟨iff_of_false ?_ fun h => hgood h.1, fun h => absurd h.1 hgood⟩
      rintro ⟨hq, hprinted⟩
      -- the source itself has not printed its listing
      have hexit' : p'.exited = false := by
        by_contra h
        rw [if_pos (by simpa using h)] at hq
        exact h hq
      rw [hexit', if_neg Bool.false_ne_true] at hprinted
      obtain ⟨x, hx⟩ :=
        peekProcessSource_printed w i (if name = ['-'] then none else some name) ops p
      obtain ⟨l, hl⟩ := sourceLoop_printed w ops (i + 1) names p'
      rw [hl, hp', hx, List.append_assoc, List.append_cancel_left_eq] at hprinted
      apply hgood
      rw [← hiff]
      exact ⟨hexit', by rw [hp', hx, (List.cons.inj hprinted).1]⟩

/-- The listings depend on `-n` alone. -/
theorem listings_congr (ops ops' : PeekOptions) (h : ops.numbered = ops'.numbered) (no : ℕ)
    (contents : List Str) : listings ops no contents = listings ops' no contents := by
  induction contents generalizing no with
  | nil => rfl
  | cons content contents ih =>
    unfold listings listing
    rw [h, ih]

/-! ### Numbers -/

/-- **The numbers go on from source to source.** -/
theorem numbers_listings (hn : ops.numbered = true) (no : ℕ) (contents : List Str) :
    ∃ n, numbers (listings ops no contents).flatten = List.range' (no + 1) n := by
  induction contents generalizing no with
  | nil => exact ⟨0, rfl⟩
  | cons content contents ih =>
    obtain ⟨n, h⟩ := ih (no + (linesIn content).countP peekLineIsNonempty)
    refine ⟨(linesIn content).countP peekLineIsNonempty + n, ?_⟩
    rw [listings, List.flatten_cons, numbers_append, numbers_listing hn, h,
      ← List.range'_append_1]
    congr 2
    omega

/-! ### The command -/

/-- An argument that names a source: `-`, or anything that does not begin with a
hyphen. -/
def IsSource (arg : Str) : Prop := ¬ (arg.head? = some '-' ∧ arg.tail ≠ [])

instance (arg : Str) : Decidable (IsSource arg) := inferInstanceAs (Decidable (¬ _))

theorem not_isFlagArg {arg : Str} (h : IsSource arg) : peekIsFlagArg arg = false := by
  match arg with
  | [] => rfl
  | [a] => rfl
  | a :: c :: cs =>
    have ha : a ≠ '-' := by
      rintro rfl
      exact h ⟨rfl, List.cons_ne_nil _ _⟩
    show (a == '-' && _) = false
    rw [beq_eq_false_iff_ne.mpr ha, Bool.false_and]

/-- The arguments after the flags are the sources. -/
theorem parseLoop_sources (ops : PeekOptions) (args filenames : List Str)
    (h : ∀ arg ∈ args, IsSource arg) :
    parseLoop args ops filenames = some (ops, filenames ++ args) := by
  induction args generalizing filenames with
  | nil => simp [parseLoop]
  | cons arg args ih =>
    have harg : IsSource arg := h arg List.mem_cons_self
    unfold parseLoop
    rw [not_isFlagArg harg, if_neg Bool.false_ne_true, if_neg harg,
      ih _ fun a ha => h a (List.mem_cons_of_mem _ ha), List.append_assoc]
    rfl

/-- The sources of a command; without an argument it is standard input. -/
def sourceNames (args : List Str) : List Str := if args = [] then [['-']] else args

/-- **The whole command**, with `-n` given. -/
theorem peekCommand_iff (hn : ops.numbered = true) (w : World) (stdin : Str)
    {argv args : List Str} (hargv : peekParseArgs argv = some (ops, args))
    (hcalm : ∀ i, Mood.fail ∉ w.moods i) :
    let q := peekCommand w stdin argv
    let found := openings w.files stdin (sourceNames args)
    (q.exited = false ∧
        q.printed = (listings ops 0 (found.map Opening.content)).map (inOrder ops) ↔
      ∀ o ∈ found, o.Good ops) ∧
    ((∀ o ∈ found, o.Good ops) → q.errors = found.flatMap Opening.complaint) := by
  unfold peekCommand
  rw [hargv]
  have h := sourceLoop_iff hn hcalm 0 (sourceNames args) ⟨[], [], 0, false, false, (stdin, 0)⟩ rfl
  by_cases hargs : args = []
  · -- without an argument the loop is not run
    subst hargs
    simp only [sourceNames, if_true, sourceLoop, ite_self] at h ⊢
    exact h
  · simp only [sourceNames, hargs, if_false] at h ⊢
    exact h

/-- **When `peek -nr` prints, source by source, what `peek -n` prints, in reverse order**, where
that is the listing of the sources, with the numbers 1, 2, 3, and so on: exactly if all
sources are printed in both directions. -/
theorem peek_nr_reverses_peek_n (files : Str → Opening) (stdin : Str) (args : List Str)
    (moods moods' : ℕ → List Mood) (hargs : ∀ arg ∈ args, IsSource arg)
    (hcalm : ∀ i, Mood.fail ∉ moods i) (hcalm' : ∀ i, Mood.fail ∉ moods' i) :
    (let forward := peekCommand ⟨files, moods⟩ stdin ("peek".toList :: "-n".toList :: args)
      let reverse := peekCommand ⟨files, moods'⟩ stdin ("peek".toList :: "-nr".toList :: args)
      (forward.exited = false ∧ reverse.exited = false) ∧
        forward.printed = listings ⟨true, false⟩ 0
          ((openings files stdin (sourceNames args)).map Opening.content) ∧
        reverse.printed = forward.printed.map List.reverse ∧ reverse.errors = forward.errors ∧
        ∃ n, numbers forward.printed.flatten = List.range' 1 n) ↔
      ∀ o ∈ openings files stdin (sourceNames args),
        o.Good ⟨true, false⟩ ∧ o.Good ⟨true, true⟩ := by
  have hparse : peekParseArgs ("peek".toList :: "-n".toList :: args) =
      some (⟨true, false⟩, args) := parseLoop_sources ⟨true, false⟩ args [] hargs
  have hparse' : peekParseArgs ("peek".toList :: "-nr".toList :: args) =
      some (⟨true, true⟩, args) := parseLoop_sources ⟨true, true⟩ args [] hargs
  obtain ⟨hf, hfe⟩ := peekCommand_iff rfl ⟨files, moods⟩ stdin hparse hcalm
  obtain ⟨hr, hre⟩ := peekCommand_iff rfl ⟨files, moods'⟩ stdin hparse' hcalm'
  have hid : inOrder ⟨true, false⟩ = id := rfl
  have hrev : inOrder ⟨true, true⟩ = List.reverse := rfl
  rw [hid, List.map_id] at hf
  rw [hrev, listings_congr ⟨true, true⟩ ⟨true, false⟩ rfl] at hr
  rw [forall₂_and, ← hf, ← hr]
  constructor
  · rintro ⟨⟨hexit, hexit'⟩, hforward, hreverse, -⟩
    rw [hforward] at hreverse
    exact ⟨⟨hexit, hforward⟩, hexit', hreverse⟩
  · intro h
    obtain ⟨⟨hexit, hforward⟩, hexit', hreverse⟩ := h
    refine ⟨⟨hexit, hexit'⟩, hforward, ?_, ?_, ?_⟩
    · rw [hreverse, hforward]
    · rw [hre (hr.mp ⟨hexit', hreverse⟩), hfe (hf.mp ⟨hexit, hforward⟩)]
    · rw [hforward]
      exact numbers_listings rfl 0 _

/-- Two files around a missing one, and standard input twice. -/
def someFiles (name : Str) : Opening :=
  if name = "a".toList then .file (regular "x\n\ny\n".toList) "x\n\ny\n".toList
  else if name = "b".toList then .file ⟨false, none, false⟩ "z\nw".toList
  else .missing

theorem peek_nr_reverses_peek_n_some :
    (peekCommand ⟨someFiles, fun _ => [.eintr, .upTo 0]⟩ "p\n".toList
      ("peek".toList :: "-nr".toList :: ["a", "c", "-", "b", "-"].map String.toList)).printed =
    (peekCommand ⟨someFiles, fun _ => []⟩ "p\n".toList
      ("peek".toList :: "-n".toList :: ["a", "c", "-", "b", "-"].map String.toList)).printed.map
        List.reverse := by
  refine ((peek_nr_reverses_peek_n someFiles "p\n".toList
    (["a", "c", "-", "b", "-"].map String.toList) (fun _ => []) (fun _ => [.eintr, .upTo 0])
    (by decide) (fun _ => by decide) (fun _ => by decide)).mpr ?_).2.2.1
  have hfound : openings someFiles "p\n".toList (sourceNames (["a", "c", "-", "b", "-"].map
      String.toList)) = [.file (regular "x\n\ny\n".toList) "x\n\ny\n".toList, .missing,
        .file ⟨false, none, false⟩ "p\n".toList, .file ⟨false, none, false⟩ "z\nw".toList,
        .file ⟨false, none, false⟩ []] := by decide
  -- those that cannot be seeked have to fit the buffers
  have hfits : ∀ content, Fits 0 (linesIn content) →
      (Opening.file ⟨false, none, false⟩ content).Good ⟨true, false⟩ ∧
        (Opening.file ⟨false, none, false⟩ content).Good ⟨true, true⟩ :=
    fun content h => ⟨fun line hmem => (h.1 line hmem).trans (by decide), h⟩
  rw [hfound]
  simp only [List.forall_mem_cons]
  have hlen : ∀ line ∈ linesIn "x\n\ny\n".toList, line.length ≤ intMax - chunkSize := by
    decide +kernel
  refine ⟨⟨fun line hmem => (hlen line hmem).trans (by decide),
    .inr ⟨rfl, ?_, seekFits_of_short hlen _, ?_⟩⟩, ⟨trivial, trivial⟩, hfits _ ?_, hfits _ ?_,
    hfits _ ?_, by simp⟩
  all_goals decide +kernel

/-! ### A file whose end cannot be found -/

/-- Where the end of a file cannot be found, its lines are printed in forward
order. -/
theorem processFd_of_no_end (hr : ops.reversed = true) {sk : Seeking} (fd : Reader Char) (no : ℕ)
    (hcur : sk.cur = true) (hset : sk.set = true) (hsize : sk.size = none) (hcalm : fd.Calm)
    (hfits : Fits 0 (linesIn fd.content)) :
    (processFd false sk fd ops no).printed = listing ops no (linesIn fd.content) := by
  have hseek : peekReverseSeekFd sk fd peekLinelistInit no =
      peekReverseBufferedFd (fd.seek 0) peekLinelistInit no := by
    unfold peekReverseSeekFd
    rw [hsize]
    exact if_pos hset
  unfold processFd
  rw [if_pos hr, if_pos (by rw [peekFdIsSeekable, hcur]; rfl), hseek]
  rcases peekReverseBufferedFd_spec ops no (fd.seek 0) (hcalm.seek 0) with
    ⟨ll, fd', hlist, hprint, -⟩ | ⟨-, hnot⟩
  · rw [hlist]
    exact hprint
  · exact absurd hfits hnot

/-- A command with one file. -/
theorem peekCommand_file {w : World} {stdin name content : Str} {argv : List Str} {sk : Seeking}
    (hargv : peekParseArgs argv = some (ops, [name])) (hname : name ≠ ['-'])
    (hfile : w.files name = .file sk content) :
    (peekCommand w stdin argv).printed =
      [(processFd false sk ⟨content, 0, w.moods 0⟩ ops 0).printed] := by
  unfold peekCommand
  rw [hargv]
  simp only [List.cons_ne_nil, if_false, sourceLoop, hname, peekProcessSource, hfile, ite_self]
  rfl

/-- **`peek -nr` on a file like `/proc/cpuinfo`**: `lseek` with `SEEK_CUR` and
`SEEK_SET` succeeds, with `SEEK_END` it fails; the lines come in forward order. -/
theorem proc_file_not_reversed :
    (peekCommand ⟨fun _ => .file ⟨true, none, true⟩ "a\nb\n".toList, fun _ => []⟩ []
      ["peek".toList, "-nr".toList, "/proc/f".toList]).printed =
        [[⟨1, "a\n".toList⟩, ⟨2, "b\n".toList⟩]] ∧
    (peekCommand ⟨fun _ => .file ⟨true, none, true⟩ "a\nb\n".toList, fun _ => []⟩ []
      ["peek".toList, "-n".toList, "/proc/f".toList]).printed =
        [[⟨1, "a\n".toList⟩, ⟨2, "b\n".toList⟩]] := by
  have hlisting : ∀ r, listing ⟨true, r⟩ 0 (linesIn "a\nb\n".toList) =
      [⟨1, "a\n".toList⟩, ⟨2, "b\n".toList⟩] := by decide +kernel
  have hfits : Fits 0 (linesIn "a\nb\n".toList) := by decide +kernel
  have hparse : ∀ flag r, flag = "-n".toList ∧ r = false ∨ flag = "-nr".toList ∧ r = true →
      peekParseArgs ["peek".toList, flag, "/proc/f".toList] =
        some (⟨true, r⟩, ["/proc/f".toList]) := by
    rintro flag r (⟨rfl, rfl⟩ | ⟨rfl, rfl⟩) <;> decide
  constructor
  · rw [peekCommand_file (hparse _ _ (.inr ⟨rfl, rfl⟩)) (by decide) rfl,
      processFd_of_no_end rfl ⟨"a\nb\n".toList, 0, []⟩ 0 rfl rfl rfl List.not_mem_nil hfits]
    exact congrArg (fun l => [l]) (hlisting true)
  · obtain ⟨fd', hrun, -⟩ := peekForwardFd_spec ⟨true, false⟩ ⟨"a\nb\n".toList, 0, []⟩ 0
      List.not_mem_nil fun line hmem => (hfits.1 line hmem).trans (by decide)
    rw [peekCommand_file (hparse _ _ (.inl ⟨rfl, rfl⟩)) (by decide) rfl]
    show [(peekForwardFd ⟨"a\nb\n".toList, 0, []⟩ ⟨true, false⟩ 0).printed] = _
    rw [hrun]
    exact congrArg (fun l => [l]) (hlisting false)

end Peek
end RuShell
