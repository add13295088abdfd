import RuShell.Peek.Model

/-!
# Streaming forwards does not depend on the reads

`peek_forward_fd` prints a line as soon as its newline has been read, and keeps
the part of a line that has not ended in `pending`.  What it prints is the
listing of the file, however the reads cut the file into pieces and however
often they are interrupted, up to a line whose length is not an `int`.

## Main definitions

* `advance ops lines` — by how much the lines raise the running number.
* `Stream.after` — the state after some lines have been printed.
* `CutShort` — the lines before one that is too long.

## Main results

* `forwardScan_spec` — one buffer.
* `forwardLoop_spec`, `peekForwardFd_spec`, `peekForwardFd_exits` — the whole source.
* `peek_forward_prints` — **what is printed and how the number ends**, exactly if
  every line fits.
* `long_line_lost` — a line of `2 ^ 31` bytes is not printed.
-/

namespace RuShell
namespace Peek

open Lib

/-! ### Printing lines -/

/-- By how much printing the lines raises the running number. -/
def advance (ops : PeekOptions) (lines : List Str) : ℕ :=
  if ops.numbered then lines.countP peekLineIsNonempty else 0

@[simp] theorem advance_nil (ops : PeekOptions) : advance ops [] = 0 := by
  unfold advance
  split <;> rfl

/-- Without `-n` the numbers do not matter. -/
theorem listing_of_not_numbered {ops : PeekOptions} (h : ops.numbered = false) (no : ℕ)
    (lines : List Str) : listing ops no lines = lines.map fun line => ⟨0, line⟩ := by
  induction lines generalizing no with
  | nil => rfl
  | cons line lines ih =>
    rw [listing_cons, ih, h]
    rfl

/-- The state after the lines have been printed, with `p` as the line that is
still open. -/
def Stream.after (s : Stream) (ops : PeekOptions) (lines : List Str) (p : Str) : Stream :=
  ⟨p, s.runningNo + advance ops lines, s.printed ++ listing ops s.runningNo lines⟩

theorem Stream.after_nil (s : Stream) (ops : PeekOptions) : s.after ops [] s.pending = s := by
  simp [Stream.after]

/-- Printing one line, and then the others. -/
theorem Stream.after_cons (s : Stream) (ops : PeekOptions) (line : Str) (lines : List Str)
    (p : Str) : (s.print ops line).after ops lines p = s.after ops (line :: lines) p := by
  unfold Stream.after Stream.print printAndMaybeNumber advance
  rw [listing_cons]
  cases hn : ops.numbered with
  | false => simp [listing_of_not_numbered hn]
  | true =>
    cases hl : peekLineIsNonempty line with
    | false => simp [hl]
    | true =>
      simp only [Bool.and_self, if_true, List.countP_cons, hl, List.append_assoc,
        List.singleton_append, Stream.mk.injEq, true_and, and_true]
      omega

theorem Stream.after_pending (s : Stream) (ops : PeekOptions) (lines : List Str) (q p : Str) :
    ({ s with pending := q } : Stream).after ops lines p = s.after ops lines p := rfl

theorem Stream.after_after (s : Stream) (ops : PeekOptions) (lines lines' : List Str)
    (p q : Str) : (s.after ops lines p).after ops lines' q = s.after ops (lines ++ lines') q := by
  induction lines generalizing s with
  | nil =>
    rw [List.nil_append, ← Stream.after_pending s ops lines' p]
    simp [Stream.after]
  | cons line lines ih => rw [← Stream.after_cons, ih, Stream.after_cons, List.cons_append]

/-! ### One buffer -/

variable {ops : PeekOptions} {s : Stream}

/-- A newline ends the line that is open, unless that is too long.  What lies in the buffer
alone never is. -/
theorem forwardScan_newline (buf seg : Str) (hroom : seg.length + 1 ≤ intMax) :
    forwardScan ops ('\n' :: buf) seg s =
      if intMax < (s.pending ++ (seg ++ ['\n'])).length then .error s
      else forwardScan ops buf []
        { s.print ops (s.pending ++ (seg ++ ['\n'])) with pending := [] } := by
  rw [forwardScan, if_pos rfl, List.length_append, List.length_append, List.length_singleton]
  split
  · rfl
  · rename_i hpos
    have hnil : s.pending = [] := List.length_eq_zero_iff.mp (by omega)
    rw [hnil, List.length_nil, if_neg (by omega), List.nil_append]
    congr 1
    exact congrArg (fun p => (⟨p, _, _⟩ : Stream)) hnil

/-- The lines that are printed before one is too long. -/
def CutShort (all lines : List Str) : Prop :=
  ∃ line others, intMax < line.length ∧ all = lines ++ line :: others

theorem CutShort.cons {all lines : List Str} (h : CutShort all lines) (line : Str) :
    CutShort (line :: all) (line :: lines) := by
  obtain ⟨long, others, hlong, rfl⟩ := h
  exact ⟨long, others, hlong, rfl⟩

/-- **One buffer.**  The lines that end in it are printed, and what is left is
the open line, unless one is too long; `rest` is what has not been read. -/
theorem forwardScan_spec (buf seg rest : Str) (hp : '\n' ∉ s.pending) (hs : '\n' ∉ seg)
    (hroom : seg.length + buf.length ≤ intMax) (hpending : s.pending.length ≤ intMax) :
    ∃ lines p, (∀ line ∈ lines, line.length ≤ intMax) ∧
      (forwardScan ops buf seg s = .ok (s.after ops lines p) ∧ '\n' ∉ p ∧ p.length ≤ intMax ∧
          linesIn (s.pending ++ (seg ++ (buf ++ rest))) = lines ++ linesIn (p ++ rest) ∨
        forwardScan ops buf seg s = .error (s.after ops lines p) ∧
          CutShort (linesIn (s.pending ++ (seg ++ (buf ++ rest)))) lines) := by
  have hopen : '\n' ∉ s.pending ++ seg := List.not_mem_append hp hs
  induction buf generalizing seg s with
  | nil =>
    refine ⟨[], ?_⟩
    unfold forwardScan
    split
    · rename_i hpos
      by_cases hlong : intMax < s.pending.length + seg.length
      · -- the open line is a part of a line of the file
        obtain ⟨line, others, hlines, hle⟩ :=
          exists_linesOf_append hopen (by simp [List.length_pos_iff.mp hpos]) rest
        rw [List.length_append] at hle
        refine ⟨s.pending, by simp, .inr ⟨?_, line, others, by omega, ?_⟩⟩
        · rw [if_pos hlong, Stream.after_nil]
        · rw [List.nil_append, ← List.append_assoc, linesIn, hlines, List.nil_append]
      · refine ⟨s.pending ++ seg, by simp, .inl ⟨?_, hopen, ?_, by simp⟩⟩
        · rw [if_neg hlong]
          simp [Stream.after]
        · rw [List.length_append]
          omega
    · rename_i hpos
      have hnil : seg = [] := List.length_eq_zero_iff.mp (by omega)
      subst hnil
      exact ⟨s.pending, by simp, .inl ⟨by rw [Stream.after_nil], hp, hpending, by simp⟩⟩
  | cons c buf ih =>
    rw [List.length_cons] at hroom
    by_cases hc : c = '\n'
    · subst hc
      -- the line that ends here
      have hlines : linesIn (s.pending ++ (seg ++ ('\n' :: buf ++ rest))) =
          (s.pending ++ (seg ++ ['\n'])) :: linesIn (buf ++ rest) := by
        have := linesOf_append_sep (l := buf ++ rest) hopen
        simpa only [List.append_assoc, List.cons_append] using this
      rw [hlines, forwardScan_newline _ _ (by omega)]
      split
      · rename_i hlong
        exact ⟨[], s.pending, by simp, .inr ⟨by rw [Stream.after_nil], _, _, hlong, rfl⟩⟩
      · rename_i hfit
        obtain ⟨lines, p, hshort, hscan⟩ :=
          ih (s := { s.print ops (s.pending ++ (seg ++ ['\n'])) with pending := [] }) []
            List.not_mem_nil List.not_mem_nil (by rw [List.length_nil]; omega) (Nat.zero_le _)
            List.not_mem_nil
        rw [Stream.after_pending, Stream.after_cons] at hscan
        refine ⟨_ :: lines, p, List.forall_mem_cons.mpr ⟨Nat.not_lt.mp hfit, hshort⟩, ?_⟩
        rcases hscan with ⟨hok, hnot, hle, heq⟩ | ⟨herr, hcut⟩
        · exact .inl ⟨hok, hnot, hle, congrArg (List.cons _) heq⟩
        · exact .inr ⟨herr, hcut.cons _⟩
    · have hs' : '\n' ∉ seg ++ [c] := by
        rw [List.mem_append, List.mem_singleton]
        exact not_or.mpr ⟨hs, fun h => hc h.symm⟩
      have hassoc : seg ++ (c :: buf ++ rest) = (seg ++ [c]) ++ (buf ++ rest) := by simp
      rw [hassoc, forwardScan, if_neg hc]
      exact ih (seg ++ [c]) hp hs' (by rw [List.length_append, List.length_singleton]; omega)
        hpending (List.not_mem_append hp hs')

/-! ### The whole source -/

/-- What is left of a stream once the end of the file has been seen. -/
theorem finish_eq (hp : '\n' ∉ s.pending) :
    (if 0 < s.pending.length then s.print ops s.pending else s) =
      s.after ops (linesIn s.pending) s.pending := by
  split
  · rename_i hpos
    rw [linesIn, linesOf_of_not_mem hp (List.length_pos_iff.mp hpos), ← Stream.after_cons]
    exact (Stream.after_nil (s.print ops s.pending) ops).symm
  · rename_i hpos
    have hnil : s.pending = [] := List.length_eq_zero_iff.mp (by omega)
    have := Stream.after_nil s ops
    rw [hnil] at this ⊢
    exact this.symm

theorem buffer_le_intMax {buf : Str} (h : buf.length ≤ chunkSize) :
    ([] : Str).length + buf.length ≤ intMax := by
  have hchunk : chunkSize ≤ intMax := by decide
  rw [List.length_nil]
  omega

/-- **The loop prints the listing of what is pending and what is unread**, and
stops at the end of the file, or at a line that is too long. -/
theorem forwardLoop_spec (ops : PeekOptions) (fd : Reader Char) (s : Stream)
    (hcalm : fd.Calm) (hp : '\n' ∉ s.pending) (hpending : s.pending.length ≤ intMax) :
    ∃ lines p fd', (∀ line ∈ lines, line.length ≤ intMax) ∧
      (forwardLoop ops fd s = (s.after ops lines p, .ok, fd') ∧
          lines = linesIn (s.pending ++ fd.rest) ∧ fd'.rest = [] ∧ fd'.content = fd.content ∨
        forwardLoop ops fd s = (s.after ops lines p, .exited, fd') ∧
          CutShort (linesIn (s.pending ++ fd.rest)) lines) := by
  -- the induction is the loop's own; the invariant is that no newline is pending
  fun_induction forwardLoop ops fd s with
  | case1 fd s fd' hread =>
    have hend := Reader.read_end (by decide) hread
    obtain ⟨hrest, -, hcontent⟩ := Reader.read_data hread
    rw [hend] at hrest
    refine ⟨linesIn s.pending, s.pending, fd', ?_, .inl ⟨?_, ?_, ?_, hcontent⟩⟩
    · intro line hmem
      rw [← flatten_linesOf '\n' s.pending] at hpending
      exact (List.sublist_flatten_of_mem hmem).length_le.trans hpending
    · rw [finish_eq hp]
    · rw [hend, List.append_nil]
    · exact (List.append_eq_nil_iff.mp hrest.symm).2
  | case2 fd s fd' hread ih =>
    obtain ⟨hrest, hcontent, -⟩ := Reader.read_eintr hread
    rw [← hrest, ← hcontent]
    exact ih (hcalm.read hread).2 hp hpending
  | case3 fd s fd' hread => exact absurd rfl (hcalm.read hread).1
  | case4 fd s c buf fd' hread s' hscan =>
    obtain ⟨hrest, hle, -⟩ := Reader.read_data hread
    obtain ⟨lines, p, hshort, hscan'⟩ := forwardScan_spec (c :: buf) [] fd'.rest hp
      List.not_mem_nil (buffer_le_intMax hle) hpending
    rw [hscan, ← hrest] at hscan'
    rcases hscan' with ⟨hok, -⟩ | ⟨herr, hcut⟩
    · cases hok
    · obtain rfl := Except.error.inj herr
      exact ⟨lines, p, fd', hshort, .inr ⟨rfl, hcut⟩⟩
  | case5 fd s c buf fd' hread s' hscan ih =>
    obtain ⟨hrest, hle, hcontent⟩ := Reader.read_data hread
    obtain ⟨lines, p, hshort, hscan'⟩ := forwardScan_spec (c :: buf) [] fd'.rest hp
      List.not_mem_nil (buffer_le_intMax hle) hpending
    rw [hscan, List.nil_append, ← hrest] at hscan'
    rcases hscan' with ⟨hok, hnot, hlen, heq⟩ | ⟨herr, -⟩
    · obtain rfl := Except.ok.inj hok
      obtain ⟨lines', q, fd'', hshort', hloop⟩ := ih (hcalm.read hread).2 hnot hlen
      rw [Stream.after_after, hcontent] at hloop
      refine ⟨lines ++ lines', q, fd'', ?_, ?_⟩
      · intro line hmem
        exact (List.mem_append.mp hmem).elim (hshort line) (hshort' line)
      · rw [heq]
        rcases hloop with ⟨hrun, rfl, hend⟩ | ⟨hrun, line, others, hlong, hall⟩
        · exact .inl ⟨hrun, rfl, hend⟩
        · exact .inr ⟨hrun, line, others, hlong, by rw [List.append_assoc, ← hall]; rfl⟩
    · cases herr

/-- **The whole of `peek_forward_fd`**, from where the source has been read to. -/
theorem peekForwardFd_spec (ops : PeekOptions) (fd : Reader Char) (no : ℕ) (hcalm : fd.Calm)
    (hlen : ∀ line ∈ linesIn fd.rest, line.length ≤ intMax) :
    ∃ fd', peekForwardFd fd ops no =
        ⟨listing ops no (linesIn fd.rest), no + advance ops (linesIn fd.rest), .ok, fd'⟩ ∧
      fd'.rest = [] ∧ fd'.content = fd.content := by
  obtain ⟨lines, p, fd', -, hloop⟩ :=
    forwardLoop_spec ops fd ⟨[], no, []⟩ hcalm List.not_mem_nil (Nat.zero_le _)
  rcases hloop with ⟨hrun, rfl, hend⟩ | ⟨-, line, others, hlong, hall⟩
  · refine ⟨fd', ?_, hend⟩
    rw [peekForwardFd, hrun]
    rfl
  · have hmem : line ∈ linesIn fd.rest := by
      rw [show linesIn fd.rest = lines ++ line :: others from hall]
      simp
    exact absurd (hlen line hmem) (Nat.not_le.mpr hlong)

/-- A line that is too long ends the shell; only lines before it are printed. -/
theorem peekForwardFd_exits (ops : PeekOptions) (fd : Reader Char) (no : ℕ) (hcalm : fd.Calm)
    (hlong : ∃ line ∈ linesIn fd.rest, intMax < line.length) :
    (peekForwardFd fd ops no).ending = .exited ∧
      ∃ lines, CutShort (linesIn fd.rest) lines ∧
        (peekForwardFd fd ops no).printed = listing ops no lines := by
  obtain ⟨lines, p, fd', hshort, hloop⟩ :=
    forwardLoop_spec ops fd ⟨[], no, []⟩ hcalm List.not_mem_nil (Nat.zero_le _)
  rcases hloop with ⟨-, rfl, -⟩ | ⟨hrun, hcut⟩
  · obtain ⟨line, hmem, hlt⟩ := hlong
    exact absurd (hshort line hmem) (Nat.not_le.mpr hlt)
  · rw [peekForwardFd, hrun]
    exact ⟨rfl, lines, hcut, rfl⟩

/-! ### What is printed -/

/-- A line of a file is empty exactly if it is a lone newline. -/
theorem peekLineIsNonempty_iff {content line : Str} (h : line ∈ linesIn content) :
    peekLineIsNonempty line = decide (line ≠ ['\n']) := by
  have hne := ne_nil_of_mem_linesOf h
  unfold peekLineIsNonempty
  match line with
  | [] => exact absurd rfl hne
  | [c] => by_cases hc : c = '\n' <;> simp [hc]
  | c :: d :: line => simp

theorem countP_nonempty_eq {content : Str} {lines : List Str} (h : lines ⊆ linesIn content) :
    lines.countP peekLineIsNonempty = lines.countP (fun line => decide (line ≠ ['\n'])) := by
  refine List.countP_congr fun line hmem => ?_
  rw [peekLineIsNonempty_iff (h hmem)]

/-- The text of a listing with numbers: the number goes before the line. -/
theorem text_listing_numbered (content : Str) (no : ℕ) (hn : ops.numbered = true) :
    (listing ops no (linesIn content)).map Printed.text =
      (linesIn content).mapIdx fun i line =>
        (if line ≠ ['\n'] then
          Nat.toDigits 10
            (no + ((linesIn content).take (i + 1)).countP (fun l => decide (l ≠ ['\n']))) ++ [' ']
          else []) ++ line := by
  apply List.ext_getElem?
  intro i
  simp only [listing, List.getElem?_map, List.getElem?_mapIdx, Option.map_map]
  cases hi : (linesIn content)[i]? with
  | none => rfl
  | some line =>
    have hmem : line ∈ linesIn content := List.mem_of_getElem? hi
    rw [← countP_nonempty_eq (List.take_subset (i + 1) _)]
    simp only [Option.map_some, Function.comp_apply, Printed.text, hn, Bool.true_and,
      peekLineIsNonempty_iff hmem, decide_eq_true_eq]
    by_cases hline : line = ['\n']
    · simp [hline]
    · -- the line itself is counted, so its number is not 0
      have hcount : 0 < ((linesIn content).take (i + 1)).countP peekLineIsNonempty := by
        rw [List.countP_pos_iff]
        refine ⟨line, ?_, by simpa [peekLineIsNonempty_iff hmem] using hline⟩
        apply List.mem_of_getElem? (i := i)
        rw [List.getElem?_take_of_lt (Nat.lt_succ_self i), hi]
      have hpos : 0 < no + ((linesIn content).take (i + 1)).countP peekLineIsNonempty := by omega
      simp only [ne_eq, hline, not_false_eq_true, if_true, hpos]

/-- The text of a listing without numbers is the file. -/
theorem text_listing_plain (content : Str) (no : ℕ) (hn : ops.numbered = false) :
    (listing ops no (linesIn content)).flatMap Printed.text = content := by
  rw [listing_of_not_numbered hn, List.flatMap_map]
  have htext : (fun line => Printed.text ⟨0, line⟩) = id := rfl
  rw [htext, List.flatMap_id, flatten_linesOf]

/-- **When forward streaming prints the file, numbered if asked to**: exactly if the length
of every line is an `int`.  A piece of `k + 1` bytes is the mood `upTo k`, so the moods are
every way to cut the file into pieces of 1 to 4096 bytes with interruptions in between. -/
theorem peek_forward_prints (content : Str) (moods : List Mood) (ops : PeekOptions) (no : ℕ)
    (hcalm : Mood.fail ∉ moods) :
    ((peekForwardFd ⟨content, 0, moods⟩ ops no).ending = .ok ∧
      (peekForwardFd ⟨content, 0, moods⟩ ops no).printed.flatMap Printed.text =
        (if ops.numbered then
          ((linesIn content).mapIdx fun i line =>
            (if line ≠ ['\n'] then
              Nat.toDigits 10
                (no + ((linesIn content).take (i + 1)).countP (fun l => decide (l ≠ ['\n']))) ++
                [' ']
              else []) ++ line).flatten
        else content) ∧
      (peekForwardFd ⟨content, 0, moods⟩ ops no).runningNo =
        if ops.numbered then no + (linesIn content).countP (fun l => decide (l ≠ ['\n']))
        else no) ↔
      ∀ line ∈ linesIn content, line.length ≤ intMax := by
  constructor
  · rintro ⟨hok, -⟩
    by_contra hlong
    push Not at hlong
    have hexit := (peekForwardFd_exits ops ⟨content, 0, moods⟩ no hcalm hlong).1
    rw [hok] at hexit
    cases hexit
  · intro hlen
    obtain ⟨fd', hrun, -⟩ := peekForwardFd_spec ops ⟨content, 0, moods⟩ no hcalm hlen
    rw [hrun]
    refine ⟨rfl, ?_, ?_⟩
    · show (listing ops no (linesIn content)).flatMap Printed.text = _
      split
      · rename_i hn
        rw [← text_listing_numbered content no hn, List.flatMap_def]
      · rename_i hn
        exact text_listing_plain content no (by simpa using hn)
    · show no + advance ops (linesIn content) = _
      rw [advance, countP_nonempty_eq (List.Subset.refl _)]
      split <;> rfl

/-- A text of four lines, of which one is empty and one not ended, read in pieces
of one, two and three bytes. -/
theorem peek_forward_prints_pieces :
    (peekForwardFd ⟨"ab\n\nc\nd".toList, 0, [.upTo 0, .eintr, .upTo 1, .upTo 2]⟩
      ⟨true, false⟩ 6).printed.flatMap Printed.text = "7 ab\n\n8 c\n9 d".toList := by
  have h := ((peek_forward_prints "ab\n\nc\nd".toList [.upTo 0, .eintr, .upTo 1, .upTo 2]
    ⟨true, false⟩ 6 (by decide)).mpr (by decide +kernel)).2.1
  exact h.trans (by decide +kernel)

/-! ### A line whose length is not an `int` -/

/-- A file that is one line, too long for an `int`. -/
theorem peekForwardFd_line (ops : PeekOptions) (no : ℕ) {content : Str} (hmem : '\n' ∉ content)
    (hlong : intMax < content.length) :
    (peekForwardFd ⟨content, 0, []⟩ ops no).printed = [] ∧
    (peekForwardFd ⟨content, 0, []⟩ ops no).ending = .exited := by
  have hlines : linesIn content = [content] :=
    linesOf_of_not_mem hmem (List.ne_nil_of_length_pos (by omega))
  obtain ⟨hexit, lines, ⟨line, others, -, hall⟩, hprinted⟩ :=
    peekForwardFd_exits ops ⟨content, 0, []⟩ no List.not_mem_nil
      ⟨content, hlines ▸ List.mem_singleton_self _, hlong⟩
  refine ⟨?_, hexit⟩
  -- it is the only line, so none is printed before it
  have hcount := congrArg List.length (hlines.symm.trans hall)
  rw [List.length_singleton, List.length_append, List.length_cons] at hcount
  rw [hprinted, List.length_eq_zero_iff.mp (by omega : lines.length = 0)]
  rfl

/-- **A line of `2 ^ 31` bytes is lost**: its length does not fit `pending_len`,
and the shell exits with nothing printed. -/
theorem long_line_lost :
    (peekForwardFd ⟨List.replicate (2 ^ 31) 'a', 0, []⟩ ⟨false, false⟩ 0).printed = [] ∧
    (peekForwardFd ⟨List.replicate (2 ^ 31) 'a', 0, []⟩ ⟨false, false⟩ 0).ending = .exited := by
  apply peekForwardFd_line
  · intro h
    exact absurd (List.eq_of_mem_replicate h) (by decide)
  · rw [List.length_replicate]
    decide

end Peek
end RuShell
